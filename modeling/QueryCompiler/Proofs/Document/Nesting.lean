import QueryCompiler.Proofs.Document.Grammar

/-!
# How deep a source nests

List types, list values, object values and selection sets are what stands in brackets and braces, so
how deep a source nests can be read off its tokens (`nesting`). The parser counts levels down along
its productions; here they are counted up along the tokens. The two agree part by part: what fits some
levels nests no deeper, and fits just as many levels as it nests (`HasDepth`). It follows that the
limit is exact (`parse_limit_exact`).
-/

namespace QueryCompiler

/-- The level after the token. Parentheses nest nothing. -/
def Token.levelAfter (level : Nat) : Token → Nat
  | .punctuator .openBracket | .punctuator .openBrace => level + 1
  | .punctuator .closeBracket | .punctuator .closeBrace => level - 1
  | _ => level

/-- The deepest level that is reached along the tokens, from a level on. -/
def deepest (level : Nat) : List Token → Nat
  | [] => level
  | t :: rest => max level (deepest (t.levelAfter level) rest)

theorem le_deepest (level : Nat) (tokens : List Token) : level ≤ deepest level tokens := by
  cases tokens with
  | nil => exact Nat.le_refl level
  | cons t rest => exact Nat.le_max_left _ _

/-- The tokens nest so many levels, and end on the level where they start. -/
def Nested (n : Nat) (tokens : List Token) : Prop :=
  ∀ level rest, deepest level (tokens ++ rest) = max (level + n) (deepest level rest)

namespace Nested

variable {n m : Nat} {s t tokens : List Token}

theorem deepest_eq (h : Nested n tokens) : deepest 0 tokens = n := by
  have hend := h 0 []
  simpa [deepest] using hend

theorem nil : Nested 0 [] := by
  intro level rest
  have := le_deepest level rest
  simp only [List.nil_append]
  omega

theorem single {a : Token} (h : ∀ level, a.levelAfter level = level) : Nested 0 [a] := by
  intro level rest
  simp [deepest, h level]

theorem append (hs : Nested n s) (ht : Nested m t) : Nested (max n m) (s ++ t) := by
  intro level rest
  rw [List.append_assoc, hs, ht]
  omega

/-- What stands between brackets or braces is one level deeper. -/
theorem between {a b : Token} (ha : ∀ level, a.levelAfter level = level + 1)
    (hb : ∀ level, b.levelAfter level = level - 1) (h : Nested n tokens) :
    Nested (n + 1) (a :: (tokens ++ [b])) := by
  intro level rest
  have hinner := h (level + 1) (b :: rest)
  have hclose : deepest (level + 1) (b :: rest) = max (level + 1) (deepest level rest) := by
    simp [deepest, hb]
  simp only [List.cons_append, List.append_assoc, List.nil_append, deepest, ha]
  rw [hinner, hclose]
  have := le_deepest level rest
  omega

end Nested

/-- The tokens nest no deeper than the levels, and what they spell fits wherever there are as many
levels as they nest. -/
def HasDepth (levels : Nat) (fits : Nat → Prop) (tokens : List Token) : Prop :=
  ∃ n ≤ levels, Nested n tokens ∧ ∀ l, n ≤ l → fits l

namespace HasDepth

variable {levels : Nat} {fits fits' : Nat → Prop} {s t tokens : List Token}

theorem imp (h : HasDepth levels fits tokens) (hi : ∀ l, fits l → fits' l) :
    HasDepth levels fits' tokens := by
  obtain ⟨n, hn, hnested, hfits⟩ := h
  exact ⟨n, hn, hnested, fun l hl => hi l (hfits l hl)⟩

/-- What nests nothing and fits always. -/
theorem flat (h : ∀ l, fits l) (hnested : Nested 0 tokens) : HasDepth levels fits tokens :=
  ⟨0, Nat.zero_le levels, hnested, fun l _ => h l⟩

theorem append (hs : HasDepth levels fits s) (ht : HasDepth levels fits' t) :
    HasDepth levels (fun l => fits l ∧ fits' l) (s ++ t) := by
  obtain ⟨n, hn, hnested, hfits⟩ := hs
  obtain ⟨m, hm, hnested', hfits'⟩ := ht
  refine ⟨max n m, by omega, hnested.append hnested', fun l hl => ⟨hfits l ?_, hfits' l ?_⟩⟩
  · omega
  · omega

/-- Tokens before that nest nothing. -/
theorem after (ht : HasDepth levels fits t) (hs : Nested 0 s) : HasDepth levels fits (s ++ t) :=
  ((flat (fun _ => trivial) hs).append ht).imp fun _ h => h.2

/-- Tokens behind that nest nothing. -/
theorem before (hs : HasDepth levels fits s) (ht : Nested 0 t) : HasDepth levels fits (s ++ t) :=
  (hs.append (flat (fun _ => trivial) ht)).imp fun _ h => h.1

theorem cons (ht : HasDepth levels fits t) (a : Token) (ha : ∀ level, a.levelAfter level = level) :
    HasDepth levels fits (a :: t) :=
  ht.after (Nested.single ha)

theorem between {a b : Token} (ha : ∀ level, a.levelAfter level = level + 1)
    (hb : ∀ level, b.levelAfter level = level - 1) (h : HasDepth levels fits tokens)
    (hi : ∀ l, fits l → fits' (l + 1)) : HasDepth (levels + 1) fits' (a :: (tokens ++ [b])) := by
  obtain ⟨n, hn, hnested, hfits⟩ := h
  refine ⟨n + 1, by omega, hnested.between ha hb, fun l hl => ?_⟩
  cases l with
  | zero => omega
  | succ l => exact hi l (hfits l (by omega))

/-- Parts in a row, each of which has a depth. -/
theorem flatten {α : Type} {related : Nat → α → List Token → Prop} {as : List α}
    {parts : List (List Token)}
    (h : List.Forall₂ (fun a part => HasDepth levels (fun l => related l a part) part) as parts) :
    HasDepth levels (fun l => List.Forall₂ (related l) as parts) parts.flatten := by
  induction h with
  | nil => exact flat (fun _ => .nil) .nil
  | cons ha _ ih =>
    rw [List.flatten_cons]
    exact (ha.append ih).imp fun l h => .cons h.1 h.2

theorem flattenMap {α : Type} {fits : Nat → α → Prop} {spell : α → List Token} {as : List α}
    (h : ∀ a ∈ as, HasDepth levels (fun l => fits l a) (spell a)) :
    HasDepth levels (fun l => ∀ a ∈ as, fits l a) (as.map spell).flatten := by
  have hparts : List.Forall₂
      (fun a part => HasDepth levels (fun l => fits l a ∧ part = spell a) part) as
      (as.map spell) := by
    rw [List.forall₂_map_right_iff, List.forall₂_same]
    exact fun a ha => (h a ha).imp fun l hl => ⟨hl, rfl⟩
  exact (flatten hparts).imp fun l hl => (Reader.forall₂_spelled.mp hl).1

end HasDepth

/-! ### Types and values -/

theorem TypeRef.hasDepth {t : TypeRef} {levels : Nat} (h : t.Fits levels) :
    HasDepth levels (fun l => t.Fits l) t.tokens := by
  induction t generalizing levels with
  | named name =>
    refine .flat (fun l => ?_) (.single fun _ => rfl)
    cases l <;> trivial
  | list inner ih =>
    cases levels with
    | zero => exact absurd h id
    | succ levels => exact (ih h).between (fun _ => rfl) (fun _ => rfl) fun _ hl => hl
  | nonNull inner ih =>
    have hinner : inner.isNonNull = false ∧ inner.Fits levels := by
      cases levels <;> exact h
    refine ((ih hinner.2).before (.single fun _ => rfl)).imp fun l hl => ?_
    cases l <;> exact ⟨hinner.1, hl⟩

namespace Document

variable (string : Text → Text) {constant : Bool} {levels : Nat}

/-- A value that is written with tokens that nest nothing fits all levels if it fits any. -/
theorem Value.hasDepth_leaf {v : Value} (h : v.Fits constant levels)
    (hlist : ∀ values, v ≠ .list values) (hobject : ∀ fields, v ≠ .object fields) :
    HasDepth levels (fun l => v.Fits constant l) (v.tokens string) := by
  have hfits : ∀ l, v.Fits constant l := by
    intro l
    cases v <;> cases l <;> cases levels <;> first | exact h | exact absurd rfl (hlist _) |
      exact absurd rfl (hobject _)
  refine .flat hfits ?_
  cases v with
  | list values => exact absurd rfl (hlist values)
  | object fields => exact absurd rfl (hobject fields)
  | «variable» name => exact (Nested.single fun _ => rfl).append (.single fun _ => rfl)
  | _ => exact .single fun _ => rfl

theorem Value.hasDepth {v : Value} (h : v.Fits constant levels) :
    HasDepth levels (fun l => v.Fits constant l) (v.tokens string) := by
  -- On the levels, of which there is one less for the parts of a value.
  induction levels generalizing v with
  | zero =>
    refine hasDepth_leaf string h ?_ ?_
    · rintro values rfl
      exact h
    · rintro fields rfl
      exact h
  | succ levels ih =>
    cases v with
    | list values =>
      have hvalues : ∀ value ∈ values, value.Fits constant levels := h
      rw [Value.tokens, Value.tokensOfAll_eq]
      exact (HasDepth.flattenMap fun value hv => ih (hvalues value hv)).between (fun _ => rfl)
        (fun _ => rfl) fun _ hl => hl
    | object fields =>
      have hfields : ∀ field ∈ fields, field.2.Fits constant levels := h
      rw [Value.tokens, Value.tokensOfFields_eq]
      exact (HasDepth.flattenMap fun field hf =>
        ((ih (hfields field hf)).cons _ fun _ => rfl).cons _ fun _ => rfl).between (fun _ => rfl)
        (fun _ => rfl) fun _ hl => hl
    | _ => exact hasDepth_leaf string h nofun nofun

/-! ### Arguments and directives -/

/-- Parentheses nest nothing. -/
theorem hasDepth_parenthesised {fits : Nat → Prop} {tokens : List Token}
    (h : HasDepth levels fits tokens) : HasDepth levels fits (parenthesised tokens) := by
  cases tokens with
  | nil => exact h
  | cons t rest => exact (h.before (.single fun _ => rfl)).cons _ fun _ => rfl

theorem hasDepth_arguments {arguments : List Argument}
    (h : ArgumentsFit constant levels arguments) :
    HasDepth levels (fun l => ArgumentsFit constant l arguments)
      (argumentsTokens string arguments) :=
  hasDepth_parenthesised <| .flattenMap fun a ha =>
    ((Value.hasDepth string (h a ha)).cons _ fun _ => rfl).cons _ fun _ => rfl

theorem hasDepth_directives {directives : List Directive}
    (h : DirectivesFit constant levels directives) :
    HasDepth levels (fun l => DirectivesFit constant l directives)
      (directivesTokens string directives) :=
  .flattenMap fun d hd =>
    ((hasDepth_arguments string (h d hd)).cons _ fun _ => rfl).cons _ fun _ => rfl

/-! ### Selections -/

theorem Selection.hasDepth {sel : Selection} {nested : Nat → List Selection → Prop}
    (h : sel.FitsWith levels (nested levels))
    (hnested : ∀ selections, nested levels selections →
      HasDepth levels (fun l => nested l selections) (Selection.setTokens string selections)) :
    HasDepth levels (fun l => sel.FitsWith l (nested l)) (sel.tokens string) := by
  cases sel with
  | field head selections =>
    obtain ⟨harguments, hdirectives, hset⟩ := h
    have hselections : HasDepth levels (fun l => selections ≠ [] → nested l selections)
        (Selection.setTokens string selections) := by
      by_cases hne : selections = []
      · rw [hne, Selection.setTokens]
        exact .flat (fun _ h => absurd rfl h) .nil
      · exact (hnested selections (hset hne)).imp fun _ hl _ => hl
    have halias : Nested 0 (head.aliasName.elim [] fun name =>
        [.name name, .punctuator .colon]) := by
      cases head.aliasName with
      | none => exact .nil
      | some name => exact (Nested.single fun _ => rfl).append (.single fun _ => rfl)
    have hhead := (((hasDepth_arguments string harguments).append
      (hasDepth_directives string hdirectives)).cons (.name head.name) fun _ => rfl).after halias
    exact (hhead.append hselections).imp fun _ hl => ⟨hl.1.1, hl.1.2, hl.2⟩
  | spread head =>
    obtain ⟨hname, hdirectives⟩ := h
    exact (((hasDepth_directives string hdirectives).cons _ fun _ => rfl).cons _ fun _ => rfl).imp
      fun _ hl => ⟨hname, hl⟩
  | inline head selections =>
    obtain ⟨hdirectives, hset⟩ := h
    have hcondition : Nested 0 (head.typeCondition.elim [] fun type =>
        [.name "on", .name type]) := by
      cases head.typeCondition with
      | none => exact .nil
      | some type => exact (Nested.single fun _ => rfl).append (.single fun _ => rfl)
    have hhead := ((hasDepth_directives string hdirectives).after hcondition).cons
      .spread fun _ => rfl
    exact hhead.append (hnested selections hset)

theorem hasDepth_set {selections : List Selection} (h : SetFits levels selections) :
    HasDepth levels (fun l => SetFits l selections) (Selection.setTokens string selections) := by
  induction levels generalizing selections with
  | zero => exact absurd h id
  | succ levels ih =>
    obtain ⟨hne, hall⟩ := h
    rw [Selection.setTokens_eq string hne]
    exact (HasDepth.flattenMap fun s hs =>
      Selection.hasDepth string (hall s hs) fun _ => ih).between
      (fun _ => rfl) (fun _ => rfl) fun _ hl => ⟨hne, hl⟩

/-! ### Definitions -/

theorem Variable.hasDepth {v : Variable} {tokens : List Token}
    (h : v.SpelledBy string levels tokens) :
    HasDepth levels (fun l => v.SpelledBy string l tokens) tokens := by
  obtain ⟨⟨htype, hdefault⟩, directives, hdirectives, rfl⟩ := h
  have hvalue : HasDepth levels (fun l => ∀ value, v.defaultValue = some value →
      value.Fits true l) (v.defaultValue.elim [] fun value =>
        .punctuator .equals :: value.tokens string) := by
    cases hv : v.defaultValue with
    | none => exact .flat (fun _ => nofun) .nil
    | some value =>
      have hdepth := Value.hasDepth string (hdefault value hv)
      refine (hdepth.cons _ fun _ => rfl).imp fun l hl _ he => ?_
      exact Option.some.inj he ▸ hl
  have hbare := ((((TypeRef.hasDepth htype).append hvalue).cons (.punctuator .colon)
    fun _ => rfl).cons (.name v.name) fun _ => rfl).cons (.punctuator .dollar)
    fun _ => rfl
  exact (hbare.append (hasDepth_directives string hdirectives)).imp
    fun l hl => ⟨⟨hl.1.1, hl.1.2⟩, directives, hl.2, rfl⟩

theorem Operation.hasDepth {o : Operation} {tokens : List Token}
    (h : o.SpelledBy string levels tokens) :
    HasDepth levels (fun l => o.SpelledBy string l tokens) tokens := by
  obtain ⟨⟨hvariables, hdirectives, hselections⟩, ⟨hshort, rfl⟩ | ⟨vars, hvars, rfl⟩⟩ := h
  · refine (hasDepth_set string hselections).imp fun l hl => ⟨⟨?_, ?_, hl⟩, .inl ⟨hshort, rfl⟩⟩
    · rw [hshort.2.2.1]
      exact List.forall_mem_nil _
    · rw [hshort.2.2.2]
      exact List.forall_mem_nil _
  · have hname : Nested 0 (.name o.operation.text :: o.name.elim [] fun name =>
        [.name name]) := by
      cases o.name with
      | none => exact .single fun _ => rfl
      | some name => exact (Nested.single fun _ => rfl).append (.single fun _ => rfl)
    have hparts := hasDepth_parenthesised
      (HasDepth.flatten (hvars.imp fun _ _ hv => Variable.hasDepth string hv))
    have hall := (hparts.append ((hasDepth_directives string hdirectives).append
      (hasDepth_set string hselections))).after hname
    refine hall.imp fun l hl => ⟨⟨?_, hl.2.1, hl.2.2⟩, .inr ⟨vars, hl.1, rfl⟩⟩
    exact Reader.forall_of_forall₂ hl.1 fun _ _ hv => hv.1

theorem Fragment.hasDepth {f : Fragment} (h : f.Fits levels) :
    HasDepth levels (fun l => f.Fits l) (f.tokens string) := by
  obtain ⟨hname, hdirectives, hselections⟩ := h
  have hset := (hasDepth_directives string hdirectives).append
    (hasDepth_set string hselections)
  have hcondition := (hset.cons (.name f.typeCondition) fun _ => rfl).cons (.name "on") fun _ => rfl
  have hall := (hcondition.cons (.name f.name) fun _ => rfl).cons (.name "fragment") fun _ => rfl
  exact hall.imp fun l hl => ⟨hname, hl.1, hl.2⟩

theorem Definition.hasDepth {d : Definition} {tokens : List Token}
    (h : d.SpelledBy string levels tokens) :
    HasDepth levels (fun l => d.SpelledBy string l tokens) tokens := by
  cases d with
  | operation o => exact Operation.hasDepth string h
  | fragment f =>
    obtain ⟨hfits, rfl⟩ := h
    exact (Fragment.hasDepth string hfits).imp fun l hl => ⟨hl, rfl⟩

/-- **What is spelled nests no deeper than the levels that it fits**, and is spelled wherever there
are as many levels as it nests. -/
theorem SpelledBy.hasDepth {d : Document} {tokens : List Token}
    (h : d.SpelledBy string levels tokens) :
    HasDepth levels (fun l => d.SpelledBy string l tokens) tokens := by
  obtain ⟨definitions, parts, rfl, hne, hparts, rfl⟩ := h
  exact (HasDepth.flatten (hparts.imp fun _ _ hd => Definition.hasDepth string hd)).imp
    fun l hl => ⟨definitions, parts, rfl, hne, hl, rfl⟩

/-! ### Sources -/

/-- How many selection sets, list values, object values and list types of the source are open at
once, at most. -/
def nesting (source : Text) : Nat := deepest 0 (Scan.scan source).tokens

variable {source : Text} {filePath : Option Text} {limit limit' : Nat} {d : Document}

/-- A source is parsed only if it nests no deeper than the limit, and then is spelled wherever it
nests no deeper. -/
theorem spelledBy_of_nesting_le (h : parse source filePath limit = .ok d) :
    nesting source ≤ limit ∧
      ∀ l, nesting source ≤ l → d.SpelledBy id l (Scan.scan source).tokens := by
  obtain ⟨n, hn, hnested, hspelled⟩ := SpelledBy.hasDepth id (spelledBy_of_parse h).2
  have hdeepest : nesting source = n := hnested.deepest_eq
  rw [hdeepest]
  exact ⟨hn, hspelled⟩

/-- **A larger limit never changes what is parsed.** -/
theorem parse_of_le (h : limit ≤ limit') (hd : parse source filePath limit = .ok d) :
    parse source filePath limit' = .ok d := by
  have hreach : ¬ ReachesLimit source filePath limit := by
    unfold ReachesLimit
    rw [hd]
    exact not_exceeds_ok d
  rw [parse_raise h hreach, hd]

/-- **The limit is exact.** What is parsed with a limit is parsed alike with every larger limit. With a
smaller one it is parsed alike if the source nests no deeper than that, and fails otherwise with the
error that names the smaller limit. -/
theorem parse_limit_exact (h : limit ≤ limit') :
    (parse source filePath limit = .ok d → parse source filePath limit' = .ok d) ∧
      (parse source filePath limit' = .ok d →
        (nesting source ≤ limit → parse source filePath limit = .ok d) ∧
        (limit < nesting source → ∃ e, parse source filePath limit = .error e ∧
          e.fault = .nestingExceeded limit ∧ e.message = "Syntax Error: " ++
            ("Nesting exceeds " ++ Text.ofNat limit ++ " levels") ++ e.location.text)) := by
  refine ⟨parse_of_le h, fun hd => ⟨fun hle => ?_, fun hlt => ?_⟩⟩
  · -- The source is spelled within the smaller limit, so it is parsed, and as the same document.
    have hspelled := (spelledBy_of_nesting_le hd).2 limit hle
    have hholds := (Scan.splits_of_isComplete (spelledBy_of_parse hd).1).holds
    obtain ⟨d', hd', -⟩ := parse_of_spelledBy hspelled hholds filePath
    have hsame : parse source filePath limit' = .ok d' := parse_of_le h hd'
    rw [hd', ← hsame, hd]
  · have hreach : ReachesLimit source filePath limit := by
      by_contra hreach
      rw [parse_raise h hreach] at hd
      have hle := (spelledBy_of_nesting_le hd).1
      omega
    obtain ⟨place, hplace⟩ := parse_eq_of_reachesLimit hreach
    exact ⟨_, hplace, rfl, rfl⟩

theorem nesting_nestedSource : nesting nestedSource = 3 := by decide +kernel

theorem parse_limit_exact_nestedSource : ∃ d, parse nestedSource none 3 = .ok d ∧
    parse nestedSource none 4 = .ok d ∧ ∃ e, parse nestedSource none 2 = .error e ∧
      e.fault = .nestingExceeded 2 := by
  have hok : (parse nestedSource none 4).isOk = true := by decide +kernel
  cases hd : parse nestedSource none 4 with
  | error e => rw [hd] at hok; cases hok
  | ok d =>
    obtain ⟨hsame, -⟩ := (parse_limit_exact (d := d) (Nat.le_succ 3)).2 hd
    have hthree := hsame (Nat.le_of_eq nesting_nestedSource)
    obtain ⟨-, hless⟩ := (parse_limit_exact (d := d) (Nat.le_succ 2)).2 hthree
    obtain ⟨e, he, hfault, -⟩ := hless (by rw [nesting_nestedSource]; exact Nat.lt_succ_self 2)
    exact ⟨d, hthree, rfl, e, he, hfault⟩

end Document

end QueryCompiler
