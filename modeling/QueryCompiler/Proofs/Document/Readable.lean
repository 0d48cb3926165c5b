import QueryCompiler.Proofs.Document.Accepted

/-!
# Tokens that spell a document are read as the document

For each production: from a scan whose tokens spell something that fits the levels left, the parser
reads it, up to places (`reads_value`, `reads_selectionSet`, `reads_document`). What may follow
matters where the parser looks ahead, and is said by the punctuators that may come next (`Starts`).
Where nesting recurs, the lemma of a production is about any reader of what is nested, and the
induction on the levels puts the production itself in its place.
-/

namespace QueryCompiler

/-! ### What comes next -/

/-- A punctuator that comes first is one of these. -/
def Starts (ps : List Punctuator) (tokens : List Token) : Prop :=
  ∀ p, tokens.head? = some (.punctuator p) → p ∈ ps

theorem Starts.append {ps : List Punctuator} {tokens rest : List Token} (h : Starts ps tokens)
    (hr : Starts ps rest) : Starts ps (tokens ++ rest) := by
  intro p hp
  cases tokens with
  | nil => exact hr p hp
  | cons t more => exact h p hp

theorem Starts.mono {ps qs : List Punctuator} {tokens : List Token} (h : Starts ps tokens)
    (hs : ps ⊆ qs) : Starts qs tokens := fun p hp => hs (h p hp)

theorem Starts.head?_ne {ps : List Punctuator} {tokens : List Token} (h : Starts ps tokens)
    {p : Punctuator} (hp : p ∉ ps) : tokens.head? ≠ some (.punctuator p) := fun he => hp (h p he)

theorem starts_nil {ps : List Punctuator} : Starts ps [] := fun p hp => by cases hp

theorem starts_punctuator {ps : List Punctuator} {p : Punctuator} {rest : List Token} (h : p ∈ ps) :
    Starts ps (.punctuator p :: rest) := by
  intro q hq
  obtain rfl : p = q := by simpa using hq
  exact h

theorem starts_name {ps : List Punctuator} {n : Text} {rest : List Token} :
    Starts ps (.name n :: rest) := fun p hp => by cases hp

namespace Document

section
variable (string : Text → Text)

theorem starts_parenthesised (tokens : List Token) :
    Starts [.openParen] (parenthesised tokens) := by
  cases tokens with
  | nil => exact starts_nil
  | cons t rest => exact starts_punctuator List.mem_cons_self

theorem starts_directives (ds : List Directive) :
    Starts [.at] (directivesTokens string ds) := by
  cases ds with
  | nil => exact starts_nil
  | cons d ds => exact starts_punctuator List.mem_cons_self

theorem starts_set (ss : List Selection) :
    Starts [.openBrace] (Selection.setTokens string ss) := by
  cases ss with
  | nil => exact starts_nil
  | cons s ss => exact starts_punctuator List.mem_cons_self

/-- A selection starts with a name or the mark of a spread. -/
theorem exists_head_selection (s : Selection) (rest : List Token) : ∃ t more,
    s.tokens string ++ rest = t :: more ∧ ∀ p, t ≠ .punctuator p := by
  cases s with
  | field head ss =>
    rw [Selection.tokens, Field.tokens]
    cases head.aliasName with
    | none => exact ⟨_, _, rfl, fun p hp => by cases hp⟩
    | some n => exact ⟨_, _, rfl, fun p hp => by cases hp⟩
  | spread head => exact ⟨_, _, rfl, fun p hp => by cases hp⟩
  | inline head ss => exact ⟨_, _, rfl, fun p hp => by cases hp⟩

/-- A value starts with a token that closes nothing. -/
theorem exists_head_value (v : Value) : ∃ t more, v.tokens string = t :: more ∧
    Starts [.dollar, .openBracket, .openBrace] [t] := by
  match v with
  | .variable _ => exact ⟨_, _, rfl, starts_punctuator (by decide)⟩
  | .int _ | .float _ | .string _ => exact ⟨_, _, rfl, fun p hp => by cases hp⟩
  | .boolean _ | .null | .enum _ => exact ⟨_, _, rfl, starts_name⟩
  | .list _ => exact ⟨_, _, rfl, starts_punctuator (by decide)⟩
  | .object _ => exact ⟨_, _, rfl, starts_punctuator (by decide)⟩

end

end Document

namespace Reader

open QueryCompiler.Parser QueryCompiler.Document

theorem map_eq_map_of_forall₂ {α β : Type} {f g : α → β} {bs as : List α}
    (h : List.Forall₂ (fun b a => f b = g a) bs as) : bs.map f = as.map g := by
  rw [← List.forall₂_eq_eq_eq, List.forall₂_map_left_iff, List.forall₂_map_right_iff]
  exact h

theorem reads_peek {b : Bool} {α : Type} {f : Option Token → Reader b α} {s : Scan}
    {tokens : List Token} {post : α → Scan → Prop} (hs : s.Holds tokens)
    (h : (f tokens.head?).Reads s post) : (peek f).Reads s post := by
  rw [← hs.next?] at h
  exact h

theorem reads_take {s : Scan} {t : Token} {rest : List Token} {post : Unit → Scan → Prop}
    (h : s.Holds (t :: rest)) (hp : ∀ r, r.Holds rest → post () r) : take.Reads s post :=
  reads_map (reads_token h rfl fun _ r hr => hp r hr)

theorem reads_inside {b : Bool} {α : Type} {close : Punctuator} {item : Reader b α} {s : Scan}
    {tokens : List Token} {post : α → Scan → Prop} (hs : s.Holds tokens) (hne : tokens ≠ [])
    (h : item.Reads s post) : (inside close item).Reads s post := by
  have he : s.atEnd = false := by
    rw [hs.atEnd, List.isEmpty_eq_false_iff]
    exact hne
  obtain ⟨a, r, hr, hp⟩ := h
  refine ⟨a, r, ?_, hp⟩
  rw [run_inside, he]
  exact hr

/-! ### Types and values -/

/-- A type without a mark, which the next token must not be. -/
theorem reads_unmarked {p : Reader true TypeRef} {t : TypeRef} {s : Scan} {rest : List Token}
    (hrest : rest.head? ≠ some (.punctuator .bang))
    (h : p.Reads s fun t' r => t' = t ∧ r.Holds rest) :
    (marked p).Reads s fun t' r => t' = t ∧ r.Holds rest :=
  reads_bind (h.imp fun _ _ ⟨ht, hm⟩ =>
    reads_map (reads_optional_missing hm hrest ⟨ht, hm⟩))

/-- A type with a mark. -/
theorem reads_marked {p : Reader true TypeRef} {t : TypeRef} {s : Scan} {rest : List Token}
    (h : p.Reads s fun t' r => t' = t ∧ r.Holds (.punctuator .bang :: rest)) :
    (marked p).Reads s fun t' r => t' = .nonNull t ∧ r.Holds rest :=
  reads_bind (h.imp fun _ _ ⟨ht, hm⟩ =>
    reads_map (reads_optional_found hm fun _ hr => ⟨congrArg TypeRef.nonNull ht, hr⟩))

/-- Every type that fits is read, if no mark follows it. -/
def ReadsTypes (levels : Nat) (type : Reader true TypeRef) : Prop :=
  ∀ {t : TypeRef} {s : Scan} {rest : List Token}, t.Fits levels →
    rest.head? ≠ some (.punctuator .bang) → s.Holds (t.tokens ++ rest) →
      type.Reads s fun t' r => t' = t ∧ r.Holds rest

theorem reads_typeWith {limit levels : Nat} {inner : Option (Reader true TypeRef)}
    (h : ∀ l, levels = l + 1 → ∃ p, inner = some p ∧ ReadsTypes l p)
    {t : TypeRef} {s : Scan} {rest : List Token} (hnot : t.isNonNull = false)
    (hfits : t.Fits levels) (hs : s.Holds (t.tokens ++ rest)) :
    (peek (typeWith limit inner)).Reads s fun t' r => t' = t ∧ r.Holds rest := by
  cases t with
  | named n => exact reads_peek hs (reads_map (reads_name hs fun r hr => ⟨rfl, hr⟩))
  | list type =>
    cases levels with
    | zero => exact absurd hfits id
    | succ l =>
      obtain ⟨p, rfl, hp⟩ := h l rfl
      rw [TypeRef.tokens, List.cons_append, List.append_assoc] at hs
      refine reads_peek hs (reads_bind (reads_punctuator hs fun _ m hm => ?_))
      refine reads_bind ((hp hfits (by simp) hm).imp fun type' m' ⟨ht, hm'⟩ => ?_)
      exact reads_map (reads_punctuator hm' fun _ r hr => ⟨congrArg TypeRef.list ht, hr⟩)
  | nonNull type => cases hnot

/-- With and without a mark, from what is read in front of the mark. -/
theorem reads_type {levels : Nat} {p : Reader true TypeRef}
    (h : ∀ {t : TypeRef} {s : Scan} {rest : List Token}, t.isNonNull = false → t.Fits levels →
      s.Holds (t.tokens ++ rest) → p.Reads s fun t' r => t' = t ∧ r.Holds rest) :
    ReadsTypes levels (marked p) := by
  intro t s rest hfits hrest hs
  cases t with
  | named n => exact reads_unmarked hrest (h rfl hfits hs)
  | list type => exact reads_unmarked hrest (h rfl hfits hs)
  | nonNull type =>
    rw [TypeRef.tokens, List.append_assoc] at hs
    have hfits' : type.isNonNull = false ∧ type.Fits levels := by
      cases levels <;> exact hfits
    exact reads_marked (h hfits'.1 hfits'.2 hs)

theorem reads_typeRef (limit levels : Nat) : ReadsTypes levels (typeRef limit levels) := by
  induction levels with
  | zero =>
    rw [typeRef_zero]
    exact reads_type (reads_typeWith fun l hl => by cases hl)
  | succ levels ih =>
    rw [typeRef_succ]
    refine reads_type (reads_typeWith fun l hl => ⟨_, rfl, ?_⟩)
    obtain rfl := Nat.succ.inj hl
    exact ih

/-- A value that is read from a single token. -/
theorem reads_take_value {v : Value} {s : Scan} {t : Token} {rest : List Token}
    (hs : s.Holds (t :: rest)) :
    (take.map fun _ => v).Reads s fun v' r => v' = v ∧ r.Holds rest :=
  reads_map (reads_take hs fun _ hr => ⟨rfl, hr⟩)

/-- A name, a colon and what is read by `item`. -/
theorem reads_colon {α β : Type} {item : Reader true α} {f : Text → α → β} {key : Text} {s : Scan}
    {tokens : List Token} {post : β → Scan → Prop}
    (hs : s.Holds (.name key :: .punctuator .colon :: tokens))
    (h : ∀ m : Scan, m.Holds tokens → item.Reads m fun v r => post (f key v) r) :
    (name.bind fun key => (punctuator .colon).bind fun _ => item.map fun v => f key v).Reads s
      post :=
  reads_bind (reads_name hs fun _ hm => reads_bind (reads_punctuator hm fun _ _ hm' =>
    reads_map (h _ hm')))

variable {string : Text → Text}

/-- Every value that fits is read, whatever follows it. -/
def ReadsValues (string : Text → Text) (constant : Bool) (levels : Nat)
    (value : Reader true Value) : Prop :=
  ∀ {v : Value} {s : Scan} {rest : List Token}, v.Fits constant levels →
    s.Holds (v.tokens string ++ rest) → value.Reads s fun v' r =>
      v' = v.mapStrings string ∧ r.Holds rest

section
variable {limit levels : Nat} {constant : Bool} {item : Reader true Value}

theorem reads_listItems (h : ReadsValues string constant levels item) {vs : List Value} {s : Scan}
    {rest : List Token} (hfits : ∀ v ∈ vs, v.Fits constant levels)
    (hs : s.Holds (Value.tokensOfAll string vs ++ .punctuator .closeBracket :: rest)) :
    (manyUntil .closeBracket (inside .closeBracket item)).Reads s fun vs' r =>
      vs' = Value.mapStringsOfAll string vs ∧ r.Holds rest := by
  rw [Value.tokensOfAll_eq] at hs
  rw [Value.mapStringsOfAll_eq]
  have hparts : List.Forall₂ (fun (v : Value) tokens =>
      v.Fits constant levels ∧ tokens = v.tokens string) vs _ := forall₂_spelled.mpr ⟨hfits, rfl⟩
  refine (reads_manyUntil ⟨fun v tokens rest s hv (_ : True) hs => ?_,
    fun v tokens rest hv => ?_, fun _ _ _ _ => trivial⟩ trivial hparts hs).imp
    fun vs' r ⟨hvs, hr⟩ => ⟨forall₂_eq_map.mp hvs, hr⟩
  · obtain ⟨hv, rfl⟩ := hv
    obtain ⟨t, more, ht, -⟩ := exists_head_value string v
    exact reads_inside hs (by rw [ht]; exact List.cons_ne_nil _ _) (h hv hs)
  · obtain ⟨t, more, ht, hstart⟩ := exists_head_value string v
    refine ⟨t, more ++ rest, by rw [hv.2, ht]; rfl, fun he => ?_⟩
    exact absurd (hstart _ (congrArg some he)) (by decide)

theorem reads_objectFields (h : ReadsValues string constant levels item)
    {fields : List (Text × Value)} {s : Scan} {rest : List Token}
    (hfits : ∀ field ∈ fields, field.2.Fits constant levels)
    (hs : s.Holds (Value.tokensOfFields string fields ++ .punctuator .closeBrace :: rest)) :
    (manyUntil .closeBrace (name.bind fun key => (punctuator .colon).bind fun _ =>
      item.map fun v => (key, v))).Reads s fun fields' r =>
        fields' = Value.mapStringsOfFields string fields ∧ r.Holds rest := by
  rw [Value.tokensOfFields_eq] at hs
  rw [Value.mapStringsOfFields_eq]
  have hparts : List.Forall₂ (fun (field : Text × Value) tokens =>
      field.2.Fits constant levels ∧ tokens =
        .name field.1 :: .punctuator .colon :: field.2.tokens string) fields _ :=
    forall₂_spelled.mpr ⟨hfits, rfl⟩
  refine (reads_manyUntil ⟨fun field tokens rest s hf (_ : True) hs => ?_,
    fun field tokens rest hf => ?_, fun _ _ _ _ => trivial⟩ trivial hparts hs).imp
    fun fields' r ⟨hfs, hr⟩ => ⟨forall₂_eq_map.mp hfs, hr⟩
  · obtain ⟨hv, rfl⟩ := hf
    exact reads_colon hs fun m hm => (h hv hm).imp fun v' r ⟨hv', hr⟩ => ⟨by rw [hv'], hr⟩
  · rw [hf.2]
    exact ⟨_, _, rfl, by simp⟩

end

theorem reads_valueWith {limit levels : Nat} {constant : Bool}
    {item : Option (Reader true Value)}
    (h : ∀ l, levels = l + 1 → ∃ p, item = some p ∧ ReadsValues string constant l p) :
    ReadsValues string constant levels (peek (valueWith limit constant item)) := by
  intro v s rest hfits hs
  cases v with
  | «variable» n =>
    have hc : constant = false := by cases levels <;> exact hfits
    subst hc
    refine reads_peek hs (reads_bind (reads_punctuator hs fun _ m hm => ?_))
    exact reads_map (reads_name hm fun r hr => ⟨rfl, hr⟩)
  | int l => exact reads_peek hs (reads_take_value hs)
  | float l => exact reads_peek hs (reads_take_value hs)
  | string t => exact reads_peek hs (reads_take_value hs)
  | boolean b =>
    cases b with
    | false => exact reads_peek hs (reads_take_value (v := valueOfName "false") hs)
    | true => exact reads_peek hs (reads_take_value (v := valueOfName "true") hs)
  | null => exact reads_peek hs (reads_take_value (v := valueOfName "null") hs)
  | enum n =>
    have hn : valueOfName n = .enum n := by cases levels <;> exact hfits
    refine reads_peek hs ((reads_take_value (v := valueOfName n) hs).imp ?_)
    rintro v' r ⟨hv, hr⟩
    exact ⟨hv.trans hn, hr⟩
  | list vs =>
    cases levels with
    | zero => exact absurd hfits id
    | succ l =>
      obtain ⟨p, rfl, hp⟩ := h l rfl
      rw [Value.tokens, List.cons_append, List.append_assoc] at hs
      refine reads_peek hs (reads_bind (reads_punctuator hs fun _ m hm => reads_map ?_))
      refine (reads_listItems hp hfits hm).imp ?_
      rintro vs' r ⟨hvs, hr⟩
      exact ⟨congrArg Value.list hvs, hr⟩
  | object fields =>
    cases levels with
    | zero => exact absurd hfits id
    | succ l =>
      obtain ⟨p, rfl, hp⟩ := h l rfl
      rw [Value.tokens, List.cons_append, List.append_assoc] at hs
      refine reads_peek hs (reads_bind (reads_punctuator hs fun _ m hm => reads_map ?_))
      refine (reads_objectFields hp hfits hm).imp ?_
      rintro fields' r ⟨hfs, hr⟩
      exact ⟨congrArg Value.object hfs, hr⟩

theorem reads_value (limit : Nat) (constant : Bool) (levels : Nat) :
    ReadsValues string constant levels (value limit constant levels) := by
  induction levels with
  | zero =>
    rw [value_zero]
    exact reads_valueWith fun l hl => by cases hl
  | succ levels ih =>
    rw [value_succ]
    refine reads_valueWith fun l hl => ⟨_, rfl, ?_⟩
    obtain rfl := Nat.succ.inj hl
    exact ih

/-! ### Arguments and directives -/

/-- Items in parentheses, or nothing if there are none. -/
theorem reads_parenthesised {α : Type} {item : Reader true α} {related : α → List Token → Prop}
    {same : α → α → Prop} {follows : List Token → Prop}
    (h : ReadsItems item .closeParen related same follows)
    (hclose : ∀ rest, follows (.punctuator .closeParen :: rest)) {as : List α}
    {parts : List (List Token)} (has : List.Forall₂ related as parts) {s : Scan}
    {rest : List Token} (hrest : rest.head? ≠ some (.punctuator .openParen))
    (hs : s.Holds (parenthesised parts.flatten ++ rest)) :
    ((optional .openParen).bind fun found =>
      if found then (someUntil .closeParen item).relax else Parser.pure []).Reads s fun as' r =>
        List.Forall₂ same as' as ∧ r.Holds rest := by
  cases has with
  | nil => exact reads_bind (reads_optional_missing hs hrest (reads_pure ⟨.nil, hs⟩))
  | @cons a tokens as parts ha hparts =>
    obtain ⟨t, more, ht, -⟩ := h.head a tokens parts.flatten ha
    have hp : parenthesised (tokens :: parts).flatten = .punctuator .openParen ::
        ((tokens :: parts).flatten ++ [.punctuator .closeParen]) := by
      rw [List.flatten_cons, ht]; rfl
    rw [hp, List.cons_append, List.append_assoc] at hs
    refine reads_bind (reads_optional_found hs fun m hm => ?_)
    exact reads_relax (reads_someUntil h (hclose rest) (.cons ha hparts) (List.cons_ne_nil _ _) hm)

theorem reads_arguments {limit levels : Nat} {constant : Bool} {as : List Argument} {s : Scan}
    {rest : List Token} (hfits : ArgumentsFit constant levels as)
    (hrest : rest.head? ≠ some (.punctuator .openParen))
    (hs : s.Holds (argumentsTokens string as ++ rest)) :
    (arguments limit constant levels).Reads s fun as' r =>
      as' = as.map (Argument.plain string) ∧ r.Holds rest := by
  have hparts : List.Forall₂ (fun (a : Argument) tokens =>
      a.value.Fits constant levels ∧ tokens = a.tokens string) as _ :=
    forall₂_spelled.mpr ⟨hfits, rfl⟩
  refine (reads_parenthesised ⟨fun a tokens rest s ha (_ : True) hs => ?_,
    fun a tokens rest ha => ?_, fun _ _ _ _ => trivial⟩ (fun _ => trivial) hparts hrest hs).imp
    fun as' r ⟨has, hr⟩ => ⟨forall₂_eq_map.mp has, hr⟩
  · obtain ⟨hv, rfl⟩ := ha
    refine reads_colon hs fun m hm => (reads_value limit constant levels hv hm).imp ?_
    exact fun v' r ⟨hv', hr⟩ => ⟨by rw [hv']; rfl, hr⟩
  · rw [ha.2]
    exact ⟨_, _, rfl, by simp⟩

/-- A directive, which no parenthesis must follow that is not its own. -/
theorem reads_directive {limit levels : Nat} {constant : Bool} {d : Directive} {s : Scan}
    {rest : List Token} (hfits : ArgumentsFit constant levels d.arguments)
    (hrest : rest.head? ≠ some (.punctuator .openParen)) (hs : s.Holds (d.tokens string ++ rest)) :
    (directive limit constant levels).Reads s fun d' r =>
      d'.plain id = d.plain string ∧ r.Holds rest := by
  refine reads_bind (reads_look (reads_bind (reads_punctuator hs fun _ m hm => ?_)))
  refine reads_bind (reads_name hm fun m' hm' => reads_map ?_)
  refine (reads_arguments hfits hrest hm').imp fun as r ⟨has, hr⟩ => ⟨?_, hr⟩
  rw [Directive.plain, Directive.plain, map_plain_id, has]

theorem reads_directives {limit levels : Nat} {constant : Bool} {ds : List Directive} {s : Scan}
    {rest : List Token} {ps : List Punctuator} (hfits : DirectivesFit constant levels ds)
    (hrest : Starts ps rest) (hps : .at ∉ ps ∧ .openParen ∉ ps)
    (hs : s.Holds (directivesTokens string ds ++ rest)) :
    (directives limit constant levels).Reads s fun ds' r =>
      ds'.map (Directive.plain id) = ds.map (Directive.plain string) ∧ r.Holds rest := by
  have hparts : List.Forall₂ (fun (d : Directive) tokens =>
      ArgumentsFit constant levels d.arguments ∧ tokens = d.tokens string) ds _ :=
    forall₂_spelled.mpr ⟨hfits, rfl⟩
  refine (reads_whileM (fun d tokens rest s hd
    (hf : rest.head? ≠ some (.punctuator .openParen)) hs => ?_) (fun d tokens rest hd => ?_)
    (hrest.head?_ne hps.2) (fun s hs => ?_) hparts hs).imp
    fun ds' r ⟨hds, hr⟩ => ⟨map_eq_map_of_forall₂ hds, hr⟩
  · obtain ⟨hd, rfl⟩ := hd
    refine ⟨?_, reads_directive hd hf hs⟩
    rw [hs.startsWith]
    exact beq_self_eq_true _
  · rw [hd.2]
    exact fun h => by cases h
  · rw [hs.startsWith]
    exact beq_false_of_ne (hrest.head?_ne hps.1)

/-! ### Selections -/

/-- Every selection set that fits is read, whatever follows it. -/
def ReadsSets (string : Text → Text) (fits : List Selection → Prop)
    (nested : Reader true (List Selection)) : Prop :=
  ∀ {ss : List Selection} {s : Scan} {rest : List Token}, fits ss →
    s.Holds (Selection.setTokens string ss ++ rest) → nested.Reads s fun ss' r =>
      ss'.map (Selection.plain id) = ss.map (Selection.plain string) ∧ r.Holds rest

section Selections
variable {limit levels : Nat} {nested : Reader true (List Selection)}
  {fits : List Selection → Prop}

/-- The selection set of a field, if it has one. -/
theorem reads_fieldSet (h : ReadsSets string fits nested) {head head' : Field}
    {ss : List Selection} {s : Scan} {rest : List Token}
    (hhead : head'.plain id = head.plain string) (hfits : ss ≠ [] → fits ss)
    (hrest : rest.head? ≠ some (.punctuator .openBrace))
    (hs : s.Holds (Selection.setTokens string ss ++ rest)) :
    (peek fun
      | some (.punctuator .openBrace) => (nested.map (Selection.field head')).relax
      | _ => Parser.pure (.field head' [])).Reads s fun sel r =>
        sel.plain id = (Selection.field head ss).plain string ∧ r.Holds rest := by
  refine reads_peek hs ?_
  cases ss with
  | nil =>
    rw [Selection.setTokens, List.nil_append] at hs ⊢
    split
    case h_1 he => exact absurd he hrest
    case h_2 =>
      refine reads_pure ⟨?_, hs⟩
      rw [Selection.plain, Selection.plain, hhead]
      rfl
  | cons sel ss =>
    have hread := h (hfits (List.cons_ne_nil _ _)) hs
    refine reads_relax (reads_map (hread.imp fun ss' r ⟨hss', hr⟩ => ⟨?_, hr⟩))
    rw [Selection.plain, Selection.plain, hhead, Selection.plainOfAll_eq,
      Selection.plainOfAll_eq, hss']

theorem reads_field (h : ReadsSets string fits nested)
    {head : Field} {ss : List Selection} {s : Scan} {rest : List Token}
    (hfits : (Selection.field head ss).FitsWith levels fits) (hrest : Starts [.closeBrace] rest)
    (hs : s.Holds ((Selection.field head ss).tokens string ++ rest)) :
    (field limit levels nested).Reads s fun sel r =>
      sel.plain id = (Selection.field head ss).plain string ∧ r.Holds rest := by
  obtain ⟨hargs, hds, hss⟩ := hfits
  have hset : Starts [.openBrace, .closeBrace] (Selection.setTokens string ss ++ rest) :=
    ((starts_set string ss).mono (by simp)).append (hrest.mono (by simp))
  have hdirectives : Starts [.at, .openBrace, .closeBrace]
      (directivesTokens string head.directives ++ (Selection.setTokens string ss ++ rest)) :=
    ((starts_directives string _).mono (by simp)).append (hset.mono (by simp))
  have harguments : Starts [.openParen, .at, .openBrace, .closeBrace]
      (argumentsTokens string head.arguments ++ (directivesTokens string head.directives ++
        (Selection.setTokens string ss ++ rest))) :=
    ((starts_parenthesised _).mono (by simp)).append (hdirectives.mono (by simp))
  -- What follows the name is read in the same way with and without an alias.
  have hafter : ∀ {location : Location} {m : Scan}, m.Holds (argumentsTokens string head.arguments ++
      (directivesTokens string head.directives ++ (Selection.setTokens string ss ++ rest))) →
      ((arguments limit false levels).bind fun args =>
        (directives limit false levels).bind fun ds =>
        peek fun
          | some (.punctuator .openBrace) =>
            (nested.map (Selection.field ⟨head.aliasName, head.name, args, ds, location⟩)).relax
          | _ => Parser.pure (.field ⟨head.aliasName, head.name, args, ds, location⟩ [])).Reads m
        fun sel r => sel.plain id = (Selection.field head ss).plain string ∧ r.Holds rest := by
    intro location m hm
    refine reads_bind ((reads_arguments hargs (hdirectives.head?_ne (by decide)) hm).imp ?_)
    rintro args m₁ ⟨rfl, hm₁⟩
    refine reads_bind ((reads_directives hds hset (by decide) hm₁).imp ?_)
    rintro ds m₂ ⟨hds', hm₂⟩
    refine reads_fieldSet h ?_ hss (hrest.head?_ne (by decide)) hm₂
    rw [Field.plain, Field.plain, map_plain_id, hds']
  rw [Selection.tokens, Field.tokens, List.append_assoc, List.append_assoc, List.cons_append,
    List.append_assoc] at hs
  refine reads_bind (reads_look ?_)
  cases halias : head.aliasName with
  | none =>
    rw [halias] at hs hafter
    refine reads_bind (reads_name hs fun m hm => ?_)
    refine reads_bind (reads_optional_missing hm (harguments.head?_ne (by decide)) ?_)
    exact reads_bind (reads_pure (hafter hm))
  | some n =>
    rw [halias] at hs hafter
    refine reads_bind (reads_name hs fun m hm => ?_)
    refine reads_bind (reads_optional_found hm fun m₁ hm₁ => ?_)
    refine reads_bind (reads_relax (reads_map (reads_name hm₁ fun m₂ hm₂ => ?_)))
    exact hafter hm₂

/-- The directives and the selection set of an inline fragment. -/
theorem reads_inlineBody (h : ReadsSets string fits nested) (hne : ∀ ss, fits ss → ss ≠ [])
    {head : InlineFragment} {ss : List Selection} {s : Scan} {rest : List Token}
    {location : Location} {type : Option Text} (htype : head.typeCondition = type)
    (hfits : (Selection.inline head ss).FitsWith levels fits)
    (hs : s.Holds (directivesTokens string head.directives ++
      (Selection.setTokens string ss ++ rest))) :
    (inlineBody limit levels nested location type).Reads s fun sel r =>
      sel.plain id = (Selection.inline head ss).plain string ∧ r.Holds rest := by
  subst htype
  obtain ⟨hds, hss⟩ := hfits
  have hset : Starts [.openBrace] (Selection.setTokens string ss ++ rest) := by
    rw [Selection.setTokens_eq string (hne ss hss)]
    exact starts_punctuator List.mem_cons_self
  refine reads_bind ((reads_directives hds hset (by decide) hs).imp ?_)
  rintro ds m ⟨hds', hm⟩
  refine reads_map ((h hss hm).imp fun ss' r ⟨hss', hr⟩ => ⟨?_, hr⟩)
  rw [Selection.plain, Selection.plain, InlineFragment.plain, InlineFragment.plain, hds',
    Selection.plainOfAll_eq, Selection.plainOfAll_eq, hss']

theorem reads_selection (h : ReadsSets string fits nested) (hne : ∀ ss, fits ss → ss ≠ [])
    {sel : Selection} {s : Scan} {rest : List Token} (hfits : sel.FitsWith levels fits)
    (hrest : Starts [.closeBrace] rest) (hs : s.Holds (sel.tokens string ++ rest)) :
    (selection limit levels nested).Reads s fun sel' r =>
      sel'.plain id = sel.plain string ∧ r.Holds rest := by
  refine reads_bind (reads_look (reads_peek hs ?_))
  cases sel with
  | field head ss =>
    have hfirst : ((Selection.field head ss).tokens string ++ rest).head? ≠ some .spread := by
      rw [Selection.tokens, Field.tokens]
      cases head.aliasName <;> exact fun he => by cases he
    split
    case h_1 he => exact absurd he hfirst
    case h_2 => exact reads_field h hfits hrest hs
  | spread head =>
    obtain ⟨hon, hds⟩ := hfits
    refine reads_bind (reads_take hs fun m hm => reads_peek hm ?_)
    show (if head.name = ("on" : Text) then _ else _ : Reader true Selection).Reads m _
    rw [if_neg hon]
    refine reads_bind (reads_take hm fun m' hm' => reads_map ?_)
    refine (reads_directives hds hrest (by decide) hm').imp fun ds r ⟨hds', hr⟩ => ⟨?_, hr⟩
    rw [Selection.plain, Selection.plain, Spread.plain, Spread.plain, hds']
  | inline head ss =>
    rw [Selection.tokens, InlineFragment.tokens, List.cons_append, List.cons_append,
      List.append_assoc, List.append_assoc] at hs
    refine reads_bind (reads_take hs fun m hm => reads_peek hm ?_)
    cases htype : head.typeCondition with
    | none =>
      rw [htype] at hm
      -- A directive or the selection set comes next, and no name.
      have hnext : ∀ text, (directivesTokens string head.directives ++
          (Selection.setTokens string ss ++ rest)).head? ≠ some (.name text) := by
        intro text
        rw [Selection.setTokens_eq string (hne ss hfits.2)]
        cases head.directives <;> exact fun he => by cases he
      split
      case h_1 he => exact absurd he (hnext _)
      case h_2 => exact reads_inlineBody h hne htype hfits hm
    | some type =>
      rw [htype] at hm
      show (if ("on" : Text) = ("on" : Text) then _ else _ : Reader true Selection).Reads m _
      rw [if_pos rfl]
      refine reads_bind (reads_take hm fun m₁ hm₁ => reads_bind (reads_name hm₁ fun m₂ hm₂ => ?_))
      exact reads_inlineBody h hne htype hfits hm₂

/-- **A selection set is read**, whatever follows it. -/
theorem reads_selectionSet (limit levels : Nat) :
    ReadsSets string (SetFits levels) (selectionSet limit levels) := by
  induction levels with
  | zero => intro ss s rest hfits _; exact absurd hfits id
  | succ levels ih =>
    intro ss s rest hfits hs
    obtain ⟨hss, hall⟩ := hfits
    rw [Selection.setTokens_eq string hss, List.cons_append, List.append_assoc] at hs
    rw [selectionSet]
    refine reads_bind (reads_punctuator hs fun _ m hm => ?_)
    have hparts : List.Forall₂ (fun (sel : Selection) tokens =>
        sel.FitsWith levels (SetFits levels) ∧ tokens = sel.tokens string) ss _ :=
      forall₂_spelled.mpr ⟨hall, rfl⟩
    have hsame : ∀ (ss' : List Selection) (r : Scan),
        List.Forall₂ (fun s' s : Selection => s'.plain id = s.plain string) ss' ss ∧ r.Holds rest →
          ss'.map (Selection.plain id) = ss.map (Selection.plain string) ∧ r.Holds rest := by
      rintro ss' r ⟨hss', hr⟩
      exact ⟨map_eq_map_of_forall₂ hss', hr⟩
    refine (reads_someUntil
      ⟨fun sel tokens rest s hsel (hf : Starts [.closeBrace] rest) hs => ?_,
        fun sel tokens rest hsel => ?_, fun sel tokens rest hsel => ?_⟩
      (starts_punctuator List.mem_cons_self) hparts hss hm).imp hsame
    · obtain ⟨hsel, rfl⟩ := hsel
      obtain ⟨t, more, ht, -⟩ := exists_head_selection string sel rest
      refine reads_inside hs (by rw [ht]; exact List.cons_ne_nil _ _) ?_
      exact reads_selection ih (fun _ hfits => hfits.ne_nil) hsel hf hs
    · obtain ⟨t, more, ht, hstart⟩ := exists_head_selection string sel rest
      exact ⟨t, more, by rw [hsel.2]; exact ht, hstart _⟩
    · obtain ⟨t, more, ht, hstart⟩ := exists_head_selection string sel rest
      rw [hsel.2, ht]
      intro p hp
      exact absurd (Option.some.inj hp) (hstart p)

end Selections

/-! ### Definitions -/

section Definitions
variable {limit : Nat}

theorem reads_variableDefinition {v : Variable} {tokens rest : List Token} {s : Scan}
    (h : v.SpelledBy string limit tokens) (hrest : Starts [.dollar, .closeParen] rest)
    (hs : s.Holds (tokens ++ rest)) :
    (variableDefinition limit).Reads s fun v' r => v' = v.plain string ∧ r.Holds rest := by
  obtain ⟨hfits, ds, hds, rfl⟩ := h
  have hdirectives : Starts [.at, .dollar, .closeParen] (directivesTokens string ds ++ rest) :=
    ((starts_directives string ds).mono (by simp)).append (hrest.mono (by simp))
  have hdefault : Starts [.equals, .at, .dollar, .closeParen]
      ((v.defaultValue.elim [] fun value => .punctuator .equals :: value.tokens string) ++
        (directivesTokens string ds ++ rest)) := by
    refine Starts.append ?_ (hdirectives.mono (by simp))
    cases v.defaultValue with
    | none => exact starts_nil
    | some value => exact starts_punctuator List.mem_cons_self
  rw [Variable.tokens, List.append_assoc, List.cons_append, List.cons_append, List.cons_append,
    List.append_assoc] at hs
  refine reads_bind (reads_punctuator hs fun _ m₁ h₁ => ?_)
  refine reads_bind (reads_name h₁ fun m₂ h₂ => ?_)
  refine reads_bind (reads_punctuator h₂ fun _ m₃ h₃ => ?_)
  refine reads_bind ((reads_typeRef limit limit hfits.type (hdefault.head?_ne (by decide)) h₃).imp ?_)
  rintro type m₄ ⟨rfl, h₄⟩
  -- The directives end the variable, with or without a default.
  have hend : ∀ {default : Option Value} {m : Scan},
      default = v.defaultValue.map (Value.mapStrings string) →
      m.Holds (directivesTokens string ds ++ rest) →
      ((directives limit true limit).map fun _ => (⟨v.name, v.type, default⟩ : Variable)).Reads m
        fun v' r => v' = v.plain string ∧ r.Holds rest := by
    rintro default m rfl hm
    refine reads_map ((reads_directives hds hrest (by decide) hm).imp ?_)
    exact fun _ r ⟨_, hr⟩ => ⟨rfl, hr⟩
  cases hv : v.defaultValue with
  | none =>
    rw [hv] at h₄ hend
    refine reads_bind (reads_optional_missing h₄ (hdirectives.head?_ne (by decide)) ?_)
    exact reads_bind (reads_pure (hend rfl h₄))
  | some value =>
    rw [hv] at h₄ hend
    refine reads_bind (reads_optional_found h₄ fun m₅ h₅ => ?_)
    refine reads_bind (reads_relax (reads_map
      ((reads_value limit true limit (hfits.defaultValue value hv) h₅).imp ?_)))
    rintro value' m₆ ⟨rfl, h₆⟩
    exact hend rfl h₆

theorem reads_variableDefinitions {vs : List Variable} {parts : List (List Token)}
    {rest : List Token} {s : Scan}
    (h : List.Forall₂ (Variable.SpelledBy string limit) vs parts)
    (hrest : rest.head? ≠ some (.punctuator .openParen))
    (hs : s.Holds (parenthesised parts.flatten ++ rest)) :
    (variableDefinitions limit).Reads s fun vs' r =>
      vs' = vs.map (Variable.plain string) ∧ r.Holds rest := by
  have hdollar : ∀ {v : Variable} {tokens : List Token} (rest : List Token),
      v.SpelledBy string limit tokens → ∃ more, tokens ++ rest = .punctuator .dollar :: more := by
    rintro v tokens rest ⟨-, ds, -, rfl⟩
    exact ⟨_, rfl⟩
  refine (reads_parenthesised ⟨fun v tokens rest s hv
    (hf : Starts [.dollar, .closeParen] rest) hs => reads_variableDefinition hv hf hs,
    fun v tokens rest hv => ?_, fun v tokens rest hv => ?_⟩
    (fun rest => starts_punctuator (by decide)) h hrest hs).imp
    fun vs' r ⟨hvs, hr⟩ => ⟨forall₂_eq_map.mp hvs, hr⟩
  · obtain ⟨more, hm⟩ := hdollar rest hv
    exact ⟨_, more, hm, by decide⟩
  · obtain ⟨more, hm⟩ := hdollar rest hv
    rw [hm]
    exact starts_punctuator (by decide)

theorem reads_name? {n : Option Text} {rest : List Token} {s : Scan}
    (hrest : ∀ text, rest.head? ≠ some (.name text))
    (hs : s.Holds ((n.elim [] fun text => [Token.name text]) ++ rest)) :
    name?.Reads s fun n' r => n' = n ∧ r.Holds rest := by
  refine reads_peek hs ?_
  cases n with
  | none =>
    split
    case h_1 he => exact absurd he (hrest _)
    case h_2 => exact reads_pure ⟨rfl, hs⟩
  | some text => exact reads_relax (reads_map (reads_take hs fun r hr => ⟨rfl, hr⟩))

/-- An operation in its form with a keyword. -/
theorem reads_operation {filePath : Option Text} {o : Operation} {parts : List (List Token)}
    {rest : List Token} {s : Scan} (hfits : o.Fits limit)
    (hparts : List.Forall₂ (Variable.SpelledBy string limit) o.variableDefinitions parts)
    (hs : s.Holds (o.longTokens string parts.flatten ++ rest)) :
    (operation limit filePath o.operation).Reads s fun o' r =>
      o'.plain id = o.plain string ∧ r.Holds rest := by
  have hne : o.selections ≠ [] := hfits.selections.ne_nil
  have hset : Starts [.openBrace] (Selection.setTokens string o.selections ++ rest) := by
    rw [Selection.setTokens_eq string hne]
    exact starts_punctuator List.mem_cons_self
  have hdirectives : Starts [.at, .openBrace] (directivesTokens string o.directives ++
      (Selection.setTokens string o.selections ++ rest)) :=
    ((starts_directives string _).mono (by simp)).append (hset.mono (by simp))
  have hnext : ∀ text, (parenthesised parts.flatten ++ (directivesTokens string o.directives ++
      (Selection.setTokens string o.selections ++ rest))).head? ≠ some (.name text) := by
    intro text
    rw [Selection.setTokens_eq string hne]
    cases parts.flatten with
    | nil => cases o.directives <;> exact fun he => by cases he
    | cons t more => exact fun he => by cases he
  rw [Operation.longTokens, List.cons_append, List.append_assoc, List.append_assoc,
    List.append_assoc] at hs
  refine reads_bind (reads_look (reads_bind (reads_take hs fun m₁ h₁ => ?_)))
  refine reads_bind ((reads_name? hnext h₁).imp ?_)
  rintro n m₂ ⟨rfl, h₂⟩
  refine reads_bind ((reads_variableDefinitions hparts (hdirectives.head?_ne (by decide)) h₂).imp ?_)
  rintro vs m₃ ⟨rfl, h₃⟩
  refine reads_bind ((reads_directives hfits.directives hset (by decide) h₃).imp ?_)
  rintro ds m₄ ⟨hds, h₄⟩
  refine reads_map ((reads_selectionSet limit limit hfits.selections h₄).imp ?_)
  rintro ss r ⟨hss, hr⟩
  refine ⟨?_, hr⟩
  rw [Operation.plain, Operation.plain, hds, hss, map_variable_plain_id]

theorem reads_shorthand {filePath : Option Text} {o : Operation} {rest : List Token} {s : Scan}
    (hfits : o.Fits limit) (hshort : o.IsShort)
    (hs : s.Holds (Selection.setTokens string o.selections ++ rest)) :
    (shorthand limit filePath).Reads s fun o' r =>
      o'.plain id = o.plain string ∧ r.Holds rest := by
  obtain ⟨hquery, hname, hvars, hds⟩ := hshort
  refine reads_bind (reads_look (reads_map ((reads_selectionSet limit limit hfits.selections hs).imp
    ?_)))
  rintro ss r ⟨hss, hr⟩
  refine ⟨?_, hr⟩
  rw [Operation.plain, Operation.plain, hquery, hname, hvars, hds, hss]
  rfl

theorem reads_fragment {filePath : Option Text} {f : Fragment} {rest : List Token} {s : Scan}
    (hfits : f.Fits limit) (hs : s.Holds (f.tokens string ++ rest)) :
    (fragment limit filePath).Reads s fun f' r =>
      f'.plain id = f.plain string ∧ r.Holds rest := by
  have hne : f.selections ≠ [] := hfits.selections.ne_nil
  have hset : Starts [.openBrace] (Selection.setTokens string f.selections ++ rest) := by
    rw [Selection.setTokens_eq string hne]
    exact starts_punctuator List.mem_cons_self
  rw [Fragment.tokens, List.cons_append, List.cons_append, List.cons_append, List.cons_append,
    List.append_assoc] at hs
  refine reads_bind (reads_look (reads_bind (reads_keyword hs fun m₁ h₁ => ?_)))
  refine reads_bind (reads_look ?_)
  have hon : m₁.startsWithName ("on" : Text) = false := by
    rw [Scan.startsWithName, h₁.next?, List.head?_cons]
    exact beq_false_of_ne fun he => hfits.name (by simpa using he)
  rw [hon]
  refine reads_bind (reads_name h₁ fun m₂ h₂ => reads_bind (reads_keyword h₂ fun m₃ h₃ => ?_))
  refine reads_bind (reads_name h₃ fun m₄ h₄ => ?_)
  refine reads_bind ((reads_directives hfits.directives hset (by decide) h₄).imp ?_)
  rintro ds m₅ ⟨hds, h₅⟩
  refine reads_map ((reads_selectionSet limit limit hfits.selections h₅).imp ?_)
  rintro ss r ⟨hss, hr⟩
  refine ⟨?_, hr⟩
  rw [Fragment.plain, Fragment.plain, hds, hss]

theorem reads_definition {filePath : Option Text} {d : Definition} {tokens rest : List Token}
    {s : Scan} (h : d.SpelledBy string limit tokens) (hs : s.Holds (tokens ++ rest)) :
    (definition limit filePath).Reads s fun d' r =>
      d'.plain id = d.plain string ∧ r.Holds rest := by
  refine reads_peek hs ?_
  cases d with
  | operation o =>
    obtain ⟨hfits, ⟨hshort, rfl⟩ | ⟨parts, hparts, rfl⟩⟩ := h
    · rw [Selection.setTokens_eq string hfits.selections.ne_nil]
      refine reads_map ((reads_shorthand hfits hshort hs).imp fun o' r ⟨ho, hr⟩ => ⟨?_, hr⟩)
      exact congrArg Definition.operation ho
    · have hread : (operation limit filePath o.operation).Reads s fun o' r =>
          o'.plain id = o.plain string ∧ r.Holds rest := reads_operation hfits hparts hs
      have hmap : ((operation limit filePath o.operation).map Definition.operation).Reads s
          fun d' r => d'.plain id = (Definition.operation o).plain string ∧ r.Holds rest :=
        reads_map (hread.imp fun o' r ⟨ho, hr⟩ => ⟨congrArg Definition.operation ho, hr⟩)
      rw [Operation.longTokens, List.cons_append, List.head?_cons]
      cases ho : o.operation with
      | query =>
        rw [ho] at hmap
        exact hmap
      | mutation =>
        rw [ho] at hmap
        exact hmap
      | subscription =>
        rw [ho] at hmap
        exact hmap
  | fragment f =>
    obtain ⟨hfits, rfl⟩ := h
    refine reads_map ((reads_fragment hfits hs).imp fun f' r ⟨hf, hr⟩ => ⟨?_, hr⟩)
    exact congrArg Definition.fragment hf

theorem definition_ne_nil {d : Definition} {tokens : List Token}
    (h : d.SpelledBy string limit tokens) : tokens ≠ [] := by
  cases d with
  | operation o =>
    obtain ⟨hfits, ⟨-, rfl⟩ | ⟨parts, -, rfl⟩⟩ := h
    · rw [Selection.setTokens_eq string hfits.selections.ne_nil]
      exact List.cons_ne_nil _ _
    · exact List.cons_ne_nil _ _
  | fragment f =>
    obtain ⟨-, rfl⟩ := h
    exact List.cons_ne_nil _ _

/-- **All tokens of a document are read.** -/
theorem reads_document {filePath : Option Text} {definitions : List Definition}
    {parts : List (List Token)} {s : Scan}
    (hparts : List.Forall₂ (Definition.SpelledBy string limit) definitions parts)
    (hne : definitions ≠ []) (hs : s.Holds parts.flatten) :
    (document limit filePath).Reads s fun d _ =>
      d.plain id = (ofDefinitions definitions).plain string := by
  cases hparts with
  | nil => exact absurd rfl hne
  | @cons first tokens rest parts hfirst hrest =>
    rw [List.flatten_cons] at hs
    refine reads_bind ((reads_definition hfirst hs).imp ?_)
    rintro first' m ⟨hfirst', hm⟩
    rw [← List.append_nil parts.flatten] at hm
    have hread : (whileM (fun s => !s.atEnd) (definition limit filePath)).Reads m fun rest' r =>
        List.Forall₂ (fun d' d => d'.plain id = d.plain string) rest' rest ∧ r.Holds [] := by
      refine reads_whileM (fun d tokens rest s hd (_ : True) hs => ⟨?_, reads_definition hd hs⟩)
        (fun _ _ _ _ => trivial) trivial (fun s hs => ?_) hrest hm
      · have htokens : tokens ++ rest ≠ [] :=
          List.append_ne_nil_of_left_ne_nil (definition_ne_nil hd) _
        rw [hs.atEnd, List.isEmpty_eq_false_iff.mpr htokens]
        rfl
      · rw [hs.atEnd]
        rfl
    refine reads_map (hread.imp fun rest' r ⟨hrest', _⟩ => ?_)
    rw [plain_ofDefinitions, plain_ofDefinitions, List.map_cons, List.map_cons, hfirst',
      map_eq_map_of_forall₂ hrest']

end Definitions

end Reader

/-- **A source whose tokens spell a document is parsed as the document.** -/
theorem Document.parse_of_spelledBy {string : Text → Text} {limit : Nat} {d : Document}
    {tokens : List Token} (h : d.SpelledBy string limit tokens) {source : Text}
    (hs : (Scan.scan source).Holds tokens) (filePath : Option Text) :
    ∃ d', Document.parse source filePath limit = .ok d' ∧ d'.plain id = d.plain string := by
  obtain ⟨definitions, parts, rfl, hne, hparts, rfl⟩ := h
  obtain ⟨d', r, hr, hd⟩ := Reader.reads_document hparts hne hs
  refine ⟨d', ?_, hd⟩
  rw [Document.parse, hr]
  rfl

end QueryCompiler
