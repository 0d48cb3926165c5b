import QueryCompiler.Proofs.Document.Spelling
import QueryCompiler.Proofs.Source.Reading

/-!
# What the parser accepts is spelled by its tokens

For each production: the tokens that it takes spell what it gives, which fits the levels that were
left (`typeRef_takes`, `value_takes`, `selectionSet_takes`, `document_ok`). Types, values and selection
sets recur with one level less: what a production does with its nested reader is a lemma about any
such reader, and the induction on the levels follows.
-/

namespace QueryCompiler

namespace Reader

open QueryCompiler.Parser QueryCompiler.Document

theorem run_peek {b : Bool} {α : Type} (f : Option Token → Reader b α) (s : Scan) :
    (peek f).run s = (f s.next?).run s := rfl

theorem run_inside {b : Bool} {α : Type} (close : Punctuator) (item : Reader b α) (s : Scan) :
    (inside close item).run s =
      (if s.atEnd then fail (.expectedOctet close.octet none) else item).run s := rfl

theorem take_ok {s r : Scan} {u : Unit} (h : take.run s = .ok (u, r)) :
    ∃ t, s.next? = some t ∧ s.Leaves [t] r := by
  obtain ⟨x, hx, -⟩ := map_eq_ok.mp h
  have hl := (token_ok hx).2
  exact ⟨x.2.token, hl.next?, hl⟩

theorem take_ok_of_next? {s r : Scan} {u : Unit} {t : Token} (hn : s.next? = some t)
    (h : take.run s = .ok (u, r)) : s.Leaves [t] r := by
  obtain ⟨t', ht, hl⟩ := take_ok h
  rw [hn] at ht
  obtain rfl := Option.some.inj ht
  exact hl

theorem Takes.inside {b : Bool} {α : Type} {close : Punctuator} {item : Reader b α}
    {related : α → List Token → Prop} (h : Takes item related) :
    Takes (inside close item) related := by
  intro s a r hr
  rw [run_inside] at hr
  split_ifs at hr with he
  · cases hr
  · exact h s a r hr

/-! ### Types and values -/

theorem forall₂_eq_map {α β : Type} {f : α → β} {bs : List β} {as : List α} :
    List.Forall₂ (fun b a => b = f a) bs as ↔ bs = as.map f := by
  rw [← List.forall₂_eq_eq_eq, List.forall₂_map_right_iff]

theorem forall₂_spelled {α : Type} {fits : α → Prop} {spell : α → List Token} {as : List α}
    {parts : List (List Token)} :
    List.Forall₂ (fun a tokens => fits a ∧ tokens = spell a) as parts ↔
      (∀ a ∈ as, fits a) ∧ parts = as.map spell := by
  rw [List.forall₂_and_left]
  exact and_congr_right fun _ =>
    ⟨fun h => forall₂_eq_map.mp h.flip, fun h => (forall₂_eq_map.mpr h).flip⟩

theorem forall_of_forall₂ {α β : Type} {related : α → β → Prop} {holds : α → Prop} {as : List α}
    {bs : List β} (h : List.Forall₂ related as bs) (hi : ∀ a b, related a b → holds a) :
    ∀ a ∈ as, holds a :=
  ((List.forall₂_and_left as bs).mp (h.imp fun a b hab => ⟨hi a b hab, hab⟩)).1

/-- A type and the mark that may follow it. -/
def marked (type : Reader true TypeRef) : Reader true TypeRef :=
  Parser.bind (b := true) (c := false) type fun type =>
    (optional .bang).map fun marked => if marked then .nonNull type else type

/-- A type without a mark, whose lists hold what is read by `inner`; none is left no levels. -/
def typeWith (limit : Nat) (inner : Option (Reader true TypeRef)) :
    Option Token → Reader true TypeRef
  | some (.punctuator .openBracket) =>
    Parser.bind (b := true) (c := true) (punctuator .openBracket) fun bracket =>
      match inner with
      | none => failAt bracket.stop (.nestingExceeded limit)
      | some inner => inner.bind fun inner => (punctuator .closeBracket).map fun _ => .list inner
  | _ => name.map .named

theorem typeRef_zero (limit : Nat) :
    typeRef limit 0 = marked (peek (typeWith limit none)) := by
  delta typeRef; rfl

theorem typeRef_succ (limit levels : Nat) :
    typeRef limit (levels + 1) = marked (peek (typeWith limit (some (typeRef limit levels)))) := by
  delta typeRef; rfl

/-- A mark may follow a type that ends without one. -/
theorem marked_takes {p : Reader true TypeRef} {levels : Nat}
    (h : Takes p fun t tokens => t.isNonNull = false ∧ t.Fits levels ∧ tokens = t.tokens) :
    Takes (marked p) fun t tokens => t.Fits levels ∧ tokens = t.tokens := by
  intro s t r hr
  obtain ⟨type, m, hp, hr⟩ := bind_eq_ok.mp hr
  obtain ⟨_, hl, hnot, hfits, rfl⟩ := h s type m hp
  obtain ⟨found, ho, rfl⟩ := map_eq_ok.mp hr
  rcases optional_ok ho with ⟨rfl, hl'⟩ | ⟨rfl, rfl, -⟩
  · refine ⟨_, hl.trans hl', ?_, rfl⟩
    rw [if_pos rfl, TypeRef.Fits]
    exact ⟨hnot, hfits⟩
  · exact ⟨_, hl, hfits, rfl⟩

theorem typeWith_takes {limit levels : Nat} {inner : Option (Reader true TypeRef)}
    (h : ∀ p, inner = some p → ∃ l, levels = l + 1 ∧
      Takes p fun t tokens => t.Fits l ∧ tokens = t.tokens) :
    Takes (peek (typeWith limit inner)) fun t tokens =>
      t.isNonNull = false ∧ t.Fits levels ∧ tokens = t.tokens := by
  intro s t r hr
  rw [run_peek] at hr
  unfold typeWith at hr
  split at hr
  case h_1 =>
    obtain ⟨bracket, m, ho, hr⟩ := bind_eq_ok.mp hr
    cases inner with
    | none => cases hr
    | some p =>
      obtain ⟨l, rfl, hp⟩ := h p rfl
      obtain ⟨type, m', ht, hr⟩ := bind_eq_ok.mp hr
      obtain ⟨_, hc, rfl⟩ := map_eq_ok.mp hr
      obtain ⟨_, hl, hfits, rfl⟩ := hp m type m' ht
      exact ⟨_, (punctuator_ok ho).trans (hl.trans (punctuator_ok hc)), rfl, hfits, rfl⟩
  case h_2 =>
    obtain ⟨n, hn, rfl⟩ := map_eq_ok.mp hr
    refine ⟨_, name_ok hn, rfl, ?_, rfl⟩
    cases levels <;> trivial

theorem typeRef_takes (limit levels : Nat) :
    Takes (typeRef limit levels) fun t tokens => t.Fits levels ∧ tokens = t.tokens := by
  induction levels with
  | zero =>
    rw [typeRef_zero]
    exact marked_takes (typeWith_takes fun p hp => by cases hp)
  | succ levels ih =>
    rw [typeRef_succ]
    refine marked_takes (typeWith_takes fun p hp => ?_)
    obtain rfl := Option.some.inj hp
    exact ⟨levels, rfl, ih⟩

theorem valueOfName_fits (constant : Bool) (levels : Nat) (n : Text) :
    (valueOfName n).Fits constant levels := by
  unfold valueOfName
  split_ifs with h1 h2 h3
  · cases levels <;> trivial
  · cases levels <;> trivial
  · cases levels <;> trivial
  · have he : valueOfName n = .enum n := by
      rw [valueOfName, if_neg h1, if_neg h2, if_neg h3]
    cases levels <;> exact he

theorem tokens_valueOfName (string : Text → Text) (n : Text) :
    (valueOfName n).tokens string = [.name n] := by
  unfold valueOfName
  split_ifs with h1 h2 h3
  · rw [h1]; rfl
  · rw [h2]; rfl
  · rw [h3]; rfl
  · rfl

/-- A value, whose lists and objects hold items that are read by `item`; none is left no levels. -/
def valueWith (limit : Nat) (constant : Bool) (item : Option (Reader true Value)) :
    Option Token → Reader true Value
  | some (.punctuator .dollar) =>
    if constant then fail .variableInConstant
    else (punctuator .dollar).bind fun _ => name.map .variable
  | some (.punctuator .openBracket) =>
    match item with
    | none => fail (.nestingExceeded limit)
    | some item =>
      (punctuator .openBracket).bind fun _ =>
        (manyUntil .closeBracket (inside .closeBracket item)).map .list
  | some (.punctuator .openBrace) =>
    match item with
    | none => fail (.nestingExceeded limit)
    | some item =>
      (punctuator .openBrace).bind fun _ =>
        (manyUntil .closeBrace (name.bind fun key => (punctuator .colon).bind fun _ =>
          item.map fun v => (key, v))).map .object
  | some (.string text) => take.map fun _ => .string text
  | some (.int literal) => take.map fun _ => .int literal
  | some (.float literal) => take.map fun _ => .float literal
  | some (.name text) => take.map fun _ => valueOfName text
  | _ => Parser.failWith Scan.unexpectedValue

theorem value_zero (limit : Nat) (constant : Bool) :
    value limit constant 0 = peek (valueWith limit constant none) := by
  delta value; rfl

theorem value_succ (limit : Nat) (constant : Bool) (levels : Nat) :
    value limit constant (levels + 1) =
      peek (valueWith limit constant (some (value limit constant levels))) := by
  delta value; rfl

/-- A single token that is taken for a value. -/
theorem take_value_ok {s r : Scan} {t : Token} {v w : Value} (hn : s.next? = some t)
    (h : (take.map fun _ => v).run s = .ok (w, r)) : w = v ∧ s.Leaves [t] r := by
  obtain ⟨_, ht, rfl⟩ := map_eq_ok.mp h
  exact ⟨rfl, take_ok_of_next? hn ht⟩

theorem colon_takes {α β : Type} {item : Reader true α} {f : Text → α → β}
    {related : α → List Token → Prop} (h : Takes item related) :
    Takes (name.bind fun key => (punctuator .colon).bind fun _ => item.map fun v => f key v)
      fun b tokens => ∃ key v rest, b = f key v ∧ related v rest ∧
        tokens = .name key :: .punctuator .colon :: rest := by
  intro s b r hr
  obtain ⟨key, m, hk, hr⟩ := bind_eq_ok.mp hr
  obtain ⟨_, m', hc, hr⟩ := bind_eq_ok.mp hr
  obtain ⟨v, hv, rfl⟩ := map_eq_ok.mp hr
  obtain ⟨rest, hl, ha⟩ := h m' v r hv
  exact ⟨_, (name_ok hk).trans ((punctuator_ok hc).trans hl), key, v, rest, rfl, ha, rfl⟩

section
variable {constant : Bool} {levels : Nat} {item : Reader true Value}
  (h : Takes item fun v tokens => v.Fits constant levels ∧ tokens = v.tokens id)
include h

theorem listItems_takes : Takes (manyUntil .closeBracket (inside .closeBracket item))
    fun vs tokens => (∀ v ∈ vs, v.Fits constant levels) ∧
      tokens = Value.tokensOfAll id vs ++ [.punctuator .closeBracket] := by
  intro s vs r hr
  obtain ⟨_, hl, parts, hparts, rfl⟩ := h.inside.manyUntil s vs r hr
  obtain ⟨hfits, rfl⟩ := forall₂_spelled.mp hparts
  exact ⟨_, hl, hfits, by rw [Value.tokensOfAll_eq]⟩

theorem objectFields_takes : Takes (manyUntil .closeBrace (name.bind fun key =>
    (punctuator .colon).bind fun _ => item.map fun v => (key, v)))
    fun fields tokens => (∀ field ∈ fields, field.2.Fits constant levels) ∧
      tokens = Value.tokensOfFields id fields ++ [.punctuator .closeBrace] := by
  intro s fields r hr
  obtain ⟨_, hl, parts, hparts, rfl⟩ := (colon_takes h).manyUntil s fields r hr
  have hspelled : List.Forall₂ (fun (field : Text × Value) tokens =>
      field.2.Fits constant levels ∧ tokens =
        .name field.1 :: .punctuator .colon :: field.2.tokens id) fields parts := by
    refine hparts.imp fun field tokens hft => ?_
    obtain ⟨key, v, rest, rfl, ⟨hv, rfl⟩, rfl⟩ := hft
    exact ⟨hv, rfl⟩
  obtain ⟨hfits, rfl⟩ := forall₂_spelled.mp hspelled
  exact ⟨_, hl, hfits, by rw [Value.tokensOfFields_eq]⟩

end

theorem valueWith_takes {limit : Nat} {constant : Bool} {item : Option (Reader true Value)}
    {levels : Nat} (h : ∀ p, item = some p → ∃ l, levels = l + 1 ∧
      Takes p fun v tokens => v.Fits constant l ∧ tokens = v.tokens id) :
    Takes (peek (valueWith limit constant item)) fun v tokens =>
      v.Fits constant levels ∧ tokens = v.tokens id := by
  intro s v r hr
  rw [run_peek] at hr
  unfold valueWith at hr
  split at hr
  case h_1 hn =>
    split_ifs at hr with hc
    · cases hr
    · obtain ⟨_, m, hd, hr⟩ := bind_eq_ok.mp hr
      obtain ⟨n, hn, rfl⟩ := map_eq_ok.mp hr
      refine ⟨_, (punctuator_ok hd).trans (name_ok hn), ?_, rfl⟩
      cases levels <;> simpa [Value.Fits] using hc
  case h_2 hn =>
    cases item with
    | none => cases hr
    | some p =>
      obtain ⟨l, rfl, hp⟩ := h p rfl
      obtain ⟨_, m, ho, hr⟩ := bind_eq_ok.mp hr
      obtain ⟨vs, hm, rfl⟩ := map_eq_ok.mp hr
      obtain ⟨_, hl, hfits, rfl⟩ := listItems_takes hp m vs r hm
      exact ⟨_, (punctuator_ok ho).trans hl, hfits, rfl⟩
  case h_3 hn =>
    cases item with
    | none => cases hr
    | some p =>
      obtain ⟨l, rfl, hp⟩ := h p rfl
      obtain ⟨_, m, ho, hr⟩ := bind_eq_ok.mp hr
      obtain ⟨fields, hm, rfl⟩ := map_eq_ok.mp hr
      obtain ⟨_, hl, hfits, rfl⟩ := objectFields_takes hp m fields r hm
      exact ⟨_, (punctuator_ok ho).trans hl, hfits, rfl⟩
  case h_4 hn =>
    obtain ⟨rfl, hl⟩ := take_value_ok hn hr
    exact ⟨_, hl, by cases levels <;> trivial, rfl⟩
  case h_5 hn =>
    obtain ⟨rfl, hl⟩ := take_value_ok hn hr
    exact ⟨_, hl, by cases levels <;> trivial, rfl⟩
  case h_6 hn =>
    obtain ⟨rfl, hl⟩ := take_value_ok hn hr
    exact ⟨_, hl, by cases levels <;> trivial, rfl⟩
  case h_7 text hn =>
    obtain ⟨rfl, hl⟩ := take_value_ok hn hr
    exact ⟨_, hl, valueOfName_fits constant levels text, (tokens_valueOfName id text).symm⟩
  case h_8 => cases hr

theorem value_takes (limit : Nat) (constant : Bool) (levels : Nat) :
    Takes (value limit constant levels) fun v tokens =>
      v.Fits constant levels ∧ tokens = v.tokens id := by
  induction levels with
  | zero =>
    rw [value_zero]
    exact valueWith_takes fun p hp => by cases hp
  | succ levels ih =>
    rw [value_succ]
    refine valueWith_takes fun p hp => ?_
    obtain rfl := Option.some.inj hp
    exact ⟨levels, rfl, ih⟩

/-! ### Arguments and directives -/

/-- Items in parentheses, or nothing. -/
theorem parenthesised_takes {α : Type} {item : Reader true α} {related : α → List Token → Prop}
    (h : Takes item related) (hne : ∀ a tokens, related a tokens → tokens ≠ []) :
    Takes ((optional .openParen).bind fun found =>
      if found then (someUntil .closeParen item).relax else Parser.pure []) fun as tokens =>
        ∃ parts, List.Forall₂ related as parts ∧ tokens = parenthesised parts.flatten := by
  intro s as r hr
  obtain ⟨found, m, ho, hm⟩ := bind_eq_ok.mp hr
  rcases optional_ok ho with ⟨rfl, hl⟩ | ⟨rfl, rfl, -⟩
  · rw [if_pos rfl, run_relax] at hm
    obtain ⟨_, hl', hsome, parts, hparts, rfl⟩ := h.someUntil m as r hm
    refine ⟨_, hl.trans hl', parts, hparts, ?_⟩
    cases hparts with
    | nil => exact absurd rfl hsome
    | @cons a tokens _ parts ha _ =>
      obtain ⟨t, more, rfl⟩ := List.exists_cons_of_ne_nil (hne _ _ ha)
      rfl
  · rw [if_neg Bool.false_ne_true] at hm
    obtain ⟨rfl, rfl⟩ := pure_eq_ok.mp hm
    exact ⟨[], .refl _, [], .nil, rfl⟩

theorem argument_takes (limit : Nat) (constant : Bool) (levels : Nat) :
    Takes (argument limit constant levels) fun a tokens =>
      a.value.Fits constant levels ∧ tokens = a.tokens id := by
  intro s a r hr
  obtain ⟨_, hl, key, v, rest, rfl, ⟨hfits, rfl⟩, rfl⟩ :=
    colon_takes (f := Argument.mk) (value_takes limit constant levels) s a r hr
  exact ⟨_, hl, hfits, rfl⟩

theorem arguments_takes (limit : Nat) (constant : Bool) (levels : Nat) :
    Takes (arguments limit constant levels) fun as tokens =>
      ArgumentsFit constant levels as ∧ tokens = argumentsTokens id as := by
  intro s as r hr
  obtain ⟨_, hl, parts, hparts, rfl⟩ := parenthesised_takes (argument_takes limit constant levels)
    (fun a tokens h => by rw [h.2]; exact List.cons_ne_nil _ _) s as r hr
  obtain ⟨hfits, rfl⟩ := forall₂_spelled.mp hparts
  exact ⟨_, hl, hfits, rfl⟩

theorem directive_takes (limit : Nat) (constant : Bool) (levels : Nat) :
    Takes (directive limit constant levels) fun d tokens =>
      ArgumentsFit constant levels d.arguments ∧ tokens = d.tokens id := by
  intro s d r hr
  obtain ⟨location, m₀, h₀, hr⟩ := bind_eq_ok.mp hr
  cases h₀
  obtain ⟨_, m₁, hat, hr⟩ := bind_eq_ok.mp hr
  obtain ⟨n, m₂, hn, hr⟩ := bind_eq_ok.mp hr
  obtain ⟨args, ha, rfl⟩ := map_eq_ok.mp hr
  obtain ⟨_, hl, hfits, rfl⟩ := arguments_takes limit constant levels m₂ args r ha
  exact ⟨_, (punctuator_ok hat).trans ((name_ok hn).trans hl), hfits, rfl⟩

theorem directives_takes (limit : Nat) (constant : Bool) (levels : Nat) :
    Takes (directives limit constant levels) fun ds tokens =>
      DirectivesFit constant levels ds ∧ tokens = directivesTokens id ds := by
  intro s ds r hr
  obtain ⟨_, hl, parts, hparts, rfl⟩ :=
    (directive_takes limit constant levels).whileM s ds r hr
  obtain ⟨hfits, rfl⟩ := forall₂_spelled.mp hparts
  exact ⟨_, hl, hfits, rfl⟩

/-! ### Selections -/

/-- Every selection set that is read fits. -/
def TakesSets (fits : List Selection → Prop) (nested : Reader true (List Selection)) : Prop :=
  Takes nested fun ss tokens => fits ss ∧ tokens = Selection.setTokens id ss

section Selections
variable {limit levels : Nat} {nested : Reader true (List Selection)}
  {fits : List Selection → Prop}

/-- The alias and the name of a field. -/
theorem fieldName_ok {s r : Scan} {first : Text} {aliased : Bool} {names : Option Text × Text}
    (ho : ∃ m, (optional .colon).run s = .ok (aliased, m) ∧
      (if aliased then (name.map fun second => (some first, second)).relax
        else Parser.pure (none, first) : Reader false (Option Text × Text)).run m =
          .ok (names, r)) :
    ∃ rest, s.Leaves rest r ∧ names.1.elim [] (fun n => [Token.name n, .punctuator .colon]) ++
      [.name names.2] = .name first :: rest := by
  obtain ⟨m, ho, hn⟩ := ho
  rcases optional_ok ho with ⟨rfl, hl⟩ | ⟨rfl, rfl, -⟩
  · rw [if_pos rfl, run_relax] at hn
    obtain ⟨second, hs, rfl⟩ := map_eq_ok.mp hn
    exact ⟨_, hl.trans (name_ok hs), rfl⟩
  · rw [if_neg Bool.false_ne_true] at hn
    obtain ⟨rfl, rfl⟩ := pure_eq_ok.mp hn
    exact ⟨[], .refl _, rfl⟩

theorem field_takes (h : TakesSets fits nested) :
    Takes (field limit levels nested) fun sel tokens =>
      sel.FitsWith levels fits ∧ tokens = sel.tokens id := by
  intro s sel r hr
  obtain ⟨location, m₀, h₀, hr⟩ := bind_eq_ok.mp hr
  cases h₀
  obtain ⟨first, m₁, hfirst, hr⟩ := bind_eq_ok.mp hr
  obtain ⟨aliased, m₂, hcolon, hr⟩ := bind_eq_ok.mp hr
  obtain ⟨⟨fieldAlias, fieldName⟩, m₃, hname, hr⟩ := bind_eq_ok.mp hr
  obtain ⟨args, m₄, hargs, hr⟩ := bind_eq_ok.mp hr
  obtain ⟨ds, m₅, hds, hr⟩ := bind_eq_ok.mp hr
  obtain ⟨rest, hl₂, hnames⟩ := fieldName_ok ⟨m₂, hcolon, hname⟩
  obtain ⟨_, hl₃, hargsFit, rfl⟩ := arguments_takes limit false levels m₃ args m₄ hargs
  obtain ⟨_, hl₄, hdsFit, rfl⟩ := directives_takes limit false levels m₄ ds m₅ hds
  have hhead : s.Leaves (Field.tokens id ⟨fieldAlias, fieldName, args, ds, s.here⟩) m₅ := by
    have hl := ((name_ok hfirst).trans hl₂).trans (hl₃.trans hl₄)
    rw [List.singleton_append, ← hnames, List.append_assoc] at hl
    exact hl
  rw [run_peek] at hr
  split at hr
  · rw [run_relax] at hr
    obtain ⟨ss, hss, rfl⟩ := map_eq_ok.mp hr
    obtain ⟨_, hl, hfits, rfl⟩ := h m₅ ss r hss
    exact ⟨_, hhead.trans hl, ⟨hargsFit, hdsFit, fun _ => hfits⟩, rfl⟩
  · obtain ⟨rfl, rfl⟩ := pure_eq_ok.mp hr
    refine ⟨_, hhead, ⟨hargsFit, hdsFit, fun hne => absurd rfl hne⟩, ?_⟩
    rw [Selection.tokens, Selection.setTokens, List.append_nil]

/-- The directives and the selection set of an inline fragment, after its type. -/
theorem inlineBody_takes (h : TakesSets fits nested) (location : Location) (type : Option Text) :
    Takes (inlineBody limit levels nested location type) fun sel tokens =>
      sel.FitsWith levels fits ∧
        .spread :: (type.elim [] (fun t => [Token.name "on", .name t]) ++ tokens) =
          sel.tokens id := by
  intro s sel r hr
  obtain ⟨ds, m, hds, hr⟩ := bind_eq_ok.mp hr
  obtain ⟨ss, hss, rfl⟩ := map_eq_ok.mp hr
  obtain ⟨_, hl, hdsFit, rfl⟩ := directives_takes limit false levels s ds m hds
  obtain ⟨_, hl', hfits, rfl⟩ := h m ss r hss
  refine ⟨_, hl.trans hl', ⟨hdsFit, hfits⟩, ?_⟩
  rw [Selection.tokens, InlineFragment.tokens, List.cons_append, List.append_assoc]

theorem selection_takes (h : TakesSets fits nested) :
    Takes (selection limit levels nested) fun sel tokens =>
      sel.FitsWith levels fits ∧ tokens = sel.tokens id := by
  intro s sel r hr
  obtain ⟨location, m₀, h₀, hr⟩ := bind_eq_ok.mp hr
  cases h₀
  rw [run_peek] at hr
  split at hr
  case h_1 hspread =>
    obtain ⟨_, m₁, htake, hr⟩ := bind_eq_ok.mp hr
    have hl₁ := take_ok_of_next? hspread htake
    rw [run_peek] at hr
    split at hr
    case h_1 text htext =>
      split_ifs at hr with hon
      · obtain ⟨_, m₂, htake', hr⟩ := bind_eq_ok.mp hr
        obtain ⟨type, m₃, htype, hr⟩ := bind_eq_ok.mp hr
        obtain ⟨_, hl, hfits, he⟩ := inlineBody_takes h s.here (some type) m₃ sel r hr
        rw [hon] at htext
        exact ⟨_, hl₁.trans ((take_ok_of_next? htext htake').trans ((name_ok htype).trans hl)),
          hfits, he⟩
      · obtain ⟨_, m₂, htake', hr⟩ := bind_eq_ok.mp hr
        obtain ⟨ds, hds, rfl⟩ := map_eq_ok.mp hr
        obtain ⟨_, hl, hdsFit, rfl⟩ := directives_takes limit false levels m₂ ds r hds
        exact ⟨_, hl₁.trans ((take_ok_of_next? htext htake').trans hl), ⟨hon, hdsFit⟩, rfl⟩
    case h_2 =>
      obtain ⟨_, hl, hfits, he⟩ := inlineBody_takes h s.here none m₁ sel r hr
      exact ⟨_, hl₁.trans hl, hfits, he⟩
  case h_2 => exact field_takes h s sel r hr

theorem selectionSet_takes (limit levels : Nat) :
    TakesSets (SetFits levels) (selectionSet limit levels) := by
  induction levels with
  | zero => intro s ss r hr; cases hr
  | succ levels ih =>
    intro s ss r hr
    rw [selectionSet] at hr
    obtain ⟨_, m, ho, hr⟩ := bind_eq_ok.mp hr
    obtain ⟨_, hl, hne, parts, hparts, rfl⟩ :=
      (selection_takes ih).inside.someUntil m ss r hr
    obtain ⟨hfits, rfl⟩ := forall₂_spelled.mp hparts
    refine ⟨_, (punctuator_ok ho).trans hl, ⟨hne, hfits⟩, ?_⟩
    rw [Selection.setTokens_eq id hne]
    rfl

end Selections

/-! ### Definitions -/

section Definitions
variable (limit : Nat)

theorem variableDefinition_takes :
    Takes (variableDefinition limit) (Variable.SpelledBy id limit) := by
  intro s v r hr
  obtain ⟨_, m₁, hdollar, hr⟩ := bind_eq_ok.mp hr
  obtain ⟨n, m₂, hn, hr⟩ := bind_eq_ok.mp hr
  obtain ⟨_, m₃, hcolon, hr⟩ := bind_eq_ok.mp hr
  obtain ⟨type, m₄, htype, hr⟩ := bind_eq_ok.mp hr
  obtain ⟨hasDefault, m₅, hequals, hr⟩ := bind_eq_ok.mp hr
  obtain ⟨default, m₆, hdefault, hr⟩ := bind_eq_ok.mp hr
  obtain ⟨ds, hds, rfl⟩ := map_eq_ok.mp hr
  obtain ⟨_, hl₃, htypeFits, rfl⟩ := typeRef_takes limit limit m₃ type m₄ htype
  obtain ⟨_, hl₆, hdsFit, rfl⟩ := directives_takes limit true limit m₆ ds r hds
  have hvalue : (∀ v, default = some v → v.Fits true limit) ∧
      m₄.Leaves (default.elim [] fun v => .punctuator .equals :: v.tokens id) m₆ := by
    rcases optional_ok hequals with ⟨rfl, hl⟩ | ⟨rfl, rfl, -⟩
    · rw [if_pos rfl, run_relax] at hdefault
      obtain ⟨v, hv, rfl⟩ := map_eq_ok.mp hdefault
      obtain ⟨_, hl', hfits, rfl⟩ := value_takes limit true limit m₅ v m₆ hv
      refine ⟨fun w hw => ?_, hl.trans hl'⟩
      obtain rfl := Option.some.inj hw
      exact hfits
    · rw [if_neg Bool.false_ne_true] at hdefault
      obtain ⟨rfl, rfl⟩ := pure_eq_ok.mp hdefault
      exact ⟨fun v hv => (by cases hv), .refl _⟩
  have hl := (punctuator_ok hdollar).trans ((name_ok hn).trans ((punctuator_ok hcolon).trans
    ((hl₃.trans hvalue.2).trans hl₆)))
  exact ⟨_, hl, ⟨htypeFits, hvalue.1⟩, ds, hdsFit, rfl⟩

theorem variableDefinitions_takes :
    Takes (variableDefinitions limit) fun vs tokens => ∃ parts,
      List.Forall₂ (Variable.SpelledBy id limit) vs parts ∧
        tokens = parenthesised parts.flatten := by
  refine parenthesised_takes (variableDefinition_takes limit) fun v tokens h => ?_
  obtain ⟨-, ds, -, rfl⟩ := h
  exact List.cons_ne_nil _ _

theorem name?_takes : Takes name? fun n tokens => tokens = n.elim [] fun text => [Token.name text] := by
  intro s n r hr
  unfold name? at hr
  rw [run_peek] at hr
  split at hr
  case h_1 text htext =>
    rw [run_relax] at hr
    obtain ⟨_, ht, rfl⟩ := map_eq_ok.mp hr
    exact ⟨_, take_ok_of_next? htext ht, rfl⟩
  case h_2 =>
    obtain ⟨rfl, rfl⟩ := pure_eq_ok.mp hr
    exact ⟨[], .refl _, rfl⟩

/-- An operation whose keyword comes next. -/
theorem operation_ok {filePath : Option Text} {type : OperationType} {s r : Scan} {o : Operation}
    (hs : s.next? = some (.name type.text)) (hr : (operation limit filePath type).run s = .ok (o, r)) :
    ∃ tokens, s.Leaves tokens r ∧ o.SpelledBy id limit tokens := by
  obtain ⟨location, m₀, h₀, hr⟩ := bind_eq_ok.mp hr
  cases h₀
  obtain ⟨_, m₁, htake, hr⟩ := bind_eq_ok.mp hr
  obtain ⟨n, m₂, hn, hr⟩ := bind_eq_ok.mp hr
  obtain ⟨vars, m₃, hvars, hr⟩ := bind_eq_ok.mp hr
  obtain ⟨ds, m₄, hds, hr⟩ := bind_eq_ok.mp hr
  obtain ⟨ss, hss, rfl⟩ := map_eq_ok.mp hr
  obtain ⟨_, hl₁, rfl⟩ := name?_takes m₁ n m₂ hn
  obtain ⟨_, hl₂, parts, hparts, rfl⟩ := variableDefinitions_takes limit m₂ vars m₃ hvars
  obtain ⟨_, hl₃, hdsFit, rfl⟩ := directives_takes limit false limit m₃ ds m₄ hds
  obtain ⟨_, hl₄, hssFit, rfl⟩ := selectionSet_takes limit limit m₄ ss r hss
  refine ⟨_, (take_ok_of_next? hs htake).trans (hl₁.trans (hl₂.trans (hl₃.trans hl₄))),
    ⟨fun v hv => ?_, hdsFit, hssFit⟩, Or.inr ⟨parts, hparts, rfl⟩⟩
  exact forall_of_forall₂ hparts (fun _ _ h => h.1) v hv

theorem shorthand_takes (filePath : Option Text) :
    Takes (shorthand limit filePath) (Operation.SpelledBy id limit) := by
  intro s o r hr
  obtain ⟨location, m₀, h₀, hr⟩ := bind_eq_ok.mp hr
  cases h₀
  obtain ⟨ss, hss, rfl⟩ := map_eq_ok.mp hr
  obtain ⟨_, hl, hssFit, rfl⟩ := selectionSet_takes limit limit s ss r hss
  refine ⟨_, hl, ⟨fun v hv => ?_, fun d hd => ?_, hssFit⟩, Or.inl ⟨⟨rfl, rfl, rfl, rfl⟩, rfl⟩⟩
  · cases hv
  · cases hd

theorem fragment_takes (filePath : Option Text) :
    Takes (fragment limit filePath) fun f tokens => f.Fits limit ∧ tokens = f.tokens id := by
  intro s f r hr
  obtain ⟨location, m₀, h₀, hr⟩ := bind_eq_ok.mp hr
  cases h₀
  obtain ⟨_, m₁, hk, hr⟩ := bind_eq_ok.mp hr
  obtain ⟨isOn, m₂, hl, hr⟩ := bind_eq_ok.mp hr
  cases hl
  split_ifs at hr with hon
  · cases hr
  obtain ⟨n, m₃, hn, hr⟩ := bind_eq_ok.mp hr
  obtain ⟨_, m₄, hkon, hr⟩ := bind_eq_ok.mp hr
  obtain ⟨type, m₅, htype, hr⟩ := bind_eq_ok.mp hr
  obtain ⟨ds, m₆, hds, hr⟩ := bind_eq_ok.mp hr
  obtain ⟨ss, hss, rfl⟩ := map_eq_ok.mp hr
  obtain ⟨_, hl₅, hdsFit, rfl⟩ := directives_takes limit false limit m₅ ds m₆ hds
  obtain ⟨_, hl₆, hssFit, rfl⟩ := selectionSet_takes limit limit m₆ ss r hss
  have hname : n ≠ ("on" : Text) := fun he => hon (by
    rw [Scan.startsWithName, (name_ok hn).next?, he]
    exact beq_self_eq_true _)
  exact ⟨_, (keyword_ok hk).trans ((name_ok hn).trans ((keyword_ok hkon).trans
    ((name_ok htype).trans (hl₅.trans hl₆)))), ⟨hname, hdsFit, hssFit⟩, rfl⟩

theorem definition_takes (filePath : Option Text) :
    Takes (definition limit filePath) (Definition.SpelledBy id limit) := by
  intro s d r hr
  unfold definition at hr
  rw [run_peek] at hr
  split at hr
  case h_1 =>
    obtain ⟨o, ho, rfl⟩ := map_eq_ok.mp hr
    exact shorthand_takes limit filePath s o r ho
  case h_2 text htext =>
    split_ifs at hr with h1 h2 h3 h4
    · obtain ⟨o, ho, rfl⟩ := map_eq_ok.mp hr
      exact operation_ok limit (by rw [htext, h1]; rfl) ho
    · obtain ⟨o, ho, rfl⟩ := map_eq_ok.mp hr
      exact operation_ok limit (by rw [htext, h2]; rfl) ho
    · obtain ⟨o, ho, rfl⟩ := map_eq_ok.mp hr
      exact operation_ok limit (by rw [htext, h3]; rfl) ho
    · obtain ⟨f, hf, rfl⟩ := map_eq_ok.mp hr
      exact fragment_takes limit filePath s f r hf
    · cases hr
  case h_3 => cases hr

/-- **A document that is read is spelled by all tokens**, and the scan has gone through. -/
theorem document_ok {filePath : Option Text} {s r : Scan} {d : Document}
    (hr : (document limit filePath).run s = .ok (d, r)) :
    ∃ tokens, s.Holds tokens ∧ d.SpelledBy id limit tokens := by
  obtain ⟨first, m, hfirst, hr⟩ := bind_eq_ok.mp hr
  obtain ⟨rest, hrest, rfl⟩ := map_eq_ok.mp hr
  obtain ⟨tokens, hl, hspelled⟩ := definition_takes limit filePath s first m hfirst
  obtain ⟨hstop, parts, hl', hparts⟩ :=
    whileM_ok (definition_takes limit filePath) hrest
  have hend : r.atEnd = true := by simpa using hstop
  have hall := hl.trans hl'
  refine ⟨tokens ++ parts.flatten, ⟨?_, ?_⟩, first :: rest, tokens :: parts, rfl,
    List.cons_ne_nil _ _, .cons hspelled hparts, rfl⟩
  · rw [hall.tokens_eq, Scan.tokens_of_atEnd hend, List.append_nil]
  · have hcomplete := Scan.isComplete_of_atEnd hend
    unfold Scan.isComplete at hcomplete ⊢
    rwa [hall.ending_eq]

end Definitions

end Reader

/-- **What is parsed is spelled by the tokens of its source.** -/
theorem Document.spelledBy_of_parse {source : Text} {filePath : Option Text} {limit : Nat}
    {d : Document} (h : Document.parse source filePath limit = .ok d) :
    (Scan.scan source).isComplete = true ∧ d.SpelledBy id limit (Scan.scan source).tokens := by
  unfold Document.parse at h
  cases hr : (Reader.document limit filePath).run (Scan.scan source) with
  | error e => rw [hr] at h; cases h
  | ok x =>
    rw [hr] at h
    obtain rfl := Except.ok.inj h
    obtain ⟨tokens, hs, hd⟩ := Reader.document_ok limit hr
    rw [hs.tokens_eq]
    exact ⟨hs.isComplete, hd⟩

end QueryCompiler
