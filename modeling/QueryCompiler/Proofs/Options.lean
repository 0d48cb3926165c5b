import QueryCompiler.Options
import QueryCompiler.Proofs.Json.Members
import QueryCompiler.Proofs.Success

/-!
# Options and their JSON form

Options that are read from an object are shown as they were given: each member of their JSON form is
the member of the object, or that of the default options where the object has none or `null`. Numbers
are compared exactly (`Json.Same`). A depth is shown as given if it is a word (`Json.IsWord`), and
only then: any other number is converted to one.

* `readMember_eq_ok`, `ofJson_eq_ok`: what an object is read as.
* `same_word_iff`: a number and the word it is converted to.
* `ofJson_shows`, `ofJson_toJson`: showing what was read, and reading what is shown.
-/

namespace QueryCompiler

/-! ### Numbers -/

namespace Number.Binary64

/-- The dividend with the sign of the number. -/
def signedNum (x : Binary64) : Int := if x.isNegative then -(x.ratio.num : Int) else x.ratio.num

theorem den_ratio_pos (x : Binary64) : 0 < x.ratio.den := by
  unfold ratio
  dsimp only
  split_ifs
  · exact Nat.one_pos
  · exact power_pos Nat.two_pos _

/-- A double that is a natural number is its integer part. -/
theorem truncate_of_signedNum {x : Binary64} {n : Nat} (h : x.signedNum = n * x.ratio.den) :
    x.truncate = n := by
  have hden := x.den_ratio_pos
  unfold signedNum at h
  unfold truncate
  dsimp only
  split_ifs at h ⊢
  · -- only zero has a minus sign
    have hprod : (0 : Int) ≤ n * x.ratio.den :=
      Int.mul_nonneg (Int.natCast_nonneg n) (Int.natCast_nonneg _)
    have hnum : x.ratio.num = 0 := by omega
    rw [hnum] at h
    have hn : (n : Int) = 0 := (Int.mul_eq_zero.mp h.symm).resolve_right (by omega)
    rw [hnum, Nat.zero_div, hn]
    rfl
  · have hnum : x.ratio.num = n * x.ratio.den :=
      Int.ofNat_inj.mp (h.trans (Int.natCast_mul n _).symm)
    rw [hnum, Nat.mul_div_cancel n hden]

end Number.Binary64

namespace Json

/-- The value is this number, compared exactly. -/
def IsInteger : Json → Int → Prop
  | .int m, n => m = n
  | .float x, n => x.signedNum = n * x.ratio.den
  | _, _ => False

/-- The values are equal, where numbers are compared exactly. -/
def Same (a b : Json) : Prop := a = b ∨ ∃ n, a.IsInteger n ∧ b.IsInteger n

/-- The value is a natural number of 64 bits. -/
def IsWord (j : Json) : Prop := ∃ n : UInt64, j.IsInteger n.toNat

/-- The value of a key, if the value is an object that has it and it is not `null`. -/
def given? (j : Json) (key : Text) : Option Json :=
  match j.member? key with
  | some .null => none
  | found => found

end Json

namespace CompilerOptions

/-! ### The depth -/

theorem wordOfInt_toNat (n : UInt64) : wordOfInt n.toNat = n := by
  have hlt : (n.toNat : Int) < Number.unsignedLimit := by
    have := n.toNat_lt
    unfold Number.unsignedLimit
    omega
  rw [wordOfInt, Int.emod_eq_of_lt (by omega) hlt, Int.toNat_natCast]
  exact UInt64.ofNat_toNat

/-- A word is read as it is. -/
theorem word_of_isInteger {j : Json} {n : UInt64} (h : j.IsInteger n.toNat) : word j = .ok n := by
  cases j with
  | int m =>
    obtain rfl : m = n.toNat := h
    rw [word, wordOfInt_toNat]
  | float x =>
    have htruncate : x.truncate = n.toNat := Number.Binary64.truncate_of_signedNum h
    have hlt := n.toNat_lt
    rw [word, htruncate, if_neg, if_neg, wordOfInt_toNat]
    · unfold Number.signedLimit; omega
    · unfold Number.unsignedLimit; omega
  | _ => exact absurd h id

/-- **The word that a number is converted to is the number exactly if that is a word.** -/
theorem same_word_iff {j : Json} {n : UInt64} (h : word j = .ok n) :
    (Json.int n.toNat).Same j ↔ j.IsWord := by
  constructor
  · rintro (rfl | ⟨m, hm, hj⟩)
    · exact ⟨n, rfl⟩
    · obtain rfl : (n.toNat : Int) = m := hm
      exact ⟨n, hj⟩
  · rintro ⟨m, hm⟩
    obtain rfl : n = m := Except.ok.inj (h.symm.trans (word_of_isInteger hm))
    exact Or.inr ⟨n.toNat, rfl, hm⟩

/-! ### Members -/

section Members
variable {α : Type} {j : Json} {key : Text} {read : Json → Except Json.ShapeError α} {default a : α}

theorem readMember_eq : readMember j key read default =
    (j.given? key).elim (.ok default) fun value =>
      (read value).mapError fun _ => .invalidValue key := by
  unfold readMember Json.given?
  cases j.member? key with
  | none => rfl
  | some value => cases value <;> rfl

/-- **A member is read as the default or as what is given.** -/
theorem readMember_eq_ok : readMember j key read default = .ok a ↔
    (j.given? key = none ∧ a = default) ∨ ∃ value, j.given? key = some value ∧ read value = .ok a := by
  rw [readMember_eq]
  cases j.given? key with
  | none => simp [eq_comm]
  | some value => simp [Success.mapError_eq_ok]

end Members

theorem ofJson_eq_ok {j : Json} {o : CompilerOptions} :
    ofJson j = .ok o ↔ ∃ members, j = .object members ∧
      readMember j "addTypename" Json.asBool false = .ok o.addTypename ∧
      readMember j "mergeInFieldsFromFragmentSpreads" Json.asBool true =
        .ok o.mergeInFieldsFromFragmentSpreads ∧
      readMember j "passthroughCustomScalars" Json.asBool false =
        .ok o.passthroughCustomScalars ∧
      readMember j "customScalarsPrefix" Json.asText [] = .ok o.customScalarsPrefix ∧
      readMember j "namespace" Json.asText [] = .ok o.namespaceName ∧
      readMember j "generateOperationIds" Json.asBool false = .ok o.generateOperationIds ∧
      readMember j "maxSelectionDepth" word 512 = .ok o.maxSelectionDepth := by
  cases j with
  | object members =>
    simp only [ofJson, Success.bind_eq_ok]
    constructor
    · rintro ⟨a, ha, b, hb, c, hc, d, hd, e, he, f, hf, g, hg, h⟩
      obtain rfl := Except.ok.inj h
      exact ⟨members, rfl, ha, hb, hc, hd, he, hf, hg⟩
    · rintro ⟨_, _, ha, hb, hc, hd, he, hf, hg⟩
      exact ⟨_, ha, _, hb, _, hc, _, hd, _, he, _, hf, _, hg, rfl⟩
  | _ => exact ⟨fun h => (by cases h), fun ⟨_, h, _⟩ => (by cases h)⟩

/-! ### The JSON form -/

/-- The members of the JSON form. -/
def shown (o : CompilerOptions) : Json.Members :=
  [("addTypename", .bool o.addTypename),
    ("mergeInFieldsFromFragmentSpreads", .bool o.mergeInFieldsFromFragmentSpreads),
    ("passthroughCustomScalars", .bool o.passthroughCustomScalars),
    ("customScalarsPrefix", .string o.customScalarsPrefix),
    ("namespace", .string o.namespaceName),
    ("generateOperationIds", .bool o.generateOperationIds),
    ("maxSelectionDepth", .int o.maxSelectionDepth.toNat)]

/-- The keys of options. -/
def keys : List Text := (shown {}).map Prod.fst

theorem member?_toJson {o : CompilerOptions} {key : Text} {value : Json}
    (h : (key, value) ∈ o.shown) : o.toJson.member? key = some value := by
  have hkeys : (o.shown.map Prod.fst).Nodup := show keys.Nodup by decide +kernel
  exact Json.member?_ofMembers_of_mem hkeys h

/-- What options show under a key is what an object gives there, or the default where it gives
nothing. A depth that is given is shown exactly if it is a word. -/
def Shows (o : CompilerOptions) (j : Json) (key : Text) : Prop :=
  ∃ value, o.toJson.member? key = some value ∧
    (j.given? key = none → (toJson {}).member? key = some value) ∧
    ∀ given, j.given? key = some given →
      (value.Same given ↔ (key = "maxSelectionDepth" → given.IsWord))

theorem shows_of_readMember {α : Type} {j : Json} {o : CompilerOptions} {key : Text}
    {read : Json → Except Json.ShapeError α} (encode : α → Json) {default a : α}
    (hread : readMember j key read default = .ok a) (hshown : (key, encode a) ∈ o.shown)
    (hdefault : (key, encode default) ∈ shown {})
    (hsame : ∀ given, read given = .ok a →
      ((encode a).Same given ↔ (key = "maxSelectionDepth" → given.IsWord))) : o.Shows j key := by
  refine ⟨encode a, member?_toJson hshown, fun hnone => ?_, fun given hgiven => ?_⟩
  · obtain ⟨-, rfl⟩ | ⟨_, h, -⟩ := readMember_eq_ok.mp hread
    · exact member?_toJson hdefault
    · rw [hnone] at h
      cases h
  · obtain ⟨h, -⟩ | ⟨_, h, hvalue⟩ := readMember_eq_ok.mp hread
    · rw [hgiven] at h
      cases h
    · rw [hgiven] at h
      obtain rfl := Option.some.inj h
      exact hsame _ hvalue

/-- A member of another key, which is read without a conversion, is shown as it was given. -/
theorem shows_of_exact {α : Type} {j : Json} {o : CompilerOptions} {key : Text}
    {read : Json → Except Json.ShapeError α} {encode : α → Json} {default a : α}
    (hread : readMember j key read default = .ok a) (hshown : (key, encode a) ∈ o.shown)
    (hdefault : (key, encode default) ∈ shown {}) (hne : key ≠ "maxSelectionDepth")
    (hexact : ∀ {given}, read given = .ok a → given = encode a) : o.Shows j key :=
  shows_of_readMember encode hread hshown hdefault fun _ h =>
    iff_of_true (Or.inl (hexact h).symm) fun hkey => absurd hkey hne

theorem eq_bool_of_asBool {j : Json} {b : Bool} (h : j.asBool = .ok b) : j = .bool b := by
  cases j with
  | bool _ => exact congrArg _ (Except.ok.inj h)
  | _ => cases h

theorem eq_string_of_asText {j : Json} {t : Text} (h : j.asText = .ok t) : j = .string t := by
  cases j with
  | string _ => exact congrArg _ (Except.ok.inj h)
  | _ => cases h

theorem ofJson_shows {j : Json} {o : CompilerOptions} (h : ofJson j = .ok o) :
    ∀ key ∈ keys, o.Shows j key := by
  obtain ⟨_, -, hTypename, hMerge, hPass, hPrefix, hNamespace, hIds, hDepth⟩ := ofJson_eq_ok.mp h
  intro key hkey
  simp only [keys, shown, List.map_cons, List.map_nil, List.mem_cons, List.not_mem_nil,
    or_false] at hkey
  obtain rfl | rfl | rfl | rfl | rfl | rfl | rfl := hkey
  · exact shows_of_exact hTypename (by simp [shown]) (by simp [shown]) (by decide)
      eq_bool_of_asBool
  · exact shows_of_exact hMerge (by simp [shown]) (by simp [shown]) (by decide) eq_bool_of_asBool
  · exact shows_of_exact hPass (by simp [shown]) (by simp [shown]) (by decide) eq_bool_of_asBool
  · exact shows_of_exact hPrefix (by simp [shown]) (by simp [shown]) (by decide)
      eq_string_of_asText
  · exact shows_of_exact hNamespace (by simp [shown]) (by simp [shown]) (by decide)
      eq_string_of_asText
  · exact shows_of_exact hIds (by simp [shown]) (by simp [shown]) (by decide) eq_bool_of_asBool
  · exact shows_of_readMember (fun n : UInt64 => .int n.toNat) hDepth (by simp [shown])
      (by simp [shown]) fun _ hword => (same_word_iff hword).trans ⟨fun h _ => h, fun h => h rfl⟩

/-! ### Reading again -/

/-- A member of the JSON form is read as what it shows. -/
theorem readMember_toJson {α : Type} {o : CompilerOptions} {key : Text}
    {read : Json → Except Json.ShapeError α} (value : Json) {default a : α}
    (hshown : (key, value) ∈ o.shown) (hnull : value ≠ .null) (hread : read value = .ok a) :
    readMember o.toJson key read default = .ok a := by
  refine readMember_eq_ok.mpr (Or.inr ⟨value, ?_, hread⟩)
  rw [Json.given?, member?_toJson hshown]
  cases value with
  | null => exact absurd rfl hnull
  | _ => rfl

theorem ofJson_toJson (o : CompilerOptions) : ofJson o.toJson = .ok o := by
  refine ofJson_eq_ok.mpr ⟨_, rfl, ?_, ?_, ?_, ?_, ?_, ?_, ?_⟩
  · exact readMember_toJson (.bool _) (by simp [shown]) nofun rfl
  · exact readMember_toJson (.bool _) (by simp [shown]) nofun rfl
  · exact readMember_toJson (.bool _) (by simp [shown]) nofun rfl
  · exact readMember_toJson (.string _) (by simp [shown]) nofun rfl
  · exact readMember_toJson (.string _) (by simp [shown]) nofun rfl
  · exact readMember_toJson (.bool _) (by simp [shown]) nofun rfl
  · exact readMember_toJson (.int _) (by simp [shown]) nofun (word_of_isInteger rfl)

theorem readMember_congr {α : Type} {j j' : Json} {key : Text}
    {read : Json → Except Json.ShapeError α} {default : α} (h : j'.given? key = j.given? key) :
    readMember j' key read default = readMember j key read default := by
  rw [readMember_eq, readMember_eq, h]

/-- Only what is given under the known keys counts. -/
theorem ofJson_congr {j : Json} {members : Json.Members} {o : CompilerOptions}
    (h : ofJson j = .ok o) (hsame : ∀ key ∈ keys, (Json.object members).given? key = j.given? key) :
    ofJson (.object members) = .ok o := by
  obtain ⟨_, -, hTypename, hMerge, hPass, hPrefix, hNamespace, hIds, hDepth⟩ := ofJson_eq_ok.mp h
  refine ofJson_eq_ok.mpr ⟨members, rfl, ?_, ?_, ?_, ?_, ?_, ?_, ?_⟩
  · exact (readMember_congr (hsame _ (by simp [keys, shown]))).trans hTypename
  · exact (readMember_congr (hsame _ (by simp [keys, shown]))).trans hMerge
  · exact (readMember_congr (hsame _ (by simp [keys, shown]))).trans hPass
  · exact (readMember_congr (hsame _ (by simp [keys, shown]))).trans hPrefix
  · exact (readMember_congr (hsame _ (by simp [keys, shown]))).trans hNamespace
  · exact (readMember_congr (hsame _ (by simp [keys, shown]))).trans hIds
  · exact (readMember_congr (hsame _ (by simp [keys, shown]))).trans hDepth

/-- **Options mean what the object says.** Every key that is known is shown with the value that is
given, or with its default, except for a depth that is no word; nothing else that the object holds
counts; and the JSON form of any options is read as these options. -/
theorem ofJson_shown {j : Json} {o : CompilerOptions} (h : ofJson j = .ok o) :
    (∀ key ∈ keys, o.Shows j key) ∧
      (∀ members, (∀ key ∈ keys, (Json.object members).given? key = j.given? key) →
        ofJson (.object members) = .ok o) ∧
      ∀ o' : CompilerOptions, ofJson o'.toJson = .ok o' :=
  ⟨ofJson_shows h, fun _ => ofJson_congr h, ofJson_toJson⟩

/-- An object with a `null`, a depth that is the double 64, a text and an unknown key. -/
def mixed : Json :=
  .object [("addTypename", .null), ("maxSelectionDepth", .float ⟨0x4050000000000000⟩),
    ("namespace", .string "Api"), ("other", .int 1)]

theorem ofJson_shown_mixed :
    ofJson mixed = .ok { namespaceName := "Api", maxSelectionDepth := 64 } ∧
      ∀ key ∈ keys, Shows { namespaceName := "Api", maxSelectionDepth := 64 } mixed key :=
  have h : ofJson mixed = .ok { namespaceName := "Api", maxSelectionDepth := 64 } := by
    decide +kernel
  ⟨h, (ofJson_shown h).1⟩

/-- A negative number is no depth, but it is accepted and shown as another number. -/
theorem ofJson_shown_negative :
    ∃ o value, ofJson (.object [("maxSelectionDepth", .int (-1))]) = .ok o ∧
      o.toJson.member? "maxSelectionDepth" = some value ∧ ¬ value.Same (.int (-1)) := by
  refine ⟨{ maxSelectionDepth := 0xFFFFFFFFFFFFFFFF }, .int 0xFFFFFFFFFFFFFFFF, ?_, ?_, ?_⟩
  · decide +kernel
  · exact member?_toJson (by simp [shown])
  · rintro (h | ⟨n, hshown, hgiven⟩)
    · cases h
    · cases hshown.trans hgiven.symm

end CompilerOptions

end QueryCompiler
