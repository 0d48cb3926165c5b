import QueryCompiler.Number.Binary64

/-!
# JSON values

Numbers are integers or doubles. The members of an object are listed in the order of their keys, by
octets, and no key occurs twice: a member that is set again gets the new value.

* `Json.member?` finds nothing in a value that is no object, while `Json.member`, `Json.asText` and
  `Json.asBool` refuse a value of another shape.
* `Json.elements`: what iterating a value yields.
-/

namespace QueryCompiler

/-- A JSON value. -/
inductive Json
  | null
  | bool (b : Bool)
  | int (n : Int)
  | float (x : Number.Binary64)
  | string (text : Text)
  | array (values : List Json)
  | object (members : List (Text × Json))
  deriving Inhabited

namespace Json

/-- The value has another shape than a reader asked for. -/
inductive ShapeError
  /-- An object was asked for, to look up a key. -/
  | notAnObject
  /-- The object has no such key. -/
  | missingKey (key : Text)
  /-- A string was asked for. -/
  | notAString
  /-- A boolean was asked for. -/
  | notABoolean
  /-- A number was asked for. -/
  | notANumber
  deriving DecidableEq

/-! ### Objects -/

/-- The members of an object: keys with values. -/
abbrev Members := List (Text × Json)

/-- The members with one of them set. -/
def setMember (key : Text) (value : Json) : Members → Members
  | [] => [(key, value)]
  | (k, v) :: rest =>
    if key < k then (key, value) :: (k, v) :: rest
    else if key = k then (key, value) :: rest
    else (k, v) :: setMember key value rest

/-- The object of a list of members, set one after the other. -/
def ofMembers (members : Members) : Json :=
  .object (members.foldl (fun object m => setMember m.1 m.2 object) [])

/-- The members of an object, none of any other value. -/
def members : Json → Members
  | .object members => members
  | _ => []

/-- The value of a key, if the value is an object that has it. -/
def member? (j : Json) (key : Text) : Option Json := j.members.lookup key

/-- Whether the value is an object that has the key. -/
def hasMember (j : Json) (key : Text) : Bool := (j.member? key).isSome

/-- The value of a key that an object must have. -/
def member (j : Json) (key : Text) : Except ShapeError Json :=
  match j with
  | .object members =>
    match members.lookup key with
    | some value => .ok value
    | none => .error (.missingKey key)
  | _ => .error .notAnObject

/-! ### Reading -/

/-- Whether the value is `null`. -/
def isNull : Json → Bool
  | .null => true
  | _ => false

/-- The text of a string. -/
def asText : Json → Except ShapeError Text
  | .string text => .ok text
  | _ => .error .notAString

/-- The truth value of a boolean. -/
def asBool : Json → Except ShapeError Bool
  | .bool b => .ok b
  | _ => .error .notABoolean

/-- The integer part of a number. -/
def asInt : Json → Except ShapeError Int
  | .int n => .ok n
  | .float x => .ok x.truncate
  | _ => .error .notANumber

/-- The text under a key that an object must have. -/
def memberText (j : Json) (key : Text) : Except ShapeError Text := do (← j.member key).asText

/-- The text under a key; nothing if there is no such member or it is `null`. -/
def memberText? (j : Json) (key : Text) : Except ShapeError (Option Text) :=
  match j.member? key with
  | none => .ok none
  | some .null => .ok none
  | some value => return some (← value.asText)

/-- What iterating the value yields: the elements of an array, the values of an object in the order
of its keys, nothing for `null`, and any other value itself. -/
def elements : Json → List Json
  | .null => []
  | .array values => values
  | .object members => members.map Prod.snd
  | j => [j]

/-! ### Laws of objects -/

theorem lookup_setMember (key k : Text) (value : Json) (members : Members)
    (hs : members.Pairwise fun a b => a.1 < b.1) :
    (setMember key value members).lookup k =
      if k = key then some value else members.lookup k := by
  induction members with
  | nil =>
    by_cases h : k = key
    · simp [setMember, h]
    · have : (k == key) = false := by simpa using h
      simp [setMember, List.lookup_cons, h, this]
  | cons m rest ih =>
    obtain ⟨a, v⟩ := m
    have hs' := (List.pairwise_cons.mp hs).2
    unfold setMember
    by_cases hk : k = key
    · subst hk
      split
      · simp
      · split
        · simp
        · rename_i hne
          have : (k == a) = false := by simpa using hne
          simp [List.lookup_cons, this, ih hs']
    · have hk' : (k == key) = false := by simpa using hk
      split
      · simp [List.lookup_cons, hk']
      · split
        · rename_i he
          subst he
          simp [List.lookup_cons, hk']
        · by_cases ha : k = a
          · subst ha; simp
          · have : (k == a) = false := by simpa using ha
            simp [List.lookup_cons, this, ih hs', hk]

end Json

end QueryCompiler
