/-!
# Values and types

Input values and references to types, as trees.  Each node keeps the byte offset where its first
token starts.  Numbers keep their source text; string literals keep their value and whether they
were written as block strings.
-/

namespace GraphQL

/-- A variable, starting at its dollar sign. -/
structure Variable where
  /-- The name, without the dollar sign. -/
  name : String
  /-- The offset of the dollar sign. -/
  start : Nat
  deriving DecidableEq, Repr

/-- A bare name that stands for a value. -/
structure EnumValue where
  /-- The name. -/
  value : String
  /-- The offset of the name. -/
  start : Nat
  deriving DecidableEq, Repr

/-- A name with a value: an argument, or a field of an object value. -/
structure NamedValue (ν : Type) where
  /-- The name. -/
  name : String
  /-- What the name is given. -/
  value : ν
  /-- The offset of the name. -/
  start : Nat
  deriving Repr

/-- An input value. -/
inductive Value where
  /-- The use of a variable. -/
  | var (v : Variable)
  /-- An integer, as its source text. -/
  | int (text : String) (start : Nat)
  /-- A number with a fraction or an exponent, as its source text. -/
  | float (text : String) (start : Nat)
  /-- A string, and whether it is written as a block string. -/
  | string (value : String) (block : Bool) (start : Nat)
  /-- A Boolean. -/
  | boolean (value : Bool) (start : Nat)
  /-- The null value. -/
  | null (start : Nat)
  /-- A bare name. -/
  | enum (e : EnumValue)
  /-- Values in brackets. -/
  | list (values : List Value) (start : Nat)
  /-- Names with values, in braces. -/
  | object (fields : List (NamedValue Value)) (start : Nat)
  deriving Repr

/-- The name and value of an argument. -/
abbrev Argument := NamedValue Value

/-- The name and value of a field in an object value. -/
abbrev ObjectField := NamedValue Value

/-- The offset of a value's first token. -/
def Value.start : Value → Nat
  | var v => v.start
  | enum e => e.start
  | int _ start | float _ start | string _ _ start | boolean _ start | null start
  | list _ start | object _ start => start

/-- A type mentioned by its name. -/
structure NamedType where
  /-- The name. -/
  name : String
  /-- The offset of the name. -/
  start : Nat
  deriving DecidableEq, Repr

/-- A reference to a type.  A non-null type starts where the type that it wraps starts. -/
inductive TypeRef where
  /-- A type mentioned by its name. -/
  | named (t : NamedType)
  /-- The lists of items of a type. -/
  | list (item : TypeRef) (start : Nat)
  /-- A type without its null value. -/
  | nonNull (inner : TypeRef) (start : Nat)
  deriving DecidableEq, Repr

namespace TypeRef

/-- The offset of the first token. -/
def start : TypeRef → Nat
  | named t => t.start
  | list _ start | nonNull _ start => start

/-- The named type under all list and non-null wrappers. -/
def innermost : TypeRef → NamedType
  | named t => t
  | list item _ => item.innermost
  | nonNull inner _ => inner.innermost

/-- The type as it is written in a source text, without blanks. -/
def text : TypeRef → String
  | named t => t.name
  | list item _ => "[" ++ item.text ++ "]"
  | nonNull inner _ => inner.text ++ "!"

end TypeRef

/-! ### Equality of values -/

mutual

/-- Whether two values are the same in every part. -/
def Value.same : Value → Value → Bool
  | .var v, .var w => v = w
  | .int s m, .int t n => s = t && m = n
  | .float s m, .float t n => s = t && m = n
  | .string s b m, .string t c n => s = t && b = c && m = n
  | .boolean b m, .boolean c n => b = c && m = n
  | .null m, .null n => m = n
  | .enum d, .enum e => d = e
  | .list vs m, .list ws n => Value.sameList vs ws && m = n
  | .object fs m, .object gs n => Value.sameFields fs gs && m = n
  | _, _ => false

/-- Whether two lists hold the same values. -/
def Value.sameList : List Value → List Value → Bool
  | [], [] => true
  | a :: as, b :: bs => a.same b && Value.sameList as bs
  | _, _ => false

/-- Whether two lists hold the same fields. -/
def Value.sameFields : List (NamedValue Value) → List (NamedValue Value) → Bool
  | [], [] => true
  | ⟨s, a, m⟩ :: as, ⟨t, b, n⟩ :: bs =>
    s = t && a.same b && m = n && Value.sameFields as bs
  | _, _ => false

end

mutual

theorem Value.same_iff : (a b : Value) → (a.same b = true ↔ a = b)
  | .list vs m, b => by
    cases b <;> simp [Value.same, Value.sameList_iff vs]
  | .object fs m, b => by
    cases b <;> simp [Value.same, Value.sameFields_iff fs]
  | .var _, b | .int _ _, b | .float _ _, b | .string _ _ _, b | .boolean _ _, b | .null _, b
  | .enum _, b => by
    cases b <;> simp [Value.same, and_assoc]

theorem Value.sameList_iff : (as bs : List Value) → (Value.sameList as bs = true ↔ as = bs)
  | [], bs => by cases bs <;> simp [Value.sameList]
  | a :: as, bs => by
    cases bs <;> simp [Value.sameList, Value.same_iff a, Value.sameList_iff as]

theorem Value.sameFields_iff :
    (as bs : List (NamedValue Value)) → (Value.sameFields as bs = true ↔ as = bs)
  | [], bs => by cases bs <;> simp [Value.sameFields]
  | _ :: _, [] => by simp [Value.sameFields]
  | ⟨_, a, _⟩ :: as, ⟨_, _, _⟩ :: _ => by
    simp [Value.sameFields, Value.same_iff a, Value.sameFields_iff as, and_assoc]

end

instance : DecidableEq Value := fun a b => decidable_of_iff _ (Value.same_iff a b)

instance : DecidableEq (NamedValue Value) := fun a b =>
  decidable_of_iff (a.name = b.name ∧ a.value = b.value ∧ a.start = b.start)
    (by cases a; cases b; simp)

end GraphQL
