/-!
# Keywords

The nineteen keywords are names with a meaning of their own.  The second and third characters
of a keyword other than `on` tell it apart from all others, and a multiplicative hash of these
two spreads the keywords over a table of 32 slots without a collision.  So a name is looked up
by one multiplication and one comparison with the only candidate of its slot
(`Keyword.ofName?`).
-/

namespace GraphQL

/-- A name with a meaning of its own. -/
inductive Keyword where
  | on
  | fragment
  | boolTrue
  | boolFalse
  | null
  | query
  | mutation
  | subscription
  | schema
  | scalar
  | type
  | extend
  | implements
  | interface
  | union
  | enum
  | input
  | directive
  | repeatable
  deriving DecidableEq, Repr

namespace Keyword

/-- Every keyword. -/
def all : List Keyword :=
  [on, fragment, boolTrue, boolFalse, null, query, mutation, subscription, schema, scalar, type,
    extend, implements, interface, union, enum, input, directive, repeatable]

/-- The written form of a keyword. -/
def text : Keyword → String
  | on => "on"
  | fragment => "fragment"
  | boolTrue => "true"
  | boolFalse => "false"
  | null => "null"
  | query => "query"
  | mutation => "mutation"
  | subscription => "subscription"
  | schema => "schema"
  | scalar => "scalar"
  | type => "type"
  | extend => "extend"
  | implements => "implements"
  | interface => "interface"
  | union => "union"
  | enum => "enum"
  | input => "input"
  | directive => "directive"
  | repeatable => "repeatable"

/-- The hash table: the slot of each keyword of three characters or more. -/
def slots : List (Option Keyword) :=
  [none, some fragment, none, none, none, some schema, none, some subscription,
    some interface, some mutation, some extend, none, some union, none, some enum, some boolTrue,
    none, some repeatable, some implements, some input, some type, none, none, none,
    some query, none, none, some boolFalse, none, some directive, some null, some scalar]

/-- The factor of the multiplicative hash. -/
def multiplier : Nat := 19637591

/-- The slot of a name with the given second and third characters: the five highest of the 32
lowest bits of a product. -/
def slot (second third : Char) : Nat :=
  ((second.toNat + 256 * third.toNat) * multiplier % 0x100000000) >>> 27

/-- The keyword that a name is, looked up in the hash table. -/
def ofName? (name : String) : Option Keyword :=
  match name.toList with
  | ['o', 'n'] => some on
  | _ :: second :: third :: _ => slots[slot second third]?.join.filter (·.text == name)
  | _ => none

end Keyword

end GraphQL
