import Treeprint.Name
import Treeprint.Span

/-!
# Data

Every node has a plain rendition as data: names, spans, words and flags, optional parts,
sequences, chains, and constructors with their parts in order, by position or by field. What must
show all of a node in a fixed order (its bytes, its labelled text, what it feeds to a hasher) is
defined on this rendition.
-/

namespace Treeprint

/-- The constructor of a datum: its label, and its position among the alternatives if it has
any. -/
structure Tag where
  label : String
  index : Option Nat := none
  deriving DecidableEq, Repr

inductive Datum where
  | handle (n : Name)
  | span (s : Span)
  | word (n : UInt64)
  | flag (b : Bool)
  | absent
  | present (d : Datum)
  | seq (items : List Datum)
  /-- The value slots of a chain's nodes, each absent or present. -/
  | chain (slots : List Datum)
  /-- A constructor with its parts by position. -/
  | tuple (tag : Tag) (items : List Datum)
  /-- A constructor with its parts by field. -/
  | record (tag : Tag) (fields : List (String × Datum))
  deriving Repr, Inhabited

namespace Datum

def ofOption : Option Datum → Datum
  | none => absent
  | some d => present d

/-- The alternative `label`, number `index`, with its parts by position. -/
def variant (label : String) (index : Nat) (items : List Datum) : Datum :=
  tuple ⟨label, some index⟩ items

/-- The alternative `label`, number `index`, with its parts by field. -/
def variantRecord (label : String) (index : Nat) (fields : List (String × Datum)) : Datum :=
  record ⟨label, some index⟩ fields

end Datum

end Treeprint
