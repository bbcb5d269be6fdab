/-!
# Names

A name is a small handle for a text. Handles are dense: the first text an interner meets has
handle 0, the next one 1, and so on. A handle means something only to the interner that issued it,
so nothing here knows a text.
-/

namespace Treeprint

structure Name where
  raw : UInt32
  deriving DecidableEq, Repr, Inhabited

namespace Name

def count : Nat := UInt32.size

/-- The position of the handle's text among the texts of its interner. -/
def index (n : Name) : Nat := n.raw.toNat

instance : Ord Name := ⟨fun a b => compare a.raw b.raw⟩

/-- The handle in text: `Name(3)`. -/
def label (n : Name) : String := "Name(" ++ toString n.index ++ ")"

inductive IndexError where
  | tooLarge (index : Nat)
  deriving DecidableEq, Repr

def IndexError.message : IndexError → String
  | .tooLarge i => "name index " ++ toString i ++ " exceeds u32::MAX"

/-- The handle at a position, for the positions that have one. -/
def ofIndex (i : Nat) : Except IndexError Name :=
  if h : i < count then .ok ⟨UInt32.ofNatLT i h⟩ else .error (.tooLarge i)

end Name

end Treeprint
