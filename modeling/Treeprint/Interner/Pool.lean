import Treeprint.Interner.Shared

/-!
# Pools of interners

A pool holds interners and references to them. Cloning a reference gives a second reference to the
same interner, so what is interned through one is seen through the other.
-/

namespace Treeprint.Interner

/-- The interners of a pool, and for each reference the position of its interner. -/
structure Pool where
  stores : Array Interner
  references : Array Nat

namespace Pool

def single (i : Interner) : Pool := ⟨#[i], #[0]⟩

def get? (p : Pool) (r : Nat) : Option Interner := do p.stores[← p.references[r]?]?

/-- Replaces the interner that a reference stands for, for all references to it. -/
def set (p : Pool) (r : Nat) (i : Interner) : Pool :=
  match p.references[r]? with
  | some s => { p with stores := p.stores.setIfInBounds s i }
  | none => p

/-- A second reference to the interner of `r`, and its position. -/
def clone? (p : Pool) (r : Nat) : Option (Nat × Pool) := do
  let s ← p.references[r]?
  return (p.references.size, { p with references := p.references.push s })

def fresh (p : Pool) : Nat × Pool :=
  (p.references.size, ⟨p.stores.push empty, p.references.push p.stores.size⟩)

/-- The interners as the references see them, in order. -/
def views (p : Pool) : List Interner := (List.range p.references.size).filterMap p.get?

end Pool

end Treeprint.Interner
