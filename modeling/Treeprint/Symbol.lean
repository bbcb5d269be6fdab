import Treeprint.Name

/-!
# Symbols

A symbol is a dotted path to a name: `A.B.c` has the modules `A`, `B` and the name `c`. A path is
found one segment at a time, so the only way to change a symbol is to add a segment at its end.
-/

namespace Treeprint

/-- A dotted path, modules outermost first. -/
structure Symbol where
  modules : List Name
  name : Name
  deriving DecidableEq, Repr, Inhabited

namespace Symbol

def unqualified (n : Name) : Symbol := ⟨[], n⟩

/-- Adds a segment: `A.B` becomes `A.B.next`. -/
def shift (s : Symbol) (next : Name) : Symbol := ⟨s.modules ++ [s.name], next⟩

def isQualified (s : Symbol) : Bool := !s.modules.isEmpty

/-- All segments, ending with the name. -/
def segments (s : Symbol) : List Name := s.modules ++ [s.name]

end Symbol

end Treeprint
