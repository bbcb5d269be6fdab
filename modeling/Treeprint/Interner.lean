import Std.Data.HashMap
import Treeprint.Name

/-!
# Interners

An interner hands out one name per distinct text, in the order in which the texts first come up,
and gives the text of a name back. It keeps two tables, from text to name and from position to
text. A text that is present keeps its name for good, also when every handle has been issued.
-/

namespace Treeprint

/-- The two tables of an interner. -/
structure Interner where
  names : Std.HashMap String Name
  texts : Array String

namespace Interner

inductive Error where
  /-- Every handle is issued; the interner holds `count` texts. -/
  | overflow (count : Nat)
  deriving DecidableEq, Repr

namespace Error

def message : Error → String
  | .overflow count =>
    "interner exceeded capacity: " ++ toString count ++ " strings, max is " ++
      toString (Name.count - 1)

def label : Error → String
  | .overflow count => "Overflow \x7b count: " ++ toString count ++ " \x7d"

end Error

/-- A name that the interner never issued, and the number of names that it did issue. -/
structure Foreign where
  name : Name
  count : Nat
  deriving DecidableEq, Repr

def Foreign.message (f : Foreign) : String :=
  f.name.label ++ " was not issued by this interner (" ++ toString f.count ++ " strings interned)"

def empty : Interner := ⟨∅, #[]⟩

/-- An empty interner with room for `capacity` texts. The room is a matter of speed only, as the
tables grow when they have to; so no more than 65536 texts are provided for at once, and a capacity
may be larger than any memory. -/
def withCapacity (capacity : Nat) : Interner :=
  let room := min capacity 65536
  ⟨Std.HashMap.emptyWithCapacity room, Array.mkEmpty room⟩

instance : Inhabited Interner := ⟨empty⟩

def size (i : Interner) : Nat := i.texts.size

def isEmpty (i : Interner) : Bool := i.texts.isEmpty

def find? (i : Interner) (text : String) : Option Name := i.names[text]?

def lookup? (i : Interner) (n : Name) : Option String := i.texts[n.index]?

/-- The text of a name, or the complaint that it is foreign. -/
def lookup (i : Interner) (n : Name) : Except Foreign String :=
  match i.lookup? n with
  | some text => .ok text
  | none => .error ⟨n, i.size⟩

/-- The names and their texts, in the order in which they were issued. -/
def entries (i : Interner) : Except Name.IndexError (List (Name × String)) :=
  i.texts.toList.zipIdx.mapM fun (text, k) => do return (← Name.ofIndex k, text)

end Interner

/-- A computation that may add to an interner. The interner it leaves behind is known also when
it fails. -/
abbrev InternM := EStateM Interner.Error Interner

namespace Interner

/-- Issues the next name for a text, which must be absent. -/
def insert (text : String) (i : Interner) : Except Error Name × Interner :=
  if h : i.texts.size < Name.count then
    let n : Name := ⟨UInt32.ofNatLT i.texts.size h⟩
    (.ok n, ⟨i.names.insert text n, i.texts.push text⟩)
  else (.error (.overflow i.texts.size), i)

/-- The name of a text, issued now if the text is new. A full interner is an answer here. -/
def tryIntern (text : String) (i : Interner) : Except Error Name × Interner :=
  match i.find? text with
  | some n => (.ok n, i)
  | none => insert text i

/-- Makes the answer of a computation its outcome. -/
def demand (answer : Interner → Except Error Name × Interner) : InternM Name := fun i =>
  match answer i with
  | (.ok n, i) => .ok n i
  | (.error e, i) => .error e i

/-- The name of a text, issued now if the text is new. A full interner is a failure here. -/
def intern (text : String) : InternM Name := demand (tryIntern text)

/-- Interning of a text that the caller gives away: when it is new, the tables keep it as it is. -/
def internOwned (text : String) : InternM Name := fun i =>
  match i.find? text with
  | some n => .ok n i
  | none => demand (insert text) i

/-- The interner after a list of texts, with the name of each. -/
def internAll : List String → InternM (List Name)
  | [] => pure []
  | text :: rest => do
    let n ← intern text
    let ns ← internAll rest
    return n :: ns

end Interner

end Treeprint
