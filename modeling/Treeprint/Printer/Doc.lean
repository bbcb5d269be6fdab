import Treeprint.Chain
import Treeprint.Name

/-!
# Documents

A document says what to print without knowing texts or depths: literal text, names whose text is
looked up when they are printed, indentation for the depth at hand, and parts that stand one scope
deeper. The layouts that many forms share are here: parts joined by a separator, parts in braces,
and the elements of a chain in brackets.
-/

namespace Treeprint

inductive Doc where
  | empty
  | text (s : String)
  /-- The text of a name. -/
  | name (n : Name)
  /-- The text of a name as a string literal. -/
  | quoted (n : Name)
  /-- The indentation of the current depth. -/
  | indent
  | append (first second : Doc)
  /-- A part that stands one scope deeper. -/
  | scope (inner : Doc)
  deriving DecidableEq, Repr, Inhabited

namespace Doc

instance : Append Doc := ⟨append⟩

def concat : List Doc → Doc
  | [] => .empty
  | d :: ds => d ++ concat ds

/-- The documents after the first of a sequence, each behind the separator. -/
def separatedTail (sep : String) : List Doc → Doc
  | [] => .empty
  | d :: ds => .text sep ++ d ++ separatedTail sep ds

def separated (sep : String) : List Doc → Doc
  | [] => .empty
  | d :: ds => d ++ separatedTail sep ds

/-- Braces around documents: nothing between them, or the documents with spaces and commas. -/
def braced : List Doc → Doc
  | [] => .text "\x7b\x7d"
  | d :: ds => .text "\x7b " ++ separated ", " (d :: ds) ++ .text " \x7d"

/-- Each document on a line of its own, indented. -/
def lines : List Doc → Doc
  | [] => .empty
  | d :: ds => .indent ++ d ++ .text "\n" ++ lines ds

def block (ds : List Doc) : Doc := .scope (lines ds)

/-- Walks a chain from the front. An element is behind a comma unless it is the first, the value
after a node without one is behind a double colon and ends the walk. -/
def walk (first : Bool) : Chain Doc → Doc
  | .element v t => (if first then v else .text ", " ++ v) ++ walk false t
  | .last v => if first then v else .text ", " ++ v
  | .rest t =>
    match t.value? with
    | some v => .text " :: " ++ v
    | none => .empty
  | .terminator => .empty

def bracketed (c : Chain Doc) : Doc := .text "[" ++ walk true c ++ .text "]"

end Doc

end Treeprint
