import Treeprint.Printer.Doc
import Treeprint.Printer.Sink

/-!
# Printing documents

A document is printed from left to right into a sink. A name is looked up at the moment at which
its text is due, so a foreign name stops the printing there, after all that stands before it.
-/

namespace Treeprint

namespace Doc

def print (ctx : Context) : Doc → Printer Unit
  | .empty => pure ()
  | .text s => Printer.write s
  | .name n => do Printer.write (← Printer.lookup ctx n)
  | .quoted n => do Printer.write (Text.quoted (← Printer.lookup ctx n))
  | .indent => Printer.writeIndent ctx
  | .append a b => do
    a.print ctx
    b.print ctx
  | .scope d => Printer.within (d.print ctx)

/-- The text of a document in a text of its own, at the depth of the sink. The sink's own text
stays as it is, also at a fault. -/
def render (ctx : Context) (d : Doc) : Printer String := fun k =>
  match d.print ctx ⟨k.depth, "", k.events⟩ with
  | .ok _ k' => .ok k'.out ⟨k'.depth, k.out, k'.events⟩
  | .error fault k' => .error fault ⟨k'.depth, k.out, k'.events⟩

def toText (ctx : Context) (d : Doc) : Except Fault String :=
  match d.render ctx {} with
  | .ok s _ => .ok s
  | .error fault _ => .error fault

end Doc

end Treeprint
