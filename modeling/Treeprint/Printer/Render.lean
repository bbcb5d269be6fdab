import Treeprint.Printer.Print
import Treeprint.Printer.Tree
import Treeprint.Tree.Node

/-!
# Rendering nodes

The canonical text of a node at depth 0, and the events of printing it. Printing a program is
reported as a whole: before it with the number of statements, and after it, unless it stopped at a
fault, with the length of the text.
-/

namespace Treeprint

namespace Node

def doc : Node → Doc
  | .value v => v.doc
  | .symbol s => s.doc
  | .type t => t.doc
  | .pattern p => p.doc
  | .expr e => e.doc
  | .stmt s => s.doc
  | .program p => p.doc
  | .exprChain c => Doc.bracketed (Expr.chainDocs c)
  | .patternChain c => Doc.bracketed (Pattern.chainDocs c)

def render (ctx : Context) (n : Node) : Except Fault String := n.doc.toText ctx

end Node

/-- What came of printing, and what was reported meanwhile. -/
structure Trace where
  outcome : Except Fault String
  events : List Event

namespace Trace

/-- The trace of a printer that starts at depth 0 with no text. -/
def ofPrinter (p : Printer String) : Trace :=
  match p {} with
  | .ok s k => ⟨.ok s, k.events.toList⟩
  | .error fault k => ⟨.error fault, k.events.toList⟩

end Trace

def Printer.report (e : Event) : Printer Unit := fun k => .ok () ⟨k.depth, k.out, k.events.push e⟩

/-- Prints a program and reports it. -/
def Program.render (ctx : Context) (p : Program) : Printer String := do
  Printer.report (.programStart p.body.length)
  let text ← p.doc.render ctx
  Printer.report (.programDone text.utf8ByteSize)
  return text

def Node.trace (ctx : Context) : Node → Trace
  | .program p => .ofPrinter (p.render ctx)
  | n => .ofPrinter (n.doc.render ctx)

end Treeprint
