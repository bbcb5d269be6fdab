import Treeprint.Printer.Print

/-!
# Printing sessions

A session works on one sink by a list of actions: entering and leaving scopes by hand, writing
indentation or a document, asking for depth, width, indentation or the text of a name, and running
further actions within a scope. A fault within a scope ends the whole action that opened it; the
scope is left, and the session goes on with the next action.
-/

namespace Treeprint.Session

inductive Action where
  | scopeStart
  | scopeEnd
  | writeIndent
  /-- Prints a document into the sink. -/
  | print (d : Doc)
  /-- Prints a document into a text of its own. -/
  | render (d : Doc)
  | depth
  | indentWidth
  | indentation
  | lookup (n : Name)
  /-- Does actions one scope deeper. -/
  | within (actions : List Action)

inductive Answer where
  | done
  | number (n : Nat)
  | text (s : String)
  /-- The answers of the actions within a scope, each with the depth after it. -/
  | nested (answers : List (Answer × Nat))

mutual

def Action.run (ctx : Context) : Action → Printer Answer
  | .scopeStart => do Printer.scopeStart; return .done
  | .scopeEnd => do Printer.scopeEnd; return .done
  | .writeIndent => do Printer.writeIndent ctx; return .done
  | .print d => do d.print ctx; return .done
  | .render d => do return .text (← d.render ctx)
  | .depth => do return .number (← get).depth
  | .indentWidth => do return .number (← Printer.indentWidth ctx)
  | .indentation => do return .text (← Printer.indentation ctx)
  | .lookup n => do return .text (← Printer.lookup ctx n)
  | .within actions => do return .nested (← Printer.within (Action.runAll ctx actions))

/-- Does actions in order, each answer with the depth after it. -/
def Action.runAll (ctx : Context) : List Action → Printer (List (Answer × Nat))
  | [] => pure []
  | a :: rest => do
    let answer ← a.run ctx
    let depth := (← get).depth
    let answers ← Action.runAll ctx rest
    return (answer, depth) :: answers

end

/-- What came of an action of the session, and the sink after it. -/
structure Report where
  outcome : Except Fault Answer
  sink : Sink

/-- Does one action of the session, which goes on after a fault. -/
def Action.report (ctx : Context) (a : Action) (k : Sink) : Report :=
  match a.run ctx k with
  | .ok answer k => ⟨.ok answer, k⟩
  | .error fault k => ⟨.error fault, k⟩

def run (ctx : Context) : List Action → Sink → List Report
  | [], _ => []
  | a :: rest, k =>
    let r := a.report ctx k
    r :: run ctx rest r.sink

end Treeprint.Session
