import Treeprint.Interner
import Treeprint.Text.Quoted
import Treeprint.Text.Spaces

/-!
# Printing primitives

What is printed goes to a sink: the current depth, the text so far, and the scope changes so far.
A printer may stop at a fault. The sink is known also then, and keeps what was written before.

A scope is left on both exits. When its content stops at a fault, the scope is left before the
fault is passed on, so depth and events stay balanced.

The length of the text is looked at where spaces are made, as an indentation may be of any width.
What else is written was a text before, and its length is not looked at: a text that has grown past
the limit in this way stands for no run of a machine.
-/

namespace Treeprint

inductive Fault where
  | foreign (complaint : Interner.Foreign)
  /-- A scope is left at depth 0. -/
  | unmatchedEnd
  /-- The indentation's width is no 64-bit number. -/
  | widthOverflow
  /-- With the indentation the text would reach its limit. -/
  | tooWide
  deriving DecidableEq, Repr

def Fault.message : Fault → String
  | .foreign complaint => complaint.message
  | .unmatchedEnd => "scope_end without matching scope_start"
  | .widthOverflow => "attempt to multiply with overflow"
  | .tooWide => "capacity overflow"

/-- What printing reports beside the text. -/
inductive Event where
  /-- A program of so many statements is about to be printed. -/
  | programStart (statements : Nat)
  /-- A scope was entered; the depth is the new one. -/
  | scopeStart (depth : Nat)
  /-- A scope was left; the depth is the new one. -/
  | scopeEnd (depth : Nat)
  /-- A program was printed in so many bytes. -/
  | programDone (bytes : Nat)
  deriving DecidableEq, Repr

/-- Where the printed text goes. -/
structure Sink where
  depth : Nat := 0
  out : String := ""
  events : Array Event := #[]
  deriving DecidableEq, Repr, Inhabited

namespace Sink

def enter (k : Sink) : Sink :=
  ⟨k.depth + 1, k.out, k.events.push (.scopeStart (k.depth + 1))⟩

def leave (k : Sink) : Sink :=
  ⟨k.depth - 1, k.out, k.events.push (.scopeEnd (k.depth - 1))⟩

end Sink

/-- What stays the same while printing. -/
structure Context where
  interner : Interner
  /-- Spaces per depth. -/
  indentSize : Nat := 2

abbrev Printer := EStateM Fault Sink

namespace Printer

/-- Appends a text. Whether there is space for it is not checked. -/
def write (s : String) : Printer Unit := fun k => .ok () ⟨k.depth, k.out ++ s, k.events⟩

def lookup (ctx : Context) (n : Name) : Printer String := fun k =>
  match ctx.interner.lookup n with
  | .ok text => .ok text k
  | .error complaint => .error (.foreign complaint) k

def indentWidth (ctx : Context) : Printer Nat := fun k =>
  let width := k.depth * ctx.indentSize
  if width < UInt64.size then .ok width k else .error .widthOverflow k

def size : Printer Nat := fun k => .ok k.out.utf8ByteSize k

/-- Spaces to put behind a text of `used` bytes, if it stays below the limit with them. -/
def spaces (used width : Nat) : Printer String :=
  if used + width < Text.limit then return Text.spaces width else throw .tooWide

/-- The indentation of the current depth, as a text of its own. -/
def indentation (ctx : Context) : Printer String := do spaces 0 (← indentWidth ctx)

/-- Writes the indentation of the current depth, or nothing if the text would become too long. -/
def writeIndent (ctx : Context) : Printer Unit := do
  let width ← indentWidth ctx
  let used ← size
  write (← spaces used width)

def scopeStart : Printer Unit := fun k => .ok () k.enter

/-- Leaves a scope; at depth 0 there is none to leave. -/
def scopeEnd : Printer Unit := fun k =>
  if k.depth = 0 then .error .unmatchedEnd k else .ok () k.leave

/-- Runs a printer one scope deeper. A fault of the printer wins over one of leaving the scope. -/
def within {α : Type} (inner : Printer α) : Printer α := fun k =>
  match inner k.enter with
  | .ok a k =>
    match scopeEnd k with
    | .ok _ k => .ok a k
    | .error fault k => .error fault k
  | .error fault k =>
    match scopeEnd k with
    | .ok _ k => .error fault k
    | .error _ k => .error fault k

end Printer

end Treeprint
