import Treeprint.Proofs.Printer.Foreign
import Treeprint.Proofs.Printer.Parts

/-!
# Scopes as they are reported

What printing reports are scopes that are entered and left, one within the other (`Event.Nested`),
also if it stops at a fault: the scopes that are open then are left one by one. Read from the front,
the depths go up and down by one, never below the depth at which printing began, and come back to it
(`Event.Nested.comesBack`). If printing succeeds, as many scopes are entered as there are scopes in
the document, and those are known from the tree.

Main statement: `Node.print_events`.
-/

namespace Treeprint

namespace Event

/-- Scopes one after the other, entered and left at a depth, with nested ones in between. -/
inductive Nested : Nat → List Event → Prop
  | nil (depth : Nat) : Nested depth []
  | scope {depth : Nat} {inner rest : List Event} : Nested (depth + 1) inner → Nested depth rest →
      Nested depth (.scopeStart (depth + 1) :: inner ++ .scopeEnd depth :: rest)

/-- Each start is one deeper than what was before, each end one less deep and not below `low`; and
the last depth is `low`. -/
def comesBack (low : Nat) : Nat → List Event → Bool
  | depth, [] => depth = low
  | depth, .scopeStart d :: es => d = depth + 1 && comesBack low d es
  | depth, .scopeEnd d :: es => d + 1 = depth && low ≤ d && comesBack low d es
  | _, .programStart _ :: _ | _, .programDone _ :: _ => false

def isStart : Event → Bool
  | .scopeStart _ => true
  | .scopeEnd _ | .programStart _ | .programDone _ => false

theorem Nested.append {depth : Nat} {es fs : List Event} (he : Nested depth es)
    (hf : Nested depth fs) : Nested depth (es ++ fs) := by
  induction he with
  | nil depth => exact hf
  | @scope depth inner rest hinner _ _ ih =>
    rw [List.append_assoc, List.cons_append]
    exact .scope hinner (ih hf)

/-- Nested scopes in front change nothing about where events come back to. -/
theorem Nested.comesBack_append {low depth : Nat} {es : List Event} (h : Nested depth es)
    (hlow : low ≤ depth) (fs : List Event) :
    comesBack low depth (es ++ fs) = comesBack low depth fs := by
  induction h generalizing fs with
  | nil depth => rfl
  | @scope depth inner rest _ _ ihinner ihrest =>
    rw [List.append_assoc, List.cons_append, List.cons_append, comesBack,
      ihinner (Nat.le_succ_of_le hlow), comesBack, ihrest hlow]
    simp [hlow]

theorem Nested.comesBack {depth : Nat} {es : List Event} (h : Nested depth es) :
    comesBack depth depth es := by
  have hes := h.comesBack_append (Nat.le_refl depth) []
  rw [List.append_nil] at hes
  simp [hes, Event.comesBack]

end Event

namespace Doc

variable (ctx : Context)

/-- The scopes of a document are nested, on success and at a fault. -/
theorem nested_effect (d : Doc) (depth used : Nat) :
    Event.Nested depth (d.effect ctx depth used).events := by
  induction d generalizing depth used with
  | empty | text s => exact .nil depth
  | name n | quoted n =>
    rw [effect]
    split <;> exact .nil depth
  | indent =>
    rw [effect]
    split
    · exact .nil depth
    · split <;> exact .nil depth
  | append a b iha ihb =>
    rw [effect]
    rcases hfirst : (a.effect ctx depth used).outcome with fault | ⟨⟩
    · simpa only [Effect.andThen, hfirst] using iha depth used
    · simpa only [Effect.andThen, hfirst] using (iha depth used).append (ihb depth _)
  | scope d ih =>
    rw [effect]
    exact .scope (ih (depth + 1) used) (.nil depth)

/-- As many scopes are reported as there are in the document. -/
theorem count_starts (d : Doc) (depth : Nat) :
    (d.events depth).countP Event.isStart = d.weight 0 1 := by
  induction d generalizing depth with
  | append a b iha ihb => simp [events, weight, iha, ihb]
  | scope d ih => simp [events, weight, ih, Event.isStart, List.countP_cons, Nat.add_comm]
  | _ => simp [events, weight]

/-- The text of a document in a text of its own. The events go to the sink. -/
theorem render_eq_effect (d : Doc) (k : Sink) :
    let e := d.effect ctx k.depth 0
    let k' : Sink := ⟨k.depth, k.out, k.events ++ e.events.toArray⟩
    d.render ctx k = match e.outcome with
      | .ok _ => .ok e.text k'
      | .error fault => .error fault k' := by
  intro e k'
  have hprint : d.print ctx ⟨k.depth, "", k.events⟩ = e.onto ⟨k.depth, "", k.events⟩ :=
    d.print_eq_onto _
  rcases houtcome : e.outcome with fault | ⟨⟩
  · simp [render, hprint, Effect.onto_of_error houtcome, Sink.wrote, k']
  · simp [render, hprint, Effect.onto_of_ok houtcome, Sink.wrote, k']

end Doc

/-- The part of a tree that opens a scope, one by one. -/
theorem Part.total_scopes (ps : List Part) :
    Part.total 0 1 ps = ps.count .define + ps.count .module + ps.count .case + ps.count .ifElse +
      ps.count .elseBody := by
  induction ps with
  | nil => rfl
  | cons p ps ih =>
    cases p <;> simp [Part.weight, ih] <;> omega

/-- What a program reports: its statements first, then its scopes, and at last, if it was printed,
the length of its text. -/
def Program.report (p : Program) (outcome : Except Fault String) (scopes : List Event) :
    List Event :=
  .programStart p.body.length :: scopes ++
    match outcome with
    | .ok text => [.programDone text.utf8ByteSize]
    | .error _ => []

theorem Program.trace_eq (ctx : Context) (p : Program) :
    Node.trace ctx (.program p) = ⟨(Node.program p).render ctx,
      p.report ((Node.program p).render ctx)
        (Printer.sinkOf (p.doc.print ctx {})).events.toList⟩ := by
  have hprint : Printer.sinkOf (p.doc.print ctx {}) = _ :=
    (congrArg Printer.sinkOf (p.doc.print_eq_onto _)).trans (Effect.sinkOf_onto _ _)
  have hrender := p.doc.render_eq_effect ctx {}
  have htrace := p.doc.render_eq_effect ctx ⟨0, "", #[.programStart p.body.length]⟩
  rcases houtcome : (p.doc.effect ctx 0 0).outcome with fault | ⟨⟩ <;>
    simp only [houtcome] at hrender htrace <;>
    simp [Node.trace, Trace.ofPrinter, Program.render, bind, pure, EStateM.bind, EStateM.pure,
      Printer.report, htrace, Node.render, Node.doc, Doc.toText, hrender, hprint, report,
      Sink.wrote]

/-- What printing a node reports are nested scopes: each start is one deeper than what was before
and each end one less deep, never below the depth at which printing began, and the last one is at
that depth, also if printing stops at a fault. If it succeeds there is one scope for each
definition, module, case, body of an `if` and second body that is printed. A program reports its
statements before that, and the length of its text after it exactly if it was printed. -/
theorem Node.print_events (ctx : Context) :
    (∀ (n : Node) (k : Sink), ∃ events : List Event,
      (Printer.sinkOf (n.doc.print ctx k)).events = k.events ++ events.toArray ∧
      Event.Nested k.depth events ∧ Event.comesBack k.depth k.depth events ∧
      ∀ k', n.doc.print ctx k = .ok () k' → events.countP Event.isStart =
        n.parts.count .define + n.parts.count .module + n.parts.count .case +
          n.parts.count .ifElse + n.parts.count .elseBody) ∧
    ∀ p : Program, Node.trace ctx (.program p) = ⟨(Node.program p).render ctx,
      p.report ((Node.program p).render ctx)
        (Printer.sinkOf (p.doc.print ctx {})).events.toList⟩ := by
  refine ⟨fun n k => ?_, Program.trace_eq ctx⟩
  have hprint : n.doc.print ctx k = _ := n.doc.print_eq_onto k
  have hnested := n.doc.nested_effect ctx k.depth k.out.utf8ByteSize
  refine ⟨_, ?_, hnested, hnested.comesBack, fun k' hok => ?_⟩
  · rw [hprint, Effect.sinkOf_onto]
    rfl
  · have hprintable := ((n.doc.print_ok_iff k k').mp hok).1
    rw [Doc.effect_of_printable hprintable, Doc.count_starts, Node.weight_doc, Part.total_scopes]

/-- A program that is printed: a definition in a module, a `case` in it, and an `if` with two bodies
in its arm. All five scopes are reported, one within the other but for the two bodies. -/
theorem Node.print_events_nested :
    let ctx : Context := ⟨.single "x", 2⟩
    let x : Expr := .ofForm (.symbol (.unqualified ⟨0⟩))
    let choice : Expr := .ofForm (.ifElse x [.ofForm (.expr x)] (some [.ofForm (.expr x)]))
    let select : Expr := .ofForm (.case x [(.ofForm (.value .unit), choice)])
    let define : Stmt := .ofForm (.define ⟨0⟩ [] none [.ofForm (.expr select)])
    let p : Program := ⟨[.ofForm (.module ⟨0⟩ [define])]⟩
    let text := "module x\n  def x():\n    case x of\n      | () => if x then\n        x\n" ++
      "      else\n        x\n      end\n  end\nend\n"
    ∃ scopes : List Event, Event.Nested 0 scopes ∧ Event.comesBack 0 0 scopes ∧
      scopes.countP Event.isStart = 5 ∧
      Node.trace ctx (.program p) =
        ⟨.ok text, .programStart 1 :: scopes ++ [.programDone text.utf8ByteSize]⟩ := by
  intro ctx x choice select define p text
  have hprintable : p.doc.Printable ctx 0 0 := ⟨by decide, by decide⟩
  have hrender : (Node.program p).render ctx = .ok text :=
    (Node.render_ok_iff ctx _ _).mpr ⟨hprintable, by decide⟩
  obtain ⟨hnodes, hprograms⟩ := Node.print_events ctx
  obtain ⟨scopes, hscopes, hnested, hback, hcount⟩ := hnodes (.program p) {}
  have hfive : scopes.countP Event.isStart = 5 :=
    (hcount _ ((Doc.print_ok_iff _ _ _).mpr ⟨hprintable, rfl⟩)).trans (by decide)
  have hevents : (Printer.sinkOf (p.doc.print ctx {})).events = #[] ++ scopes.toArray := hscopes
  refine ⟨scopes, hnested, hback, hfive, ?_⟩
  rw [hprograms p, hrender, hevents, Array.empty_append]
  rfl

/-- A foreign name in an arm of a case, within a module: both scopes are left, and nothing is
reported behind them. -/
example :
    let hidden : Expr := .ofForm (.symbol (.unqualified ⟨7⟩))
    let arm : Pattern × Expr := (.ofForm (.value .unit), hidden)
    let n : Node := .stmt (.ofForm (.module ⟨0⟩ [.ofForm (.expr (.ofForm (.case .unit [arm])))]))
    (n.doc.effect ⟨.single "m", 2⟩ 4 0).events =
      [.scopeStart 5, .scopeStart 6, .scopeEnd 5, .scopeEnd 4] := by
  decide

end Treeprint
