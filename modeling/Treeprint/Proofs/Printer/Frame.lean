import Mathlib.Data.List.Basic
import Treeprint.Proofs.Printer.Canonical

/-!
# What printing leaves alone

Printing a document has an effect (`Effect`): an outcome, which may be a fault, and the text and
events that it adds. The effect is known from the document, the depth and the number of bytes that
stand before it (`Doc.effect`), and printing does nothing else to the sink, whether it succeeds or
stops at a fault (`Doc.print_eq_onto`): what was written stays, and every scope that was entered is
left.

The bytes before the document count only for the space that is left. Where what it writes on an
empty sink also fits behind them, its effect is that on an empty sink (`Doc.effect_add`). Main
statement: `Node.print_frame`. That the text before plays no role at all does not hold
(`Node.not_print_frame_of_depth`).
-/

namespace Treeprint

/-- What a printer does: its outcome, and what it adds to the text and to the events. -/
structure Effect where
  outcome : Except Fault Unit
  text : String
  events : List Event

namespace Effect

/-- The result of an effect on a sink. The depth stays as it is. -/
def onto (e : Effect) (k : Sink) : EStateM.Result Fault Sink Unit :=
  match e.outcome with
  | .ok _ => .ok () (k.wrote e.text e.events)
  | .error fault => .error fault (k.wrote e.text e.events)

def wrote (text : String) : Effect := ⟨.ok (), text, []⟩

def stopped (fault : Fault) : Effect := ⟨.error fault, "", []⟩

/-- One effect and another one behind it, unless the first one is a fault. -/
def andThen (a b : Effect) : Effect :=
  match a.outcome with
  | .ok _ => ⟨b.outcome, a.text ++ b.text, a.events ++ b.events⟩
  | .error _ => a

/-- An effect between entering and leaving a scope. -/
def within (depth : Nat) (e : Effect) : Effect :=
  ⟨e.outcome, e.text, .scopeStart (depth + 1) :: e.events ++ [.scopeEnd depth]⟩

end Effect

namespace Doc

variable (ctx : Context)

/-- The effect of printing a document at a depth, behind `used` bytes of text. -/
def effect : Doc → (depth used : Nat) → Effect
  | .empty, _, _ => .wrote ""
  | .text s, _, _ => .wrote s
  | .name n, _, _ =>
    if ctx.Issued n then .wrote (ctx.text n) else .stopped (.foreign ⟨n, ctx.interner.size⟩)
  | .quoted n, _, _ =>
    if ctx.Issued n then .wrote (Text.quoted (ctx.text n))
    else .stopped (.foreign ⟨n, ctx.interner.size⟩)
  | .indent, depth, used =>
    if used + depth * ctx.indentSize < Text.limit then .wrote (ctx.pad depth)
    else if depth * ctx.indentSize < UInt64.size then .stopped .tooWide
    else .stopped .widthOverflow
  | .append a b, depth, used =>
    let first := a.effect depth used
    first.andThen (b.effect depth (used + first.text.utf8ByteSize))
  | .scope d, depth, used => (d.effect (depth + 1) used).within depth

end Doc

/-! ## Printing is its effect -/

variable {ctx : Context}

theorem Effect.onto_stopped (fault : Fault) (k : Sink) :
    (Effect.stopped fault).onto k = .error fault k := by
  simp [stopped, onto, Sink.wrote]

/-- A scope is left on both exits. -/
theorem Printer.within_onto {p : Printer Unit} {k : Sink} {e : Effect}
    (h : p k.enter = e.onto k.enter) : Printer.within p k = (e.within k.depth).onto k := by
  have hk : (k.enter.wrote e.text e.events).leave =
      k.wrote e.text (e.within k.depth).events := by
    simp [Sink.wrote, Sink.enter, Sink.leave, Effect.within]
  have hend : Printer.scopeEnd (k.enter.wrote e.text e.events) =
      .ok () (k.wrote e.text (e.within k.depth).events) := by
    rw [← hk]
    rfl
  obtain ⟨outcome, text, events⟩ := e
  cases outcome with
  | ok =>
    simp only [Printer.within, h, Effect.onto, hend]
    rfl
  | error fault =>
    simp only [Printer.within, h, Effect.onto, hend]
    rfl

theorem Doc.print_eq_onto (d : Doc) (k : Sink) :
    d.print ctx k = (d.effect ctx k.depth k.out.utf8ByteSize).onto k := by
  induction d generalizing k with
  | empty =>
    show EStateM.Result.ok () k = .ok () (k.wrote "" [])
    simp [Sink.wrote]
  | text s => exact Printer.write_eq s k
  | name n =>
    rw [print, Printer.write_lookup_eq fun s => s, effect]
    split
    · rfl
    · exact (Effect.onto_stopped _ k).symm
  | quoted n =>
    rw [print, Printer.write_lookup_eq, effect]
    split
    · rfl
    · exact (Effect.onto_stopped _ k).symm
  | indent =>
    rw [print, Printer.writeIndent_eq, effect]
    split
    · rfl
    · split <;> exact (Effect.onto_stopped _ k).symm
  | append a b iha ihb =>
    show EStateM.bind (a.print ctx) (fun _ => b.print ctx) k = _
    rw [effect]
    generalize he : a.effect ctx k.depth k.out.utf8ByteSize = first
    obtain ⟨outcome, text, events⟩ := first
    cases outcome with
    | ok =>
      have hk : (k.wrote text events).out.utf8ByteSize =
          k.out.utf8ByteSize + text.utf8ByteSize := by
        simp [Sink.wrote]
      simp only [EStateM.bind, iha, he, Effect.onto, ihb, hk, Effect.andThen]
      show (b.effect ctx k.depth _).onto (k.wrote text events) = _
      simp only [Effect.onto, Sink.wrote_wrote]
    | error fault =>
      simp only [EStateM.bind, iha, he, Effect.onto, Effect.andThen]
  | scope d ih =>
    rw [print, effect]
    exact Printer.within_onto (ih k.enter)

/-! ## The text before a document -/

theorem Effect.text_andThen (a b : Effect) : ∃ rest, (a.andThen b).text = a.text ++ rest := by
  obtain ⟨outcome, text, events⟩ := a
  cases outcome with
  | ok => exact ⟨b.text, rfl⟩
  | error fault => exact ⟨"", String.append_empty.symm⟩

/-- With `more` bytes before it, a document has the same effect if there is space for all that it
writes without them. -/
theorem Doc.effect_add {d : Doc} {depth base more : Nat}
    (h : more + base + (d.effect ctx depth base).text.utf8ByteSize < Text.limit) :
    d.effect ctx depth (more + base) = d.effect ctx depth base := by
  induction d generalizing depth base with
  | empty | text s | name n | quoted n => rfl
  | indent =>
    rw [effect] at h ⊢
    by_cases hb : base + depth * ctx.indentSize < Text.limit
    · rw [if_pos hb] at h
      have hpad : (Effect.wrote (ctx.pad depth)).text.utf8ByteSize = depth * ctx.indentSize :=
        ctx.utf8ByteSize_pad depth
      have hm : more + base + depth * ctx.indentSize < Text.limit := by rwa [hpad] at h
      rw [effect, if_pos hm, if_pos hb]
    · have hm : ¬ more + base + depth * ctx.indentSize < Text.limit := by omega
      rw [effect, if_neg hm, if_neg hb]
  | append a b iha ihb =>
    rw [effect] at h
    -- The first part writes no more than both, so it has the same effect and the second part starts
    -- behind the same text.
    have ha : a.effect ctx depth (more + base) = a.effect ctx depth base := by
      obtain ⟨rest, hrest⟩ := Effect.text_andThen (a.effect ctx depth base)
        (b.effect ctx depth (base + (a.effect ctx depth base).text.utf8ByteSize))
      rw [hrest, String.utf8ByteSize_append] at h
      exact iha (by omega)
    rw [effect, effect, ha]
    rcases hfirst : (a.effect ctx depth base).outcome with fault | ⟨⟩
    · simp only [Effect.andThen, hfirst]
    · simp only [Effect.andThen, hfirst, String.utf8ByteSize_append] at h
      rw [Nat.add_assoc, ihb (by omega)]
  | scope d ih =>
    rw [effect, effect, ih h]

/-- What a printer does can be told from the sink that it leaves. -/
theorem Effect.eq_of_onto_eq {e e' : Effect} {k : Sink} (h : e.onto k = e'.onto k) : e = e' := by
  obtain ⟨outcome, text, events⟩ := e
  obtain ⟨outcome', text', events'⟩ := e'
  have hwrote : outcome = outcome' ∧ k.wrote text events = k.wrote text' events' := by
    cases outcome <;> cases outcome' <;> simp_all [onto]
  obtain ⟨rfl, hk⟩ := hwrote
  have hadded : text = text' ∧ k.events ++ events.toArray = k.events ++ events'.toArray := by
    simpa [Sink.wrote] using hk
  have hevents : events.toArray = events'.toArray := (Array.append_right_inj _).mp hadded.2
  rw [hadded.1, List.toArray_inj hevents]

/-! ## Nodes -/

/-- Printing a node has an effect, on success and at a fault: it adds text and events to the sink,
and comes back to the depth. It is the effect on an empty sink wherever its text fits behind what
was written before. -/
theorem Node.print_frame (ctx : Context) (n : Node) (depth : Nat) :
    ∃ effect : Effect,
      (∀ events : Array Event,
        let k : Sink := ⟨depth, "", events⟩
        n.doc.print ctx k = effect.onto k) ∧
      ∀ (out : String) (events : Array Event),
        let k : Sink := ⟨depth, out, events⟩
        (∃ effect' : Effect, n.doc.print ctx k = effect'.onto k) ∧
        (k.Fits effect.text → n.doc.print ctx k = effect.onto k) := by
  refine ⟨n.doc.effect ctx depth 0, fun events => n.doc.print_eq_onto _, ?_⟩
  intro out events k
  refine ⟨⟨_, n.doc.print_eq_onto k⟩, fun hfits => ?_⟩
  have hsame : n.doc.effect ctx depth (k.out.utf8ByteSize + 0) = n.doc.effect ctx depth 0 :=
    Doc.effect_add hfits.lt_limit
  exact (n.doc.print_eq_onto k).trans (congrArg (Effect.onto · k) hsame)

/-- A foreign name in an arm of a `case`, within a module at depth 1 and behind a text. Both scopes
are left, and what was written before the name stays. -/
theorem Node.print_frame_foreign :
    let ctx : Context := ⟨⟨(∅ : Std.HashMap String Name).insert "x" ⟨0⟩, #["x"]⟩, 2⟩
    let x : Expr := .ofForm (.symbol (.unqualified ⟨0⟩))
    let arm : Pattern × Expr := (.ofForm (.value .unit), .ofForm (.symbol ⟨[⟨0⟩], ⟨7⟩⟩))
    let n : Node := .stmt (.ofForm (.module ⟨0⟩ [.ofForm (.expr (.ofForm (.case x [arm])))]))
    let k : Sink := ⟨1, "val x = 1\n  ", #[]⟩
    let text := "module x\n    case x of\n      | () => x."
    k.Fits text ∧ n.doc.print ctx k = .error (.foreign ⟨⟨7⟩, 1⟩)
      (k.wrote text [.scopeStart 2, .scopeStart 3, .scopeEnd 2, .scopeEnd 1]) := by
  intro ctx x arm n k text
  have hfits : k.Fits text := by decide
  obtain ⟨effect, hempty, hframe⟩ := Node.print_frame ctx n 1
  have heffect : effect = n.doc.effect ctx 1 0 :=
    Effect.eq_of_onto_eq ((hempty #[]).symm.trans (n.doc.print_eq_onto _))
  have houtcome : effect.outcome = .error (.foreign ⟨⟨7⟩, 1⟩) := by
    rw [heffect]
    decide
  have htext : effect.text = text := by
    rw [heffect]
    decide
  have hevents : effect.events = [.scopeStart 2, .scopeStart 3, .scopeEnd 2, .scopeEnd 1] := by
    rw [heffect]
    decide
  obtain ⟨-, hsame⟩ := hframe k.out k.events
  refine ⟨hfits, (hsame (htext ▸ hfits)).trans ?_⟩
  simp only [Effect.onto, houtcome, htext, hevents]
  rfl

/-- The text before a node is not without influence. An indentation that is one byte short of the
limit can be written first, and printing comes to the foreign name behind it; behind a `1` there is
no space for it. -/
theorem Node.not_print_frame_of_depth : ¬ ∀ (ctx : Context) (n : Node) (depth : Nat),
    ∃ (outcome : Except Fault Unit) (text : String), ∀ (out : String) (events : Array Event),
      let k : Sink := ⟨depth, out, events⟩
      ∃ added, n.doc.print ctx k = (Effect.mk outcome text added).onto k := by
  intro h
  let ctx : Context := ⟨.empty, Text.limit - 1⟩
  let n : Node := .program ⟨[.ofForm (.expr (.ofForm (.symbol (.unqualified ⟨0⟩))))]⟩
  obtain ⟨outcome, text, hprint⟩ := h ctx n 1
  obtain ⟨es, hfirst⟩ := hprint "" #[]
  obtain ⟨fs, hbehind⟩ := hprint "1" #[]
  have hforeign : outcome = .error (.foreign ⟨⟨0⟩, 0⟩) :=
    congrArg Effect.outcome (Effect.eq_of_onto_eq (hfirst.symm.trans (n.doc.print_eq_onto _)))
  have hwide : outcome = .error .tooWide :=
    congrArg Effect.outcome (Effect.eq_of_onto_eq (hbehind.symm.trans (n.doc.print_eq_onto _)))
  rw [hforeign] at hwide
  cases hwide

end Treeprint
