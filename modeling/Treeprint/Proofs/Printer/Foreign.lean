import Treeprint.Proofs.Interner.Order
import Treeprint.Proofs.Printer.Frame
import Treeprint.Proofs.Printer.Mentions

/-!
# Foreign names

Printing goes from left to right and stops at the first fault. As long as the text up to the first
foreign name (`Doc.upToForeign`) is not too long, that name is the fault, and the text up to it is
what is written (`Doc.effect_of_space`): a node is printed if all its handles were issued, and else
the first one that was not is named in the fault (`Node.print_stops_at_first_foreign`). The widths
of the indentations alone do not decide whether there is space (`Node.not_print_of_issued`).

An interner that has met more texts knows more names. Printing with it goes on where it stopped at a
foreign name, and is the same otherwise (`Doc.effect_of_extends`, `Node.print_after_interning`).
-/

namespace Treeprint

variable {ctx : Context}

/-! ## The first foreign name -/

namespace Doc

/-- The text of a document up to its first foreign name, or all of it. -/
def upToForeign (ctx : Context) : Doc → Nat → String
  | .append a b, depth =>
    if ∀ m ∈ a.names, ctx.Issued m then a.output ctx depth ++ b.upToForeign ctx depth
    else a.upToForeign ctx depth
  | .scope d, depth => d.upToForeign ctx (depth + 1)
  | d, depth => if ∀ m ∈ d.names, ctx.Issued m then d.output ctx depth else ""

def firstForeign? (ctx : Context) (d : Doc) : Option Name :=
  d.names.find? fun m => ¬ ctx.Issued m

theorem firstForeign?_eq_none_iff {d : Doc} :
    d.firstForeign? ctx = none ↔ ∀ m ∈ d.names, ctx.Issued m := by
  simp [firstForeign?]

theorem effect_of_printable {d : Doc} {depth used : Nat} (h : d.Printable ctx depth used) :
    d.effect ctx depth used = ⟨.ok (), d.output ctx depth, d.events depth⟩ := by
  induction d generalizing depth used with
  | empty | text s => rfl
  | name n | quoted n =>
    have hn : ctx.Issued n := h.issued n (by simp [names])
    rw [effect, if_pos hn]
    rfl
  | indent =>
    have hw : used + depth * ctx.indentSize < Text.limit := h.extents_lt _ (by simp [extents])
    rw [effect, if_pos hw]
    rfl
  | append a b iha ihb =>
    obtain ⟨ha, hb⟩ := printable_append.mp h
    rw [effect, iha ha]
    simp only [Effect.andThen, ihb hb]
    rfl
  | scope d ih =>
    have hd : d.Printable ctx (depth + 1) used := ⟨h.issued, h.extents_lt⟩
    rw [effect, ih hd]
    rfl

/-- With space for the text up to it, a document fails at its first foreign name and at nothing
else. -/
theorem effect_of_space {d : Doc} {depth used : Nat}
    (h : used + (d.upToForeign ctx depth).utf8ByteSize < Text.limit) :
    (d.effect ctx depth used).text = d.upToForeign ctx depth ∧
    (d.effect ctx depth used).outcome =
      match d.firstForeign? ctx with
      | none => .ok ()
      | some m => .error (.foreign ⟨m, ctx.interner.size⟩) := by
  induction d generalizing depth used with
  | empty | text s => exact ⟨rfl, rfl⟩
  | name n | quoted n =>
    by_cases hn : ctx.Issued n <;>
      simp [effect, upToForeign, output, firstForeign?, names, hn, Effect.wrote, Effect.stopped]
  | indent =>
    have hw : used + (ctx.pad depth).utf8ByteSize < Text.limit := h
    rw [ctx.utf8ByteSize_pad] at hw
    rw [effect, if_pos hw]
    exact ⟨rfl, rfl⟩
  | append a b iha ihb =>
    have hfirst : (a.append b).firstForeign? ctx =
        (a.firstForeign? ctx).or (b.firstForeign? ctx) := List.find?_append ..
    rw [upToForeign] at h ⊢
    rw [hfirst, effect]
    -- The first part is printed in full or stops at a foreign name of its own: it cannot run out of
    -- space, so the second part starts exactly behind its text.
    rcases ha : a.firstForeign? ctx with _ | m
    · have hissued := firstForeign?_eq_none_iff.mp ha
      rw [if_pos hissued] at h ⊢
      rw [String.utf8ByteSize_append] at h
      have hprint : a.Printable ctx depth used :=
        printable_of_space hissued (by omega)
      obtain ⟨htext, houtcome⟩ := ihb (by rwa [Nat.add_assoc])
      simp only [effect_of_printable hprint, Effect.andThen, Option.none_or]
      exact ⟨by rw [htext], houtcome⟩
    · have hforeign : ¬ ∀ m ∈ a.names, ctx.Issued m := by
        rw [← firstForeign?_eq_none_iff, ha]
        exact Option.some_ne_none m
      rw [if_neg hforeign] at h ⊢
      obtain ⟨htext, hstop⟩ := iha h
      rw [ha] at hstop
      simp only [Effect.andThen, hstop, Option.some_or]
      exact ⟨htext, trivial⟩
  | scope d ih => exact ih h

end Doc

theorem Effect.onto_of_ok {e : Effect} (h : e.outcome = .ok ()) (k : Sink) :
    e.onto k = .ok () (k.wrote e.text e.events) := by
  simp only [onto, h]

theorem Effect.onto_of_error {e : Effect} {fault : Fault} (h : e.outcome = .error fault)
    (k : Sink) : e.onto k = .error fault (k.wrote e.text e.events) := by
  simp only [onto, h]

theorem Interner.Foreign.message_eq (n : Name) (count : Nat) :
    (Foreign.mk n count).message = "Name(" ++ toString n.index ++
      ") was not issued by this interner (" ++ toString count ++ " strings interned)" := by
  have hmiddle : ") was not issued by this interner (" =
      ")" ++ " was not issued by this interner (" := rfl
  rw [hmiddle]
  simp only [message, Name.label, String.append_assoc]

/-- Where the text up to the first foreign name fits behind what was written, a node is printed
exactly if all handles in the places that are printed were issued. Else that text is written, and
the fault names the first handle that was not issued. -/
theorem Node.print_stops_at_first_foreign (ctx : Context) (n : Node) (k : Sink)
    (hfits : k.Fits (n.doc.upToForeign ctx k.depth)) :
    ((∃ k', n.doc.print ctx k = .ok () k') ↔ ∀ m ∈ n.handles, m.index < ctx.interner.size) ∧
    ∀ before m after, n.handles = before ++ m :: after →
      (∀ b ∈ before, b.index < ctx.interner.size) → ctx.interner.size ≤ m.index →
      ∃ fault k', n.doc.print ctx k = .error fault k' ∧
        k'.out = k.out ++ n.doc.upToForeign ctx k.depth ∧
        fault.message = "Name(" ++ toString m.index ++ ") was not issued by this interner (" ++
          toString ctx.interner.size ++ " strings interned)" := by
  obtain ⟨htext, houtcome⟩ := Doc.effect_of_space hfits.lt_limit
  have hissued : n.doc.firstForeign? ctx = none ↔ ∀ m ∈ n.handles, m.index < ctx.interner.size := by
    rw [Doc.firstForeign?_eq_none_iff, n.names_doc]
    rfl
  rw [n.doc.print_eq_onto]
  refine ⟨?_, ?_⟩
  · rw [← hissued]
    rcases hfirst : n.doc.firstForeign? ctx with _ | m <;> rw [hfirst] at houtcome
    · simp only [Effect.onto_of_ok houtcome, iff_true]
      exact ⟨_, rfl⟩
    · simp [Effect.onto_of_error houtcome]
  · intro before m after hm hbefore hforeign
    have hfirst : n.doc.firstForeign? ctx = some m := by
      rw [Doc.firstForeign?, n.names_doc, List.find?_eq_some_iff_append]
      refine ⟨by simpa [Context.Issued] using hforeign, before, after, hm, fun b hb => ?_⟩
      simpa [Context.Issued] using hbefore b hb
    rw [hfirst] at houtcome
    refine ⟨_, _, Effect.onto_of_error houtcome k, ?_, Interner.Foreign.message_eq m _⟩
    exact congrArg (k.out ++ ·) htext

/-- The second of two statements calls a foreign name. The type of the argument before it and what
the list holds behind its rest are foreign too, but they are not printed. -/
theorem Node.print_stops_at_first_foreign_call :
    let ctx : Context := ⟨.single "x", 2⟩
    let x : Expr := .ofForm (.symbol (.unqualified ⟨0⟩))
    let hidden : Expr := .ofForm (.symbol (.unqualified ⟨9⟩))
    let list : Expr := ⟨.list (.rest (.element x (.last hidden))), some ⟨.record ⟨[], ⟨8⟩⟩, .dummy⟩,
      .dummy⟩
    let call : Expr := .ofForm (.call ⟨[⟨0⟩], ⟨7⟩⟩ [list, hidden])
    let n : Node := .stmt (.ofForm (.module ⟨0⟩ [.ofForm (.val ⟨0⟩ list), .ofForm (.expr call)]))
    let text := "module x\n  val x = [ :: x]\n  x."
    n.doc.upToForeign ctx 0 = text ∧ Sink.Fits {} text ∧
      ∃ fault k', n.doc.print ctx {} = .error fault k' ∧ k'.out = text ∧
        fault.message = "Name(7) was not issued by this interner (1 strings interned)" := by
  intro ctx x hidden list call n text
  have htext : n.doc.upToForeign ctx 0 = text := by decide
  have hfits : Sink.Fits {} text := by decide
  obtain ⟨-, hstops⟩ := Node.print_stops_at_first_foreign ctx n {} (htext ▸ hfits)
  obtain ⟨fault, k', hprint, hout, hmessage⟩ :=
    hstops [⟨0⟩, ⟨0⟩, ⟨0⟩, ⟨0⟩] ⟨7⟩ [⟨0⟩, ⟨9⟩] (by decide) (by decide) (by decide)
  rw [htext, String.empty_append] at hout
  exact ⟨htext, hfits, fault, k', hprint, hout, hmessage.trans (by decide)⟩

/-- That each indentation is narrow enough is not enough for printing to succeed, even where there
are no names. Behind the thirteen bytes of `if true then` and its line end there is no space left
for an indentation that is thirteen less wide than the limit. -/
theorem Node.not_print_of_issued : ¬ ∀ (ctx : Context) (n : Node) (depth : Nat),
    (∀ inner ∈ n.doc.depths depth, inner * ctx.indentSize < Text.limit) →
    ((∃ k', n.doc.print ctx ⟨depth, "", #[]⟩ = .ok () k') ↔
      ∀ m ∈ n.handles, m.index < ctx.interner.size) := by
  intro h
  let ctx : Context := ⟨.empty, Text.limit - 13⟩
  let one : Stmt := .ofForm (.expr (.ofForm (.value (.int 1))))
  let n : Node := .expr (.ofForm (.ifElse (.ofForm (.value (.bool true))) [one] none))
  have hw : ∀ inner ∈ n.doc.depths 0, inner * ctx.indentSize < Text.limit := by decide
  have hnames : ∀ m ∈ n.handles, m.index < ctx.interner.size := by decide
  obtain ⟨k', hprint⟩ := (h ctx n 0 hw).mpr hnames
  have hlt := ((Doc.print_ok_iff _ _ _).mp hprint).1.extents_lt
  exact absurd (hlt Text.limit (by decide)) (by decide)

/-! ## Interners that have grown -/

/-- A context with the same width of indentation in which all names keep their texts. -/
structure Context.Extends (later now : Context) : Prop where
  indentSize : later.indentSize = now.indentSize
  lookup? : ∀ n text, now.interner.lookup? n = some text → later.interner.lookup? n = some text

theorem Context.Extends.issued {now later : Context} (h : later.Extends now) {n : Name}
    (hn : now.Issued n) : later.Issued n ∧ later.text n = now.text n := by
  have hl : later.interner.lookup? n = some (now.text n) := h.lookup? n _ (lookup?_of_issued hn)
  refine ⟨(Array.getElem?_eq_some_iff.mp hl).1, ?_⟩
  rw [text, hl]
  rfl

namespace Effect

/-- One effect stops at a foreign name where another one may go on. -/
structure Resumes (short full : Effect) : Prop where
  outcome : ∃ complaint, short.outcome = .error (.foreign complaint)
  text : ∃ rest, full.text = short.text ++ rest

/-- The first of two effects stops, so there is no second one. -/
theorem Resumes.first {a a' : Effect} (h : Resumes a a') (b b' : Effect) :
    Resumes (a.andThen b) (a'.andThen b') := by
  obtain ⟨⟨complaint, houtcome⟩, rest, htext⟩ := h
  have ha : a.andThen b = a := by simp only [andThen, houtcome]
  obtain ⟨more, hmore⟩ := text_andThen a' b'
  rw [ha]
  exact ⟨⟨complaint, houtcome⟩, rest ++ more, by rw [hmore, htext, String.append_assoc]⟩

theorem Resumes.second {a b b' : Effect} (ha : a.outcome = .ok ()) (h : Resumes b b') :
    Resumes (a.andThen b) (a.andThen b') := by
  obtain ⟨houtcome, rest, htext⟩ := h
  simp only [andThen, ha]
  exact ⟨houtcome, rest, by simp only [htext, String.append_assoc]⟩

end Effect

/-- The effect of printing a name in some form. -/
def Effect.ofName (ctx : Context) (form : String → String) (n : Name) : Effect :=
  if ctx.Issued n then .wrote (form (ctx.text n)) else .stopped (.foreign ⟨n, ctx.interner.size⟩)

variable {now later : Context}

theorem Effect.ofName_of_extends (h : later.Extends now) (form : String → String) (n : Name) :
    ofName later form n = ofName now form n ∨
      (ofName now form n).Resumes (ofName later form n) := by
  by_cases hn : now.Issued n
  · obtain ⟨hl, ht⟩ := h.issued hn
    left
    simp only [ofName, if_pos hn, if_pos hl, ht]
  · right
    rw [ofName, if_neg hn]
    exact ⟨⟨_, rfl⟩, _, String.empty_append.symm⟩

/-- In an extended context a document has the same effect, unless it stopped at a foreign name. -/
theorem Doc.effect_of_extends (h : later.Extends now) (d : Doc) (depth used : Nat) :
    d.effect later depth used = d.effect now depth used ∨
      (d.effect now depth used).Resumes (d.effect later depth used) := by
  induction d generalizing depth used with
  | empty | text s => exact .inl rfl
  | name n => exact Effect.ofName_of_extends h (fun s => s) n
  | quoted n => exact Effect.ofName_of_extends h Text.quoted n
  | indent =>
    left
    simp only [effect, Context.pad, h.indentSize]
  | append a b iha ihb =>
    rw [effect, effect]
    rcases iha depth used with ha | ha
    -- Both runs are still together, so the second part starts behind the same text in both.
    · rw [ha]
      rcases hfirst : (a.effect now depth used).outcome with fault | ⟨⟩
      · simp only [Effect.andThen, hfirst, true_or]
      · rcases ihb depth (used + (a.effect now depth used).text.utf8ByteSize) with hb | hb
        · exact .inl (by rw [hb])
        · exact .inr (hb.second hfirst)
    · exact .inr (ha.first _ _)
  | scope d ih =>
    rw [effect, effect]
    rcases ih (depth + 1) used with hd | ⟨houtcome, htext⟩
    · exact .inl (by rw [hd])
    · exact .inr ⟨houtcome, htext⟩

/-- The sink that printing leaves behind, on success and at a fault. -/
def Printer.sinkOf : EStateM.Result Fault Sink Unit → Sink
  | .ok _ k => k
  | .error _ k => k

theorem Effect.sinkOf_onto (e : Effect) (k : Sink) :
    Printer.sinkOf (e.onto k) = k.wrote e.text e.events := by
  rcases houtcome : e.outcome with fault | ⟨⟩ <;> simp only [onto, houtcome, Printer.sinkOf]

/-- The context whose interner has met further texts. -/
theorem Context.extends_after (i : Interner) (requests : List Interner.Request) (size : Nat) :
    (Context.mk (i.after requests) size).Extends ⟨i, size⟩ :=
  ⟨rfl, fun _ _ hn => Interner.lookup?_after hn requests⟩

/-- Further interning changes nothing about a node that was printed or for which there was no space.
If printing stopped at a foreign name, all that was written before it is written again. -/
theorem Node.print_after_interning (i : Interner) (requests : List Interner.Request) (size : Nat)
    (n : Node) (k : Sink) :
    let now := n.doc.print ⟨i, size⟩ k
    let later := n.doc.print ⟨i.after requests, size⟩ k
    (∀ k', now = .ok () k' → later = .ok () k') ∧
    (∀ fault k', now = .error fault k' → (∀ complaint, fault ≠ .foreign complaint) →
      later = .error fault k') ∧
    (∀ complaint k', now = .error (.foreign complaint) k' →
      ∃ rest, (Printer.sinkOf later).out = k'.out ++ rest) := by
  intro now later
  have heffect := n.doc.effect_of_extends (Context.extends_after i requests size) k.depth
    k.out.utf8ByteSize
  have hnow : now = _ := n.doc.print_eq_onto k
  have hlater : later = _ := n.doc.print_eq_onto k
  rcases heffect with heq | ⟨⟨complaint, houtcome⟩, rest, htext⟩
  · have hsame : later = now := by rw [hlater, heq, hnow]
    refine ⟨fun k' h => hsame.trans h, fun fault k' h _ => hsame.trans h, fun complaint k' h => ?_⟩
    exact ⟨"", by rw [hsame, h]; simp [Printer.sinkOf]⟩
  · have hstop := hnow.trans (Effect.onto_of_error houtcome k)
    refine ⟨fun k' h => ?_, fun fault k' h hfault => ?_, fun c k' h => ?_⟩
    · rw [hstop] at h
      cases h
    · rw [hstop] at h
      cases h
      exact absurd rfl (hfault complaint)
    · rw [hstop] at h
      cases h
      refine ⟨rest, ?_⟩
      rw [hlater, Effect.sinkOf_onto]
      simp only [Sink.wrote, htext, String.append_assoc]

end Treeprint
