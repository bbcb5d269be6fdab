import Treeprint.Printer.Print

/-!
# What printing a document comes to

A document has a text at every depth (`Doc.output`), names to be looked up (`Doc.names`), scope
changes to report (`Doc.events`) and, for each of its indentations, the length that the output has
right after it (`Doc.extents`). Printing succeeds exactly if all names were issued and no such
length reaches the limit; then the text and the scope changes are appended and the depth is as
before (`Doc.print_ok_iff`).

A text cannot be of any length, and one that grows may ask for twice what it has. So there is an
amount up to which its length is of no concern (`Text.ample`). If the whole text stays within it,
what was there before included (`Sink.Fits`), no indentation comes near the limit
(`Doc.printable_of_space`).
-/

namespace Treeprint

namespace Context

/-- The text of an issued name. -/
def text (ctx : Context) (n : Name) : String := (ctx.interner.lookup? n).getD ""

/-- The indentation of a depth. -/
def pad (ctx : Context) (depth : Nat) : String := Text.spaces (depth * ctx.indentSize)

theorem utf8ByteSize_pad (ctx : Context) (depth : Nat) :
    (ctx.pad depth).utf8ByteSize = depth * ctx.indentSize := by
  rw [pad, Text.utf8ByteSize_spaces]

/-- The name was issued by the context's interner. -/
def Issued (ctx : Context) (n : Name) : Prop := n.index < ctx.interner.size

theorem lookup?_of_issued {ctx : Context} {n : Name} (h : ctx.Issued n) :
    ctx.interner.lookup? n = some (ctx.text n) := by
  have hn : ctx.interner.lookup? n = some ctx.interner.texts[n.index] :=
    Array.getElem?_eq_getElem h
  rw [text, hn]
  rfl

theorem lookup_of_issued {ctx : Context} {n : Name} (h : ctx.Issued n) :
    ctx.interner.lookup n = .ok (ctx.text n) := by
  rw [Interner.lookup, lookup?_of_issued h]

theorem lookup_of_not_issued {ctx : Context} {n : Name} (h : ¬ ctx.Issued n) :
    ctx.interner.lookup n = .error ⟨n, ctx.interner.size⟩ := by
  have hn : ctx.interner.lookup? n = none := Array.getElem?_eq_none (Nat.not_lt.mp h)
  simp [Interner.lookup, hn]

end Context

instance (ctx : Context) (n : Name) : Decidable (ctx.Issued n) :=
  inferInstanceAs (Decidable (n.index < ctx.interner.size))

/-- A text of so many bytes can be built up in any steps: `2^62`. When it has to grow, less than
this was set aside for it, and twice of that is below the limit. -/
def Text.ample : Nat := 0x4000000000000000

/-- With the text behind it, what was written is not too long. -/
def Sink.Fits (k : Sink) (text : String) : Prop :=
  k.out.utf8ByteSize + text.utf8ByteSize ≤ Text.ample

instance (k : Sink) (text : String) : Decidable (k.Fits text) :=
  inferInstanceAs (Decidable (_ ≤ _))

theorem Sink.Fits.lt_limit {k : Sink} {text : String} (h : k.Fits text) :
    k.out.utf8ByteSize + text.utf8ByteSize < Text.limit :=
  Nat.lt_of_le_of_lt h (by decide)

/-- The sink after text and events were added to it. -/
def Sink.wrote (k : Sink) (text : String) (events : List Event) : Sink :=
  ⟨k.depth, k.out ++ text, k.events ++ events.toArray⟩

theorem Sink.wrote_wrote (k : Sink) (s t : String) (es fs : List Event) :
    (k.wrote s es).wrote t fs = k.wrote (s ++ t) (es ++ fs) := by
  simp [wrote, String.append_assoc]

/-! ## The primitives -/

namespace Printer

variable {ctx : Context}

theorem write_eq (s : String) (k : Sink) : write s k = .ok () (k.wrote s []) := by
  simp [write, Sink.wrote]

/-- A name is written in some form, or it is foreign. -/
theorem write_lookup_eq (f : String → String) (n : Name) (k : Sink) :
    (do write (f (← lookup ctx n)) : Printer Unit) k =
      if ctx.Issued n then .ok () (k.wrote (f (ctx.text n)) [])
      else .error (.foreign ⟨n, ctx.interner.size⟩) k := by
  show EStateM.bind (lookup ctx n) (fun s => write (f s)) k = _
  split
  · next h => simp [EStateM.bind, lookup, Context.lookup_of_issued h, write_eq]
  · next h => simp [EStateM.bind, lookup, Context.lookup_of_not_issued h]

theorem writeIndent_eq (k : Sink) :
    writeIndent ctx k =
      if k.out.utf8ByteSize + k.depth * ctx.indentSize < Text.limit then
        .ok () (k.wrote (ctx.pad k.depth) [])
      else if k.depth * ctx.indentSize < UInt64.size then .error .tooWide k
      else .error .widthOverflow k := by
  show EStateM.bind (indentWidth ctx) (fun w => EStateM.bind size fun u =>
    EStateM.bind (spaces u w) write) k = _
  by_cases hw : k.depth * ctx.indentSize < UInt64.size
  · by_cases hu : k.out.utf8ByteSize + k.depth * ctx.indentSize < Text.limit
    · simp only [EStateM.bind, indentWidth, size, spaces, if_pos hw, if_pos hu]
      exact write_eq _ k
    · simp only [EStateM.bind, indentWidth, size, spaces, if_pos hw, if_neg hu]
      rfl
  · have hl : Text.limit ≤ UInt64.size := by decide
    have hu : ¬ k.out.utf8ByteSize + k.depth * ctx.indentSize < Text.limit := by omega
    simp only [EStateM.bind, indentWidth, if_neg hw, if_neg hu]

/-- A scope is left after its content, whose depth is the one it was entered with. -/
theorem within_eq {p : Printer Unit} {k k' : Sink} (h : p k.enter = .ok () k')
    (hd : k'.depth = k.depth + 1) : within p k = .ok () k'.leave := by
  simp [within, h, scopeEnd, hd]

end Printer

namespace Doc

variable (ctx : Context)

/-- The text of a document at a depth. -/
def output : Doc → Nat → String
  | .empty, _ => ""
  | .text s, _ => s
  | .name n, _ => ctx.text n
  | .quoted n, _ => Text.quoted (ctx.text n)
  | .indent, depth => ctx.pad depth
  | .append a b, depth => a.output depth ++ b.output depth
  | .scope d, depth => d.output (depth + 1)

/-- The names that a document looks up, in order. -/
def names : Doc → List Name
  | .name n | .quoted n => [n]
  | .append a b => a.names ++ b.names
  | .scope d => d.names
  | .empty | .text _ | .indent => []

/-- The scope changes of a document that starts at a depth. -/
def events : Doc → Nat → List Event
  | .append a b, depth => a.events depth ++ b.events depth
  | .scope d, depth => .scopeStart (depth + 1) :: d.events (depth + 1) ++ [.scopeEnd depth]
  | _, _ => []

/-- The length of the output in bytes right after each indentation, if there were `used` bytes
before the document. -/
def extents : Doc → (depth used : Nat) → List Nat
  | .indent, depth, used => [used + depth * ctx.indentSize]
  | .append a b, depth, used =>
    a.extents depth used ++ b.extents depth (used + (a.output ctx depth).utf8ByteSize)
  | .scope d, depth, used => d.extents (depth + 1) used
  | _, _, _ => []

/-- All names of a document were issued, and there is space for all its indentations. -/
structure Printable (d : Doc) (depth used : Nat) : Prop where
  issued : ∀ n ∈ d.names, ctx.Issued n
  extents_lt : ∀ len ∈ d.extents ctx depth used, len < Text.limit

variable {ctx}

theorem printable_text (s : String) (depth used : Nat) : (Doc.text s).Printable ctx depth used :=
  ⟨by simp [names], by simp [extents]⟩

theorem printable_append {a b : Doc} {depth used : Nat} :
    (a ++ b).Printable ctx depth used ↔ a.Printable ctx depth used ∧
      b.Printable ctx depth (used + (a.output ctx depth).utf8ByteSize) := by
  show (a.append b).Printable ctx depth used ↔ _
  constructor
  · rintro ⟨hn, hw⟩
    simp only [names, extents, List.forall_mem_append] at hn hw
    exact ⟨⟨hn.1, hw.1⟩, ⟨hn.2, hw.2⟩⟩
  · rintro ⟨⟨hna, hwa⟩, ⟨hnb, hwb⟩⟩
    refine ⟨?_, ?_⟩
    · simpa only [names, List.forall_mem_append] using ⟨hna, hnb⟩
    · simpa only [extents, List.forall_mem_append] using ⟨hwa, hwb⟩

/-- An indentation is a part of the text. -/
theorem extents_le {d : Doc} {depth used len : Nat} (h : len ∈ d.extents ctx depth used) :
    len ≤ used + (d.output ctx depth).utf8ByteSize := by
  induction d generalizing depth used with
  | empty | text s | name n | quoted n => cases h
  | indent =>
    obtain rfl : len = used + depth * ctx.indentSize := List.mem_singleton.mp h
    have hpad : (output ctx indent depth).utf8ByteSize = depth * ctx.indentSize :=
      ctx.utf8ByteSize_pad depth
    exact Nat.le_of_eq (by rw [hpad])
  | append a b iha ihb =>
    rw [output, String.utf8ByteSize_append]
    rcases List.mem_append.mp h with ha | hb
    · have hle := iha ha
      omega
    · have hle := ihb hb
      omega
  | scope d ih => exact ih h

/-- With space for its whole text, a document is printed if its names were issued. -/
theorem printable_of_space {d : Doc} {depth used : Nat} (hissued : ∀ n ∈ d.names, ctx.Issued n)
    (hspace : used + (d.output ctx depth).utf8ByteSize < Text.limit) :
    d.Printable ctx depth used :=
  ⟨hissued, fun _ hlen => Nat.lt_of_le_of_lt (extents_le hlen) hspace⟩

/-- What printing does when it succeeds, and that it succeeds exactly on printable documents. -/
theorem print_ok_iff (d : Doc) (k k' : Sink) :
    d.print ctx k = .ok () k' ↔ d.Printable ctx k.depth k.out.utf8ByteSize ∧
      k' = k.wrote (d.output ctx k.depth) (d.events k.depth) := by
  induction d generalizing k k' with
  | empty =>
    have hp : empty.Printable ctx k.depth k.out.utf8ByteSize := ⟨by simp [names], by simp [extents]⟩
    have hk : k.wrote "" [] = k := by simp [Sink.wrote]
    simp only [output, events, hk, hp, true_and]
    show EStateM.Result.ok () k = _ ↔ _
    simp [eq_comm]
  | text s =>
    simp [print, Printer.write_eq, printable_text, output, events, eq_comm]
  | name n =>
    have hp : (Doc.name n).Printable ctx k.depth k.out.utf8ByteSize ↔ ctx.Issued n :=
      ⟨fun h => h.1 n (by simp [names]), fun h => ⟨by simpa [names] using h, by simp [extents]⟩⟩
    rw [hp, print, Printer.write_lookup_eq fun s => s]
    split <;> simp [*, output, events, eq_comm]
  | quoted n =>
    have hp : (Doc.quoted n).Printable ctx k.depth k.out.utf8ByteSize ↔ ctx.Issued n :=
      ⟨fun h => h.1 n (by simp [names]), fun h => ⟨by simpa [names] using h, by simp [extents]⟩⟩
    rw [hp, print, Printer.write_lookup_eq]
    split <;> simp [*, output, events, eq_comm]
  | indent =>
    have hp : Doc.indent.Printable ctx k.depth k.out.utf8ByteSize ↔
        k.out.utf8ByteSize + k.depth * ctx.indentSize < Text.limit :=
      ⟨fun h => h.2 _ (by simp [extents]), fun h => ⟨by simp [names], by simpa [extents] using h⟩⟩
    rw [hp, print, Printer.writeIndent_eq]
    split
    · next h =>
      rw [and_iff_right h]
      exact ⟨fun hk => by cases hk; rfl, fun hk => by rw [hk]; rfl⟩
    · next h => split <;> simp only [h, false_and, reduceCtorEq]
  | append a b iha ihb =>
    have hb : ∀ k₁ : Sink, k₁ = k.wrote (a.output ctx k.depth) (a.events k.depth) →
        (b.print ctx k₁ = .ok () k' ↔
          b.Printable ctx k.depth (k.out.utf8ByteSize + (a.output ctx k.depth).utf8ByteSize) ∧
            k' = k.wrote ((a.append b).output ctx k.depth) ((a.append b).events k.depth)) := by
      rintro _ rfl
      rw [ihb, Sink.wrote_wrote]
      simp [Sink.wrote, output, events]
    show _ ↔ (a ++ b).Printable ctx k.depth k.out.utf8ByteSize ∧ _
    rw [printable_append, print]
    show EStateM.bind (a.print ctx) (fun _ => b.print ctx) k = _ ↔ _
    constructor
    · intro h
      rcases ha : a.print ctx k with ⟨_, k₁⟩ | ⟨e, k₁⟩ <;> simp only [EStateM.bind, ha] at h
      · obtain ⟨hpa, hk₁⟩ := (iha k k₁).mp ha
        obtain ⟨hpb, hk'⟩ := (hb k₁ hk₁).mp h
        exact ⟨⟨hpa, hpb⟩, hk'⟩
      · cases h
    · rintro ⟨⟨hpa, hpb⟩, hk'⟩
      simp only [EStateM.bind, (iha k _).mpr ⟨hpa, rfl⟩]
      exact (hb _ rfl).mpr ⟨hpb, hk'⟩
  | scope d ih =>
    have hp : d.scope.Printable ctx k.depth k.out.utf8ByteSize ↔
        d.Printable ctx k.enter.depth k.enter.out.utf8ByteSize :=
      ⟨fun h => ⟨h.1, h.2⟩, fun h => ⟨h.1, h.2⟩⟩
    have hk : (k.enter.wrote (d.output ctx k.enter.depth) (d.events k.enter.depth)).leave =
        k.wrote (d.scope.output ctx k.depth) (d.scope.events k.depth) := by
      simp [Sink.wrote, Sink.enter, Sink.leave, output, events]
    rw [hp, print]
    constructor
    · intro h
      rcases hd : d.print ctx k.enter with ⟨_, k₁⟩ | ⟨e, k₁⟩
      · obtain ⟨hpd, rfl⟩ := (ih _ _).mp hd
        rw [Printer.within_eq hd rfl, hk] at h
        exact ⟨hpd, by cases h; rfl⟩
      · simp only [Printer.within, hd] at h
        split at h <;> cases h
    · rintro ⟨hpd, rfl⟩
      rw [Printer.within_eq ((ih _ _).mpr ⟨hpd, rfl⟩) rfl, hk]

/-- A document that renders at a depth renders to its text at that depth. -/
theorem render_ok_iff {d : Doc} {k : Sink} {s : String} :
    (∃ l, d.render ctx k = .ok s l) ↔ d.Printable ctx k.depth 0 ∧ s = d.output ctx k.depth := by
  have hprint : ∀ k', d.print ctx ⟨k.depth, "", k.events⟩ = .ok () k' ↔ _ := d.print_ok_iff _
  constructor
  · rintro ⟨l, hl⟩
    rw [render] at hl
    split at hl
    · next hp =>
      cases hl
      obtain ⟨hd, rfl⟩ := (hprint _).mp hp
      exact ⟨hd, String.empty_append⟩
    · cases hl
  · rintro ⟨hd, rfl⟩
    have hp := (hprint _).mpr ⟨hd, rfl⟩
    simp [render, hp, Sink.wrote]

theorem toText_ok_iff (d : Doc) (s : String) :
    d.toText ctx = .ok s ↔ d.Printable ctx 0 0 ∧ s = d.output ctx 0 := by
  rw [← render_ok_iff (k := {}), toText]
  rcases d.render ctx {} with ⟨t, l⟩ | ⟨fault, l⟩ <;> simp

end Doc

end Treeprint
