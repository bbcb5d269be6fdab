import Treeprint.Datum.Inspect
import Treeprint.Proofs.Discerning
import Treeprint.Proofs.Equality
import Treeprint.Proofs.Reading.Scan

/-!
# Trees told apart by their labelled text

In the compact text of a datum every bracket is closed again, and commas stand inside brackets only
(`Text.Closed`), because labels are words (`Labelled`). So in a row of texts with commas between
them it is plain where each of them ends, whatever they are the texts of (`Text.listed_inj`). A
datum with parts thus shows the texts of its parts one by one, and data that are told apart by
their texts (`Datum.SameText`) can be taken apart from the front. The text of a chain shows no more
than its value slots, but a chain has exactly one node for each of them (`Chain.slots_inj`).

Main statement: `Node.compact_eq_iff`.
-/

namespace Treeprint

/-- A chain has one node for each of its value slots. -/
theorem Chain.slots_inj {α : Type} {c c' : Chain α} (h : c.slots = c'.slots) : c = c' := by
  induction c using Chain.ofParts_induction generalizing c' with
  | h v tail ih =>
    obtain ⟨v', tail', rfl⟩ : ∃ v' tail', c' = ofParts v' tail' := ⟨_, _, (ofParts_parts c').symm⟩
    cases tail with
    | none =>
      cases tail' with
      | none =>
        rw [slots_ofParts_none, slots_ofParts_none] at h
        rw [(List.cons.inj h).1]
      | some t' =>
        rw [slots_ofParts_none, slots_ofParts_some] at h
        exact absurd (List.cons.inj h).2.symm t'.slots_ne_nil
    | some t =>
      cases tail' with
      | none =>
        rw [slots_ofParts_some, slots_ofParts_none] at h
        exact absurd (List.cons.inj h).2 t.slots_ne_nil
      | some t' =>
        rw [slots_ofParts_some, slots_ofParts_some] at h
        rw [(List.cons.inj h).1, ih t rfl (List.cons.inj h).2]

/-! ## Brackets -/

namespace Text

def opens (c : Char) : Bool := c == '(' || c == '[' || c == '\x7b'

def closes (c : Char) : Bool := c == ')' || c == ']' || c == '\x7d'

/-- What is left of a text from the first comma or closing bracket on that is not within brackets,
if the text begins within `depth` of them. -/
def beyond (depth : Nat) : List Char → List Char
  | [] => []
  | c :: cs =>
    if opens c then beyond (depth + 1) cs
    else if (closes c || c == ',') && depth == 0 then c :: cs
    else beyond (if closes c then depth - 1 else depth) cs

/-- All brackets of the text are closed in it, and it has commas in brackets only. -/
def Closed (s : List Char) : Prop := ∀ depth t, beyond depth (s ++ t) = beyond depth t

/-- As part of what is in brackets, the text may have commas of its own. -/
def Held (s : List Char) : Prop := ∀ depth t, beyond (depth + 1) (s ++ t) = beyond (depth + 1) t

theorem Closed.held {s : List Char} (h : Closed s) : Held s := fun depth => h (depth + 1)

theorem Closed.append {s t : List Char} (hs : Closed s) (ht : Closed t) : Closed (s ++ t) := by
  intro depth u
  rw [List.append_assoc, hs, ht]

theorem Held.append {s t : List Char} (hs : Held s) (ht : Held t) : Held (s ++ t) := by
  intro depth u
  rw [List.append_assoc, hs, ht]

/-- A character that is no bracket and no comma. -/
def plain (c : Char) : Bool := !opens c && !closes c && c != ','

theorem closed_of_plain {s : List Char} (h : ∀ c ∈ s, plain c) : Closed s := by
  intro depth t
  induction s with
  | nil => rfl
  | cons c s ih =>
    rw [List.forall_mem_cons] at h
    obtain ⟨⟨ho, hc⟩, hne⟩ : (opens c = false ∧ closes c = false) ∧ c ≠ ',' := by
      simpa [plain] using h.1
    rw [List.cons_append, beyond]
    simpa [ho, hc, hne] using ih h.2

theorem held_comma : Held [',', ' '] := fun _ _ => rfl

theorem closed_brackets {s : List Char} (h : Held s) {o c : Char} (ho : opens o)
    (hc : closes c) (hc' : opens c = false) : Closed (o :: s ++ [c]) := by
  intro depth t
  have hend : beyond (depth + 1) (c :: t) = beyond depth t := by
    rw [beyond]
    simp [hc, hc']
  rw [List.append_assoc, List.cons_append, beyond, if_pos ho, h, List.singleton_append, hend]

/-- Texts with commas before them. -/
def listedTail (ts : List (List Char)) : List Char := ts.flatMap ([',', ' '] ++ ·)

/-- Texts with commas between them. -/
def listed : List (List Char) → List Char
  | [] => []
  | t :: ts => t ++ listedTail ts

theorem held_listed {ts : List (List Char)} (h : ∀ t ∈ ts, Closed t) : Held (listed ts) := by
  have htail : ∀ us : List (List Char), (∀ t ∈ us, Closed t) → Held (listedTail us) := by
    intro us hus
    induction us with
    | nil => exact fun _ _ => rfl
    | cons u us ih =>
      rw [List.forall_mem_cons] at hus
      exact (held_comma.append hus.1.held).append (ih hus.2)
  rcases ts with _ | ⟨t, ts⟩
  · exact fun _ _ => rfl
  · rw [List.forall_mem_cons] at h
    exact h.1.held.append (htail ts h.2)

/-- What stands behind a closed text begins where no bracket of the text is open. -/
theorem Closed.append_inj {s t u v : List Char} (hs : Closed s) (ht : Closed t)
    (hu : beyond 0 u = u) (hv : beyond 0 v = v) (h : s ++ u = t ++ v) : s = t ∧ u = v := by
  have huv : u = v := by rw [← hu, ← hs, h, ht, hv]
  subst huv
  exact ⟨List.append_cancel_right h, rfl⟩

theorem beyond_listedTail (ts : List (List Char)) : beyond 0 (listedTail ts) = listedTail ts := by
  cases ts <;> rfl

theorem listedTail_inj {ts us : List (List Char)} (hts : ∀ t ∈ ts, Closed t)
    (hus : ∀ u ∈ us, Closed u) (h : listedTail ts = listedTail us) : ts = us := by
  induction ts generalizing us with
  | nil =>
    cases us with
    | nil => rfl
    | cons u us => cases h
  | cons t ts ih =>
    cases us with
    | nil => cases h
    | cons u us =>
      rw [List.forall_mem_cons] at hts hus
      have h : [',', ' '] ++ (t ++ listedTail ts) = [',', ' '] ++ (u ++ listedTail us) := h
      obtain ⟨rfl, htail⟩ := hts.1.append_inj hus.1 (beyond_listedTail ts) (beyond_listedTail us)
        (List.append_cancel_left h)
      rw [ih hts.2 hus.2 htail]

theorem listed_inj {ts us : List (List Char)} (hts : ∀ t ∈ ts, Closed t ∧ t ≠ [])
    (hus : ∀ u ∈ us, Closed u ∧ u ≠ []) (h : listed ts = listed us) : ts = us := by
  cases ts with
  | nil =>
    cases us with
    | nil => rfl
    | cons u us =>
      have hu := (List.append_eq_nil_iff.mp h.symm).1
      exact absurd hu (hus u List.mem_cons_self).2
  | cons t ts =>
    cases us with
    | nil =>
      have ht := (List.append_eq_nil_iff.mp h).1
      exact absurd ht (hts t List.mem_cons_self).2
    | cons u us =>
      rw [List.forall_mem_cons] at hts hus
      obtain ⟨rfl, htail⟩ := hts.1.1.append_inj hus.1.1 (beyond_listedTail ts)
        (beyond_listedTail us) h
      rw [listedTail_inj (fun t ht => (hts.2 t ht).1) (fun u hu => (hus.2 u hu).1) htail]

end Text

/-! ## Compact texts -/

namespace Datum

/-- The characters of the compact text. -/
def chars (d : Datum) : List Char := d.compact.toList

/-- The characters of a part under its label. -/
def fieldChars (f : String × Datum) : List Char := f.1.toList ++ [':', ' '] ++ f.2.chars

mutual

theorem toList_inspectTo : ∀ (d : Datum) (acc : String),
    (d.inspectTo .compact acc).toList = acc.toList ++ d.chars
  | handle n, acc => by simp [chars, compact, inspectTo]
  | span s, acc => by simp [chars, compact, inspectTo]
  | word n, acc => by simp [chars, compact, inspectTo]
  | flag b, acc => by simp [chars, compact, inspectTo]
  | absent, acc => by simp [chars, compact, inspectTo]
  | present d, acc => by
    rw [chars, compact, inspectTo, inspectTo]
    simp [toList_inspectTo d, Style.inner, Style.before, Style.behind, Style.close]
  | seq [], acc => by simp [chars, compact, inspectTo]
  | seq (d :: ds), acc => by
    rw [chars, compact, inspectTo, inspectTo]
    simp [toList_inspectItems true (d :: ds), Style.close]
  | chain [], acc => by simp [chars, compact, inspectTo]
  | chain (d :: ds), acc => by
    rw [chars, compact, inspectTo, inspectTo]
    simp [toList_inspectItems true (d :: ds), Style.close]
  | tuple tag [], acc => by simp [chars, compact, inspectTo]
  | tuple tag (d :: ds), acc => by
    rw [chars, compact, inspectTo, inspectTo]
    simp [toList_inspectItems true (d :: ds), Style.close]
  | record tag [], acc => by simp [chars, compact, inspectTo]
  | record tag (f :: fs), acc => by
    rw [chars, compact, inspectTo, inspectTo]
    simp [toList_inspectFields true (f :: fs), Style.close, Style.pad]

theorem toList_inspectItems : ∀ (first : Bool) (ds : List Datum) (acc : String),
    (inspectItems .compact first ds acc).toList =
      acc.toList ++ (if first then Text.listed else Text.listedTail) (ds.map chars)
  | first, [], acc => by cases first <;> simp [inspectItems, Text.listed, Text.listedTail]
  | first, d :: ds, acc => by
    rw [inspectItems, toList_inspectItems false ds]
    cases first <;>
      simp [toList_inspectTo d, Style.inner, Style.before, Style.behind, Text.listed,
        Text.listedTail]

theorem toList_inspectFields : ∀ (first : Bool) (fs : List (String × Datum)) (acc : String),
    (inspectFields .compact first fs acc).toList =
      acc.toList ++ (if first then Text.listed else Text.listedTail) (fs.map fieldChars)
  | first, [], acc => by cases first <;> simp [inspectFields, Text.listed, Text.listedTail]
  | first, (label, d) :: fs, acc => by
    rw [inspectFields, toList_inspectFields false fs]
    cases first <;>
      simp [toList_inspectTo d, Style.inner, Style.before, Style.behind, Text.listed,
        Text.listedTail, fieldChars]

end

theorem chars_handle (n : Name) :
    (handle n).chars = "Name".toList ++ ('(' :: (toString n.index).toList ++ [')']) := by
  simp [chars, compact, inspectTo, Name.label]

theorem chars_span (s : Span) : (span s).chars =
    (toString s.start.toNat).toList ++ (['.', '.'] ++ (toString s.stop.toNat).toList) := by
  simp [chars, compact, inspectTo, Span.label]

theorem chars_word (n : UInt64) : (word n).chars = (toString n.toNat).toList := by
  simp [chars, compact, inspectTo]

theorem chars_flag (b : Bool) : (flag b).chars = (if b then "true" else "false").toList := by
  simp [chars, compact, inspectTo]

theorem chars_absent : absent.chars = "None".toList := by
  simp [chars, compact, inspectTo]

theorem chars_present (d : Datum) :
    (present d).chars = "Some".toList ++ ('(' :: d.chars ++ [')']) := by
  rw [chars, compact, inspectTo]
  simp [toList_inspectTo, Style.inner, Style.before, Style.behind, Style.close]

theorem chars_seq (ds : List Datum) :
    (seq ds).chars = '[' :: Text.listed (ds.map chars) ++ [']'] := by
  rw [chars, compact]
  cases ds with
  | nil => simp [inspectTo, Text.listed]
  | cons d ds =>
    rw [inspectTo]
    simp [toList_inspectItems, Style.close]

theorem chars_chain (ds : List Datum) :
    (chain ds).chars = "ListCons".toList ++ ('[' :: Text.listed (ds.map chars) ++ [']']) := by
  rw [chars, compact]
  cases ds with
  | nil => simp [inspectTo, Text.listed]
  | cons d ds =>
    rw [inspectTo]
    simp [toList_inspectItems, Style.close]

/-- What stands behind the label of a datum with parts by position. -/
def itemsChars : List Datum → List Char
  | [] => []
  | d :: ds => '(' :: Text.listed ((d :: ds).map chars) ++ [')']

/-- What stands behind the label of a datum with parts by field. -/
def fieldsChars : List (String × Datum) → List Char
  | [] => []
  | f :: fs =>
    [' '] ++ ('\x7b' :: ([' '] ++ Text.listed ((f :: fs).map fieldChars) ++ [' ']) ++ ['\x7d'])

theorem chars_tuple (tag : Tag) (ds : List Datum) :
    (tuple tag ds).chars = tag.label.toList ++ itemsChars ds := by
  rw [chars, compact]
  cases ds with
  | nil => simp [inspectTo, itemsChars]
  | cons d ds =>
    rw [inspectTo]
    simp [toList_inspectItems, Style.close, itemsChars]

theorem chars_record (tag : Tag) (fs : List (String × Datum)) :
    (record tag fs).chars = tag.label.toList ++ fieldsChars fs := by
  rw [chars, compact]
  cases fs with
  | nil => simp [inspectTo, fieldsChars]
  | cons f fs =>
    rw [inspectTo]
    simp [toList_inspectFields, Style.close, Style.pad, fieldsChars]

/-! ## Words as labels -/

/-- All labels are words. -/
inductive Labelled : Datum → Prop
  | handle (n : Name) : Labelled (handle n)
  | span (s : Span) : Labelled (span s)
  | word (n : UInt64) : Labelled (word n)
  | flag (b : Bool) : Labelled (flag b)
  | absent : Labelled absent
  | present {d : Datum} (h : Labelled d) : Labelled (present d)
  | seq {ds : List Datum} (h : ∀ d ∈ ds, Labelled d) : Labelled (seq ds)
  | chain {ds : List Datum} (h : ∀ d ∈ ds, Labelled d) : Labelled (chain ds)
  | tuple {tag : Tag} {ds : List Datum} (hl : Text.isWord tag.label.toList)
    (h : ∀ d ∈ ds, Labelled d) : Labelled (tuple tag ds)
  | record {tag : Tag} {fs : List (String × Datum)} (hl : Text.isWord tag.label.toList)
    (hf : ∀ f ∈ fs, Text.isWord f.1.toList) (h : ∀ f ∈ fs, Labelled f.2) : Labelled (record tag fs)

theorem plain_of_inWord {c : Char} (h : Text.inWord c) : Text.plain c := by
  cases hc : Text.plain c with
  | true => rfl
  | false =>
    have hcases : c = '(' ∨ c = '[' ∨ c = '\x7b' ∨ c = ')' ∨ c = ']' ∨ c = '\x7d' ∨ c = ',' := by
      simp only [Text.plain, Text.opens, Text.closes] at hc
      grind
    rcases hcases with rfl | rfl | rfl | rfl | rfl | rfl | rfl <;> cases h

theorem closed_word {w : List Char} (h : Text.isWord w) : Text.Closed w :=
  Text.closed_of_plain fun c hc => plain_of_inWord (Scan.inWord_of_isWord h c hc)

theorem closed_number (n : Nat) : Text.Closed (toString n).toList := by
  refine Text.closed_of_plain fun c hc => plain_of_inWord ?_
  simp [Text.inWord, Char.isAlphanum, Text.isDigit_of_mem_toString hc]

theorem closed_fieldChars {f : String × Datum} (hl : Text.isWord f.1.toList)
    (h : Text.Closed f.2.chars) : Text.Closed (fieldChars f) := by
  have hcolon : Text.Closed [':', ' '] := fun _ _ => rfl
  exact ((closed_word hl).append hcolon).append h

theorem Labelled.closed {d : Datum} (h : d.Labelled) : Text.Closed d.chars := by
  have hword : ∀ w : List Char, Text.isWord w → Text.Closed w := fun _ => closed_word
  have hdots : Text.Closed ['.', '.'] := fun _ _ => rfl
  have hspace : Text.Closed [' '] := fun _ _ => rfl
  induction h with
  | handle n =>
    rw [chars_handle]
    exact (hword _ rfl).append
      (Text.closed_brackets (closed_number n.index).held rfl rfl rfl)
  | span s =>
    rw [chars_span]
    exact (closed_number _).append (hdots.append (closed_number _))
  | word n =>
    rw [chars_word]
    exact closed_number _
  | flag b =>
    rw [chars_flag]
    cases b <;> exact hword _ rfl
  | absent =>
    rw [chars_absent]
    exact hword _ rfl
  | present h ih =>
    rw [chars_present]
    exact (hword _ rfl).append (Text.closed_brackets ih.held rfl rfl rfl)
  | seq h ih =>
    rw [chars_seq]
    exact Text.closed_brackets (Text.held_listed (List.forall_mem_map.mpr ih)) rfl rfl rfl
  | chain h ih =>
    rw [chars_chain]
    exact (hword _ rfl).append
      (Text.closed_brackets (Text.held_listed (List.forall_mem_map.mpr ih)) rfl rfl rfl)
  | @tuple tag ds hl h ih =>
    rw [chars_tuple]
    refine (hword _ hl).append ?_
    cases ds with
    | nil => exact fun _ _ => rfl
    | cons d ds =>
      exact Text.closed_brackets (Text.held_listed (List.forall_mem_map.mpr ih)) rfl rfl rfl
  | @record tag fs hl hf h ih =>
    rw [chars_record]
    refine (hword _ hl).append ?_
    cases fs with
    | nil => exact fun _ _ => rfl
    | cons f fs =>
      have hfields := Text.held_listed (List.forall_mem_map.mpr fun g hg =>
        closed_fieldChars (hf g hg) (ih g hg))
      refine hspace.append (Text.closed_brackets ?_ rfl rfl rfl)
      exact (hspace.held.append hfields).append hspace.held

theorem isWord_ne_nil {w : List Char} (h : Text.isWord w) : w ≠ [] := by
  rintro rfl
  cases h

theorem Labelled.chars_ne_nil {d : Datum} (h : d.Labelled) : d.chars ≠ [] := by
  cases h with
  | handle n => simp [chars_handle]
  | span s => simp [chars_span]
  | word n =>
    rw [chars_word]
    exact Text.toList_toString_ne_nil n.toNat
  | flag b => cases b <;> simp [chars_flag]
  | absent => simp [chars_absent]
  | present h => simp [chars_present]
  | seq h => simp [chars_seq]
  | chain h => simp [chars_chain]
  | tuple hl h => simp [chars_tuple, isWord_ne_nil hl]
  | record hl hf h => simp [chars_record, isWord_ne_nil hl]

theorem Labelled.of_present {d : Datum} : (Datum.present d).Labelled → d.Labelled
  | .present h => h

theorem Labelled.of_seq {ds : List Datum} : (Datum.seq ds).Labelled → ∀ d ∈ ds, d.Labelled
  | .seq h => h

theorem Labelled.of_chain {ds : List Datum} : (Datum.chain ds).Labelled → ∀ d ∈ ds, d.Labelled
  | .chain h => h

theorem Labelled.of_tuple {tag : Tag} {ds : List Datum} :
    (Datum.tuple tag ds).Labelled → ∀ d ∈ ds, d.Labelled
  | .tuple _ h => h

theorem Labelled.of_record {tag : Tag} {fs : List (String × Datum)} :
    (Datum.record tag fs).Labelled → ∀ f ∈ fs, Text.isWord f.1.toList ∧ f.2.Labelled
  | .record _ hf h => fun f hmem => ⟨hf f hmem, h f hmem⟩

/-! ## Rows of data with the same texts -/

/-- Rows of data that have the same texts one by one. -/
structure SameText (ds es : List Datum) : Prop where
  left : ∀ d ∈ ds, d.Labelled
  right : ∀ e ∈ es, e.Labelled
  texts : ds.map chars = es.map chars

namespace SameText

variable {α : Type} {d e : Datum} {ds es xs ys : List Datum}

theorem cons_iff : SameText (d :: ds) (e :: es) ↔
    (d.Labelled ∧ e.Labelled ∧ d.chars = e.chars) ∧ SameText ds es := by
  constructor
  · rintro ⟨hds, hes, htexts⟩
    rw [List.forall_mem_cons] at hds hes
    obtain ⟨htext, htexts⟩ := List.cons.inj htexts
    exact ⟨⟨hds.1, hes.1, htext⟩, hds.2, hes.2, htexts⟩
  · rintro ⟨⟨hd, he, htext⟩, hds, hes, htexts⟩
    refine ⟨List.forall_mem_cons.mpr ⟨hd, hds⟩, List.forall_mem_cons.mpr ⟨he, hes⟩, ?_⟩
    rw [List.map_cons, List.map_cons, htext, htexts]

theorem append (h : SameText xs ys) (hs : SameText ds es) : SameText (xs ++ ds) (ys ++ es) := by
  refine ⟨List.forall_mem_append.mpr ⟨h.left, hs.left⟩,
    List.forall_mem_append.mpr ⟨h.right, hs.right⟩, ?_⟩
  rw [List.map_append, List.map_append, h.texts, hs.texts]

/-- Data in a row with commas between them show their texts one by one. -/
theorem of_listed (hx : ∀ x ∈ xs, x.Labelled) (hy : ∀ y ∈ ys, y.Labelled)
    (h : Text.listed (xs.map chars) = Text.listed (ys.map chars)) : SameText xs ys := by
  refine ⟨hx, hy, Text.listed_inj ?_ ?_ h⟩
  · exact List.forall_mem_map.mpr fun x hmem => ⟨(hx x hmem).closed, (hx x hmem).chars_ne_nil⟩
  · exact List.forall_mem_map.mpr fun y hmem => ⟨(hy y hmem).closed, (hy y hmem).chars_ne_nil⟩

/-- Rows of things that can be told apart. -/
theorem eq_of_map {f : α → Datum} {xs ys : List α} (h : ∀ x ∈ xs, Discerned SameText f x)
    (hs : SameText (xs.map f) (ys.map f)) : xs = ys := by
  induction xs generalizing ys with
  | nil =>
    cases ys with
    | nil => rfl
    | cons y ys => cases hs.texts
  | cons x xs ih =>
    cases ys with
    | nil => cases hs.texts
    | cons y ys =>
      rw [List.forall_mem_cons] at h
      obtain ⟨rfl, hrest⟩ := h.1 hs
      rw [ih h.2 hrest]

theorem handle (n : Name) : Discerned SameText Datum.handle n := by
  rintro ⟨m⟩ ds es h
  obtain ⟨⟨-, -, htext⟩, hrest⟩ := cons_iff.mp h
  rw [chars_handle, chars_handle] at htext
  have hindex := Text.toList_toString_inj
    (List.append_cancel_right (List.cons.inj (List.append_cancel_left htext)).2)
  exact ⟨congrArg Name.mk (UInt32.toNat_inj.mp hindex), hrest⟩

theorem span (place : Span) : Discerned SameText Datum.span place := by
  rintro ⟨start, stop⟩ ds es h
  obtain ⟨⟨-, -, htext⟩, hrest⟩ := cons_iff.mp h
  rw [chars_span, chars_span] at htext
  have hrun := congrArg (Scan.run Char.isDigit) htext
  rw [Scan.run_append (fun _ => Text.isDigit_of_mem_toString) (by simp),
    Scan.run_append (fun _ => Text.isDigit_of_mem_toString) (by simp)] at hrun
  obtain ⟨hstart, hstop⟩ := Prod.mk.inj hrun
  obtain rfl := UInt32.toNat_inj.mp (Text.toList_toString_inj hstart)
  obtain rfl := UInt32.toNat_inj.mp (Text.toList_toString_inj (List.append_cancel_left hstop))
  exact ⟨rfl, hrest⟩

theorem word (n : UInt64) : Discerned SameText Datum.word n := by
  intro m ds es h
  obtain ⟨⟨-, -, htext⟩, hrest⟩ := cons_iff.mp h
  rw [chars_word, chars_word] at htext
  exact ⟨UInt64.toNat_inj.mp (Text.toList_toString_inj htext), hrest⟩

theorem flag (b : Bool) : Discerned SameText Datum.flag b := by
  intro c ds es h
  obtain ⟨⟨-, -, htext⟩, hrest⟩ := cons_iff.mp h
  rw [chars_flag, chars_flag] at htext
  refine ⟨?_, hrest⟩
  cases b <;> cases c <;> first | rfl | cases htext

theorem option {f : α → Datum} {o : Option α} (h : ∀ x ∈ o, Discerned SameText f x) :
    Discerned SameText (fun o => ofOption (o.map f)) o := by
  intro o' ds es hs
  obtain ⟨⟨hd, he, htext⟩, hrest⟩ := cons_iff.mp hs
  cases o with
  | none =>
    cases o' with
    | none => exact ⟨rfl, hrest⟩
    | some y =>
      simp only [Option.map_none, Option.map_some, ofOption, chars_absent, chars_present] at htext
      cases htext
  | some x =>
    cases o' with
    | none =>
      simp only [Option.map_none, Option.map_some, ofOption, chars_absent, chars_present] at htext
      cases htext
    | some y =>
      simp only [Option.map_some, ofOption] at hd he htext
      rw [chars_present, chars_present] at htext
      have htext := List.append_cancel_right (List.cons.inj (List.append_cancel_left htext)).2
      have hparts : SameText (f x :: ds) (f y :: es) :=
        cons_iff.mpr ⟨⟨hd.of_present, he.of_present, htext⟩, hrest⟩
      exact (h x rfl hparts).imp_left (congrArg some)

theorem seq {f : α → Datum} {xs : List α} (h : ∀ x ∈ xs, Discerned SameText f x) :
    Discerned SameText (fun xs => Datum.seq (xs.map f)) xs := by
  intro ys ds es hs
  obtain ⟨⟨hd, he, htext⟩, hrest⟩ := cons_iff.mp hs
  simp only [chars_seq] at htext
  have hitems := of_listed hd.of_seq he.of_seq (List.append_cancel_right (List.cons.inj htext).2)
  exact ⟨eq_of_map h hitems, hrest⟩

/-- The slots of a chain are all that its text shows, and all that there is to a chain. -/
theorem chain {f : α → Datum} {c : Chain α}
    (h : ∀ x, some x ∈ c.slots → Discerned SameText f x) :
    Discerned SameText (fun c => (c.map f).datum) c := by
  intro c' ds es hs
  obtain ⟨⟨hd, he, htext⟩, hrest⟩ := cons_iff.mp hs
  simp only [Chain.datum, Chain.slots_map, List.map_map] at hd he htext
  rw [chars_chain, chars_chain] at htext
  have hslots := of_listed hd.of_chain he.of_chain
    (List.append_cancel_right (List.cons.inj (List.append_cancel_left htext)).2)
  have hoption : ∀ o ∈ c.slots, Discerned SameText (ofOption ∘ Option.map f) o := by
    rintro o ho
    exact option fun x hx => h x (by rwa [← hx])
  exact ⟨Chain.slots_inj (eq_of_map hoption hslots), hrest⟩

theorem tuple {tag : Tag} (h : SameText (Datum.tuple tag xs :: ds) (Datum.tuple tag ys :: es))
    (hlen : xs.length = ys.length) : SameText (xs ++ ds) (ys ++ es) := by
  obtain ⟨⟨hd, he, htext⟩, hrest⟩ := cons_iff.mp h
  rw [chars_tuple, chars_tuple] at htext
  have htext := List.append_cancel_left htext
  refine append (of_listed hd.of_tuple he.of_tuple ?_) hrest
  cases xs with
  | nil =>
    obtain rfl := List.length_eq_zero_iff.mp hlen.symm
    rfl
  | cons x xs =>
    cases ys with
    | nil => cases hlen
    | cons y ys => exact List.append_cancel_right (List.cons.inj htext).2

/-- Under the same labels, parts with the same texts have the same texts without them. -/
theorem texts_of_fields {fs gs : List (String × Datum)}
    (h : fs.map fieldChars = gs.map fieldChars) (hlabels : fs.map Prod.fst = gs.map Prod.fst) :
    (fs.map Prod.snd).map chars = (gs.map Prod.snd).map chars := by
  induction fs generalizing gs with
  | nil =>
    cases gs with
    | nil => rfl
    | cons g gs => cases hlabels
  | cons f fs ih =>
    cases gs with
    | nil => cases hlabels
    | cons g gs =>
      obtain ⟨hf, hfs⟩ := List.cons.inj h
      obtain ⟨hl, hls⟩ := List.cons.inj hlabels
      rw [fieldChars, fieldChars, hl] at hf
      simp only [List.map_cons, List.append_cancel_left hf, ih hfs hls]

theorem record {tag : Tag} {fs gs : List (String × Datum)}
    (h : SameText (Datum.record tag fs :: ds) (Datum.record tag gs :: es))
    (hlabels : fs.map Prod.fst = gs.map Prod.fst) :
    SameText (fs.map Prod.snd ++ ds) (gs.map Prod.snd ++ es) := by
  obtain ⟨⟨hd, he, htext⟩, hrest⟩ := cons_iff.mp h
  rw [chars_record, chars_record] at htext
  have htext := List.append_cancel_left htext
  have hclosed : ∀ {hs : List (String × Datum)}, (Datum.record tag hs).Labelled →
      ∀ t ∈ hs.map fieldChars, Text.Closed t ∧ t ≠ [] := by
    intro hs hl
    refine List.forall_mem_map.mpr fun g hg => ?_
    obtain ⟨hword, hlabelled⟩ := hl.of_record g hg
    exact ⟨closed_fieldChars hword hlabelled.closed, by simp [fieldChars]⟩
  have hfields : fs.map fieldChars = gs.map fieldChars := by
    refine Text.listed_inj (hclosed hd) (hclosed he) ?_
    cases fs with
    | nil =>
      obtain rfl := List.map_eq_nil_iff.mp hlabels.symm
      rfl
    | cons f fs =>
      cases gs with
      | nil => cases hlabels
      | cons g gs => simpa [fieldsChars] using htext
  refine append ⟨?_, ?_, texts_of_fields hfields hlabels⟩ hrest
  · exact List.forall_mem_map.mpr fun f hf => (hd.of_record f hf).2
  · exact List.forall_mem_map.mpr fun g hg => (he.of_record g hg).2

end SameText

/-- The label of a constructor is the word at the front of the text. -/
theorem run_chars_of_tag? {d : Datum} {tag : Tag} (hd : d.Labelled) (h : d.tag? = some tag) :
    (Scan.run Text.inWord d.chars).1 = tag.label.toList := by
  cases hd with
  | @tuple _ ds hl =>
    cases h
    rw [chars_tuple, Scan.run_append (Scan.inWord_of_isWord hl)]
    cases ds <;> simp [itemsChars, Text.inWord]
  | @record _ fs hl =>
    cases h
    rw [chars_record, Scan.run_append (Scan.inWord_of_isWord hl)]
    cases fs <;> simp [fieldsChars, Text.inWord]
  | _ => cases h

theorem SameText.discerns : Discerns SameText where
  handle := handle
  span := span
  word := word
  flag := flag
  option := option
  seq := seq
  chain := chain
  tuple := tuple
  record := record
  alternative hd he _ _ h := by
    obtain ⟨⟨hdl, hel, htext⟩, -⟩ := cons_iff.mp h
    have hlabel := run_chars_of_tag? hdl hd
    rw [htext, run_chars_of_tag? hel he] at hlabel
    exact .inl (String.toList_inj.mp hlabel).symm

end Datum

/-! ## Trees -/

open Datum (Labelled)

theorem Datum.labelled_ofOption {o : Option Datum} (h : ∀ d ∈ o, d.Labelled) :
    (ofOption o).Labelled := by
  cases o with
  | none => exact .absent
  | some d => exact .present (h d rfl)

theorem Datum.labelled_seq {α : Type} {f : α → Datum} {xs : List α}
    (h : ∀ x ∈ xs, (f x).Labelled) : (seq (xs.map f)).Labelled :=
  .seq (List.forall_mem_map.mpr h)

theorem Datum.labelled_chain {α : Type} {f : α → Datum} {c : Chain α}
    (h : ∀ x, some x ∈ c.slots → (f x).Labelled) : (c.map f).datum.Labelled := by
  refine .chain (List.forall_mem_map.mpr fun o ho => labelled_ofOption ?_)
  rw [Chain.slots_map] at ho
  obtain ⟨slot, hslot, rfl⟩ := List.mem_map.mp ho
  intro d hd
  obtain ⟨x, rfl, rfl⟩ := Option.map_eq_some_iff.mp hd
  exact h x hslot

theorem Datum.labelled_record {tag : Tag} {fs : List (String × Datum)}
    (hl : Text.isWord tag.label.toList)
    (h : ∀ f ∈ fs, Text.isWord f.1.toList ∧ f.2.Labelled) : (record tag fs).Labelled :=
  .record hl (fun f hf => (h f hf).1) (fun f hf => (h f hf).2)

theorem Datum.labelled_pair {label first second : String} {a b : Datum}
    (h : [label, first, second].all fun label => Text.isWord label.toList) (ha : a.Labelled)
    (hb : b.Labelled) : (pair label first second a b).Labelled := by
  obtain ⟨hl, hf, hs⟩ := by simpa using h
  exact labelled_record hl (by simp [hf, hs, ha, hb])

theorem Value.labelled (v : Value) : v.datum.Labelled := by
  cases v <;> exact .tuple rfl (by simp [Labelled.handle, Labelled.word, Labelled.flag])

theorem Symbol.labelled (s : Symbol) : s.datum.Labelled := by
  have hmodules : (Datum.seq (s.modules.map .handle)).Labelled :=
    Datum.labelled_seq fun n _ => .handle n
  exact Datum.labelled_record rfl (by simp +decide [hmodules, Labelled.handle])

theorem TypeExpr.labelled (t : TypeExpr) : t.datum.Labelled := by
  obtain ⟨form, place⟩ := t
  have hform : form.datum.Labelled := by
    cases form with
    | record name => exact .tuple rfl (by simp [name.labelled])
    | prim p =>
      have hp : p.datum.Labelled := by cases p <;> exact .tuple rfl (by simp)
      exact .tuple rfl (by simp [hp])
    | _ => exact .tuple rfl (by simp)
  exact Datum.labelled_record rfl (by simp +decide [hform, Labelled.span])

theorem Datum.labelled_ofType (ty : Option TypeExpr) : (ofType ty).Labelled := by
  refine labelled_ofOption fun d hd => ?_
  obtain ⟨t, -, rfl⟩ := Option.map_eq_some_iff.mp hd
  exact t.labelled

theorem Pattern.labelled_of_form {form : PatternForm} (h : form.datum.Labelled)
    (ty : Option TypeExpr) (place : Span) : (Pattern.datum ⟨form, ty, place⟩).Labelled :=
  Datum.labelled_record rfl (by simp +decide [h, Datum.labelled_ofType, Labelled.span])

theorem pattern_labelled_steps : Pattern.Steps fun p => p.datum.Labelled where
  list c ty place ih := by
    refine Pattern.labelled_of_form ?_ ty place
    have hc := Datum.labelled_chain ih
    exact .tuple rfl (by simp [Pattern.chainData_eq_map, hc])
  map es ty place ih := by
    refine Pattern.labelled_of_form ?_ ty place
    have hes : (Datum.seq (Pattern.entryData es)).Labelled := by
      rw [Pattern.entryData_eq_map]
      exact Datum.labelled_seq fun e he => Datum.labelled_pair rfl (ih e he).1 (ih e he).2
    exact .tuple rfl (by simp [hes])
  record name fs ty place ih := by
    refine Pattern.labelled_of_form ?_ ty place
    have hfs : (Datum.seq (Pattern.fieldData fs)).Labelled := by
      rw [Pattern.fieldData_eq_map]
      exact Datum.labelled_seq fun f hf => Datum.labelled_pair rfl (.handle f.1) (ih f hf)
    exact Datum.labelled_record rfl (by simp +decide [name.labelled, hfs])
  symbol path ty place := by
    refine Pattern.labelled_of_form ?_ ty place
    exact .tuple rfl (by simp [path.labelled])
  value v ty place := by
    refine Pattern.labelled_of_form ?_ ty place
    exact .tuple rfl (by simp [v.labelled])

theorem Pattern.labelled (p : Pattern) : p.datum.Labelled := pattern_labelled_steps.all p

theorem Expr.labelled_of_form {form : ExprForm} (h : form.datum.Labelled)
    (ty : Option TypeExpr) (place : Span) : (Expr.datum ⟨form, ty, place⟩).Labelled :=
  Datum.labelled_record rfl (by simp +decide [h, Datum.labelled_ofType, Labelled.span])

theorem Stmt.labelled_of_form {form : StmtForm} (h : form.datum.Labelled) (place : Span) :
    (Stmt.datum ⟨form, place⟩).Labelled :=
  Datum.labelled_pair rfl h (.span place)

theorem Stmt.labelled_body {ss : List Stmt} (h : ∀ s ∈ ss, s.datum.Labelled) :
    (Datum.body (Stmt.data ss)).Labelled := by
  rw [Stmt.data_eq_map]
  exact .tuple rfl (by simp [Datum.labelled_seq h])

theorem Expr.labelled_seq {es : List Expr} (h : ∀ e ∈ es, e.datum.Labelled) :
    (Datum.seq (Expr.data es)).Labelled := by
  rw [Expr.data_eq_map]
  exact Datum.labelled_seq h

theorem expr_labelled_steps :
    Expr.Steps (fun e => e.datum.Labelled) (fun s => s.datum.Labelled) where
  ifElse cond body elseBody ty place ihc ihb ihe := by
    refine Expr.labelled_of_form ?_ ty place
    have hb := Stmt.labelled_body ihb
    have he : (Datum.ofOption (elseBody.map fun ss => .body (Stmt.data ss))).Labelled := by
      refine Datum.labelled_ofOption fun d hd => ?_
      obtain ⟨ss, hss, rfl⟩ := Option.map_eq_some_iff.mp hd
      exact Stmt.labelled_body (ihe ss hss)
    rw [Datum.Discerns.datum_ifElse]
    exact Datum.labelled_record rfl (by simp +decide [ihc, hb, he])
  case scrutinee arms ty place ihs iha := by
    refine Expr.labelled_of_form ?_ ty place
    have harms : (Datum.seq (Expr.armData arms)).Labelled := by
      rw [Expr.armData_eq_map]
      exact Datum.labelled_seq fun a ha => Datum.labelled_pair rfl a.1.labelled (iha a ha)
    exact Datum.labelled_record rfl (by simp +decide [ihs, harms])
  record name fs ty place ih := by
    refine Expr.labelled_of_form ?_ ty place
    have hfs : (Datum.seq (Expr.fieldData fs)).Labelled := by
      rw [Expr.fieldData_eq_map]
      exact Datum.labelled_seq fun f hf => Datum.labelled_pair rfl (.handle f.1) (ih f hf)
    exact Datum.labelled_record rfl (by simp +decide [name.labelled, hfs])
  list c ty place ih := by
    refine Expr.labelled_of_form ?_ ty place
    have hc := Datum.labelled_chain ih
    exact .tuple rfl (by simp [Expr.chainData_eq_map, hc])
  map es ty place ih := by
    refine Expr.labelled_of_form ?_ ty place
    have hes : (Datum.seq (Expr.entryData es)).Labelled := by
      rw [Expr.entryData_eq_map]
      exact Datum.labelled_seq fun e he => Datum.labelled_pair rfl (ih e he).1 (ih e he).2
    exact .tuple rfl (by simp [hes])
  value v ty place := by
    refine Expr.labelled_of_form ?_ ty place
    exact .tuple rfl (by simp [v.labelled])
  symbol path ty place := by
    refine Expr.labelled_of_form ?_ ty place
    exact .tuple rfl (by simp [path.labelled])
  call callee args ty place ih := by
    refine Expr.labelled_of_form ?_ ty place
    exact Datum.labelled_record rfl (by simp +decide [callee.labelled, Expr.labelled_seq ih])
  binary op lhs rhs ty place ihl ihr := by
    refine Expr.labelled_of_form ?_ ty place
    have hop : op.datum.Labelled := by cases op <;> exact .tuple rfl (by simp)
    exact Datum.labelled_record rfl (by simp +decide [hop, ihl, ihr])
  unary op operand ty place ih := by
    refine Expr.labelled_of_form ?_ ty place
    have hop : op.datum.Labelled := by cases op <;> exact .tuple rfl (by simp)
    exact Datum.labelled_record rfl (by simp +decide [hop, ih])
  compound exprs ty place ih := by
    refine Expr.labelled_of_form ?_ ty place
    exact .tuple rfl (by simp [Expr.labelled_seq ih])
  define name params result body place ih := by
    refine Stmt.labelled_of_form ?_ place
    have hparams := Datum.labelled_seq fun p (_ : p ∈ params) => p.labelled
    have hfunction : (Datum.record ⟨"Function", none⟩
        [("name", .handle name), ("params", .seq (params.map Pattern.datum)),
          ("return_ty", .ofType result), ("body", .body (Stmt.data body))]).Labelled :=
      Datum.labelled_record rfl (by
        simp +decide [Labelled.handle, hparams, Datum.labelled_ofType, Stmt.labelled_body ih])
    exact .tuple rfl (by simp [hfunction])
  recordType name fields place := by
    refine Stmt.labelled_of_form ?_ place
    have hfields : (Datum.seq (fields.map fun f =>
        .pair "RecordField" "name" "ty" (.handle f.1) f.2.datum)).Labelled :=
      Datum.labelled_seq fun f _ => Datum.labelled_pair rfl (.handle f.1) f.2.labelled
    refine .tuple rfl (List.forall_mem_singleton.mpr ?_)
    exact Datum.labelled_pair rfl (.handle name) hfields
  val name init place ih := by
    refine Stmt.labelled_of_form ?_ place
    exact Datum.labelled_record rfl (by simp +decide [Labelled.handle, ih])
  module name body place ih := by
    refine Stmt.labelled_of_form ?_ place
    refine .tuple rfl (List.forall_mem_singleton.mpr ?_)
    exact Datum.labelled_pair rfl (.handle name) (Stmt.labelled_body ih)
  expr e place ih := by
    refine Stmt.labelled_of_form ?_ place
    exact .tuple rfl (by simp [ih])
  loop pattern container place ih := by
    refine Stmt.labelled_of_form ?_ place
    exact Datum.labelled_record rfl (by simp +decide [pattern.labelled, ih])

theorem Node.labelled (n : Node) : n.datum.Labelled := by
  cases n with
  | value v => exact v.labelled
  | symbol s => exact s.labelled
  | type t => exact t.labelled
  | pattern p => exact p.labelled
  | expr e => exact expr_labelled_steps.all e
  | stmt s => exact expr_labelled_steps.allStmts s
  | program p =>
    have hbody := Stmt.labelled_body fun s (_ : s ∈ p.body) => expr_labelled_steps.allStmts s
    exact Datum.labelled_record rfl (by simp +decide [hbody])
  | exprChain c =>
    rw [Node.datum, Expr.chainData_eq_map]
    exact Datum.labelled_chain fun e _ => expr_labelled_steps.all e
  | patternChain c =>
    rw [Node.datum, Pattern.chainData_eq_map]
    exact Datum.labelled_chain fun p _ => p.labelled

/-- Two nodes of one family have the same compact text if and only if they are equal, for the
comparison that runs through chains node by node. -/
theorem Node.compact_eq_iff {a b : Node} (hab : a.family = b.family) :
    a.datum.compact = b.datum.compact ↔ (a == b) = true := by
  have hbeq : (a == b) = true ↔ a = b := a.decides_beq b
  rw [hbeq]
  refine ⟨fun h => ?_, fun h => by rw [h]⟩
  have htext : Datum.SameText [a.datum] [b.datum] :=
    ⟨List.forall_mem_singleton.mpr a.labelled, List.forall_mem_singleton.mpr b.labelled,
      by simp [Datum.chars, h]⟩
  exact Datum.SameText.discerns.node hab htext

/-- A list that ends, and one that breaks off after its element. -/
theorem Node.compact_eq_iff_ended :
    let p : Pattern := ⟨.value .unit, none, ⟨3, 9⟩⟩
    let a : Node := .patternChain (.element p .terminator)
    let b : Node := .patternChain (.last p)
    a.family = b.family ∧ (a == b) = false ∧ a.datum.compact ≠ b.datum.compact := by
  intro p a b
  have hfamily : a.family = b.family := rfl
  have hbeq : (a == b) = false := by
    rw [Bool.eq_false_iff, Ne, show (a == b) = true ↔ a = b from a.decides_beq b]
    simp [a, b]
  refine ⟨hfamily, hbeq, fun htext => ?_⟩
  rw [Node.compact_eq_iff hfamily, hbeq] at htext
  exact Bool.false_ne_true htext

end Treeprint
