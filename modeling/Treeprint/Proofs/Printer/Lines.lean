import Mathlib.Data.List.Chain
import Treeprint.Proofs.Printer.Mentions

/-!
# Lines

The text of a node consists of lines that are the same at every depth and for every width of
indentation (`Layout`): only the number of spaces before them differs. Every line end is followed by
an indentation, even where a block closes within an expression that goes on behind it, and no line
is more than one scope deeper than the line before it.

That a document flows like this (`Doc.Flows`) is shown part by part. A part may begin right after a
line end that is still to be followed by an indentation, or leave one behind itself. Of a program
the last line end is left, so a program is the one node that has no layout of this kind.

Main statement: `Node.print_layout`, for texts that are not too long. That each indentation is
narrow enough is not enough for there to be a text at all (`Node.not_print_layout_of_widths`).
-/

namespace Treeprint

namespace Text

def OneLine (s : String) : Prop := '\n' ∉ s.toList

instance (s : String) : Decidable (OneLine s) := inferInstanceAs (Decidable ('\n' ∉ s.toList))

theorem oneLine_append {s t : String} : OneLine (s ++ t) ↔ OneLine s ∧ OneLine t := by
  simp [OneLine]

def indentedChar (width : Nat) (c : Char) : List Char :=
  if c = '\n' then c :: List.replicate width ' ' else [c]

/-- The text with more spaces behind every line end. -/
def indented (width : Nat) (s : String) : String :=
  String.ofList (s.toList.flatMap (indentedChar width))

theorem indented_append (width : Nat) (s t : String) :
    indented width (s ++ t) = indented width s ++ indented width t := by
  simp [indented]

theorem indented_join (width : Nat) (ss : List String) :
    indented width (String.join ss) = String.join (ss.map (indented width)) := by
  induction ss with
  | nil => rfl
  | cons s ss ih => rw [String.join_cons, indented_append, ih, List.map_cons, String.join_cons]

theorem indented_of_oneLine {s : String} (width : Nat) (h : OneLine s) : indented width s = s := by
  have hchars : s.toList.flatMap (indentedChar width) = s.toList.flatMap fun c => [c] := by
    refine List.flatMap_congr fun c hc => if_neg ?_
    rintro rfl
    exact h hc
  rw [indented, hchars, List.flatMap_singleton', String.ofList_toList]

theorem oneLine_spaces (n : Nat) : OneLine (spaces n) := by
  intro h
  rw [toList_spaces] at h
  exact absurd (List.eq_of_mem_replicate h) (by decide)

theorem indented_newline (width : Nat) : indented width "\n" = "\n" ++ spaces width := by
  apply String.toList_inj.mp
  simp [indented, indentedChar]

theorem spaces_add (m n : Nat) : spaces (m + n) = spaces m ++ spaces n := by
  apply String.toList_inj.mp
  simp

end Text

/-- The lines of a text: the first one starts where the text starts, the others stand some scopes
deeper than the text. -/
structure Layout where
  first : String
  /-- How much deeper a line stands, and what stands on it. -/
  more : List (Nat × String)
  oneLine : ∀ c ∈ first :: more.map (·.2), Text.OneLine c
  steps : (0 :: more.map (·.1)).IsChain fun k k' => k' ≤ k + 1

/-- The text of a line behind a line end. -/
def Layout.lineText (size depth : Nat) (line : Nat × String) : String :=
  "\n" ++ Text.spaces ((depth + line.1) * size) ++ line.2

/-- The text with `size` spaces per scope at a depth. -/
def Layout.text (l : Layout) (size depth : Nat) : String :=
  l.first ++ String.join (l.more.map (lineText size depth))

theorem Layout.lineText_eq_indented (size depth : Nat) {line : Nat × String}
    (h : Text.OneLine line.2) :
    lineText size depth line = Text.indented (depth * size) (lineText size 0 line) := by
  have hspaces := Text.indented_of_oneLine (depth * size) (Text.oneLine_spaces (line.1 * size))
  rw [lineText, lineText, Nat.zero_add, Text.indented_append, Text.indented_append,
    Text.indented_newline, hspaces, Text.indented_of_oneLine _ h, Nat.add_mul, Text.spaces_add]
  simp only [String.append_assoc]

/-- Going deeper only puts more spaces behind the line ends. -/
theorem Layout.text_eq_indented (l : Layout) (size depth : Nat) :
    l.text size depth = Text.indented (depth * size) (l.text size 0) := by
  obtain ⟨hfirst, hmore⟩ := List.forall_mem_cons.mp l.oneLine
  have hlines : l.more.map (lineText size depth) =
      (l.more.map (lineText size 0)).map (Text.indented (depth * size)) := by
    rw [List.map_map]
    exact List.map_congr_left fun line hline =>
      lineText_eq_indented size depth (List.forall_mem_map.mp hmore line hline)
  rw [text, text, Text.indented_append, Text.indented_join, Text.indented_of_oneLine _ hfirst,
    hlines]

/-! ## Pieces of lines -/

/-- A piece of a text that is laid out. -/
inductive Piece where
  /-- Characters on one line. -/
  | run (s : String)
  /-- A line end and the indentation of a line that stands so many scopes deeper. -/
  | turn (level : Nat)

namespace Piece

def text (size depth : Nat) : Piece → String
  | .run s => s
  | .turn level => "\n" ++ Text.spaces ((depth + level) * size)

def level? : Piece → Option Nat
  | .run _ => none
  | .turn level => some level

/-- The piece one scope deeper. -/
def deeper : Piece → Piece
  | .run s => .run s
  | .turn level => .turn (level + 1)

def texts (size depth : Nat) (ps : List Piece) : String := String.join (ps.map (text size depth))

/-- The pieces are those of a layout. -/
structure Regular (ps : List Piece) : Prop where
  oneLine : ∀ s, .run s ∈ ps → Text.OneLine s
  steps : (0 :: ps.filterMap level?).IsChain fun k k' => k' ≤ k + 1

/-- What is on the line on which the pieces start, and the lines after it. -/
def lines : List Piece → String × List (Nat × String)
  | [] => ("", [])
  | .run s :: ps => (s ++ (lines ps).1, (lines ps).2)
  | .turn level :: ps => ("", (level, (lines ps).1) :: (lines ps).2)

theorem texts_append (size depth : Nat) (ps qs : List Piece) :
    texts size depth (ps ++ qs) = texts size depth ps ++ texts size depth qs := by
  simp [texts]

theorem texts_deeper (size depth : Nat) (ps : List Piece) :
    texts size depth (ps.map deeper) = texts size (depth + 1) ps := by
  rw [texts, texts, List.map_map]
  congr 1
  refine List.map_congr_left fun p _ => ?_
  cases p with
  | run s => rfl
  | turn level =>
    have hlevel : depth + (level + 1) = depth + 1 + level := by omega
    simp [deeper, text, hlevel]

namespace Regular

theorem nil : Regular [] := ⟨by simp, .singleton 0⟩

theorem run {s : String} (h : Text.OneLine s) : Regular [.run s] := by
  refine ⟨fun t ht => ?_, .singleton 0⟩
  obtain rfl : t = s := by simpa using ht
  exact h

theorem turn : Regular [.turn 0] := ⟨by simp, .cons_cons (by omega) (.singleton 0)⟩

/-- The line at the end of the first pieces is not less deep than they are, so the second ones may
go one scope deeper from there. -/
theorem append {ps qs : List Piece} (hp : Regular ps) (hq : Regular qs) : Regular (ps ++ qs) := by
  refine ⟨fun s hs => (List.mem_append.mp hs).elim (hp.oneLine s) (hq.oneLine s), ?_⟩
  obtain ⟨hhead, htail⟩ := List.isChain_cons.mp hq.steps
  rw [List.filterMap_append, ← List.cons_append]
  refine hp.steps.append htail fun k _ k' hk' => ?_
  have := hhead k' hk'
  omega

/-- Pieces on a new line one scope deeper. -/
theorem below {ps : List Piece} (h : Regular ps) : Regular (.turn 1 :: ps.map deeper) := by
  refine ⟨fun s hs => ?_, ?_⟩
  · obtain ⟨p, hp, he⟩ : ∃ p ∈ ps, deeper p = .run s := by simpa using hs
    cases p with
    | run t =>
      cases he
      exact h.oneLine s hp
    | turn level => cases he
  · have hlevels : (ps.map deeper).filterMap level? = (ps.filterMap level?).map (· + 1) := by
      rw [List.filterMap_map, List.map_filterMap]
      refine List.filterMap_congr fun p _ => ?_
      cases p <;> rfl
    have hsteps : (1 :: (ps.filterMap level?).map (· + 1)).IsChain fun k k' => k' ≤ k + 1 := by
      exact List.isChain_cons_map_of_isChain_cons (S := fun k k' => k' ≤ k + 1) (· + 1)
        (fun a b hab => by omega) h.steps
    rw [List.filterMap_cons, hlevels]
    exact hsteps.cons_cons (by omega)

end Regular

/-! ## From pieces to lines -/

theorem oneLine_lines {ps : List Piece} (h : ∀ s, .run s ∈ ps → Text.OneLine s) :
    ∀ c ∈ (lines ps).1 :: (lines ps).2.map (·.2), Text.OneLine c := by
  have hempty : Text.OneLine "" := by decide
  induction ps with
  | nil => exact List.forall_mem_singleton.mpr hempty
  | cons p ps ih =>
    have hrest := ih fun s hs => h s (List.mem_cons_of_mem p hs)
    obtain ⟨hfirst, hmore⟩ := List.forall_mem_cons.mp hrest
    cases p with
    | run s =>
      have hs : Text.OneLine s := h s List.mem_cons_self
      exact List.forall_mem_cons.mpr ⟨Text.oneLine_append.mpr ⟨hs, hfirst⟩, hmore⟩
    | turn level => exact List.forall_mem_cons.mpr ⟨hempty, hrest⟩

theorem levels_lines (ps : List Piece) : (lines ps).2.map (·.1) = ps.filterMap level? := by
  induction ps with
  | nil => rfl
  | cons p ps ih =>
    cases p with
    | run s => exact ih
    | turn level => exact congrArg (level :: ·) ih

/-- The layout that pieces make. -/
def Regular.layout {ps : List Piece} (h : Regular ps) : Layout where
  first := (lines ps).1
  more := (lines ps).2
  oneLine := oneLine_lines h.oneLine
  steps := by
    rw [levels_lines]
    exact h.steps

theorem text_lines (size depth : Nat) (ps : List Piece) :
    (lines ps).1 ++ String.join ((lines ps).2.map (Layout.lineText size depth)) =
      texts size depth ps := by
  induction ps with
  | nil => rfl
  | cons p ps ih =>
    rw [texts, List.map_cons, String.join_cons, ← texts, ← ih]
    cases p with
    | run s => simp [lines, text, String.append_assoc]
    | turn level => simp [lines, text, Layout.lineText, String.append_assoc]

end Piece

/-! ## Texts without line ends -/

namespace Text

theorem oneLine_toString (n : Nat) : OneLine (toString n) := by
  intro h
  rw [show (toString n).toList = Nat.toDigits 10 n by simp] at h
  exact absurd (Nat.isDigit_of_mem_toDigits (by decide) (by decide) h) (by decide)

/-- Four characters are always escaped. The other two that are also stand in escapes. -/
theorem not_mem_escape (c : Char) : ∀ x ∈ ['\n', '\t', '\r', '\x00'], x ∉ escape c := by
  unfold escape
  split_ifs with _ _ hn ht hr h0
  case neg => simp [Ne.symm hn, Ne.symm ht, Ne.symm hr, Ne.symm h0]
  all_goals simp

theorem not_mem_quoted (s : String) :
    ∀ x ∈ ['\n', '\t', '\r', '\x00'], x ∉ (quoted s).toList := by
  intro x hx h
  simp only [quoted, quotedTail, String.toList_ofList, List.mem_cons, List.mem_append,
    List.mem_flatMap, List.not_mem_nil, or_false] at h
  rcases h with rfl | ⟨c, -, hc⟩ | rfl
  · exact absurd hx (by decide)
  · exact not_mem_escape c x hx hc
  · exact absurd hx (by decide)

theorem oneLine_quoted (s : String) : OneLine (quoted s) := not_mem_quoted s _ (by decide)

theorem oneLine_fixed (d : Decimal.Fixed) : OneLine d.toText := by
  have hzeros : ∀ n, OneLine (String.ofList (List.replicate n '0')) := by
    intro n h
    rw [String.toList_ofList] at h
    exact absurd (List.eq_of_mem_replicate h) (by decide)
  simp only [Decimal.Fixed.toText, oneLine_append, oneLine_toString, hzeros, true_and, and_true]
  decide

theorem oneLine_float (bits : UInt64) : OneLine (Decimal.floatText bits) := by
  have hsign : ∀ negative, OneLine (Decimal.signText negative) := by decide
  have hzero : OneLine ".0" := by decide
  unfold Decimal.floatText
  split
  · decide
  · exact oneLine_append.mpr ⟨hsign _, by decide⟩
  · refine oneLine_append.mpr ⟨hsign _, ?_⟩
    unfold Decimal.magnitudeText
    split
    · exact oneLine_append.mpr ⟨oneLine_toString _, hzero⟩
    · exact oneLine_fixed _

end Text

/-! ## Documents that flow -/

namespace Doc

/-- As long as no word that it mentions has a line end in it, the text of a document is made of the
same regular pieces at every depth. A line end `before` it is counted to its text, one `after` it is
left to what follows. -/
def Flows (i : Interner) (before after : String) (d : Doc) : Prop :=
  (∀ m, .word m ∈ d.mentions → Text.OneLine ((i.lookup? m).getD "")) →
    ∃ ps, Piece.Regular ps ∧ ∀ size depth,
      before ++ d.output ⟨i, size⟩ depth = Piece.texts size depth ps ++ after

namespace Flows

variable {i : Interner} {x y z : String} {a b d : Doc} {ds : List Doc}

theorem empty : Flows i x x .empty := fun _ => ⟨[], .nil, fun _ _ => by simp [output, Piece.texts]⟩

theorem of_oneLine {s : String} (h : Text.OneLine s)
    (hd : ∀ size depth, d.output ⟨i, size⟩ depth = s) : Flows i "" "" d :=
  fun _ => ⟨[.run s], .run h, fun size depth => by simp [hd, Piece.texts, Piece.text]⟩

theorem text (s : String) (h : Text.OneLine s) : Flows i "" "" (.text s) :=
  of_oneLine h fun _ _ => rfl

/-- A line end and what stands before it. -/
theorem lineEnd (s : String) (h : Text.OneLine s) :
    Flows i "" "\n" (.text (s ++ "\n")) :=
  fun _ => ⟨[.run s], .run h, fun size depth => by simp [output, Piece.texts, Piece.text]⟩

theorem indent : Flows i "\n" "" .indent :=
  fun _ => ⟨[.turn 0], .turn, fun size depth => by
    simp [output, Context.pad, Piece.texts, Piece.text]⟩

theorem name (n : Name) : Flows i "" "" (.name n) := by
  intro hwords
  exact of_oneLine (hwords n (by simp [mentions])) (fun _ _ => rfl) hwords

theorem quoted (n : Name) : Flows i "" "" (.quoted n) :=
  of_oneLine (Text.oneLine_quoted ((i.lookup? n).getD "")) fun _ _ => rfl

theorem append (ha : Flows i x y a) (hb : Flows i y z b) : Flows i x z (a ++ b) := by
  intro hwords
  obtain ⟨ps, hps, hpa⟩ := ha fun m hm => hwords m (by simp [hm])
  obtain ⟨qs, hqs, hqb⟩ := hb fun m hm => hwords m (by simp [hm])
  refine ⟨ps ++ qs, hps.append hqs, fun size depth => ?_⟩
  calc x ++ (a ++ b).output ⟨i, size⟩ depth
      = x ++ a.output ⟨i, size⟩ depth ++ b.output ⟨i, size⟩ depth := by simp [String.append_assoc]
    _ = Piece.texts size depth ps ++ (y ++ b.output ⟨i, size⟩ depth) := by
      rw [hpa, String.append_assoc]
    _ = Piece.texts size depth (ps ++ qs) ++ z := by
      rw [hqb, Piece.texts_append, String.append_assoc]

/-- A name behind a word that says what it is the name of. -/
theorem titled (s : String) (h : Text.OneLine s) (n : Name) :
    Flows i "" "" (.text s ++ .name n) :=
  (text s h).append (name n)

/-- What is in a scope flows if it is put on a line of its own first. -/
theorem below (h : Flows i "" "" d) : Flows i "\n" "" (.scope (.indent ++ d)) := by
  intro hwords
  obtain ⟨ps, hps, htext⟩ := h fun m hm => hwords m hm
  refine ⟨.turn 1 :: ps.map Piece.deeper, hps.below, fun size depth => ?_⟩
  have hd : d.output ⟨i, size⟩ (depth + 1) = Piece.texts size depth (ps.map Piece.deeper) := by
    simpa [Piece.texts_deeper] using htext size (depth + 1)
  show "\n" ++ (Context.pad ⟨i, size⟩ (depth + 1) ++ d.output ⟨i, size⟩ (depth + 1)) =
    Piece.texts size depth ([.turn 1] ++ ps.map Piece.deeper) ++ ""
  rw [hd, Piece.texts_append]
  simp [Piece.texts, Piece.text, Context.pad, String.append_assoc]

theorem of_same (hmentions : d.mentions = a.mentions)
    (houtput : ∀ ctx depth, d.output ctx depth = a.output ctx depth) (h : Flows i x y a) :
    Flows i x y d := by
  intro hwords
  rw [hmentions] at hwords
  obtain ⟨ps, hps, htext⟩ := h hwords
  exact ⟨ps, hps, fun size depth => by rw [houtput, htext]⟩

theorem scope_append (ha : Flows i x y (.scope a)) (hb : Flows i y z (.scope b)) :
    Flows i x z (.scope (a ++ b)) :=
  of_same rfl (fun _ _ => rfl) (ha.append hb)

theorem scope_text {s : String} (h : Flows i x y (.text s)) : Flows i x y (.scope (.text s)) :=
  of_same rfl (fun _ _ => rfl) h

theorem scope_empty : Flows i x x (.scope .empty) := of_same rfl (fun _ _ => rfl) empty

theorem scope_newline : Flows i "" "\n" (.scope (.text "\n")) :=
  scope_text (lineEnd "" (by decide))

/-! ### The layouts of documents -/

theorem concat (h : ∀ d ∈ ds, Flows i "" "" d) : Flows i "" "" (.concat ds) := by
  induction ds with
  | nil => exact empty
  | cons d ds ih =>
    obtain ⟨hd, hds⟩ := List.forall_mem_cons.mp h
    exact hd.append (ih hds)

theorem separatedTail (sep : String) (hsep : Text.OneLine sep)
    (h : ∀ d ∈ ds, Flows i "" "" d) : Flows i "" "" (.separatedTail sep ds) := by
  induction ds with
  | nil => exact empty
  | cons d ds ih =>
    obtain ⟨hd, hds⟩ := List.forall_mem_cons.mp h
    exact ((text sep hsep).append hd).append (ih hds)

theorem separated (sep : String) (hsep : Text.OneLine sep)
    (h : ∀ d ∈ ds, Flows i "" "" d) : Flows i "" "" (.separated sep ds) := by
  cases ds with
  | nil => exact empty
  | cons d ds =>
    obtain ⟨hd, hds⟩ := List.forall_mem_cons.mp h
    exact hd.append (separatedTail sep hsep hds)

theorem braced (h : ∀ d ∈ ds, Flows i "" "" d) : Flows i "" "" (.braced ds) := by
  cases ds with
  | nil => exact text _ (by decide)
  | cons d ds =>
    exact ((text _ (by decide)).append (separated ", " (by decide) h)).append (text _ (by decide))

/-- A value, behind a comma unless it is the first one. -/
theorem behindComma (first : Bool) (h : Flows i "" "" d) :
    Flows i "" "" (if first then d else .text ", " ++ d) := by
  cases first with
  | true => exact h
  | false => exact (text ", " (by decide)).append h

theorem walk (first : Bool) {c : Chain Doc} (h : ∀ d, some d ∈ c.slots → Flows i "" "" d) :
    Flows i "" "" (.walk first c) := by
  induction c generalizing first with
  | element v t ih =>
    have ht := ih false fun d hd => h d (List.mem_cons_of_mem _ hd)
    exact (behindComma first (h v List.mem_cons_self)).append ht
  | last v => exact behindComma first (h v List.mem_cons_self)
  | rest t =>
    rcases hv : t.value? with _ | v <;> simp only [Doc.walk, hv]
    · exact empty
    · have hmem : some v ∈ (Chain.rest t).slots :=
        List.mem_cons_of_mem _ (Chain.mem_slots_of_value? hv)
      exact (text " :: " (by decide)).append (h v hmem)
  | terminator => exact empty

theorem bracketed {α : Type} {f : α → Doc} {c : Chain α}
    (h : ∀ x, some x ∈ c.slots → Flows i "" "" (f x)) : Flows i "" "" (.bracketed (c.map f)) := by
  refine ((text "[" (by decide)).append (walk true fun d hd => ?_)).append (text "]" (by decide))
  rw [Chain.slots_map, List.mem_map] at hd
  obtain ⟨slot, hslot, hd⟩ := hd
  obtain ⟨x, rfl, rfl⟩ := Option.map_eq_some_iff.mp hd
  exact h x hslot

/-- The lines of a block stand behind the line end before it, and it ends with a line end. -/
theorem block (h : ∀ d ∈ ds, Flows i "" "" d) : Flows i "\n" "\n" (.block ds) := by
  rw [Doc.block]
  induction ds with
  | nil => exact scope_empty
  | cons d ds ih =>
    obtain ⟨hd, hds⟩ := List.forall_mem_cons.mp h
    exact (hd.below.scope_append scope_newline).scope_append (ih hds)

theorem sequenceTail (h : ∀ d ∈ ds, Flows i "" "" d) :
    Flows i "" "" (.scope (.separatedTail ";\n" (ds.map (.indent ++ ·)))) := by
  induction ds with
  | nil => exact scope_empty
  | cons d ds ih =>
    obtain ⟨hd, hds⟩ := List.forall_mem_cons.mp h
    have hsep : Flows i "" "\n" (.scope (.text ";\n")) := scope_text (lineEnd ";" (by decide))
    exact (hsep.scope_append hd.below).scope_append (ih hds)

theorem sequence (h : ∀ d ∈ ds, Flows i "" "" d) : Flows i "\n" "\n" (.scope (.sequence ds)) := by
  cases ds with
  | nil => exact scope_empty
  | cons d ds =>
    obtain ⟨hd, hds⟩ := List.forall_mem_cons.mp h
    exact (hd.below.scope_append (sequenceTail hds)).scope_append scope_newline

theorem closing : Flows i "\n" "" .closing := indent.append (text "end" (by decide))

theorem entry (ha : Flows i "" "" a) (hb : Flows i "" "" b) : Flows i "" "" (.entry a b) :=
  (ha.append (text " => " (by decide))).append hb

theorem field (n : Name) (h : Flows i "" "" d) : Flows i "" "" (.field n d) :=
  ((name n).append (text ": " (by decide))).append h

/-- An arm starts with a line end of its own. -/
theorem arm (ha : Flows i "" "" a) (hb : Flows i "" "" b) : Flows i "" "" (.scope (.arm a b)) := by
  -- The line end stands in the scope of the arm, where `below` expects it in front of the scope.
  have hbelow : Flows i "\n" "" (.scope (.indent ++ (.text "| " ++ .entry a b))) :=
    below ((text "| " (by decide)).append (ha.entry hb))
  refine of_same ?_ (fun ctx depth => ?_) (scope_newline.scope_append hbelow)
  · simp [Doc.arm, mentions]
  · simp [Doc.arm, output, String.append_assoc]

theorem arms (h : ∀ d ∈ ds, Flows i "" "" (.scope d)) : Flows i "" "" (.scope (.concat ds)) := by
  induction ds with
  | nil => exact scope_empty
  | cons d ds ih =>
    obtain ⟨hd, hds⟩ := List.forall_mem_cons.mp h
    exact hd.scope_append (ih hds)

end Flows

end Doc

/-! ## Trees flow -/

section

variable {i : Interner}

theorem Value.flows (v : Value) : v.doc.Flows i "" "" := by
  cases v with
  | str n => exact .quoted n
  | unit => exact .text _ (by decide)
  | int n => exact .text _ (Text.oneLine_toString _)
  | float bits => exact .text _ (Text.oneLine_float bits)
  | bool b => exact .text _ (by cases b <;> decide)
  | atom n => exact .titled ":" (by decide) n

theorem Symbol.flows (s : Symbol) : s.doc.Flows i "" "" := by
  refine (Doc.Flows.concat ?_).append (.name s.name)
  exact List.forall_mem_map.mpr fun m _ => (Doc.Flows.name m).append (.text "." (by decide))

theorem TypeExpr.flows (t : TypeExpr) : t.doc.Flows i "" "" := by
  obtain ⟨form, _⟩ := t
  cases form with
  | record name => exact name.flows
  | prim p => exact .text _ (by cases p <;> decide)
  | _ => exact .text _ (by decide)

theorem Doc.flows_typed (mark : String) (hmark : Text.OneLine mark)
    (ty : Option TypeExpr) : (Doc.typed mark ty).Flows i "" "" := by
  cases ty with
  | none => exact .empty
  | some t => exact (Doc.Flows.text mark hmark).append t.flows

theorem pattern_flows_steps : Pattern.Steps fun p => p.doc.Flows i "" "" where
  list c ty place ih := by
    refine Doc.Flows.append ?_ (Doc.flows_typed ": " (by decide) ty)
    rw [PatternForm.doc, Pattern.chainDocs_eq_map]
    exact .bracketed ih
  map es ty place ih := by
    refine Doc.Flows.append (.braced ?_) (Doc.flows_typed ": " (by decide) ty)
    rw [Pattern.entryDocs_eq_map]
    exact List.forall_mem_map.mpr fun e he => (ih e he).1.entry (ih e he).2
  record name fs ty place ih := by
    refine Doc.Flows.append ?_ (Doc.flows_typed ": " (by decide) ty)
    refine (name.flows.append (.text " " (by decide))).append (.braced ?_)
    rw [Pattern.fieldDocs_eq_map]
    exact List.forall_mem_map.mpr fun f hf => (ih f hf).field f.1
  symbol path ty place := path.flows.append (Doc.flows_typed ": " (by decide) ty)
  value v ty place := v.flows.append (Doc.flows_typed ": " (by decide) ty)

theorem flows_stmts {ss : List Stmt} (h : ∀ s ∈ ss, s.doc.Flows i "" "") :
    ∀ d ∈ Stmt.docs ss, d.Flows i "" "" := by
  rw [Stmt.docs_eq_map]
  exact List.forall_mem_map.mpr h

theorem flows_exprs {es : List Expr} (h : ∀ e ∈ es, e.doc.Flows i "" "") :
    ∀ d ∈ Expr.docs es, d.Flows i "" "" := by
  rw [Expr.docs_eq_map]
  exact List.forall_mem_map.mpr h

theorem expr_flows_steps :
    Expr.Steps (fun e => e.doc.Flows i "" "") (fun s => s.doc.Flows i "" "") where
  ifElse cond body elseBody ty place ihc ihb ihe := by
    have hcond := (Doc.Flows.text "if " (by decide)).append ihc
    have hhead := hcond.append (.lineEnd " then" (by decide))
    have hbody := hhead.append (.block (flows_stmts ihb))
    cases elseBody with
    | none => exact (hbody.append .empty).append .closing
    | some stmts =>
      have helse := (Doc.Flows.indent.append (.lineEnd "else" (by decide))).append
        (.block (flows_stmts (ihe stmts rfl)))
      exact (hbody.append helse).append .closing
  case scrutinee arms ty place ihs iha := by
    have hhead := (Doc.Flows.text "case " (by decide)).append ihs
    refine (hhead.append (.text " of" (by decide))).append (.arms ?_)
    rw [Expr.armDocs_eq_map]
    exact List.forall_mem_map.mpr fun a ha => (pattern_flows_steps.all a.1).arm (iha a ha)
  record name fs ty place ih := by
    refine (name.flows.append (.text " " (by decide))).append (.braced ?_)
    rw [Expr.fieldDocs_eq_map]
    exact List.forall_mem_map.mpr fun f hf => (ih f hf).field f.1
  list c ty place ih := by
    rw [Expr.doc, ExprForm.doc, Expr.chainDocs_eq_map]
    exact .bracketed ih
  map es ty place ih := by
    refine Doc.Flows.braced ?_
    rw [Expr.entryDocs_eq_map]
    exact List.forall_mem_map.mpr fun e he => (ih e he).1.entry (ih e he).2
  value v ty place := v.flows
  symbol path ty place := path.flows
  call callee args ty place ih := by
    have hargs := Doc.Flows.separated ", " (by decide) (flows_exprs ih)
    exact ((callee.flows.append (.text "(" (by decide))).append hargs).append
      (.text ")" (by decide))
  binary op lhs rhs ty place ihl ihr := by
    have hop : Text.OneLine op.symbol := by cases op <;> decide
    rw [Expr.doc, ExprForm.doc]
    split
    · exact ((ihl.append (.text "[" (by decide))).append ihr).append (.text "]" (by decide))
    · have hleft := ((Doc.Flows.text "(" (by decide)).append ihl).append (.text " " (by decide))
      have hright := ((hleft.append (.text _ hop)).append (.text " " (by decide))).append ihr
      exact hright.append (.text ")" (by decide))
  unary op operand ty place ih :=
    (Doc.Flows.text op.symbol (by cases op <;> decide)).append ih
  compound exprs ty place ih := .separated "; " (by decide) (flows_exprs ih)
  define name params result body place ih := by
    have hp : ∀ d ∈ params.map Pattern.doc, d.Flows i "" "" :=
      List.forall_mem_map.mpr fun p _ => pattern_flows_steps.all p
    have hparams := ((Doc.Flows.titled "def " (by decide) name).append
      (.text "(" (by decide))).append (.separated ", " (by decide) hp)
    have hresult := (hparams.append (.text ")" (by decide))).append
      (Doc.flows_typed " => " (by decide) result)
    have hhead := hresult.append (.lineEnd ":" (by decide))
    exact (hhead.append (.sequence (flows_stmts ih))).append .closing
  recordType name fields place := by
    refine ((Doc.Flows.titled "type " (by decide) name).append
      (.text " = " (by decide))).append (.braced ?_)
    exact List.forall_mem_map.mpr fun f _ => f.2.flows.field f.1
  val name init place ih :=
    ((Doc.Flows.titled "val " (by decide) name).append (.text " = " (by decide))).append ih
  module name body place ih := by
    have hbody := Doc.Flows.block (flows_stmts ih)
    exact (((Doc.Flows.titled "module " (by decide) name).append
      (.lineEnd "" (by decide))).append hbody).append .closing
  expr e place ih := ih
  loop p container place ih := by
    have hpattern : p.doc.Flows i "" "" := pattern_flows_steps.all p
    exact (((Doc.Flows.text "for " (by decide)).append hpattern).append
      (.text " in " (by decide))).append ih

theorem Node.flows (n : Node) (hn : n.family ≠ .program) : n.doc.Flows i "" "" := by
  cases n with
  | value v => exact v.flows
  | symbol s => exact s.flows
  | type t => exact t.flows
  | pattern p => exact pattern_flows_steps.all p
  | expr e => exact expr_flows_steps.all e
  | stmt s => exact expr_flows_steps.allStmts s
  | program p => exact absurd rfl hn
  | exprChain c =>
    rw [doc, Expr.chainDocs_eq_map]
    exact .bracketed fun e _ => expr_flows_steps.all e
  | patternChain c =>
    rw [doc, Pattern.chainDocs_eq_map]
    exact .bracketed fun p _ => pattern_flows_steps.all p

end

/-- Every node but a program has a layout if no text that it shows as it is has a line end in it. At
every depth and for every width of indentation, the text of the layout is printed where the whole
text fits behind what was written; it is the text at depth 0 with more spaces behind the line
ends. -/
theorem Node.print_layout (i : Interner) (n : Node) (hn : n.family ≠ .program)
    (hissued : ∀ m ∈ n.handles, m.index < i.size)
    (hwords : ∀ m text, .word m ∈ n.mentions → i.lookup? m = some text → '\n' ∉ text.toList) :
    ∃ l : Layout, ∀ size depth : Nat,
      l.text size depth = Text.indented (depth * size) (l.text size 0) ∧
      ∀ (out : String) (events : Array Event),
        let ctx : Context := ⟨i, size⟩
        let k : Sink := ⟨depth, out, events⟩
        k.Fits (n.canonical ctx depth) →
          n.doc.print ctx k = .ok () (k.wrote (l.text size depth) (n.doc.events depth)) := by
  have hflows : n.doc.Flows i "" "" := n.flows hn
  have honeLine : ∀ m, .word m ∈ n.doc.mentions → Text.OneLine ((i.lookup? m).getD "") := by
    intro m hm
    rw [n.mentions_doc] at hm
    rcases htext : i.lookup? m with _ | text
    · decide
    · exact hwords m text hm htext
  obtain ⟨ps, hps, houtput⟩ := hflows honeLine
  refine ⟨hps.layout, fun size depth => ⟨hps.layout.text_eq_indented size depth, ?_⟩⟩
  intro out events ctx k hfits
  have htext : n.doc.output ctx depth = hps.layout.text size depth := by
    have h := houtput size depth
    rw [String.empty_append, String.append_empty] at h
    exact h.trans (Piece.text_lines size depth ps).symm
  have hprint : n.doc.Printable ctx depth out.utf8ByteSize := by
    rw [← n.output_doc] at hfits
    refine Doc.printable_of_space ?_ hfits.lt_limit
    rw [n.names_doc]
    exact hissued
  rw [← htext]
  exact (n.doc.print_ok_iff k _).mpr ⟨hprint, rfl⟩

/-- An `if` in the arm of a `case`, at depth 2 and behind a text. The line end in the string literal
is escaped. -/
theorem Node.print_layout_case :
    let names : Std.HashMap String Name := (∅ : Std.HashMap String Name).insert "x" ⟨0⟩
    let i : Interner := ⟨names.insert "a\nb" ⟨1⟩, #["x", "a\nb"]⟩
    let x : Expr := .ofForm (.symbol (.unqualified ⟨0⟩))
    let choice : Expr := .ofForm (.ifElse x [.ofForm (.expr (.ofForm (.value (.str ⟨1⟩))))] none)
    let n : Node := .expr (.ofForm (.case x [(.ofForm (.symbol (.unqualified ⟨0⟩)), choice)]))
    let k : Sink := ⟨2, "val x = ", #[]⟩
    n.family ≠ .program ∧ (∀ m ∈ n.handles, m.index < i.size) ∧
      (∀ m text, .word m ∈ n.mentions → i.lookup? m = some text → '\n' ∉ text.toList) ∧
      k.Fits (n.canonical ⟨i, 3⟩ 2) ∧
      ∃ l : Layout, l.text 3 2 = Text.indented 6 (l.text 3 0) ∧
        n.doc.print ⟨i, 3⟩ k = .ok () (k.wrote (l.text 3 2) (n.doc.events 2)) := by
  intro names i x choice n k
  have hn : n.family ≠ .program := by decide
  have hissued : ∀ m ∈ n.handles, m.index < i.size := by decide
  have hwords : ∀ m text, .word m ∈ n.mentions → i.lookup? m = some text → '\n' ∉ text.toList := by
    intro m text hm htext
    have hm' : Mention.word m ∈ [.word ⟨0⟩, .word ⟨0⟩, .word ⟨0⟩, .literal ⟨1⟩] := hm
    obtain rfl : m = ⟨0⟩ := by simpa using hm'
    obtain rfl : "x" = text := Option.some.inj htext
    decide
  have hfits : k.Fits (n.canonical ⟨i, 3⟩ 2) := by decide
  obtain ⟨l, hl⟩ := Node.print_layout i n hn hissued hwords
  obtain ⟨hdeep, hprint⟩ := hl 3 2
  exact ⟨hn, hissued, hwords, hfits, l, hdeep, hprint k.out k.events hfits⟩

/-- The widths alone do not decide whether there is a text. Behind the ten bytes of `case 1 of` and
its line end there is no space left for an indentation that is ten less wide than the limit. -/
theorem Node.not_print_layout_of_widths : ¬ ∀ (i : Interner) (n : Node), n.family ≠ .program →
    (∀ m ∈ n.handles, m.index < i.size) →
    (∀ m text, .word m ∈ n.mentions → i.lookup? m = some text → '\n' ∉ text.toList) →
    ∃ l : Layout, ∀ size depth : Nat,
      let k : Sink := ⟨depth, "", #[]⟩
      (∀ inner ∈ n.doc.depths depth, inner * size < Text.limit) →
        n.doc.print ⟨i, size⟩ k = .ok () (k.wrote (l.text size depth) (n.doc.events depth)) := by
  intro h
  let arm : Pattern × Expr := (.ofForm (.value (.int 2)), .ofForm (.value (.int 3)))
  let n : Node := .expr (.ofForm (.case (.ofForm (.value (.int 1))) [arm]))
  have hwords : ∀ m text, .word m ∈ n.mentions → Interner.empty.lookup? m = some text →
      '\n' ∉ text.toList := fun m text hm _ => absurd (show Mention.word m ∈ [] from hm) (by simp)
  obtain ⟨l, hl⟩ := h .empty n (by decide) (by decide) hwords
  have hprint := hl (Text.limit - 10) 0 (by decide)
  have hlt := ((Doc.print_ok_iff _ _ _).mp hprint).1.extents_lt
  exact absurd (hlt Text.limit (by decide)) (by decide)

end Treeprint
