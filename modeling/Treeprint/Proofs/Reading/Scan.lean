import Treeprint.Proofs.Printer.Canonical

/-!
# Reading words, literals and lists

A scanner takes characters from the front of a text and gives what it read and what it left. Here
are the scanners of what all trees have in common: words and dotted paths, literals, and items with
commas between them in braces, brackets or parentheses. Each reads back what is printed. A word or a
number has no end of its own, so it must be known what may follow it (`ends`), and so must it for
the items of a list (`stops`).
-/

namespace Treeprint

namespace Text

def startsWord (c : Char) : Bool := c.isAlpha || c == '_'

def inWord (c : Char) : Bool := c.isAlphanum || c == '_'

/-- Letters, digits and underscores, with no digit in front. -/
def isWord : List Char → Bool
  | [] => false
  | c :: cs => startsWord c && cs.all inWord

theorem toList_toString (n : Nat) : (toString n).toList = Nat.toDigits 10 n := by simp

theorem toList_toString_ne_nil (n : Nat) : (toString n).toList ≠ [] := by
  rw [toList_toString]
  exact Nat.toDigits_ne_nil

theorem isDigit_of_mem_toString {n : Nat} {c : Char} (h : c ∈ (toString n).toList) :
    c.isDigit := by
  rw [toList_toString] at h
  exact Nat.isDigit_of_mem_toDigits (by decide) (by decide) h

theorem toList_toString_inj {m n : Nat} (h : (toString m).toList = (toString n).toList) :
    m = n := by
  rw [toList_toString, toList_toString] at h
  rw [← Nat.ofDigitChars_ten_toDigits (n := m), h, Nat.ofDigitChars_ten_toDigits]

end Text

abbrev Scanner (α : Type) := List Char → Option (α × List Char)

namespace Scan

variable {α β : Type}

/-- What may follow an item of a list. A space before an opening brace is not among it, because it
makes a record of a path. -/
def stops : List Char → Bool
  | [] => true
  | ' ' :: '\x7b' :: _ => false
  | c :: _ => c == ',' || c == ')' || c == ']' || c == ' '

theorem head_of_stops {c : Char} {t : List Char} (h : stops (c :: t)) :
    c = ',' ∨ c = ')' ∨ c = ']' ∨ c = ' ' := by
  unfold stops at h
  split at h
  · next he => cases he
  · cases h
  · next he =>
    obtain ⟨rfl, -⟩ := List.cons.inj he
    simpa [or_assoc] using h

/-- What may follow an operand: an index, or the end of the item. -/
def ends : List Char → Bool
  | '[' :: _ => true
  | cs => stops cs

theorem ends_of_stops {t : List Char} (h : stops t) : ends t := by
  unfold ends
  split
  · rfl
  · exact h

/-! ## Words and paths -/

def inPath (c : Char) : Bool := Text.inWord c || c == '.'

theorem inPath_head_of_ends {t : List Char} (h : ends t) : ∀ c ∈ t.head?, inPath c = false := by
  rcases t with _ | ⟨c, t⟩
  · simp
  · have hc : c = '[' ∨ stops (c :: t) := by
      unfold ends at h
      split at h
      · next he => exact .inl (List.cons.inj he).1
      · exact .inr h
    rintro _ ⟨⟩
    rcases hc with rfl | hs
    · rfl
    · obtain rfl | rfl | rfl | rfl := head_of_stops hs <;> rfl

/-- The longest run of characters of a kind at the front, and what is behind it. -/
def run (kind : Char → Bool) (cs : List Char) : List Char × List Char :=
  (cs.takeWhile kind, cs.dropWhile kind)

theorem run_append {kind : Char → Bool} {w t : List Char} (hw : ∀ c ∈ w, kind c)
    (ht : ∀ c ∈ t.head?, kind c = false) : run kind (w ++ t) = (w, t) := by
  rw [run, List.takeWhile_append_of_pos hw, List.dropWhile_append_of_pos hw]
  rcases t with _ | ⟨c, t⟩
  · simp
  · simp [ht c rfl]

theorem inWord_of_isWord {w : List Char} (h : Text.isWord w) : ∀ c ∈ w, Text.inWord c := by
  rcases w with _ | ⟨c, w⟩
  · simp
  · obtain ⟨hc, hw⟩ := by simpa [Text.isWord] using h
    have hc' : Text.inWord c := by
      simp only [Text.startsWord, Text.inWord, Char.isAlphanum, Bool.or_eq_true] at hc ⊢
      grind
    simpa using ⟨hc', hw⟩

theorem inPath_of_startsWord {c : Char} (hc : Text.startsWord c) : inPath c := by
  simp only [inPath, Text.inWord, Text.startsWord, Char.isAlphanum, Bool.or_eq_true] at hc ⊢
  grind

theorem isDigit_of_startsWord {c : Char} (hc : Text.startsWord c) : c.isDigit = false := by
  refine Bool.eq_false_iff.mpr fun hd => ?_
  have hle : c.toNat ≤ 57 := (Char.isDigit_iff_toNat.mp hd).2
  rcases (Bool.or_eq_true _ _).mp hc with ha | hu
  · rcases (Bool.or_eq_true _ _).mp ha with hup | hlow
    · have : 65 ≤ c.toNat := UInt32.le_iff_toNat_le.mp (of_decide_eq_true hup).1
      omega
    · have : 97 ≤ c.toNat :=
        UInt32.le_iff_toNat_le.mp (of_decide_eq_true ((Bool.and_eq_true _ _).mp hlow).1)
      omega
  · obtain rfl : c = '_' := beq_iff_eq.mp hu
    cases hd

section

variable (names strings : List Char → Option Name)

/-- The names of a dotted path. -/
def path? (w : List Char) : Option Symbol := do
  let ns ← (w.splitOn '.').mapM names
  return ⟨ns.dropLast, ← ns.getLast?⟩

def truthWord : Bool → List Char
  | true => ['t', 'r', 'u', 'e']
  | false => ['f', 'a', 'l', 's', 'e']

def truth? (w : List Char) : Option Bool := [true, false].find? (truthWord · = w)

/-! ## Literals -/

def unescape : Char → Option Char
  | '\\' => some '\\'
  | '"' => some '"'
  | 'n' => some '\n'
  | 't' => some '\t'
  | 'r' => some '\r'
  | '0' => some '\x00'
  | _ => none

/-- The text of a string literal, from after its opening quote. -/
def unquote : Scanner (List Char)
  | [] => none
  | '"' :: cs => some ([], cs)
  | '\\' :: e :: cs => do
    let c ← unescape e
    let (w, cs) ← unquote cs
    return (c :: w, cs)
  | c :: cs => do
    let (w, cs) ← unquote cs
    return (c :: w, cs)

/-- A number or a truth value. A truth value is a word that could be a path, so it is one only if
there is no such path. -/
def scalar : Scanner Value := fun cs =>
  match run Char.isDigit cs with
  | ([], _) =>
    let (w, cs) := run inPath cs
    match truth? w, path? names w with
    | some b, none => some (.bool b, cs)
    | _, _ => none
  | (ds, cs) => some (.int (.ofNat (Nat.ofDigitChars 10 ds 0)), cs)

def literal : Scanner Value
  | '"' :: cs => do
    let (w, cs) ← unquote cs
    return (.str (← strings w), cs)
  | ':' :: cs => do
    let (w, cs) := run Text.inWord cs
    return (.atom (← names w), cs)
  | '(' :: ')' :: cs => some (.unit, cs)
  | cs => scalar names cs

end

theorem escape_cases (c : Char) :
    (∃ e, Text.escape c = ['\\', e] ∧ unescape e = some c) ∨
      (Text.escape c = [c] ∧ c ≠ '\\' ∧ c ≠ '"') := by
  by_cases hc : c ∈ ['\\', '"', '\n', '\t', '\r', '\x00']
  · left
    simp only [List.mem_cons, List.not_mem_nil, or_false] at hc
    rcases hc with rfl | rfl | rfl | rfl | rfl | rfl <;> exact ⟨_, rfl, rfl⟩
  · right
    simp only [List.mem_cons, List.not_mem_nil, or_false, not_or] at hc
    exact ⟨by simp [Text.escape, hc], hc.1, hc.2.1⟩

theorem unquote_escape (c : Char) (t : List Char) :
    unquote (Text.escape c ++ t) = (unquote t).map fun (w, u) => (c :: w, u) := by
  rcases escape_cases c with ⟨e, he, hu⟩ | ⟨he, hb, hq⟩
  · rw [he]
    cases h : unquote t <;> simp [unquote, hu, h]
  · rw [he]
    cases h : unquote t <;> simp [unquote, hb, h]

theorem unquote_quotedTail (cs t : List Char) :
    unquote (Text.quotedTail cs ++ t) = some (cs, t) := by
  induction cs with
  | nil => rfl
  | cons c cs ih =>
    rw [Text.quotedTail] at ih
    rw [Text.quotedTail, List.flatMap_cons, List.append_assoc, List.append_assoc,
      unquote_escape, ← List.append_assoc, ih]
    rfl

theorem mapM_names {names : List Char → Option Name} {f : Name → List Char} {ns : List Name}
    (h : ∀ n ∈ ns, names (f n) = some n) : (ns.map f).mapM names = some ns := by
  induction ns with
  | nil => rfl
  | cons n ns ih =>
    obtain ⟨hn, hns⟩ := List.forall_mem_cons.mp h
    simp [List.mapM_cons, hn, ih hns]

theorem path?_intercalate {names : List Char → Option Name} {f : Name → List Char} {s : Symbol}
    (h : ∀ n ∈ s.segments, names (f n) = some n) (hw : ∀ n ∈ s.segments, '.' ∉ f n) :
    path? names (['.'].intercalate (s.segments.map f)) = some s := by
  have hs : (['.'].intercalate (s.segments.map f)).splitOn '.' = s.segments.map f := by
    refine List.splitOn_intercalate '.' ?_ ?_
    · simpa using hw
    · simp [Symbol.segments]
  rw [path?, hs, mapM_names h]
  simp [Symbol.segments]

theorem path?_eq_none {names : List Char → Option Name} {w : List Char} (hw : '.' ∉ w)
    (h : names w = none) : path? names w = none := by
  have hs : w.splitOn '.' = [w] := by
    have hi : (['.'].intercalate [w]).splitOn '.' = [w] :=
      List.splitOn_intercalate '.' (by simpa using hw) (by simp)
    simpa using hi
  simp [path?, hs, List.mapM_cons, h]

section

variable (ctx : Context) (names strings : List Char → Option Name)

/-- The name is a word, and it is the one that this word stands for. -/
structure Named (n : Name) : Prop where
  isWord : Text.isWord (ctx.text n).toList
  eq : names (ctx.text n).toList = some n

def Legible : Value → Prop
  | .str n => strings (ctx.text n).toList = some n
  | .unit | .int _ => True
  | .float _ => False
  | .bool b => names (truthWord b) = none
  | .atom n => Named ctx names n

variable {ctx names strings}

theorem run_digits (n : Nat) {t : List Char} (ht : ∀ c ∈ t.head?, inPath c = false) :
    run Char.isDigit ((toString n).toList ++ t) = (Nat.toDigits 10 n, t) := by
  have hd : ∀ c ∈ Nat.toDigits 10 n, c.isDigit := fun c hc =>
    Nat.isDigit_of_mem_toDigits (by decide) (by decide) hc
  have ht' : ∀ c ∈ t.head?, c.isDigit = false := fun c hc => by
    have hp := ht c hc
    simp only [inPath, Text.inWord, Char.isAlphanum, Bool.or_eq_false_iff] at hp
    exact hp.1.1.2
  rw [show (toString n).toList = Nat.toDigits 10 n by simp, run_append hd ht']

theorem run_inWord {n : Name} (h : Named ctx names n) {t : List Char}
    (ht : ∀ c ∈ t.head?, Text.inWord c = false) :
    run Text.inWord ((ctx.text n).toList ++ t) = ((ctx.text n).toList, t) :=
  run_append (inWord_of_isWord h.isWord) ht

theorem inWord_head {t : List Char} (h : ∀ c ∈ t.head?, inPath c = false) :
    ∀ c ∈ t.head?, Text.inWord c = false := fun c hc => by
  have hp := h c hc
  simp only [inPath, Bool.or_eq_false_iff] at hp
  exact hp.1

theorem literal_eq_scalar {c : Char} (hc : inPath c) (cs : List Char) :
    literal names strings (c :: cs) = scalar names (c :: cs) := by
  unfold literal
  split
  · next h => cases h; cases hc
  · next h => cases h; cases hc
  · next h => cases h; cases hc
  · rfl

theorem literal_truth {b : Bool} (hb : names (truthWord b) = none) {t : List Char}
    (ht : ∀ c ∈ t.head?, inPath c = false) :
    literal names strings (truthWord b ++ t) = some (.bool b, t) := by
  have hl : literal names strings (truthWord b ++ t) = scalar names (truthWord b ++ t) := by
    cases b <;> exact literal_eq_scalar (by decide) _
  have hd : run Char.isDigit (truthWord b ++ t) = ([], truthWord b ++ t) := by
    cases b <;> rfl
  have hr : run inPath (truthWord b ++ t) = (truthWord b, t) :=
    run_append (List.all_eq_true.mp (by cases b <;> rfl)) ht
  have hw : truth? (truthWord b) = some b := by cases b <;> rfl
  have hp : path? names (truthWord b) = none := path?_eq_none (by cases b <;> decide) hb
  simp only [hl, scalar, hd, hr, hw, hp]

theorem literal_number (n : UInt64) {t : List Char} (ht : ∀ c ∈ t.head?, inPath c = false) :
    literal names strings ((toString n.toNat).toList ++ t) = some (.int n, t) := by
  have hr := run_digits n.toNat ht
  have hd : ∀ c ∈ Nat.toDigits 10 n.toNat, c.isDigit := fun c hc =>
    Nat.isDigit_of_mem_toDigits (by decide) (by decide) hc
  have hv := Nat.ofDigitChars_ten_toDigits (n := n.toNat)
  rw [show (toString n.toNat).toList = Nat.toDigits 10 n.toNat by simp] at hr ⊢
  obtain ⟨c, cs, hc⟩ := List.exists_cons_of_ne_nil (Nat.toDigits_ne_nil (n := n.toNat) (b := 10))
  rw [hc] at hr hd hv ⊢
  have hp : inPath c := by
    simp [inPath, Text.inWord, Char.isAlphanum, hd c List.mem_cons_self]
  rw [List.cons_append] at hr ⊢
  rw [literal_eq_scalar hp]
  simp only [scalar, hr, hv, UInt64.ofNat_toNat]

theorem literal_canonical {v : Value} (h : Legible ctx names strings v) {t : List Char}
    (ht : ∀ c ∈ t.head?, inPath c = false) :
    literal names strings ((v.canonical ctx).toList ++ t) = some (v, t) := by
  cases v with
  | str n =>
    have hs : strings (ctx.text n).toList = some n := h
    simp [Value.canonical, Text.quoted, literal, unquote_quotedTail, hs]
  | unit => simp [Value.canonical, literal]
  | int n => exact literal_number n ht
  | float bits => exact h.elim
  | bool b =>
    have hw : (Value.canonical ctx (.bool b)).toList = truthWord b := by
      cases b <;> simp [Value.canonical, truthWord]
    rw [hw]
    exact literal_truth h ht
  | atom n =>
    have hn : Named ctx names n := h
    simp [Value.canonical, literal, run_inWord hn (inWord_head ht), hn.eq]

theorem toList_path (s : Symbol) : (s.canonical ctx).toList =
    ['.'].intercalate (s.segments.map fun n => (ctx.text n).toList) := by
  simp [Symbol.canonical, String.toList_intercalate, Function.comp_def]

theorem path?_canonical {s : Symbol} (h : ∀ n ∈ s.segments, Named ctx names n) :
    path? names (s.canonical ctx).toList = some s := by
  rw [toList_path]
  refine path?_intercalate (fun n hn => (h n hn).eq) fun n hn hd => ?_
  exact absurd (inWord_of_isWord (h n hn).isWord '.' hd) (by decide)

theorem inPath_of_mem_path {s : Symbol} (h : ∀ n ∈ s.segments, Named ctx names n) :
    ∀ c ∈ (s.canonical ctx).toList, inPath c := by
  have hw : ∀ n ∈ s.segments, ∀ c ∈ (ctx.text n).toList, inPath c := fun n hn c hc => by
    simp [inPath, inWord_of_isWord (h n hn).isWord c hc]
  intro c hc
  obtain ⟨n, ns, hn⟩ : ∃ n ns, s.segments = n :: ns :=
    List.exists_cons_of_ne_nil (by simp [Symbol.segments])
  rw [Symbol.canonical, hn, List.map_cons, Text.intercalate_cons] at hc
  simp only [String.toList_append, String.toList_join, List.mem_append, List.mem_flatMap,
    List.mem_map] at hc
  rcases hc with hc | ⟨_, ⟨_, ⟨m, hm, rfl⟩, rfl⟩, hc⟩
  · exact hw n (by simp [hn]) c hc
  · rw [String.toList_append] at hc
    rcases List.mem_append.mp hc with hc | hc
    · obtain rfl : c = '.' := by simpa using hc
      rfl
    · exact hw m (by simp [hn, hm]) c hc

theorem run_path {s : Symbol} (h : ∀ n ∈ s.segments, Named ctx names n) {t : List Char}
    (ht : ∀ c ∈ t.head?, inPath c = false) :
    run inPath ((s.canonical ctx).toList ++ t) = ((s.canonical ctx).toList, t) :=
  run_append (inPath_of_mem_path h) ht

theorem path_starts {s : Symbol} (h : ∀ n ∈ s.segments, Named ctx names n) :
    ∃ c w, (s.canonical ctx).toList = c :: w ∧ Text.startsWord c := by
  obtain ⟨n, ns, hn⟩ : ∃ n ns, s.segments = n :: ns :=
    List.exists_cons_of_ne_nil (by simp [Symbol.segments])
  have hw := (h n (by simp [hn])).isWord
  rw [Symbol.canonical, hn, List.map_cons, Text.intercalate_cons, String.toList_append]
  rcases hc : (ctx.text n).toList with _ | ⟨c, w⟩
  · simp [hc, Text.isWord] at hw
  · simp only [hc, Text.isWord, Bool.and_eq_true] at hw
    exact ⟨c, _, rfl, hw.1⟩

theorem scalar_eq_none {c : Char} (hc : inPath c = false) (cs : List Char) :
    scalar names (c :: cs) = none := by
  have hd : c.isDigit = false := by
    simp only [inPath, Text.inWord, Char.isAlphanum, Bool.or_eq_false_iff] at hc
    exact hc.1.1.2
  have hw : truth? [] = none := rfl
  simp [scalar, run, hd, hc, hw]

theorem literal_eq_none {c : Char} (hc : inPath c = false) (hs : c ∉ ['"', ':', '('])
    (cs : List Char) : literal names strings (c :: cs) = none := by
  simp only [List.mem_cons, List.not_mem_nil, or_false, not_or] at hs
  simp [literal, hs.1, hs.2.1, hs.2.2, scalar_eq_none hc]

/-- A path is no literal, also where it is a truth value by its letters. -/
theorem literal_path {s : Symbol} (h : ∀ n ∈ s.segments, Named ctx names n) {t : List Char}
    (ht : ∀ c ∈ t.head?, inPath c = false) :
    literal names strings ((s.canonical ctx).toList ++ t) = none := by
  have hr := run_path h ht
  have hp := path?_canonical h
  obtain ⟨c, w, hw, hc⟩ := path_starts h
  rw [hw] at hr hp ⊢
  rw [List.cons_append] at hr ⊢
  have hd : run Char.isDigit (c :: (w ++ t)) = ([], c :: (w ++ t)) := by
    simp [run, isDigit_of_startsWord hc]
  rw [literal_eq_scalar (inPath_of_startsWord hc)]
  simp only [scalar, hd, hr, hp]
  cases truth? (c :: w) <;> rfl

end

/-! ## Items -/

/-- Items with commas between them. There is at least one. -/
def items (p : Scanner α) : Nat → Scanner (List α)
  | 0, _ => none
  | n + 1, cs =>
    match p cs with
    | some (a, ',' :: ' ' :: cs) => (items p n cs).map fun (as, cs) => (a :: as, cs)
    | some (a, cs) => some ([a], cs)
    | none => none

def braced (p : Scanner α) (n : Nat) : Scanner (List α)
  | '\x7b' :: '\x7d' :: cs => some ([], cs)
  | '\x7b' :: ' ' :: cs =>
    match items p n cs with
    | some (as, ' ' :: '\x7d' :: cs) => some (as, cs)
    | _ => none
  | _ => none

def arguments (p : Scanner α) (n : Nat) : Scanner (List α)
  | '(' :: ')' :: cs => some ([], cs)
  | '(' :: cs =>
    match items p n cs with
    | some (as, ')' :: cs) => some (as, cs)
    | _ => none
  | _ => none

/-- The rest of a list, and its end. -/
def listEnd (p : Scanner α) (as : List α) : Scanner (Chain α)
  | ']' :: cs => some (.make as none, cs)
  | ' ' :: ':' :: ':' :: ' ' :: cs =>
    match p cs with
    | some (a, ']' :: cs) => some (.make as (some a), cs)
    | _ => none
  | _ => none

def bracketed (p : Scanner α) (n : Nat) : Scanner (Chain α)
  | '[' :: ']' :: cs => listEnd p [] (']' :: cs)
  | '[' :: ' ' :: cs => listEnd p [] (' ' :: cs)
  | '[' :: cs => (items p n cs).bind fun (as, cs) => listEnd p as cs
  | _ => none

/-- A key and a value. -/
def entry (p : Scanner α) : Scanner (α × α) := fun cs =>
  match p cs with
  | some (k, ' ' :: '=' :: '>' :: ' ' :: cs) => (p cs).map fun (v, cs) => ((k, v), cs)
  | _ => none

/-- A field and what it holds. -/
def field (names : List Char → Option Name) (p : Scanner α) : Scanner (Name × α) := fun cs =>
  match run Text.inWord cs with
  | (w, ':' :: ' ' :: cs) => do
    let n ← names w
    let (a, cs) ← p cs
    return ((n, a), cs)
  | _ => none

/-- The scanner reads a text before anything that stops it. -/
def Reads (p : Scanner α) (text : String) (a : α) : Prop :=
  ∀ t, stops t → p (text.toList ++ t) = some (a, t)

variable {p : Scanner α} {f : β → String} {g : β → α}

theorem items_last {cs t : List Char} {a : α} (hp : p cs = some (a, t)) (hc : t.head? ≠ some ',')
    (n : Nat) : items p (n + 1) cs = some ([a], t) := by
  rw [items, hp]
  split
  · next h => simp_all
  · next h => cases h; rfl
  · next h => cases h

theorem items_more {cs t u : List Char} {a : α} {as : List α} {n : Nat}
    (hp : p cs = some (a, ',' :: ' ' :: t)) (hi : items p n t = some (as, u)) :
    items p (n + 1) cs = some (a :: as, u) := by
  simp [items, hp, hi]

theorem items_intercalate {bs : List β} (hne : bs ≠ []) (h : ∀ b ∈ bs, Reads p (f b) (g b))
    {n : Nat} (hn : bs.length ≤ n) {t : List Char} (ht : stops t) (hc : t.head? ≠ some ',') :
    items p n ((", ".intercalate (bs.map f)).toList ++ t) = some (bs.map g, t) := by
  induction bs generalizing n with
  | nil => exact absurd rfl hne
  | cons b bs ih =>
    obtain ⟨hb, hbs⟩ := List.forall_mem_cons.mp h
    obtain ⟨n, rfl⟩ : ∃ m, n = m + 1 := ⟨n - 1, by simp only [List.length_cons] at hn; omega⟩
    rcases bs with _ | ⟨b', bs⟩
    · simpa using items_last (hb t ht) hc n
    · have hi := ih (by simp) hbs (by simpa using hn)
      have hp := hb (',' :: ' ' :: ((", ".intercalate ((b' :: bs).map f)).toList ++ t)) rfl
      simpa [String.intercalate_cons_cons, List.append_assoc] using items_more hp hi

theorem braced_starts (ts : List String) : ∃ w, (Text.braced ts).toList = '\x7b' :: w := by
  rcases ts with _ | ⟨t, ts⟩
  · simp [Text.braced]
  · simp [Text.braced]

theorem braced_canonical {bs : List β} (h : ∀ b ∈ bs, Reads p (f b) (g b)) {n : Nat}
    (hn : bs.length ≤ n) (t : List Char) :
    braced p n ((Text.braced (bs.map f)).toList ++ t) = some (bs.map g, t) := by
  rcases bs with _ | ⟨b, bs⟩
  · simp [Text.braced, braced]
  · have hi := items_intercalate (t := ' ' :: '\x7d' :: t) (by simp) h hn rfl (by simp)
    rw [List.map_cons] at hi
    simp [-String.toList_intercalate, Text.braced, braced, hi]

/-- The scanner reads nothing that begins like the end of a list. -/
def Shy (p : Scanner α) : Prop := ∀ c ∈ [')', ']', ' '], ∀ cs, p (c :: cs) = none

theorem Shy.items (h : Shy p) : ∀ n, Shy (items p n)
  | 0 => fun _ _ _ => rfl
  | n + 1 => fun c hc cs => by simp [Scan.items, h c hc cs]

/-- What such a scanner reads begins otherwise. -/
theorem Shy.head_ne (h : Shy p) {cs : List Char} {r : α × List Char} (hr : p cs = some r) {c : Char}
    (hc : c ∈ [')', ']', ' ']) (t : List Char) : cs ≠ c :: t := by
  rintro rfl
  rw [h c hc t] at hr
  cases hr

theorem arguments_canonical (hp : Shy p) {bs : List β} (h : ∀ b ∈ bs, Reads p (f b) (g b)) {n : Nat}
    (hn : bs.length ≤ n) (t : List Char) :
    arguments p n ('(' :: ((", ".intercalate (bs.map f)).toList ++ ')' :: t)) =
      some (bs.map g, t) := by
  rcases bs with _ | ⟨b, bs⟩
  · simp [arguments]
  · have hi := items_intercalate (t := ')' :: t) (by simp) h hn rfl (by simp)
    have hc := (hp.items n).head_ne hi (c := ')') (by simp)
    simp only [arguments, hi]

theorem listEnd_canonical {r : Option β} (hr : ∀ b ∈ r, Reads p (f b) (g b)) (as : List α)
    (t : List Char) : listEnd p as ((Text.marked " :: " (r.map f)).toList ++ ']' :: t) =
      some (.make as (r.map g), t) := by
  cases r with
  | none => simp [Text.marked, listEnd]
  | some b =>
    have hb := hr b rfl (']' :: t) rfl
    simp [Text.marked, listEnd, hb]

theorem marked_stops (mark : Option String) (t : List Char) :
    stops ((Text.marked " :: " mark).toList ++ ']' :: t) ∧
      ((Text.marked " :: " mark).toList ++ ']' :: t).head? ≠ some ',' := by
  cases mark <;> simp [Text.marked, stops]

theorem toList_bracketed (ts : List String) (r : Option String) (t : List Char) :
    (Text.bracketed ts r).toList ++ t =
      '[' :: ((", ".intercalate ts).toList ++ ((Text.marked " :: " r).toList ++ ']' :: t)) := by
  simp [Text.bracketed]

theorem bracketed_canonical (hp : Shy p) {bs : List β} {r : Option β}
    (h : ∀ b ∈ bs, Reads p (f b) (g b)) (hr : ∀ b ∈ r, Reads p (f b) (g b)) {n : Nat}
    (hn : bs.length ≤ n) (t : List Char) :
    bracketed p n ((Text.bracketed (bs.map f) (r.map f)).toList ++ t) =
      some (.make (bs.map g) (r.map g), t) := by
  have he := listEnd_canonical hr (bs.map g) t
  obtain ⟨hs, hc⟩ := marked_stops (r.map f) t
  rw [toList_bracketed]
  rcases bs with _ | ⟨b, bs⟩
  · cases r with
    | none => simpa [Text.marked, bracketed] using he
    | some r => simpa [Text.marked, bracketed] using he
  · have hi := items_intercalate (by simp) h hn hs hc
    have hb := (hp.items n).head_ne hi (c := ']') (by simp)
    have hb' := (hp.items n).head_ne hi (c := ' ') (by simp)
    simp only [bracketed, hi, Option.bind_some, he]

theorem Reads.entry {a b : α} {k v : String} (hk : Reads p k a) (hv : Reads p v b) :
    Reads (entry p) (Text.entry k v) (a, b) := by
  intro t ht
  have hk' := hk (' ' :: '=' :: '>' :: ' ' :: (v.toList ++ t)) rfl
  simp [Text.entry, Scan.entry, hk', hv t ht]

theorem Reads.field {ctx : Context} {names : List Char → Option Name} {n : Name} {a : α}
    {v : String} (hn : Named ctx names n) (hv : Reads p v a) :
    Reads (field names p) (Text.field (ctx.text n) v) (n, a) := by
  intro t ht
  have hr := run_inWord hn (t := ':' :: ' ' :: (v.toList ++ t)) (by rintro _ ⟨⟩; rfl)
  simp [Text.field, Scan.field, hr, hn.eq, hv t ht]

/-! ## Lengths -/

theorem length_intercalate_cons (sep t u : String) (ts : List String) :
    (sep.intercalate (t :: u :: ts)).length =
      t.length + sep.length + (sep.intercalate (u :: ts)).length := by
  rw [String.intercalate_cons_cons, String.length_append, String.length_append]

theorem length_le_intercalate (sep : String) {ts : List String} {u : String} (hu : u ∈ ts) :
    u.length ≤ (sep.intercalate ts).length := by
  induction ts with
  | nil => cases hu
  | cons t ts ih =>
    rcases ts with _ | ⟨t', ts⟩
    · obtain rfl := List.mem_singleton.mp hu
      simp
    · rw [length_intercalate_cons]
      rcases List.mem_cons.mp hu with rfl | hu
      · omega
      · have := ih hu
        omega

theorem count_le_intercalate (sep : String) (hs : 0 < sep.length) (ts : List String) :
    ts.length ≤ (sep.intercalate ts).length + 1 := by
  induction ts with
  | nil => simp
  | cons t ts ih =>
    rcases ts with _ | ⟨t', ts⟩
    · simp
    · rw [length_intercalate_cons, List.length_cons]
      omega

theorem length_braced_cons (t : String) (ts : List String) :
    (Text.braced (t :: ts)).length = (", ".intercalate (t :: ts)).length + 4 := by
  have hl : "\x7b ".length = 2 := rfl
  have hr : " \x7d".length = 2 := rfl
  rw [Text.braced, String.length_append, String.length_append]
  · omega
  · simp

theorem length_lt_braced {ts : List String} {u : String} (hu : u ∈ ts) :
    u.length < (Text.braced ts).length := by
  rcases ts with _ | ⟨t, ts⟩
  · cases hu
  · have hi := length_le_intercalate ", " hu
    rw [length_braced_cons]
    omega

theorem count_le_braced (ts : List String) : ts.length ≤ (Text.braced ts).length := by
  rcases ts with _ | ⟨t, ts⟩
  · simp
  · have hi := count_le_intercalate ", " (by decide) (t :: ts)
    rw [length_braced_cons]
    omega

theorem length_bracketed (ts : List String) (r : Option String) : (Text.bracketed ts r).length =
    (", ".intercalate ts).length + (Text.marked " :: " r).length + 2 := by
  have hl : "[".length = 1 := rfl
  have hr : "]".length = 1 := rfl
  rw [Text.bracketed, String.length_append, String.length_append, String.length_append]
  omega

theorem length_lt_bracketed {ts : List String} {r : Option String} {u : String}
    (hu : u ∈ ts ∨ u ∈ r) : u.length < (Text.bracketed ts r).length := by
  rw [length_bracketed]
  rcases hu with hu | hu
  · have hi := length_le_intercalate ", " hu
    omega
  · obtain rfl : r = some u := hu
    rw [Text.marked, String.length_append]
    omega

theorem count_le_bracketed (ts : List String) (r : Option String) :
    ts.length ≤ (Text.bracketed ts r).length := by
  have hi := count_le_intercalate ", " (by decide) ts
  rw [length_bracketed]
  omega

/-! ## Items by length

The items of a list are shorter than the list, so it is enough that short texts are read. -/

section

variable {n : Nat}

theorem bracketed_of_length (hp : Shy p) {bs : List β} {r : Option β}
    (h : ∀ b ∈ bs, (f b).length < n → Reads p (f b) (g b))
    (hr : ∀ b ∈ r, (f b).length < n → Reads p (f b) (g b))
    (hn : (Text.bracketed (bs.map f) (r.map f)).length ≤ n) (t : List Char) :
    bracketed p n ((Text.bracketed (bs.map f) (r.map f)).toList ++ t) =
      some (.make (bs.map g) (r.map g), t) := by
  refine bracketed_canonical hp (fun b hb => h b hb ?_) (fun b hb => hr b hb ?_) ?_ t
  · exact Nat.lt_of_lt_of_le (length_lt_bracketed (.inl (List.mem_map_of_mem hb))) hn
  · exact Nat.lt_of_lt_of_le (length_lt_bracketed (.inr (Option.mem_map_of_mem _ hb))) hn
  · simpa using Nat.le_trans (count_le_bracketed _ _) hn

theorem braced_entries {es : List (β × β)}
    (hk : ∀ e ∈ es, (f e.1).length < n → Reads p (f e.1) (g e.1))
    (hv : ∀ e ∈ es, (f e.2).length < n → Reads p (f e.2) (g e.2))
    (hn : (Text.braced (es.map fun (k, v) => Text.entry (f k) (f v))).length ≤ n) (t : List Char) :
    braced (entry p) n ((Text.braced (es.map fun (k, v) => Text.entry (f k) (f v))).toList ++ t) =
      some (es.map fun (k, v) => (g k, g v), t) := by
  have hlen : ∀ e ∈ es, (Text.entry (f e.1) (f e.2)).length < n := fun e he =>
    Nat.lt_of_lt_of_le (length_lt_braced (List.mem_map.mpr ⟨e, he, rfl⟩)) hn
  simp only [Text.entry, String.length_append] at hlen
  refine braced_canonical (fun e he => ?_) (by simpa using Nat.le_trans (count_le_braced _) hn) t
  have := hlen e he
  exact (hk e he (by omega)).entry (hv e he (by omega))

theorem braced_fields {ctx : Context} {names : List Char → Option Name} {fs : List (Name × β)}
    (hf : ∀ a ∈ fs, Named ctx names a.1)
    (hv : ∀ a ∈ fs, (f a.2).length < n → Reads p (f a.2) (g a.2))
    (hn : (Text.braced (fs.map fun (m, b) => Text.field (ctx.text m) (f b))).length ≤ n)
    (t : List Char) :
    braced (field names p) n
        ((Text.braced (fs.map fun (m, b) => Text.field (ctx.text m) (f b))).toList ++ t) =
      some (fs.map fun (m, b) => (m, g b), t) := by
  have hlen : ∀ a ∈ fs, (Text.field (ctx.text a.1) (f a.2)).length < n := fun a ha =>
    Nat.lt_of_lt_of_le (length_lt_braced (List.mem_map.mpr ⟨a, ha, rfl⟩)) hn
  simp only [Text.field, String.length_append] at hlen
  refine braced_canonical (fun a ha => ?_) (by simpa using Nat.le_trans (count_le_braced _) hn) t
  have := hlen a ha
  exact (hv a ha (by omega)).field (hf a ha)

end

end Scan

end Treeprint
