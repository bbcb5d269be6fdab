import Treeprint.Proofs.Interner.Tables
import Treeprint.Proofs.Reading.Expression

/-!
# One expression for each text

Two expressions on one line that have the same text are the same but for places and types
(`Expr.bare_eq_of_render_eq`). What a reader needs to know is which name each word stands for. Where
names of a kind differ in their texts, such a dictionary exists (`Context.dictionary`).
-/

namespace Treeprint

namespace Context

open Classical in
/-- The name of a kind that has a given text. -/
noncomputable def dictionary (ctx : Context) (kind : Name → Prop) (w : List Char) : Option Name :=
  if h : ∃ n, kind n ∧ (ctx.text n).toList = w then some h.choose else none

variable {ctx : Context} {kind : Name → Prop}

theorem dictionary_text (h : ∀ m n, kind m → kind n → ctx.text m = ctx.text n → m = n) {n : Name}
    (hn : kind n) : ctx.dictionary kind (ctx.text n).toList = some n := by
  have he : ∃ m, kind m ∧ (ctx.text m).toList = (ctx.text n).toList := ⟨n, hn, rfl⟩
  rw [dictionary, dif_pos he, Option.some.injEq]
  exact h _ n he.choose_spec.1 hn (String.toList_inj.mp he.choose_spec.2)

theorem dictionary_eq_none {w : List Char} (h : ∀ n, kind n → (ctx.text n).toList ≠ w) :
    ctx.dictionary kind w = none := by
  rw [dictionary, dif_neg]
  rintro ⟨n, hn, hw⟩
  exact h n hn hw

/-- The name was issued for a word that is no truth value. -/
structure Word (ctx : Context) (n : Name) : Prop where
  issued : ctx.Issued n
  isWord : Text.isWord (ctx.text n).toList
  ne_true : ctx.text n ≠ "true"
  ne_false : ctx.text n ≠ "false"

/-- Literals other than floats. An atom is a word, and a string is any text. -/
def Literal (ctx : Context) : Value → Prop
  | .str n => ctx.Issued n
  | .atom n => ctx.Word n
  | .float _ => False
  | .unit | .int _ | .bool _ => True

theorem text_inj (hi : ctx.interner.Coherent) {m n : Name} (hm : ctx.Issued m) (hn : ctx.Issued n)
    (h : ctx.text m = ctx.text n) : m = n :=
  hi.name_eq (lookup?_of_issued hm) (h ▸ lookup?_of_issued hn)

/-- There is no other name than the one for the text. -/
theorem isWord_of_issued_single {w : String} (h : Text.isWord w.toList) {indentSize : Nat} :
    ∀ n, Issued ⟨.single w, indentSize⟩ n →
      Text.isWord (text ⟨.single w, indentSize⟩ n).toList := by
  intro n hn
  obtain ⟨raw⟩ := n
  have hz : raw.toNat < 1 := hn
  obtain rfl : raw = 0 := UInt32.toNat_inj.mp (Nat.lt_one_iff.mp hz)
  exact h

theorem Word.named (hi : ctx.interner.Coherent) {n : Name} (h : ctx.Word n) :
    Scan.Named ctx (ctx.dictionary ctx.Word) n :=
  ⟨h.isWord, dictionary_text (fun _ _ hm hn => text_inj hi hm.issued hn.issued) h⟩

theorem Literal.legible (hi : ctx.interner.Coherent) {v : Value} (h : ctx.Literal v) :
    Scan.Legible ctx (ctx.dictionary ctx.Word) (ctx.dictionary ctx.Issued) v := by
  cases v with
  | str n => exact dictionary_text (fun _ _ => text_inj hi) h
  | atom n => exact Word.named hi h
  | bool b =>
    refine dictionary_eq_none fun n hn hw => ?_
    cases b with
    | true => exact hn.ne_true (String.toList_inj.mp (hw.trans (by simp [Scan.truthWord])))
    | false => exact hn.ne_false (String.toList_inj.mp (hw.trans (by simp [Scan.truthWord])))
  | float bits => exact h.elim
  | unit | int n => trivial

end Context

theorem Expr.bare_eq_of_canonical_eq {ctx : Context} {depth : Nat}
    {names strings : List Char → Option Name} {word : Name → Prop} {leaf : Value → Prop}
    (hword : ∀ n, word n → Scan.Named ctx names n)
    (hleaf : ∀ v, leaf v → Scan.Legible ctx names strings v) {a b : Expr}
    (ha : a.SingleLine word leaf) (hb : b.SingleLine word leaf)
    (h : a.canonical ctx depth = b.canonical ctx depth) : a.bare = b.bare := by
  have hra := Scan.expr_canonical hword hleaf ha depth
  rw [h, Scan.expr_canonical hword hleaf hb depth, Option.some.injEq, Prod.mk.injEq] at hra
  exact hra.1.symm

/-- Equal texts come from equal expressions, up to places and the types of expressions. -/
theorem Expr.bare_eq_of_render_eq {ctx : Context} (hi : ctx.interner.Reachable) {a b : Expr}
    (ha : a.SingleLine ctx.Word ctx.Literal) (hb : b.SingleLine ctx.Word ctx.Literal) {s : String}
    (hsa : (Node.expr a).render ctx = .ok s) (hsb : (Node.expr b).render ctx = .ok s) :
    a.bare = b.bare := by
  have hc := hi.coherent
  have ha' := ((Node.render_ok_iff ctx (.expr a) s).mp hsa).2
  have hb' := ((Node.render_ok_iff ctx (.expr b) s).mp hsb).2
  exact Expr.bare_eq_of_canonical_eq (fun _ hn => hn.named hc)
    (fun _ hv => Context.Literal.legible hc hv) ha hb (ha'.symm.trans hb')

theorem Expr.bare_eq_of_render_eq_call :
    let ctx : Context := ⟨.single "a", 2⟩
    let a : Expr := .ofForm (.symbol (.unqualified ⟨0⟩))
    let one : Expr := .ofForm (.value (.int 1))
    let negated : Expr := .ofForm (.unary .neg (.ofForm (.binary .index a one)))
    let call : Expr := .ofForm (.call (.unqualified ⟨0⟩) [negated, .ofForm (.value (.str ⟨0⟩))])
    let placed : Expr := (call.withType ⟨.any, .dummy⟩).withSpan ⟨3, 7⟩
    ctx.interner.Reachable ∧ call.SingleLine ctx.Word ctx.Literal ∧
      placed.SingleLine ctx.Word ctx.Literal ∧
      (Node.expr call).render ctx = .ok "a(-a[1], \"a\")" ∧
      (Node.expr placed).render ctx = .ok "a(-a[1], \"a\")" ∧ call.bare = placed.bare := by
  intro ctx a one negated call placed
  have hi : ctx.interner.Reachable := .single "a"
  have hw : ctx.Word ⟨0⟩ := ⟨by decide, by decide, by decide, by decide⟩
  have hs : ∀ n ∈ (Symbol.unqualified ⟨0⟩).segments, ctx.Word n := by
    intro n hn
    obtain rfl := List.mem_singleton.mp hn
    exact hw
  have hargs : ∀ e ∈ [negated, .ofForm (.value (.str ⟨0⟩))], e.SingleLine ctx.Word ctx.Literal := by
    intro e he
    simp only [List.mem_cons, List.not_mem_nil, or_false] at he
    rcases he with rfl | rfl
    · exact .unary (.binary (fun _ => rfl) (.symbol hs) (.value trivial))
    · exact .value (show ctx.Issued ⟨0⟩ by decide)
  have hc : call.SingleLine ctx.Word ctx.Literal := .call hs hargs
  have hp : placed.SingleLine ctx.Word ctx.Literal := .call hs hargs
  have hr : (Node.expr call).render ctx = .ok "a(-a[1], \"a\")" :=
    (Node.render_ok_iff _ _ _).mpr ⟨⟨by decide, by decide⟩, by decide⟩
  have hr' : (Node.expr placed).render ctx = .ok "a(-a[1], \"a\")" :=
    (Node.render_ok_iff _ _ _).mpr ⟨⟨by decide, by decide⟩, by decide⟩
  exact ⟨hi, hc, hp, hr, hr', Expr.bare_eq_of_render_eq hi hc hp hr hr'⟩

end Treeprint
