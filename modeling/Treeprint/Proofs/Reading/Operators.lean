import Treeprint.Proofs.Reading.Unique

/-!
# Operators without precedence

An operation between operands is in parentheses, but a prefix operator is not, and neither is an
index. So there are two expressions with the text `-a[b]`: the negation of an element and an element
of a negation. A reader takes the text for the first (`Expr.asRead`): a prefix operator reaches over
all indices behind it.

That is the only ambiguity. Expressions of operators, numbers and unqualified symbols have the same
text exactly if they are read as the same expression, and an expression is read as itself exactly if
it indexes nothing that begins with a prefix operator (`Expr.render_eq_iff_asRead_eq`).
-/

namespace Treeprint

namespace Expr

/-- Expressions of operators over unqualified symbols and numbers. -/
inductive Operation (word : Name → Prop) : Expr → Prop
  | symbol {n : Name} {ty : Option TypeExpr} {span : Span} (h : word n) :
    Operation word ⟨.symbol (.unqualified n), ty, span⟩
  | number {n : UInt64} {ty : Option TypeExpr} {span : Span} :
    Operation word ⟨.value (.int n), ty, span⟩
  | unary {op : UnaryOp} {e : Expr} {ty : Option TypeExpr} {span : Span}
    (he : Operation word e) : Operation word ⟨.unary op e, ty, span⟩
  | binary {op : BinaryOp} {l r : Expr} {ty : Option TypeExpr} {span : Span}
    (hl : Operation word l) (hr : Operation word r) : Operation word ⟨.binary op l r, ty, span⟩

/-- Whether something that begins with a prefix operator is indexed. -/
def indexesUnary : Expr → Bool
  | ⟨.binary op l r, _, _⟩ =>
    (op = .index && l.isUnary) || l.indexesUnary || r.indexesUnary
  | ⟨.unary _ e, _, _⟩ => e.indexesUnary
  | _ => false

/-- The index of an expression, below the prefix operators that the expression begins with. -/
def indexBelow (r : Expr) : Expr → Expr
  | ⟨.unary op e, _, _⟩ => .ofForm (.unary op (indexBelow r e))
  | l => .ofForm (.binary .index l r)

/-- The operation that has the same text and is the one to be read from it. -/
def asRead : Expr → Expr
  | ⟨.binary op l r, _, _⟩ =>
    if op = .index then indexBelow r.asRead l.asRead
    else .ofForm (.binary op l.asRead r.asRead)
  | ⟨.unary op e, _, _⟩ => .ofForm (.unary op e.asRead)
  | ⟨form, _, _⟩ => .ofForm form

variable {ctx : Context} {depth : Nat} {word : Name → Prop}

/-! ## The text stays the same -/

theorem canonical_unary (op : UnaryOp) (e : Expr) (ty : Option TypeExpr) (span : Span) :
    canonical ctx depth ⟨.unary op e, ty, span⟩ = op.symbol ++ e.canonical ctx depth := by
  rw [canonical, ExprForm.canonical]

theorem canonical_index (l r : Expr) (ty : Option TypeExpr) (span : Span) :
    canonical ctx depth ⟨.binary .index l r, ty, span⟩ =
      l.canonical ctx depth ++ "[" ++ r.canonical ctx depth ++ "]" := by
  rw [canonical, ExprForm.canonical, if_pos rfl]

theorem canonical_indexBelow (r l : Expr) : (indexBelow r l).canonical ctx depth =
    l.canonical ctx depth ++ "[" ++ r.canonical ctx depth ++ "]" := by
  fun_induction indexBelow r l with
  | case1 op e ty span ih =>
    rw [ofForm, canonical_unary, ih, canonical_unary]
    simp only [String.append_assoc]
  | case2 l => rw [ofForm, canonical_index]

theorem Operation.canonical_asRead {e : Expr} (h : e.Operation word) :
    e.asRead.canonical ctx depth = e.canonical ctx depth := by
  induction h with
  | symbol h => rfl
  | number => rfl
  | unary _ ih => rw [asRead, ofForm, canonical_unary, canonical_unary, ih]
  | @binary op l r ty span _ _ ihl ihr =>
    rw [asRead]
    split
    · next h =>
      subst h
      rw [canonical_indexBelow, canonical_index, ihl, ihr]
    · next h =>
      simp only [ofForm, canonical, ExprForm.canonical, if_neg h, ihl, ihr]

/-! ## It is an expression that can be read -/

/-- Numbers, the only literals of operations. -/
def IsNumber (v : Value) : Prop := ∃ n, v = .int n

theorem SingleLine.indexBelow {leaf : Value → Prop} {l r : Expr} (hl : l.SingleLine word leaf)
    (hr : r.SingleLine word leaf) : (indexBelow r l).SingleLine word leaf := by
  fun_induction Expr.indexBelow r l with
  | case1 op e ty span ih =>
    cases hl with
    | unary he => exact .unary (ih he)
  | case2 l h =>
    refine .binary (fun _ => ?_) hl hr
    unfold isUnary
    split
    · exact absurd rfl (h _ _ _ _)
    · rfl

theorem Operation.singleLine_asRead {e : Expr} (h : e.Operation word) :
    e.asRead.SingleLine word IsNumber := by
  induction h with
  | @symbol n ty span h =>
    refine .symbol fun m hm => ?_
    obtain rfl := List.mem_singleton.mp hm
    exact h
  | @number n ty span => exact .value ⟨n, rfl⟩
  | unary _ ih => exact .unary ih
  | @binary op l r ty span _ _ ihl ihr =>
    rw [asRead]
    split
    · exact ihl.indexBelow ihr
    · next h => exact .binary (fun h' => absurd h' h) ihl ihr

theorem bare_indexBelow {l r : Expr} (hl : l.bare = l) (hr : r.bare = r) :
    (indexBelow r l).bare = indexBelow r l := by
  fun_induction indexBelow r l with
  | case1 op e ty span ih =>
    have he : e.bare = e := by
      simp only [bare, ExprForm.bare, ofForm, mk.injEq, ExprForm.unary.injEq, true_and] at hl
      exact hl.1
    rw [bare_ofForm, ExprForm.bare, ih he]
  | case2 l h => rw [bare_ofForm, ExprForm.bare, hl, hr]

theorem Operation.bare_asRead {e : Expr} (h : e.Operation word) : e.asRead.bare = e.asRead := by
  induction h with
  | symbol h => rfl
  | number => rfl
  | unary _ ih => rw [asRead, bare_ofForm, ExprForm.bare, ih]
  | @binary op l r ty span _ _ ihl ihr =>
    rw [asRead]
    split
    · exact bare_indexBelow ihl ihr
    · rw [bare_ofForm, ExprForm.bare, ihl, ihr]

/-! ## What is read as itself -/

theorem isUnary_bare (e : Expr) : e.bare.isUnary = e.isUnary := by
  obtain ⟨form, ty, span⟩ := e
  cases form with
  | ifElse cond body elseBody => cases elseBody <;> rfl
  | _ => rfl

theorem indexBelow_eq_index_iff {l r l' r' : Expr} :
    indexBelow r l = .ofForm (.binary .index l' r') ↔ l.isUnary = false ∧ l = l' ∧ r = r' := by
  unfold indexBelow isUnary
  split
  · simp [ofForm]
  · simp [ofForm]

theorem Operation.asRead_eq_bare_iff {e : Expr} (h : e.Operation word) :
    e.asRead = e.bare ↔ e.indexesUnary = false := by
  induction h with
  | symbol h => exact iff_of_true rfl rfl
  | number => exact iff_of_true rfl rfl
  | unary _ ih => simp [asRead, bare, ExprForm.bare, ofForm, indexesUnary, ih]
  | @binary op l r ty span _ _ ihl ihr =>
    by_cases h : op = .index
    · subst h
      have hu : l.indexesUnary = false → l.asRead.isUnary = l.isUnary := fun hl => by
        rw [ihl.mpr hl, isUnary_bare]
      rw [asRead, if_pos rfl, bare, ExprForm.bare, indexBelow_eq_index_iff, ihl, ihr]
      simp only [indexesUnary, decide_true, Bool.true_and, Bool.or_eq_false_iff]
      constructor
      · rintro ⟨h, hl, hr⟩
        exact ⟨⟨hu hl ▸ h, hl⟩, hr⟩
      · rintro ⟨⟨h, hl⟩, hr⟩
        exact ⟨(hu hl).trans h, hl, hr⟩
    · simp [asRead, bare, ExprForm.bare, ofForm, indexesUnary, h, ihl, ihr]

/-! ## Rendering -/

theorem Operation.printable {e : Expr} (h : e.Operation ctx.Issued) (depth used : Nat) :
    e.doc.Printable ctx depth used := by
  induction h generalizing used with
  | @symbol n ty span h =>
    refine ⟨fun m hm => ?_, fun len hlen => by cases hlen⟩
    obtain rfl : m = n := List.mem_singleton.mp hm
    exact h
  | number => exact Doc.printable_text _ _ _
  | unary _ ih => exact Doc.printable_append.mpr ⟨Doc.printable_text _ _ _, ih _⟩
  | @binary op l r ty span _ _ ihl ihr =>
    rw [doc, ExprForm.doc]
    split <;> simp only [Doc.printable_append, Doc.printable_text, ihl, ihr, and_self]

theorem Operation.render_eq {e : Expr} (h : e.Operation ctx.Issued) :
    (Node.expr e).render ctx = .ok (e.canonical ctx 0) :=
  (Node.render_ok_iff ctx (.expr e) _).mpr ⟨h.printable 0 0, rfl⟩

/-- Operations have the same text exactly if they are read as the same expression, and one is read
as itself exactly if it indexes nothing that begins with a prefix operator. -/
theorem render_eq_iff_asRead_eq
    (hd : ∀ m n, ctx.Issued m → ctx.Issued n → ctx.text m = ctx.text n → m = n)
    (hw : ∀ n, ctx.Issued n → Text.isWord (ctx.text n).toList) {a b : Expr}
    (ha : a.Operation ctx.Issued) (hb : b.Operation ctx.Issued) :
    ((∃ s, (Node.expr a).render ctx = .ok s ∧ (Node.expr b).render ctx = .ok s) ↔
      a.asRead = b.asRead) ∧ (a.asRead = a.bare ↔ a.indexesUnary = false) := by
  refine ⟨?_, ha.asRead_eq_bare_iff⟩
  have hword : ∀ n, ctx.Issued n → Scan.Named ctx (ctx.dictionary ctx.Issued) n := fun n hn =>
    ⟨hw n hn, Context.dictionary_text hd hn⟩
  have hleaf : ∀ v, IsNumber v →
      Scan.Legible ctx (ctx.dictionary ctx.Issued) (ctx.dictionary ctx.Issued) v := by
    rintro v ⟨n, rfl⟩
    trivial
  constructor
  · rintro ⟨s, hsa, hsb⟩
    have htext : a.asRead.canonical ctx 0 = b.asRead.canonical ctx 0 := by
      rw [ha.canonical_asRead, hb.canonical_asRead]
      rw [ha.render_eq] at hsa
      rw [hb.render_eq] at hsb
      exact Except.ok.inj (hsa.trans hsb.symm)
    have hbare :=
      bare_eq_of_canonical_eq hword hleaf ha.singleLine_asRead hb.singleLine_asRead htext
    rwa [ha.bare_asRead, hb.bare_asRead] at hbare
  · intro h
    refine ⟨a.canonical ctx 0, ha.render_eq, ?_⟩
    rw [hb.render_eq, ← hb.canonical_asRead, ← h, ha.canonical_asRead]

theorem render_eq_iff_asRead_eq_neg :
    let ctx : Context := ⟨.single "a", 2⟩
    let a : Expr := .ofForm (.symbol (.unqualified ⟨0⟩))
    let one : Expr := .ofForm (.value (.int 1))
    let first : Expr := .ofForm (.binary .index (.ofForm (.unary .neg a)) one)
    let second : Expr := .ofForm (.unary .neg (.ofForm (.binary .index a one)))
    (∀ m n, ctx.Issued m → ctx.Issued n → ctx.text m = ctx.text n → m = n) ∧
      (∀ n, ctx.Issued n → Text.isWord (ctx.text n).toList) ∧
      first.Operation ctx.Issued ∧ second.Operation ctx.Issued ∧ first.asRead = second.asRead ∧
      (∃ s, (Node.expr first).render ctx = .ok s ∧ (Node.expr second).render ctx = .ok s) ∧
      first.indexesUnary = true ∧ first.asRead ≠ first.bare := by
  intro ctx a one first second
  have hd : ∀ m n, ctx.Issued m → ctx.Issued n → ctx.text m = ctx.text n → m = n :=
    fun _ _ => Context.text_inj (Interner.Reachable.single "a").coherent
  have hw : ∀ n, ctx.Issued n → Text.isWord (ctx.text n).toList :=
    Context.isWord_of_issued_single (by decide)
  have h0 : ctx.Issued ⟨0⟩ := by decide
  have hf : first.Operation ctx.Issued := .binary (.unary (.symbol h0)) .number
  have hs : second.Operation ctx.Issued := .unary (.binary (.symbol h0) .number)
  have h := render_eq_iff_asRead_eq hd hw hf hs
  exact ⟨hd, hw, hf, hs, rfl, h.1.mpr rfl, rfl, fun he => Bool.noConfusion (h.2.mp he)⟩

/-- The text does not tell an element of a negation from the negation of an element. -/
theorem not_bare_eq_of_render_eq : ¬ ∀ (ctx : Context) (a b : Expr) (s : String),
    (∀ m n, ctx.Issued m → ctx.Issued n → ctx.text m = ctx.text n → m = n) →
    (∀ n, ctx.Issued n → Text.isWord (ctx.text n).toList) →
    a.Operation ctx.Issued → b.Operation ctx.Issued →
    (Node.expr a).render ctx = .ok s → (Node.expr b).render ctx = .ok s → a.bare = b.bare := by
  intro h
  let ctx : Context := ⟨.single "a", 2⟩
  let a : Expr := .ofForm (.symbol (.unqualified ⟨0⟩))
  let one : Expr := .ofForm (.value (.int 1))
  let first : Expr := .ofForm (.binary .index (.ofForm (.unary .neg a)) one)
  let second : Expr := .ofForm (.unary .neg (.ofForm (.binary .index a one)))
  have h0 : ctx.Issued ⟨0⟩ := by decide
  have hf : first.Operation ctx.Issued := .binary (.unary (.symbol h0)) .number
  have hs : second.Operation ctx.Issued := .unary (.binary (.symbol h0) .number)
  have hd : ∀ m n, ctx.Issued m → ctx.Issued n → ctx.text m = ctx.text n → m = n :=
    fun _ _ => Context.text_inj (Interner.Reachable.single "a").coherent
  have hw : ∀ n, ctx.Issued n → Text.isWord (ctx.text n).toList :=
    Context.isWord_of_issued_single (by decide)
  have hrf : (Node.expr first).render ctx = .ok "-a[1]" :=
    (Node.render_ok_iff _ _ _).mpr ⟨hf.printable 0 0, by decide⟩
  have hrs : (Node.expr second).render ctx = .ok "-a[1]" :=
    (Node.render_ok_iff _ _ _).mpr ⟨hs.printable 0 0, by decide⟩
  have he := h ctx first second "-a[1]" hd hw hf hs hrf hrs
  exact ExprForm.noConfusion (Expr.mk.inj he).1

end Expr

end Treeprint
