import Treeprint.Proofs.Induction
import Treeprint.Tree.Datum

/-!
# Trees told apart by their data

A view of data (their bytes, say) relates two rows of data if it shows them alike. It is discerning
if it can be taken apart from the front: the first data of two rows that look alike stand for the
same thing, if they stand for things of one kind, and the rows behind them look alike again
(`Discerned`). What a view must do for this is collected in `Discerns`, one rule for each kind of
datum. From the rules it follows for all trees, one case per form, that two trees of one family
that look alike are the same (`Discerns.node`).

The alternatives of a form are told apart by their labels or by their numbers. Both are distinct
within every form (`Numbered`), so a view need not show both.
-/

namespace Treeprint

namespace Datum

/-- The constructor of a datum, with its number if it has one. -/
def tag? : Datum → Option Tag
  | tuple tag _ | record tag _ => some tag
  | _ => none

/-- The number of each alternative is the position of its label, and no label is there twice. -/
structure Numbered {α : Type} (labels : List String) (f : α → Datum) (number : α → Nat) : Prop where
  nodup : labels.Nodup
  length_le : labels.length ≤ UInt32.size
  tag : ∀ x, ∃ label, labels[number x]? = some label ∧ (f x).tag? = some ⟨label, some (number x)⟩

end Datum

open Datum (Numbered)

theorem Value.numbered :
    Numbered ["Str", "Unit", "Int", "Float", "Bool", "Atom"] Value.datum Value.ctorIdx :=
  ⟨by decide, by decide, fun v => by cases v <;> exact ⟨_, rfl, rfl⟩⟩

theorem TypeForm.numbered :
    Numbered ["List", "Map", "Record", "Any", "Prim"] TypeForm.datum TypeForm.ctorIdx :=
  ⟨by decide, by decide, fun f => by cases f <;> exact ⟨_, rfl, rfl⟩⟩

theorem PatternForm.numbered :
    Numbered ["List", "Map", "Record", "Symbol", "Value"] PatternForm.datum PatternForm.ctorIdx :=
  ⟨by decide, by decide, fun f => by cases f <;> exact ⟨_, rfl, rfl⟩⟩

theorem ExprForm.numbered :
    Numbered ["IfElse", "Case", "Record", "List", "Map", "Value", "Symbol", "Call", "Binary",
      "Unary", "Compound"] ExprForm.datum ExprForm.ctorIdx :=
  ⟨by decide, by decide, fun f => by cases f <;> exact ⟨_, rfl, rfl⟩⟩

theorem StmtForm.numbered :
    Numbered ["Def", "Record", "Val", "Module", "Expr", "For"] StmtForm.datum StmtForm.ctorIdx :=
  ⟨by decide, by decide, fun f => by cases f <;> exact ⟨_, rfl, rfl⟩⟩

namespace Datum

variable {α β : Type} {R : List Datum → List Datum → Prop}

/-- Whatever looks like `f x` in front of a row is `f x`, and the rows behind it look alike. -/
def Discerned (R : List Datum → List Datum → Prop) (f : α → Datum) (x : α) : Prop :=
  ∀ ⦃y ds es⦄, R (f x :: ds) (f y :: es) → x = y ∧ R ds es

/-- A view of data that can be taken apart from the front. -/
structure Discerns (R : List Datum → List Datum → Prop) : Prop where
  handle : ∀ n, Discerned R handle n
  span : ∀ s, Discerned R span s
  word : ∀ n, Discerned R word n
  flag : ∀ b, Discerned R flag b
  option : ∀ {α : Type} {f : α → Datum} {o : Option α}, (∀ x ∈ o, Discerned R f x) →
    Discerned R (fun o => ofOption (o.map f)) o
  seq : ∀ {α : Type} {f : α → Datum} {xs : List α}, (∀ x ∈ xs, Discerned R f x) →
    Discerned R (fun xs => seq (xs.map f)) xs
  chain : ∀ {α : Type} {f : α → Datum} {c : Chain α}, (∀ x, some x ∈ c.slots → Discerned R f x) →
    Discerned R (fun c => (c.map f).datum) c
  tuple : ∀ {tag xs ys ds es}, R (tuple tag xs :: ds) (tuple tag ys :: es) →
    xs.length = ys.length → R (xs ++ ds) (ys ++ es)
  record : ∀ {tag fs gs ds es}, R (record tag fs :: ds) (record tag gs :: es) →
    fs.map Prod.fst = gs.map Prod.fst → R (fs.map Prod.snd ++ ds) (gs.map Prod.snd ++ es)
  alternative : ∀ {d e k l i j ds es}, d.tag? = some ⟨k, some i⟩ → e.tag? = some ⟨l, some j⟩ →
    i < UInt32.size → j < UInt32.size → R (d :: ds) (e :: es) → k = l ∨ i = j

namespace Discerns

/-- Only one alternative of a form looks like a given one. -/
theorem number_eq (h : Discerns R) {labels : List String} {f : α → Datum} {number : α → Nat}
    (hf : Numbered labels f number) {x y : α} {ds es : List Datum}
    (he : R (f x :: ds) (f y :: es)) : number x = number y := by
  obtain ⟨k, hk, hx⟩ := hf.tag x
  obtain ⟨l, hl, hy⟩ := hf.tag y
  obtain ⟨hi, -⟩ := List.getElem?_eq_some_iff.mp hk
  obtain ⟨hj, -⟩ := List.getElem?_eq_some_iff.mp hl
  have hsize := hf.length_le
  rcases h.alternative hx hy (by omega) (by omega) he with rfl | heq
  · exact (List.getElem?_inj hi hf.nodup).mp (hk.trans hl.symm)
  · exact heq

/-! ## Leaves -/

/-- Alternatives without parts are the same as soon as their numbers are. -/
theorem enum (h : Discerns R) {all : List α} {label : α → String} {number : α → Nat}
    (hall : ∀ x, all[number x]? = some x) (hlabels : (all.map label).Nodup)
    (hlen : (all.map label).length ≤ UInt32.size) (x : α) :
    Discerned R (fun x => variant (label x) (number x) []) x := by
  intro y ds es he
  have hf : Numbered (all.map label) (fun x => variant (label x) (number x) []) number :=
    ⟨hlabels, hlen, fun x => ⟨label x, by simp [hall], rfl⟩⟩
  have hnumber := h.number_eq hf he
  have heq : some x = some y := by rw [← hall x, ← hall y, hnumber]
  cases heq
  exact ⟨rfl, h.tuple he rfl⟩

theorem primType (h : Discerns R) : ∀ p, Discerned R PrimType.datum p :=
  h.enum PrimType.all_tag (by decide) (by decide)

theorem binaryOp (h : Discerns R) : ∀ op, Discerned R BinaryOp.datum op :=
  h.enum BinaryOp.all_tag (by decide) (by decide)

theorem unaryOp (h : Discerns R) : ∀ op, Discerned R UnaryOp.datum op :=
  h.enum UnaryOp.all_tag (by decide) (by decide)

theorem value (h : Discerns R) (v : Value) : Discerned R Value.datum v := by
  intro w ds es he
  have hnumber := h.number_eq Value.numbered he
  cases v with
  | str n =>
    cases w with
    | str m => exact (h.handle n (h.tuple he rfl)).imp_left (congrArg Value.str)
    | _ => cases hnumber
  | unit =>
    cases w with
    | unit => exact ⟨rfl, h.tuple he rfl⟩
    | _ => cases hnumber
  | int n =>
    cases w with
    | int m => exact (h.word n (h.tuple he rfl)).imp_left (congrArg Value.int)
    | _ => cases hnumber
  | float bits =>
    cases w with
    | float bits' => exact (h.word bits (h.tuple he rfl)).imp_left (congrArg Value.float)
    | _ => cases hnumber
  | bool b =>
    cases w with
    | bool b' => exact (h.flag b (h.tuple he rfl)).imp_left (congrArg Value.bool)
    | _ => cases hnumber
  | atom n =>
    cases w with
    | atom m => exact (h.handle n (h.tuple he rfl)).imp_left (congrArg Value.atom)
    | _ => cases hnumber

theorem symbol (h : Discerns R) (s : Symbol) : Discerned R Symbol.datum s := by
  rintro ⟨modules, name⟩ ds es he
  obtain ⟨rfl, hname⟩ := h.seq (fun n _ => h.handle n) (h.record he rfl)
  exact (h.handle s.name hname).imp_left (congrArg (Symbol.mk s.modules))

theorem typeForm (h : Discerns R) (f : TypeForm) : Discerned R TypeForm.datum f := by
  intro g ds es he
  have hnumber := h.number_eq TypeForm.numbered he
  cases f with
  | record s =>
    cases g with
    | record t => exact (h.symbol s (h.tuple he rfl)).imp_left (congrArg TypeForm.record)
    | _ => cases hnumber
  | prim p =>
    cases g with
    | prim q => exact (h.primType p (h.tuple he rfl)).imp_left (congrArg TypeForm.prim)
    | _ => cases hnumber
  | list =>
    cases g with
    | list => exact ⟨rfl, h.tuple he rfl⟩
    | _ => cases hnumber
  | map =>
    cases g with
    | map => exact ⟨rfl, h.tuple he rfl⟩
    | _ => cases hnumber
  | any =>
    cases g with
    | any => exact ⟨rfl, h.tuple he rfl⟩
    | _ => cases hnumber

theorem typeExpr (h : Discerns R) (t : TypeExpr) : Discerned R TypeExpr.datum t := by
  rintro ⟨form, span⟩ ds es he
  obtain ⟨rfl, hspan⟩ := h.typeForm t.form (h.record he rfl)
  exact (h.span t.span hspan).imp_left (congrArg (TypeExpr.mk t.form))

theorem type (h : Discerns R) (ty : Option TypeExpr) : Discerned R Datum.ofType ty :=
  h.option fun t _ => h.typeExpr t

theorem pair (h : Discerns R) {f : α → Datum} {g : β → Datum} {label first second : String}
    {x : α × β} (hf : Discerned R f x.1) (hg : Discerned R g x.2) :
    Discerned R (fun x : α × β => Datum.pair label first second (f x.1) (g x.2)) x := by
  rintro ⟨a, b⟩ ds es he
  obtain ⟨rfl, hb⟩ := hf (h.record he rfl)
  exact (hg hb).imp_left (congrArg (Prod.mk x.1))

/-! ## Patterns -/

/-- It is enough to tell a pattern's form from forms of the same alternative. -/
theorem pattern_of_form (h : Discerns R) {form : PatternForm}
    (hform : ∀ form' ds es, form.ctorIdx = form'.ctorIdx →
      R (form.datum :: ds) (form'.datum :: es) → form = form' ∧ R ds es)
    (ty : Option TypeExpr) (place : Span) : Discerned R Pattern.datum ⟨form, ty, place⟩ := by
  rintro ⟨form', ty', place'⟩ ds es he
  have he := h.record he rfl
  obtain ⟨rfl, hty⟩ := hform form' _ _ (h.number_eq PatternForm.numbered he) he
  obtain ⟨rfl, hplace⟩ := h.type ty hty
  exact (h.span place hplace).imp_left (congrArg (Pattern.mk form ty))

theorem pattern_steps (h : Discerns R) : Pattern.Steps (Discerned R Pattern.datum) where
  list c ty place ih := by
    refine h.pattern_of_form (fun form ds es hnumber he => ?_) ty place
    cases form with
    | list c' =>
      simp only [PatternForm.datum, Pattern.chainData_eq_map] at he
      exact (h.chain ih (h.tuple he rfl)).imp_left (congrArg PatternForm.list)
    | _ => cases hnumber
  map entries ty place ih := by
    refine h.pattern_of_form (fun form ds es hnumber he => ?_) ty place
    cases form with
    | map entries' =>
      simp only [PatternForm.datum, Pattern.entryData_eq_map] at he
      exact (h.seq (fun e hmem => h.pair (ih e hmem).1 (ih e hmem).2) (h.tuple he rfl)).imp_left
        (congrArg PatternForm.map)
    | _ => cases hnumber
  record name fields ty place ih := by
    refine h.pattern_of_form (fun form ds es hnumber he => ?_) ty place
    cases form with
    | record name' fields' =>
      simp only [PatternForm.datum, Pattern.fieldData_eq_map] at he
      obtain ⟨rfl, hfields⟩ := h.symbol name (h.record he rfl)
      exact (h.seq (fun f hf => h.pair (h.handle f.1) (ih f hf)) hfields).imp_left
        (congrArg (PatternForm.record name))
    | _ => cases hnumber
  symbol path ty place := by
    refine h.pattern_of_form (fun form ds es hnumber he => ?_) ty place
    cases form with
    | symbol path' =>
      exact (h.symbol path (h.tuple he rfl)).imp_left (congrArg PatternForm.symbol)
    | _ => cases hnumber
  value v ty place := by
    refine h.pattern_of_form (fun form ds es hnumber he => ?_) ty place
    cases form with
    | value v' => exact (h.value v (h.tuple he rfl)).imp_left (congrArg PatternForm.value)
    | _ => cases hnumber

theorem pattern (h : Discerns R) (p : Pattern) : Discerned R Pattern.datum p :=
  h.pattern_steps.all p

/-! ## Expressions and statements -/

theorem expr_of_form (h : Discerns R) {form : ExprForm}
    (hform : ∀ form' ds es, form.ctorIdx = form'.ctorIdx →
      R (form.datum :: ds) (form'.datum :: es) → form = form' ∧ R ds es)
    (ty : Option TypeExpr) (place : Span) : Discerned R Expr.datum ⟨form, ty, place⟩ := by
  rintro ⟨form', ty', place'⟩ ds es he
  have he := h.record he rfl
  obtain ⟨rfl, hty⟩ := hform form' _ _ (h.number_eq ExprForm.numbered he) he
  obtain ⟨rfl, hplace⟩ := h.type ty hty
  exact (h.span place hplace).imp_left (congrArg (Expr.mk form ty))

theorem stmt_of_form (h : Discerns R) {form : StmtForm}
    (hform : ∀ form' ds es, form.ctorIdx = form'.ctorIdx →
      R (form.datum :: ds) (form'.datum :: es) → form = form' ∧ R ds es)
    (place : Span) : Discerned R Stmt.datum ⟨form, place⟩ := by
  rintro ⟨form', place'⟩ ds es he
  have he := h.record he rfl
  obtain ⟨rfl, hplace⟩ := hform form' _ _ (h.number_eq StmtForm.numbered he) he
  exact (h.span place hplace).imp_left (congrArg (Stmt.mk form))

theorem body (h : Discerns R) {ss : List Stmt} (ih : ∀ s ∈ ss, Discerned R Stmt.datum s) :
    Discerned R (fun ss => Datum.body (Stmt.data ss)) ss := by
  intro ss' ds es he
  simp only [Stmt.data_eq_map] at he
  exact h.seq ih (h.tuple he rfl)

/-- The second branch, if there is one, is an optional part like any other. -/
theorem datum_ifElse (cond : Expr) (body : List Stmt) (elseBody : Option (List Stmt)) :
    (ExprForm.ifElse cond body elseBody).datum =
      variantRecord "IfElse" 0 [("cond", cond.datum), ("body", .body (Stmt.data body)),
        ("else_body", ofOption (elseBody.map fun ss => .body (Stmt.data ss)))] := by
  cases elseBody <;> simp only [ExprForm.datum, Option.map_none, Option.map_some, ofOption]

theorem expr_steps (h : Discerns R) :
    Expr.Steps (Discerned R Expr.datum) (Discerned R Stmt.datum) where
  ifElse cond body elseBody ty place ihc ihb ihe := by
    refine h.expr_of_form (fun form ds es hnumber he => ?_) ty place
    cases form with
    | ifElse cond' body' elseBody' =>
      rw [datum_ifElse, datum_ifElse] at he
      obtain ⟨rfl, hbody⟩ := ihc (h.record he rfl)
      obtain ⟨rfl, helse⟩ := h.body ihb hbody
      exact (h.option (fun ss hss => h.body (ihe ss hss)) helse).imp_left
        (congrArg (ExprForm.ifElse cond body))
    | _ => cases hnumber
  case scrutinee arms ty place ihs iha := by
    refine h.expr_of_form (fun form ds es hnumber he => ?_) ty place
    cases form with
    | case scrutinee' arms' =>
      simp only [ExprForm.datum, Expr.armData_eq_map] at he
      obtain ⟨rfl, harms⟩ := ihs (h.record he rfl)
      exact (h.seq (fun a ha => h.pair (h.pattern a.1) (iha a ha)) harms).imp_left
        (congrArg (ExprForm.case scrutinee))
    | _ => cases hnumber
  record name fields ty place ih := by
    refine h.expr_of_form (fun form ds es hnumber he => ?_) ty place
    cases form with
    | record name' fields' =>
      simp only [ExprForm.datum, Expr.fieldData_eq_map] at he
      obtain ⟨rfl, hfields⟩ := h.symbol name (h.record he rfl)
      exact (h.seq (fun f hf => h.pair (h.handle f.1) (ih f hf)) hfields).imp_left
        (congrArg (ExprForm.record name))
    | _ => cases hnumber
  list c ty place ih := by
    refine h.expr_of_form (fun form ds es hnumber he => ?_) ty place
    cases form with
    | list c' =>
      simp only [ExprForm.datum, Expr.chainData_eq_map] at he
      exact (h.chain ih (h.tuple he rfl)).imp_left (congrArg ExprForm.list)
    | _ => cases hnumber
  map entries ty place ih := by
    refine h.expr_of_form (fun form ds es hnumber he => ?_) ty place
    cases form with
    | map entries' =>
      simp only [ExprForm.datum, Expr.entryData_eq_map] at he
      exact (h.seq (fun e hmem => h.pair (ih e hmem).1 (ih e hmem).2) (h.tuple he rfl)).imp_left
        (congrArg ExprForm.map)
    | _ => cases hnumber
  value v ty place := by
    refine h.expr_of_form (fun form ds es hnumber he => ?_) ty place
    cases form with
    | value v' => exact (h.value v (h.tuple he rfl)).imp_left (congrArg ExprForm.value)
    | _ => cases hnumber
  symbol path ty place := by
    refine h.expr_of_form (fun form ds es hnumber he => ?_) ty place
    cases form with
    | symbol path' => exact (h.symbol path (h.tuple he rfl)).imp_left (congrArg ExprForm.symbol)
    | _ => cases hnumber
  call callee args ty place ih := by
    refine h.expr_of_form (fun form ds es hnumber he => ?_) ty place
    cases form with
    | call callee' args' =>
      simp only [ExprForm.datum, Expr.data_eq_map] at he
      obtain ⟨rfl, hargs⟩ := h.symbol callee (h.record he rfl)
      exact (h.seq ih hargs).imp_left (congrArg (ExprForm.call callee))
    | _ => cases hnumber
  binary op lhs rhs ty place ihl ihr := by
    refine h.expr_of_form (fun form ds es hnumber he => ?_) ty place
    cases form with
    | binary op' lhs' rhs' =>
      obtain ⟨rfl, hlhs⟩ := h.binaryOp op (h.record he rfl)
      obtain ⟨rfl, hrhs⟩ := ihl hlhs
      exact (ihr hrhs).imp_left (congrArg (ExprForm.binary op lhs))
    | _ => cases hnumber
  unary op operand ty place ih := by
    refine h.expr_of_form (fun form ds es hnumber he => ?_) ty place
    cases form with
    | unary op' operand' =>
      obtain ⟨rfl, hoperand⟩ := h.unaryOp op (h.record he rfl)
      exact (ih hoperand).imp_left (congrArg (ExprForm.unary op))
    | _ => cases hnumber
  compound exprs ty place ih := by
    refine h.expr_of_form (fun form ds es hnumber he => ?_) ty place
    cases form with
    | compound exprs' =>
      simp only [ExprForm.datum, Expr.data_eq_map] at he
      exact (h.seq ih (h.tuple he rfl)).imp_left (congrArg ExprForm.compound)
    | _ => cases hnumber
  define name params result body place ih := by
    refine h.stmt_of_form (fun form ds es hnumber he => ?_) place
    cases form with
    | define name' params' result' body' =>
      obtain ⟨rfl, hparams⟩ := h.handle name (h.record (h.tuple he rfl) rfl)
      obtain ⟨rfl, hresult⟩ := h.seq (fun p _ => h.pattern p) hparams
      obtain ⟨rfl, hbody⟩ := h.type result hresult
      exact (h.body ih hbody).imp_left (congrArg (StmtForm.define name params result))
    | _ => cases hnumber
  recordType name fields place := by
    refine h.stmt_of_form (fun form ds es hnumber he => ?_) place
    cases form with
    | record name' fields' =>
      obtain ⟨rfl, hfields⟩ := h.handle name (h.record (h.tuple he rfl) rfl)
      exact (h.seq (fun f _ => h.pair (h.handle f.1) (h.typeExpr f.2)) hfields).imp_left
        (congrArg (StmtForm.record name))
    | _ => cases hnumber
  val name init place ih := by
    refine h.stmt_of_form (fun form ds es hnumber he => ?_) place
    cases form with
    | val name' init' =>
      obtain ⟨rfl, hinit⟩ := h.handle name (h.record he rfl)
      exact (ih hinit).imp_left (congrArg (StmtForm.val name))
    | _ => cases hnumber
  module name body place ih := by
    refine h.stmt_of_form (fun form ds es hnumber he => ?_) place
    cases form with
    | module name' body' =>
      obtain ⟨rfl, hbody⟩ := h.handle name (h.record (h.tuple he rfl) rfl)
      exact (h.body ih hbody).imp_left (congrArg (StmtForm.module name))
    | _ => cases hnumber
  expr e place ih := by
    refine h.stmt_of_form (fun form ds es hnumber he => ?_) place
    cases form with
    | expr e' => exact (ih (h.tuple he rfl)).imp_left (congrArg StmtForm.expr)
    | _ => cases hnumber
  loop pattern container place ih := by
    refine h.stmt_of_form (fun form ds es hnumber he => ?_) place
    cases form with
    | loop pattern' container' =>
      obtain ⟨rfl, hcontainer⟩ := h.pattern pattern (h.record he rfl)
      exact (ih hcontainer).imp_left (congrArg (StmtForm.loop pattern))
    | _ => cases hnumber

/-- Two trees of one family that look alike are the same. -/
theorem node (h : Discerns R) {a b : Node} (hab : a.family = b.family)
    (he : R [a.datum] [b.datum]) : a = b := by
  cases a <;> cases b <;> try cases hab
  case value v w => exact congrArg Node.value (h.value v he).1
  case symbol s t => exact congrArg Node.symbol (h.symbol s he).1
  case type s t => exact congrArg Node.type (h.typeExpr s he).1
  case pattern p q => exact congrArg Node.pattern (h.pattern p he).1
  case expr e f => exact congrArg Node.expr (h.expr_steps.all e he).1
  case stmt s t => exact congrArg Node.stmt (h.expr_steps.allStmts s he).1
  case program p q =>
    obtain ⟨body⟩ := q
    have hbody := h.body (fun s _ => h.expr_steps.allStmts s) (h.record he rfl)
    exact congrArg (fun ss => Node.program ⟨ss⟩) hbody.1
  case exprChain c d =>
    simp only [Node.datum, Expr.chainData_eq_map] at he
    exact congrArg Node.exprChain (h.chain (fun e _ => h.expr_steps.all e) he).1
  case patternChain c d =>
    simp only [Node.datum, Pattern.chainData_eq_map] at he
    exact congrArg Node.patternChain (h.chain (fun p _ => h.pattern p) he).1

end Discerns

end Datum

end Treeprint
