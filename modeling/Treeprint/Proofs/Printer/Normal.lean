import Mathlib.Data.List.Forall2
import Treeprint.Printer.Render
import Treeprint.Proofs.Induction
import Treeprint.Proofs.Rewriting

/-!
# Printing rewritten trees

A rewritten tree is printed like the tree, but for its names (`Node.prints_rewrite`). Places and the
types of expressions are not in a document at all, and of a chain only its elements and its rest
count (`Doc.print_bracketed`), which a rewriting keeps. So a node and its normal form are printed
alike in every context and into every sink, up to the same fault if there is one
(`Node.print_normal`).
-/

namespace Treeprint

namespace Doc

/-- The document with other names. -/
def rename (f : Name → Name) : Doc → Doc
  | .empty => .empty
  | .text s => .text s
  | .name n => .name (f n)
  | .quoted n => .quoted (f n)
  | .indent => .indent
  | .append a b => .append (a.rename f) (b.rename f)
  | .scope d => .scope (d.rename f)

theorem rename_id (d : Doc) : d.rename (fun n => n) = d := by
  induction d <;> simp_all [rename]

/-- One document is printed like another one with other names. -/
def Prints (f : Name → Name) (d d' : Doc) : Prop := ∀ ctx, d.print ctx = (d'.rename f).print ctx

variable {ctx : Context}

theorem print_append (a b : Doc) :
    (a ++ b).print ctx = (do a.print ctx; b.print ctx) := rfl

@[simp] theorem rename_append (f : Name → Name) (a b : Doc) :
    (a ++ b).rename f = a.rename f ++ b.rename f := rfl

/-! ## The layouts of documents -/

namespace Prints

variable {f : Name → Name} {a a' b b' : Doc} {ds ds' : List Doc}

theorem empty : Prints f .empty .empty := fun _ => rfl

theorem text (s : String) : Prints f (.text s) (.text s) := fun _ => rfl

theorem name (n : Name) : Prints f (.name (f n)) (.name n) := fun _ => rfl

theorem quoted (n : Name) : Prints f (.quoted (f n)) (.quoted n) := fun _ => rfl

theorem indent : Prints f .indent .indent := fun _ => rfl

theorem append (ha : Prints f a a') (hb : Prints f b b') : Prints f (a ++ b) (a' ++ b') := by
  intro ctx
  rw [rename_append, print_append, print_append, ha ctx, hb ctx]

theorem scope (h : Prints f a a') : Prints f a.scope a'.scope := by
  intro ctx
  rw [rename, print, print, h ctx]

theorem concat (h : List.Forall₂ (Prints f) ds ds') : Prints f (.concat ds) (.concat ds') := by
  induction h with
  | nil => exact empty
  | cons hd _ ih => exact hd.append ih

theorem separatedTail (sep : String) (h : List.Forall₂ (Prints f) ds ds') :
    Prints f (.separatedTail sep ds) (.separatedTail sep ds') := by
  induction h with
  | nil => exact empty
  | cons hd _ ih => exact ((text sep).append hd).append ih

theorem separated (sep : String) (h : List.Forall₂ (Prints f) ds ds') :
    Prints f (.separated sep ds) (.separated sep ds') := by
  cases h with
  | nil => exact empty
  | cons hd hds => exact hd.append (separatedTail sep hds)

theorem braced (h : List.Forall₂ (Prints f) ds ds') : Prints f (.braced ds) (.braced ds') := by
  cases h with
  | nil => exact text _
  | cons hd hds => exact ((text _).append (separated ", " (.cons hd hds))).append (text _)

theorem lines (h : List.Forall₂ (Prints f) ds ds') : Prints f (.lines ds) (.lines ds') := by
  induction h with
  | nil => exact empty
  | cons hd _ ih => exact ((indent.append hd).append (text "\n")).append ih

theorem block (h : List.Forall₂ (Prints f) ds ds') : Prints f (.block ds) (.block ds') :=
  (lines h).scope

theorem sequence (h : List.Forall₂ (Prints f) ds ds') :
    Prints f (.sequence ds) (.sequence ds') := by
  cases h with
  | nil => exact empty
  | cons hd hds =>
    refine (separated ";\n" ?_).append (text "\n")
    rw [List.forall₂_map_left_iff, List.forall₂_map_right_iff]
    exact (List.Forall₂.cons hd hds).imp fun _ _ h => indent.append h

theorem closing : Prints f .closing .closing := indent.append (text "end")

theorem entry (ha : Prints f a a') (hb : Prints f b b') : Prints f (.entry a b) (.entry a' b') :=
  (ha.append (text " => ")).append hb

theorem field (n : Name) (h : Prints f a a') : Prints f (.field (f n) a) (.field n a') :=
  ((name n).append (text ": ")).append h

theorem arm (ha : Prints f a a') (hb : Prints f b b') : Prints f (.arm a b) (.arm a' b') :=
  (((text "\n").append indent).append (text "| ")).append (ha.entry hb)

end Prints

/-! ## Chains -/

/-- The rest of a list, if it has one, behind its mark. -/
def captured : Option Doc → Doc
  | none => .empty
  | some v => .text " :: " ++ v

/-- The elements of a list and its rest, if it has one, in brackets. -/
def list (elements : List Doc) (rest : Option Doc) : Doc :=
  .text "[" ++ separated ", " elements ++ captured rest ++ .text "]"

theorem print_append_assoc (a b c : Doc) : (a ++ b ++ c).print ctx = (a ++ (b ++ c)).print ctx :=
  bind_assoc ..

theorem print_append_empty (a : Doc) : (a ++ .empty).print ctx = a.print ctx := bind_pure_unit

theorem print_empty_append (a : Doc) : (.empty ++ a : Doc).print ctx = a.print ctx := pure_bind ..

theorem walk_rest (first : Bool) (t : Chain Doc) : walk first (.rest t) = captured t.value? := by
  cases t <;> rfl

namespace Prints

variable {f : Name → Name} {a b d : Doc} {es : List Doc} {rest rest' : Option Doc}
  {c : Chain Doc}

theorem of_print_eq (h : ∀ ctx, a.print ctx = b.print ctx) (hb : Prints f b d) : Prints f a d :=
  fun ctx => (h ctx).trans (hb ctx)

theorem captured (h : Option.Rel (Prints f) rest rest') :
    Prints f (.captured rest) (.captured rest') := by
  cases h with
  | none => exact empty
  | some hv => exact (text " :: ").append hv

theorem walk_false (he : List.Forall₂ (Prints f) es c.elements)
    (hr : Option.Rel (Prints f) rest c.rest?) :
    Prints f (.separatedTail ", " es ++ .captured rest) (.walk false c) := by
  induction c generalizing es with
  | element v t ih =>
    cases he with
    | cons hv ht =>
      exact of_print_eq (fun _ => print_append_assoc ..) (((text ", ").append hv).append (ih ht hr))
  | last v =>
    cases he with
    | cons hv hnil =>
      cases hnil
      cases hr
      refine of_print_eq (fun _ => ?_) ((text ", ").append hv)
      rw [Doc.captured, print_append_empty, Doc.separatedTail, Doc.separatedTail,
        print_append_empty]
  -- Whatever stands behind the captured value is dropped by the walk and is no part of `rest?`.
  | rest t =>
    cases he
    rw [walk_rest]
    exact of_print_eq (fun _ => print_empty_append _) (captured hr)
  | terminator =>
    cases he
    cases hr
    exact of_print_eq (fun _ => print_empty_append _) empty

theorem walk_true (he : List.Forall₂ (Prints f) es c.elements)
    (hr : Option.Rel (Prints f) rest c.rest?) :
    Prints f (.separated ", " es ++ .captured rest) (.walk true c) := by
  cases c with
  | element v t =>
    cases he with
    | cons hv ht =>
      exact of_print_eq (fun _ => print_append_assoc ..) (hv.append (walk_false ht hr))
  | last v =>
    cases he with
    | cons hv hnil =>
      cases hnil
      cases hr
      refine of_print_eq (fun _ => ?_) hv
      rw [Doc.captured, print_append_empty, Doc.separated, Doc.separatedTail, print_append_empty]
  | rest t =>
    cases he
    exact walk_false (c := .rest t) .nil hr
  | terminator =>
    cases he
    exact walk_false (c := .terminator) .nil hr

/-- A chain is printed like the list of its elements and its rest. -/
theorem list (he : List.Forall₂ (Prints f) es c.elements)
    (hr : Option.Rel (Prints f) rest c.rest?) : Prints f (.list es rest) (.bracketed c) :=
  of_print_eq (fun ctx => by rw [Doc.list, print_append, print_append_assoc, ← print_append])
    (((text "[").append (walk_true he hr)).append (text "]"))

theorem refl (d : Doc) : Prints (fun n => n) d d := fun _ => by rw [rename_id]

theorem relRefl (rest : Option Doc) : Option.Rel (Prints fun n => n) rest rest := by
  cases rest with
  | none => exact .none
  | some v => exact .some (refl v)

end Prints

/-- Of a chain only its elements and its rest are printed. -/
theorem print_bracketed (c : Chain Doc) :
    (bracketed c).print ctx = (list c.elements c.rest?).print ctx := by
  have h := Prints.list (List.forall₂_same.mpr fun d _ => .refl d) (Prints.relRefl c.rest?) ctx
  rw [h, rename_id]

namespace Prints

variable {α : Type} {f : Name → Name} {g h : α → Doc}

theorem bracketed {c c' : Chain Doc} (he : List.Forall₂ (Prints f) c.elements c'.elements)
    (hr : Option.Rel (Prints f) c.rest? c'.rest?) : Prints f (.bracketed c) (.bracketed c') :=
  of_print_eq (fun _ => print_bracketed c) (list he hr)

theorem maps {xs : List α} (hx : ∀ x ∈ xs, Prints f (g x) (h x)) :
    List.Forall₂ (Prints f) (xs.map g) (xs.map h) := by
  rw [List.forall₂_map_left_iff, List.forall₂_map_right_iff]
  exact List.forall₂_same.mpr hx

/-- A chain that is rewritten after its values. -/
theorem rewritten (r : Rewriting) {change : α → α} {c : Chain α}
    (hc : ∀ x, some x ∈ c.slots → Prints f (h (change x)) (h x)) :
    Prints f (.bracketed ((r.chain (c.map change)).map h)) (.bracketed (c.map h)) := by
  refine bracketed ?_ ?_
  · rw [Chain.elements_map, r.elements_chain, Chain.elements_map, Chain.elements_map, List.map_map]
    exact maps fun x hx => hc x (Chain.mem_slots_of_mem_elements hx)
  · rw [Chain.rest?_map, r.rest?_chain, Chain.rest?_map, Chain.rest?_map]
    rcases hrest : c.rest? with _ | v
    · exact .none
    · exact .some (hc v (Chain.mem_slots_of_rest? hrest))

end Prints

end Doc

/-! ## Trees -/

section

variable (r : Rewriting)

theorem Value.prints_rewrite (v : Value) : Doc.Prints r.name (v.rewrite r).doc v.doc := by
  cases v with
  | str n => exact .quoted n
  | atom n => exact (Doc.Prints.text ":").append (.name n)
  | _ => exact .text _

theorem Symbol.prints_rewrite (s : Symbol) : Doc.Prints r.name (s.rewrite r).doc s.doc := by
  rw [doc, doc, rewrite, List.map_map]
  refine (Doc.Prints.concat ?_).append (.name s.name)
  exact Doc.Prints.maps fun n _ => (Doc.Prints.name n).append (.text ".")

theorem TypeExpr.prints_rewrite (t : TypeExpr) : Doc.Prints r.name (t.rewrite r).doc t.doc := by
  obtain ⟨form, _⟩ := t
  cases form with
  | record name => exact name.prints_rewrite r
  | _ => exact .text _

theorem Doc.prints_typed (mark : String) (ty : Option TypeExpr) :
    Doc.Prints r.name (.typed mark (ty.map (TypeExpr.rewrite r))) (.typed mark ty) := by
  cases ty with
  | none => exact .empty
  | some t => exact (Doc.Prints.text mark).append (t.prints_rewrite r)

theorem pattern_prints_steps :
    Pattern.Steps fun p => Doc.Prints r.name (p.rewrite r).doc p.doc where
  list c ty place ih := by
    refine Doc.Prints.append ?_ (Doc.prints_typed r ": " ty)
    rw [PatternForm.rewrite, PatternForm.doc, PatternForm.doc, Pattern.chainDocs_eq_map,
      Pattern.chainDocs_eq_map, Pattern.rewriteChain_eq_map]
    exact .rewritten r ih
  map es ty place ih := by
    refine Doc.Prints.append ?_ (Doc.prints_typed r ": " ty)
    rw [PatternForm.rewrite, PatternForm.doc, PatternForm.doc, Pattern.entryDocs_eq_map,
      Pattern.entryDocs_eq_map, Pattern.rewriteEntries_eq_map, List.map_map]
    exact .braced (Doc.Prints.maps fun e he => (ih e he).1.entry (ih e he).2)
  record name fs ty place ih := by
    refine Doc.Prints.append ?_ (Doc.prints_typed r ": " ty)
    rw [PatternForm.rewrite, PatternForm.doc, PatternForm.doc, Pattern.fieldDocs_eq_map,
      Pattern.fieldDocs_eq_map, Pattern.rewriteFields_eq_map, List.map_map]
    refine ((name.prints_rewrite r).append (.text " ")).append ?_
    exact .braced (Doc.Prints.maps fun f hf => (ih f hf).field f.1)
  symbol path ty place := (path.prints_rewrite r).append (Doc.prints_typed r ": " ty)
  value v ty place := (v.prints_rewrite r).append (Doc.prints_typed r ": " ty)

theorem prints_stmts {ss : List Stmt}
    (h : ∀ s ∈ ss, Doc.Prints r.name (s.rewrite r).doc s.doc) :
    List.Forall₂ (Doc.Prints r.name) (Stmt.docs (Stmt.rewriteList r ss)) (Stmt.docs ss) := by
  rw [Stmt.docs_eq_map, Stmt.docs_eq_map, Stmt.rewriteList_eq_map, List.map_map]
  exact Doc.Prints.maps h

theorem prints_exprs {es : List Expr}
    (h : ∀ e ∈ es, Doc.Prints r.name (e.rewrite r).doc e.doc) :
    List.Forall₂ (Doc.Prints r.name) (Expr.docs (Expr.rewriteList r es)) (Expr.docs es) := by
  rw [Expr.docs_eq_map, Expr.docs_eq_map, Expr.rewriteList_eq_map, List.map_map]
  exact Doc.Prints.maps h

theorem expr_prints_steps : Expr.Steps
    (fun e => Doc.Prints r.name (e.rewrite r).doc e.doc)
    (fun s => Doc.Prints r.name (s.rewrite r).doc s.doc) where
  ifElse cond body elseBody ty place ihc ihb ihe := by
    have hhead := ((Doc.Prints.text "if ").append ihc).append (.text " then\n")
    have hbody := hhead.append (.block (prints_stmts r ihb))
    cases elseBody with
    | none => exact (hbody.append .empty).append .closing
    | some stmts =>
      have helse := (Doc.Prints.indent.append (.text "else\n")).append
        (.block (prints_stmts r (ihe stmts rfl)))
      exact (hbody.append helse).append .closing
  case scrutinee arms ty place ihs iha := by
    have ha : List.Forall₂ (Doc.Prints r.name) (Expr.armDocs (Expr.rewriteArms r arms))
        (Expr.armDocs arms) := by
      rw [Expr.armDocs_eq_map, Expr.armDocs_eq_map, Expr.rewriteArms_eq_map, List.map_map]
      exact Doc.Prints.maps fun a ha => ((pattern_prints_steps r).all a.1).arm (iha a ha)
    exact (((Doc.Prints.text "case ").append ihs).append (.text " of")).append (.scope (.concat ha))
  record name fs ty place ih := by
    have hf : List.Forall₂ (Doc.Prints r.name) (Expr.fieldDocs (Expr.rewriteFields r fs))
        (Expr.fieldDocs fs) := by
      rw [Expr.fieldDocs_eq_map, Expr.fieldDocs_eq_map, Expr.rewriteFields_eq_map, List.map_map]
      exact Doc.Prints.maps fun f hf => (ih f hf).field f.1
    exact ((name.prints_rewrite r).append (.text " ")).append (.braced hf)
  list c ty place ih := by
    rw [Expr.rewrite, ExprForm.rewrite, Expr.doc, Expr.doc, ExprForm.doc, ExprForm.doc,
      Expr.chainDocs_eq_map, Expr.chainDocs_eq_map, Expr.rewriteChain_eq_map]
    exact .rewritten r ih
  map es ty place ih := by
    have he : List.Forall₂ (Doc.Prints r.name) (Expr.entryDocs (Expr.rewriteEntries r es))
        (Expr.entryDocs es) := by
      rw [Expr.entryDocs_eq_map, Expr.entryDocs_eq_map, Expr.rewriteEntries_eq_map, List.map_map]
      exact Doc.Prints.maps fun e he => (ih e he).1.entry (ih e he).2
    exact .braced he
  value v ty place := v.prints_rewrite r
  symbol path ty place := path.prints_rewrite r
  call callee args ty place ih :=
    (((callee.prints_rewrite r).append (.text "(")).append
      (.separated ", " (prints_exprs r ih))).append (.text ")")
  binary op lhs rhs ty place ihl ihr := by
    rw [Expr.rewrite, ExprForm.rewrite, Expr.doc, Expr.doc, ExprForm.doc, ExprForm.doc]
    split
    · exact ((ihl.append (.text "[")).append ihr).append (.text "]")
    · have hleft := ((Doc.Prints.text "(").append ihl).append (.text " ")
      exact ((hleft.append (.text op.symbol)).append (.text " ")).append ihr |>.append (.text ")")
  unary op operand ty place ih := (Doc.Prints.text op.symbol).append ih
  compound exprs ty place ih := .separated "; " (prints_exprs r ih)
  define name params result body place ih := by
    have hp : List.Forall₂ (Doc.Prints r.name)
        ((params.map (Pattern.rewrite r)).map Pattern.doc) (params.map Pattern.doc) := by
      rw [List.map_map]
      exact Doc.Prints.maps fun p _ => (pattern_prints_steps r).all p
    have hparams := (((Doc.Prints.text "def ").append (.name name)).append (.text "(")).append
      (.separated ", " hp)
    have hhead := ((hparams.append (.text ")")).append (Doc.prints_typed r " => " result)).append
      (.text ":\n")
    exact (hhead.append (.scope (.sequence (prints_stmts r ih)))).append .closing
  recordType name fields place := by
    have hf : List.Forall₂ (Doc.Prints r.name)
        ((fields.map fun f => (r.name f.1, f.2.rewrite r)).map fun f => Doc.field f.1 f.2.doc)
        (fields.map fun f => Doc.field f.1 f.2.doc) := by
      rw [List.map_map]
      exact Doc.Prints.maps fun f _ => (f.2.prints_rewrite r).field f.1
    exact (((Doc.Prints.text "type ").append (.name name)).append (.text " = ")).append (.braced hf)
  val name init place ih :=
    (((Doc.Prints.text "val ").append (.name name)).append (.text " = ")).append ih
  module name body place ih :=
    ((((Doc.Prints.text "module ").append (.name name)).append (.text "\n")).append
      (.block (prints_stmts r ih))).append .closing
  expr e place ih := ih
  loop p container place ih := by
    have hp := (pattern_prints_steps r).all p
    exact (((Doc.Prints.text "for ").append hp).append (.text " in ")).append ih

/-- A rewritten node is printed like the node, but for its names. -/
theorem Node.prints_rewrite (n : Node) : Doc.Prints r.name (n.rewrite r).doc n.doc := by
  cases n with
  | value v => exact v.prints_rewrite r
  | symbol s => exact s.prints_rewrite r
  | type t => exact t.prints_rewrite r
  | pattern p => exact (pattern_prints_steps r).all p
  | expr e => exact (expr_prints_steps r).all e
  | stmt s => exact (expr_prints_steps r).allStmts s
  | program p => exact .lines (prints_stmts r fun s _ => (expr_prints_steps r).allStmts s)
  | exprChain c =>
    rw [rewrite, doc, doc, Expr.chainDocs_eq_map, Expr.chainDocs_eq_map, Expr.rewriteChain_eq_map]
    exact .rewritten r fun e _ => (expr_prints_steps r).all e
  | patternChain c =>
    rw [rewrite, doc, doc, Pattern.chainDocs_eq_map, Pattern.chainDocs_eq_map,
      Pattern.rewriteChain_eq_map]
    exact .rewritten r fun p _ => (pattern_prints_steps r).all p

end

/-- A node and its normal form are printed alike: the same text with the same scope changes, or the
same fault after the same text and the same scope changes. -/
theorem Node.print_normal (ctx : Context) (n : Node) (k : Sink) :
    n.normal.doc.print ctx k = n.doc.print ctx k := by
  rw [normal, n.prints_rewrite .normal ctx]
  exact congrArg (fun d : Doc => d.print ctx k) n.doc.rename_id

end Treeprint
