import Mathlib.Data.List.Basic
import Treeprint.Proofs.Printer.Canonical

/-!
# The names that a text shows

The names of a node in the order in which their texts are printed (`Node.mentions`), each with the
way in which its text is shown: as it is, or as a string literal. The list is written down form by
form. What is not printed is not in it: the type of an expression, and what a chain holds behind
its rest.

The document of a node mentions exactly these names, in this order (`Node.mentions_doc`).
-/

namespace Treeprint

/-- A name whose text is printed. -/
inductive Mention where
  /-- The text is printed as it is. -/
  | word (n : Name)
  /-- The text is printed as a string literal. -/
  | literal (n : Name)
  deriving DecidableEq, Repr

def Mention.name : Mention → Name
  | .word n | .literal n => n

def Value.mentions : Value → List Mention
  | .str n => [.literal n]
  | .atom n => [.word n]
  | .unit | .int _ | .float _ | .bool _ => []

def Symbol.mentions (s : Symbol) : List Mention := s.segments.map .word

def TypeExpr.mentions (t : TypeExpr) : List Mention :=
  match t.form with
  | .record name => name.mentions
  | .list | .map | .any | .prim _ => []

/-- The names of a type, if there is one. -/
def TypeExpr.optMentions (ty : Option TypeExpr) : List Mention := ty.toList.flatMap mentions

/-- The names of a list: those of its elements and then those of its rest. -/
def Chain.mentions (parts : Chain (List Mention)) : List Mention :=
  parts.elements.flatten ++ parts.rest?.getD []

mutual

def Pattern.mentions : Pattern → List Mention
  | ⟨form, ty, _⟩ => form.mentions ++ TypeExpr.optMentions ty

def PatternForm.mentions : PatternForm → List Mention
  | .list chain => (Pattern.chainMentions chain).mentions
  | .map entries => Pattern.entryMentions entries
  | .record name fields => name.mentions ++ Pattern.fieldMentions fields
  | .symbol path => path.mentions
  | .value literal => literal.mentions

def Pattern.chainMentions : Chain Pattern → Chain (List Mention)
  | .element v t => .element v.mentions (Pattern.chainMentions t)
  | .last v => .last v.mentions
  | .rest t => .rest (Pattern.chainMentions t)
  | .terminator => .terminator

def Pattern.entryMentions : List (Pattern × Pattern) → List Mention
  | [] => []
  | (key, value) :: rest => key.mentions ++ value.mentions ++ Pattern.entryMentions rest

def Pattern.fieldMentions : List (Name × Pattern) → List Mention
  | [] => []
  | (n, p) :: rest => .word n :: p.mentions ++ Pattern.fieldMentions rest

end

mutual

def Expr.mentions : Expr → List Mention
  | ⟨form, _, _⟩ => form.mentions

def ExprForm.mentions : ExprForm → List Mention
  | .ifElse cond body none => cond.mentions ++ Stmt.listMentions body
  | .ifElse cond body (some stmts) =>
    cond.mentions ++ Stmt.listMentions body ++ Stmt.listMentions stmts
  | .case scrutinee arms => scrutinee.mentions ++ Expr.armMentions arms
  | .record name fields => name.mentions ++ Expr.fieldMentions fields
  | .list chain => (Expr.chainMentions chain).mentions
  | .map entries => Expr.entryMentions entries
  | .value literal => literal.mentions
  | .symbol path => path.mentions
  | .call callee args => callee.mentions ++ Expr.listMentions args
  | .binary _ lhs rhs => lhs.mentions ++ rhs.mentions
  | .unary _ operand => operand.mentions
  | .compound exprs => Expr.listMentions exprs

def Expr.listMentions : List Expr → List Mention
  | [] => []
  | e :: rest => e.mentions ++ Expr.listMentions rest

def Expr.armMentions : List (Pattern × Expr) → List Mention
  | [] => []
  | (p, e) :: rest => p.mentions ++ e.mentions ++ Expr.armMentions rest

def Expr.fieldMentions : List (Name × Expr) → List Mention
  | [] => []
  | (n, e) :: rest => .word n :: e.mentions ++ Expr.fieldMentions rest

def Expr.chainMentions : Chain Expr → Chain (List Mention)
  | .element v t => .element v.mentions (Expr.chainMentions t)
  | .last v => .last v.mentions
  | .rest t => .rest (Expr.chainMentions t)
  | .terminator => .terminator

def Expr.entryMentions : List (Expr × Expr) → List Mention
  | [] => []
  | (key, value) :: rest => key.mentions ++ value.mentions ++ Expr.entryMentions rest

def Stmt.mentions : Stmt → List Mention
  | ⟨form, _⟩ => form.mentions

def StmtForm.mentions : StmtForm → List Mention
  | .define name params result body =>
    .word name :: params.flatMap Pattern.mentions ++ TypeExpr.optMentions result ++
      Stmt.listMentions body
  | .record name fields => .word name :: fields.flatMap fun (n, t) => .word n :: t.mentions
  | .val name init => .word name :: init.mentions
  | .module name body => .word name :: Stmt.listMentions body
  | .expr e => e.mentions
  | .loop pattern container => pattern.mentions ++ container.mentions

def Stmt.listMentions : List Stmt → List Mention
  | [] => []
  | s :: rest => s.mentions ++ Stmt.listMentions rest

end

/-- The names that are printed, in order. -/
def Node.mentions : Node → List Mention
  | .value v => v.mentions
  | .symbol s => s.mentions
  | .type t => t.mentions
  | .pattern p => p.mentions
  | .expr e => e.mentions
  | .stmt s => s.mentions
  | .program p => Stmt.listMentions p.body
  | .exprChain c => (Expr.chainMentions c).mentions
  | .patternChain c => (Pattern.chainMentions c).mentions

/-- The handles in the places that are printed, in the order of printing. -/
def Node.handles (n : Node) : List Name := n.mentions.map Mention.name

/-! ## The parts one by one -/

theorem Pattern.chainMentions_eq_map (c : Chain Pattern) :
    Pattern.chainMentions c = c.map Pattern.mentions := by
  induction c <;> simp_all [Pattern.chainMentions, Chain.map]

theorem Pattern.entryMentions_eq_flatMap (es : List (Pattern × Pattern)) :
    Pattern.entryMentions es = es.flatMap fun (k, v) => k.mentions ++ v.mentions := by
  induction es <;> simp_all [Pattern.entryMentions]

theorem Pattern.fieldMentions_eq_flatMap (fs : List (Name × Pattern)) :
    Pattern.fieldMentions fs = fs.flatMap fun (n, p) => .word n :: p.mentions := by
  induction fs <;> simp_all [Pattern.fieldMentions]

theorem Expr.listMentions_eq_flatMap (es : List Expr) :
    Expr.listMentions es = es.flatMap Expr.mentions := by
  induction es <;> simp_all [Expr.listMentions]

theorem Expr.armMentions_eq_flatMap (as : List (Pattern × Expr)) :
    Expr.armMentions as = as.flatMap fun (p, e) => p.mentions ++ e.mentions := by
  induction as <;> simp_all [Expr.armMentions]

theorem Expr.fieldMentions_eq_flatMap (fs : List (Name × Expr)) :
    Expr.fieldMentions fs = fs.flatMap fun (n, e) => .word n :: e.mentions := by
  induction fs <;> simp_all [Expr.fieldMentions]

theorem Expr.chainMentions_eq_map (c : Chain Expr) :
    Expr.chainMentions c = c.map Expr.mentions := by
  induction c <;> simp_all [Expr.chainMentions, Chain.map]

theorem Expr.entryMentions_eq_flatMap (es : List (Expr × Expr)) :
    Expr.entryMentions es = es.flatMap fun (k, v) => k.mentions ++ v.mentions := by
  induction es <;> simp_all [Expr.entryMentions]

theorem Stmt.listMentions_eq_flatMap (ss : List Stmt) :
    Stmt.listMentions ss = ss.flatMap Stmt.mentions := by
  induction ss <;> simp_all [Stmt.listMentions]

/-! ## The layouts of documents -/

namespace Doc

/-- The names that a document mentions, in order. -/
def mentions : Doc → List Mention
  | .name n => [.word n]
  | .quoted n => [.literal n]
  | .append a b => a.mentions ++ b.mentions
  | .scope d => d.mentions
  | .empty | .text _ | .indent => []

/-- The names that are looked up are those that are mentioned. -/
theorem names_eq_map (d : Doc) : d.names = d.mentions.map Mention.name := by
  induction d <;> simp_all [names, mentions, Mention.name]

@[simp] theorem mentions_append (a b : Doc) : (a ++ b).mentions = a.mentions ++ b.mentions := rfl

theorem mentions_concat (ds : List Doc) : (concat ds).mentions = ds.flatMap mentions := by
  induction ds with
  | nil => rfl
  | cons d ds ih => simp [concat, ih]

theorem mentions_separatedTail (sep : String) (ds : List Doc) :
    (separatedTail sep ds).mentions = ds.flatMap mentions := by
  induction ds with
  | nil => rfl
  | cons d ds ih => simp [separatedTail, ih, mentions]

theorem mentions_separated (sep : String) (ds : List Doc) :
    (separated sep ds).mentions = ds.flatMap mentions := by
  cases ds with
  | nil => rfl
  | cons d ds => simp [separated, mentions_separatedTail]

theorem mentions_braced (ds : List Doc) : (braced ds).mentions = ds.flatMap mentions := by
  cases ds with
  | nil => rfl
  | cons d ds => simp [braced, mentions_separated, mentions]

theorem mentions_lines (ds : List Doc) : (lines ds).mentions = ds.flatMap mentions := by
  induction ds with
  | nil => rfl
  | cons d ds ih => simp [lines, ih, mentions]

theorem mentions_sequence (ds : List Doc) : (sequence ds).mentions = ds.flatMap mentions := by
  cases ds with
  | nil => rfl
  | cons d ds =>
    have hd : ∀ ds : List Doc, (ds.map (indent ++ ·)).flatMap mentions = ds.flatMap mentions := by
      intro ds
      rw [List.flatMap_map]
      rfl
    simp [sequence, mentions_separated, mentions, hd]

theorem mentions_walk (first : Bool) (c : Chain Doc) :
    (walk first c).mentions = (c.map mentions).mentions := by
  induction c generalizing first with
  | element v t ih =>
    cases first <;>
      simp [walk, ih, mentions, Chain.map, Chain.mentions, Chain.elements, Chain.rest?]
  | last v =>
    cases first <;> simp [walk, mentions, Chain.map, Chain.mentions, Chain.elements, Chain.rest?]
  | rest t =>
    cases t <;> simp [walk, mentions, Chain.map, Chain.mentions, Chain.elements, Chain.rest?,
      Chain.value?]
  | terminator => rfl

theorem mentions_bracketed_map {α : Type} {f : α → Doc} {g : α → List Mention} {c : Chain α}
    (h : ∀ x, some x ∈ c.slots → (f x).mentions = g x) :
    (bracketed (c.map f)).mentions = (c.map g).mentions := by
  have he : ((c.map f).map mentions).elements = (c.map g).elements := by
    simp only [Chain.elements_map, List.map_map]
    exact List.map_congr_left fun x hx => h x (Chain.mem_slots_of_mem_elements hx)
  have hr : ((c.map f).map mentions).rest? = (c.map g).rest? := by
    simp only [Chain.rest?_map, Option.map_map]
    exact Option.map_congr fun x hx => h x (Chain.mem_slots_of_rest? hx)
  have hw : (bracketed (c.map f)).mentions = ((c.map f).map mentions).mentions := by
    rw [bracketed, mentions_append, mentions_append, mentions_walk]
    simp [mentions]
  rw [hw, Chain.mentions, he, hr, Chain.mentions]

end Doc

/-! ## The names of a tree's document -/

theorem Value.mentions_doc (v : Value) : v.doc.mentions = v.mentions := by
  cases v <;> rfl

theorem Symbol.mentions_doc (s : Symbol) : s.doc.mentions = s.mentions := by
  rw [doc, Doc.mentions_append, Doc.mentions_concat, List.flatMap_map, mentions, segments,
    List.map_append, List.map_eq_flatMap]
  rfl

theorem TypeExpr.mentions_doc (t : TypeExpr) : t.doc.mentions = t.mentions := by
  obtain ⟨form, _⟩ := t
  cases form with
  | record name => exact name.mentions_doc
  | _ => rfl

theorem Doc.mentions_typed (mark : String) (ty : Option TypeExpr) :
    (Doc.typed mark ty).mentions = TypeExpr.optMentions ty := by
  cases ty with
  | none => rfl
  | some t => simp [typed, mentions, TypeExpr.optMentions, t.mentions_doc]

theorem Doc.flatMap_mentions {α : Type} {f : α → Doc} {g : α → List Mention} {xs : List α}
    (h : ∀ x ∈ xs, (f x).mentions = g x) : (xs.map f).flatMap mentions = xs.flatMap g := by
  rw [List.flatMap_map]
  exact List.flatMap_congr h

theorem Pattern.mentions_of_form (form : PatternForm) (ty : Option TypeExpr) (place : Span)
    (h : form.doc.mentions = form.mentions) :
    (Pattern.doc ⟨form, ty, place⟩).mentions = Pattern.mentions ⟨form, ty, place⟩ := by
  rw [Pattern.doc, Pattern.mentions, Doc.mentions_append, h, Doc.mentions_typed]

theorem pattern_mentions_steps : Pattern.Steps fun p => p.doc.mentions = p.mentions where
  list c ty place ih := by
    refine Pattern.mentions_of_form _ ty place ?_
    rw [PatternForm.doc, PatternForm.mentions, Pattern.chainDocs_eq_map,
      Pattern.chainMentions_eq_map, Doc.mentions_bracketed_map ih]
  map es ty place ih := by
    refine Pattern.mentions_of_form _ ty place ?_
    rw [PatternForm.doc, PatternForm.mentions, Doc.mentions_braced, Pattern.entryDocs_eq_map,
      Pattern.entryMentions_eq_flatMap]
    refine Doc.flatMap_mentions fun e he => ?_
    simp [Doc.entry, Doc.mentions, (ih e he).1, (ih e he).2]
  record name fs ty place ih := by
    refine Pattern.mentions_of_form _ ty place ?_
    have hf : (Pattern.fieldDocs fs).flatMap Doc.mentions = Pattern.fieldMentions fs := by
      rw [Pattern.fieldDocs_eq_map, Pattern.fieldMentions_eq_flatMap]
      exact Doc.flatMap_mentions fun f hf => by simp [Doc.field, Doc.mentions, ih f hf]
    simp [PatternForm.doc, PatternForm.mentions, Doc.mentions, Doc.mentions_braced,
      name.mentions_doc, hf]
  symbol path ty place := Pattern.mentions_of_form _ ty place path.mentions_doc
  value v ty place := Pattern.mentions_of_form _ ty place v.mentions_doc

theorem mentions_stmts {ss : List Stmt} (h : ∀ s ∈ ss, s.doc.mentions = s.mentions) :
    (Stmt.docs ss).flatMap Doc.mentions = Stmt.listMentions ss := by
  rw [Stmt.docs_eq_map, Stmt.listMentions_eq_flatMap]
  exact Doc.flatMap_mentions h

theorem mentions_exprs {es : List Expr} (h : ∀ e ∈ es, e.doc.mentions = e.mentions) :
    (Expr.docs es).flatMap Doc.mentions = Expr.listMentions es := by
  rw [Expr.docs_eq_map, Expr.listMentions_eq_flatMap]
  exact Doc.flatMap_mentions h

theorem expr_mentions_steps :
    Expr.Steps (fun e => e.doc.mentions = e.mentions) (fun s => s.doc.mentions = s.mentions) where
  ifElse cond body elseBody ty place ihc ihb ihe := by
    cases elseBody with
    | none =>
      simp [Expr.doc, ExprForm.doc, Expr.mentions, ExprForm.mentions, Doc.block, Doc.closing,
        Doc.mentions, Doc.mentions_lines, ihc, mentions_stmts ihb]
    | some stmts =>
      simp [Expr.doc, ExprForm.doc, Expr.mentions, ExprForm.mentions, Doc.block, Doc.closing,
        Doc.mentions, Doc.mentions_lines, ihc, mentions_stmts ihb, mentions_stmts (ihe stmts rfl)]
  case scrutinee arms ty place ihs iha := by
    have ha : (Expr.armDocs arms).flatMap Doc.mentions = Expr.armMentions arms := by
      rw [Expr.armDocs_eq_map, Expr.armMentions_eq_flatMap]
      refine Doc.flatMap_mentions fun a ha => ?_
      simp [Doc.arm, Doc.entry, Doc.mentions, iha a ha, pattern_mentions_steps.all a.1]
    simp [Expr.doc, ExprForm.doc, Expr.mentions, ExprForm.mentions, Doc.mentions,
      Doc.mentions_concat, ihs, ha]
  record name fs ty place ih := by
    have hf : (Expr.fieldDocs fs).flatMap Doc.mentions = Expr.fieldMentions fs := by
      rw [Expr.fieldDocs_eq_map, Expr.fieldMentions_eq_flatMap]
      exact Doc.flatMap_mentions fun f hf => by simp [Doc.field, Doc.mentions, ih f hf]
    simp [Expr.doc, ExprForm.doc, Expr.mentions, ExprForm.mentions, Doc.mentions,
      Doc.mentions_braced, name.mentions_doc, hf]
  list c ty place ih := by
    rw [Expr.doc, ExprForm.doc, Expr.mentions, ExprForm.mentions, Expr.chainDocs_eq_map,
      Expr.chainMentions_eq_map, Doc.mentions_bracketed_map ih]
  map es ty place ih := by
    rw [Expr.doc, ExprForm.doc, Expr.mentions, ExprForm.mentions, Doc.mentions_braced,
      Expr.entryDocs_eq_map, Expr.entryMentions_eq_flatMap]
    refine Doc.flatMap_mentions fun e he => ?_
    simp [Doc.entry, Doc.mentions, (ih e he).1, (ih e he).2]
  value v ty place := v.mentions_doc
  symbol path ty place := path.mentions_doc
  call callee args ty place ih := by
    simp [Expr.doc, ExprForm.doc, Expr.mentions, ExprForm.mentions, Doc.mentions,
      Doc.mentions_separated, callee.mentions_doc, mentions_exprs ih]
  binary op lhs rhs ty place ihl ihr := by
    rw [Expr.doc, ExprForm.doc, Expr.mentions, ExprForm.mentions]
    split <;> simp [Doc.mentions, ihl, ihr]
  unary op operand ty place ih := by
    simp [Expr.doc, ExprForm.doc, Expr.mentions, ExprForm.mentions, Doc.mentions, ih]
  compound exprs ty place ih := by
    rw [Expr.doc, ExprForm.doc, Expr.mentions, ExprForm.mentions, Doc.mentions_separated,
      mentions_exprs ih]
  define name params result body place ih := by
    have hp : (params.map Pattern.doc).flatMap Doc.mentions = params.flatMap Pattern.mentions :=
      Doc.flatMap_mentions fun p _ => pattern_mentions_steps.all p
    simp [Stmt.doc, StmtForm.doc, Stmt.mentions, StmtForm.mentions, Doc.closing, Doc.mentions,
      Doc.mentions_separated, Doc.mentions_typed, Doc.mentions_sequence, hp, mentions_stmts ih]
  recordType name fields place := by
    have hf : (fields.map fun (n, t) => Doc.field n t.doc).flatMap Doc.mentions =
        fields.flatMap fun (n, t) => .word n :: t.mentions :=
      Doc.flatMap_mentions fun f _ => by simp [Doc.field, Doc.mentions, f.2.mentions_doc]
    simp [Stmt.doc, StmtForm.doc, Stmt.mentions, StmtForm.mentions, Doc.mentions,
      Doc.mentions_braced, hf]
  val name init place ih := by
    simp [Stmt.doc, StmtForm.doc, Stmt.mentions, StmtForm.mentions, Doc.mentions, ih]
  module name body place ih := by
    simp [Stmt.doc, StmtForm.doc, Stmt.mentions, StmtForm.mentions, Doc.block, Doc.closing,
      Doc.mentions, Doc.mentions_lines, mentions_stmts ih]
  expr e place ih := ih
  loop p container place ih := by
    simp [Stmt.doc, StmtForm.doc, Stmt.mentions, StmtForm.mentions, Doc.mentions, ih,
      pattern_mentions_steps.all p]

/-- The document of a node mentions the names of the node, in this order. -/
theorem Node.mentions_doc (n : Node) : n.doc.mentions = n.mentions := by
  cases n with
  | value v => exact v.mentions_doc
  | symbol s => exact s.mentions_doc
  | type t => exact t.mentions_doc
  | pattern p => exact pattern_mentions_steps.all p
  | expr e => exact expr_mentions_steps.all e
  | stmt s => exact expr_mentions_steps.allStmts s
  | program p =>
    rw [doc, Program.doc, Doc.mentions_lines,
      mentions_stmts fun s _ => expr_mentions_steps.allStmts s, mentions]
  | exprChain c =>
    rw [doc, mentions, Expr.chainDocs_eq_map, Expr.chainMentions_eq_map]
    exact Doc.mentions_bracketed_map fun e _ => expr_mentions_steps.all e
  | patternChain c =>
    rw [doc, mentions, Pattern.chainDocs_eq_map, Pattern.chainMentions_eq_map]
    exact Doc.mentions_bracketed_map fun p _ => pattern_mentions_steps.all p

theorem Node.names_doc (n : Node) : n.doc.names = n.handles := by
  rw [Doc.names_eq_map, Node.mentions_doc, handles]

end Treeprint
