import Treeprint.Printer.Render
import Treeprint.Proofs.Induction
import Treeprint.Proofs.Printer.Text

/-!
# The canonical text of a tree

The text of every node as a function of the node and its depth alone (`Node.canonical`), written
down form by form: entries joined by separators, braces and brackets around them, the statements of
a block and the arms of a `case` at the indentation of the next depth. There is no output to append
to, no current depth to restore, and a list is known only by its elements and its rest.

The document of a node has this text (`Node.output_doc`), so that is what printing appends, as long
as the whole text is not too long (`Node.print_ok_iff_canonical`). That each indentation is narrow
enough is not enough for it: the text before it counts too (`Node.not_print_of_widths`).
-/

namespace Treeprint

namespace Text

/-- Entries in braces. -/
def braced : List String → String
  | [] => "\x7b\x7d"
  | ts => "\x7b " ++ ", ".intercalate ts ++ " \x7d"

/-- What is there behind a mark, or nothing. -/
def marked (mark : String) : Option String → String
  | none => ""
  | some t => mark ++ t

/-- The elements of a list and its rest, if it has one, in brackets. -/
def bracketed (elements : List String) (rest : Option String) : String :=
  "[" ++ ", ".intercalate elements ++ marked " :: " rest ++ "]"

/-- Lines that are all indented alike. -/
def block (pad : String) (lines : List String) : String :=
  String.join (lines.map fun line => pad ++ line ++ "\n")

/-- Lines that are all indented alike, with a semicolon between them. -/
def sequence (pad : String) : List String → String
  | [] => ""
  | lines => ";\n".intercalate (lines.map (pad ++ ·)) ++ "\n"

def entry (key value : String) : String := key ++ " => " ++ value

def field (name value : String) : String := name ++ ": " ++ value

end Text

section

variable (ctx : Context)

def Value.canonical : Value → String
  | .str n => Text.quoted (ctx.text n)
  | .unit => "()"
  | .int n => toString n.toNat
  | .float bits => Decimal.floatText bits
  | .bool true => "true"
  | .bool false => "false"
  | .atom n => ":" ++ ctx.text n

def Symbol.canonical (s : Symbol) : String := ".".intercalate (s.segments.map ctx.text)

def TypeExpr.canonical (t : TypeExpr) : String :=
  match t.form with
  | .list => "list"
  | .map => "map"
  | .record name => name.canonical ctx
  | .any => "any"
  | .prim p => p.keyword

mutual

def Pattern.canonical : Pattern → String
  | ⟨form, ty, _⟩ => form.canonical ++ Text.marked ": " (ty.map (TypeExpr.canonical ctx))

def PatternForm.canonical : PatternForm → String
  | .list chain =>
    let texts := Pattern.chainTexts chain
    Text.bracketed texts.elements texts.rest?
  | .map entries => Text.braced (Pattern.entryTexts entries)
  | .record name fields => name.canonical ctx ++ " " ++ Text.braced (Pattern.fieldTexts fields)
  | .symbol path => path.canonical ctx
  | .value literal => literal.canonical ctx

def Pattern.chainTexts : Chain Pattern → Chain String
  | .element v t => .element v.canonical (Pattern.chainTexts t)
  | .last v => .last v.canonical
  | .rest t => .rest (Pattern.chainTexts t)
  | .terminator => .terminator

def Pattern.entryTexts : List (Pattern × Pattern) → List String
  | [] => []
  | (key, value) :: rest => Text.entry key.canonical value.canonical :: Pattern.entryTexts rest

def Pattern.fieldTexts : List (Name × Pattern) → List String
  | [] => []
  | (n, p) :: rest => Text.field (ctx.text n) p.canonical :: Pattern.fieldTexts rest

end

mutual

def Expr.canonical (depth : Nat) : Expr → String
  | ⟨form, _, _⟩ => form.canonical depth

def ExprForm.canonical (depth : Nat) : ExprForm → String
  | .ifElse cond body none =>
    "if " ++ cond.canonical depth ++ " then\n" ++
      Text.block (ctx.pad (depth + 1)) (Stmt.texts (depth + 1) body) ++ ctx.pad depth ++ "end"
  | .ifElse cond body (some stmts) =>
    "if " ++ cond.canonical depth ++ " then\n" ++
      Text.block (ctx.pad (depth + 1)) (Stmt.texts (depth + 1) body) ++ ctx.pad depth ++ "else\n" ++
      Text.block (ctx.pad (depth + 1)) (Stmt.texts (depth + 1) stmts) ++ ctx.pad depth ++ "end"
  | .case scrutinee arms =>
    "case " ++ scrutinee.canonical depth ++ " of" ++
      String.join ((Expr.armTexts (depth + 1) arms).map fun arm =>
        "\n" ++ ctx.pad (depth + 1) ++ "| " ++ arm)
  | .record name fields =>
    name.canonical ctx ++ " " ++ Text.braced (Expr.fieldTexts depth fields)
  | .list chain =>
    let texts := Expr.chainTexts depth chain
    Text.bracketed texts.elements texts.rest?
  | .map entries => Text.braced (Expr.entryTexts depth entries)
  | .value literal => literal.canonical ctx
  | .symbol path => path.canonical ctx
  | .call callee args =>
    callee.canonical ctx ++ "(" ++ ", ".intercalate (Expr.texts depth args) ++ ")"
  | .binary op lhs rhs =>
    if op = .index then lhs.canonical depth ++ "[" ++ rhs.canonical depth ++ "]"
    else "(" ++ lhs.canonical depth ++ " " ++ op.symbol ++ " " ++ rhs.canonical depth ++ ")"
  | .unary op operand => op.symbol ++ operand.canonical depth
  | .compound exprs => "; ".intercalate (Expr.texts depth exprs)

def Expr.texts (depth : Nat) : List Expr → List String
  | [] => []
  | e :: rest => e.canonical depth :: Expr.texts depth rest

def Expr.armTexts (depth : Nat) : List (Pattern × Expr) → List String
  | [] => []
  | (p, e) :: rest =>
    Text.entry (p.canonical ctx) (e.canonical depth) :: Expr.armTexts depth rest

def Expr.fieldTexts (depth : Nat) : List (Name × Expr) → List String
  | [] => []
  | (n, e) :: rest => Text.field (ctx.text n) (e.canonical depth) :: Expr.fieldTexts depth rest

def Expr.chainTexts (depth : Nat) : Chain Expr → Chain String
  | .element v t => .element (v.canonical depth) (Expr.chainTexts depth t)
  | .last v => .last (v.canonical depth)
  | .rest t => .rest (Expr.chainTexts depth t)
  | .terminator => .terminator

def Expr.entryTexts (depth : Nat) : List (Expr × Expr) → List String
  | [] => []
  | (key, value) :: rest =>
    Text.entry (key.canonical depth) (value.canonical depth) :: Expr.entryTexts depth rest

def Stmt.canonical (depth : Nat) : Stmt → String
  | ⟨form, _⟩ => form.canonical depth

def StmtForm.canonical (depth : Nat) : StmtForm → String
  | .define name params result body =>
    "def " ++ ctx.text name ++
      "(" ++ ", ".intercalate (params.map (Pattern.canonical ctx)) ++ ")" ++
      Text.marked " => " (result.map (TypeExpr.canonical ctx)) ++ ":\n" ++
      Text.sequence (ctx.pad (depth + 1)) (Stmt.texts (depth + 1) body) ++ ctx.pad depth ++ "end"
  | .record name fields =>
    "type " ++ ctx.text name ++ " = " ++
      Text.braced (fields.map fun (n, t) => Text.field (ctx.text n) (t.canonical ctx))
  | .val name init => "val " ++ ctx.text name ++ " = " ++ init.canonical depth
  | .module name body =>
    "module " ++ ctx.text name ++ "\n" ++
      Text.block (ctx.pad (depth + 1)) (Stmt.texts (depth + 1) body) ++ ctx.pad depth ++ "end"
  | .expr e => e.canonical depth
  | .loop pattern container =>
    "for " ++ pattern.canonical ctx ++ " in " ++ container.canonical depth

def Stmt.texts (depth : Nat) : List Stmt → List String
  | [] => []
  | s :: rest => s.canonical depth :: Stmt.texts depth rest

end

def Program.canonical (depth : Nat) (p : Program) : String :=
  Text.block (ctx.pad depth) (Stmt.texts ctx depth p.body)

def Node.canonical (depth : Nat) : Node → String
  | .value v => v.canonical ctx
  | .symbol s => s.canonical ctx
  | .type t => t.canonical ctx
  | .pattern p => p.canonical ctx
  | .expr e => e.canonical ctx depth
  | .stmt s => s.canonical ctx depth
  | .program p => p.canonical ctx depth
  | .exprChain c => Text.bracketed (c.elements.map (Expr.canonical ctx depth))
      (c.rest?.map (Expr.canonical ctx depth))
  | .patternChain c => Text.bracketed (c.elements.map (Pattern.canonical ctx))
      (c.rest?.map (Pattern.canonical ctx))

end

/-! ## The parts one by one -/

section

variable {ctx : Context} {depth : Nat}

theorem Pattern.chainTexts_eq_map (c : Chain Pattern) :
    Pattern.chainTexts ctx c = c.map (Pattern.canonical ctx) := by
  induction c <;> simp_all [Pattern.chainTexts, Chain.map]

theorem Pattern.entryTexts_eq_map (es : List (Pattern × Pattern)) :
    Pattern.entryTexts ctx es =
      es.map fun (k, v) => Text.entry (k.canonical ctx) (v.canonical ctx) := by
  induction es <;> simp_all [Pattern.entryTexts]

theorem Pattern.fieldTexts_eq_map (fs : List (Name × Pattern)) :
    Pattern.fieldTexts ctx fs =
      fs.map fun (n, p) => Text.field (ctx.text n) (p.canonical ctx) := by
  induction fs <;> simp_all [Pattern.fieldTexts]

theorem Expr.texts_eq_map (es : List Expr) :
    Expr.texts ctx depth es = es.map (Expr.canonical ctx depth) := by
  induction es <;> simp_all [Expr.texts]

theorem Expr.armTexts_eq_map (as : List (Pattern × Expr)) :
    Expr.armTexts ctx depth as =
      as.map fun (p, e) => Text.entry (p.canonical ctx) (e.canonical ctx depth) := by
  induction as <;> simp_all [Expr.armTexts]

theorem Expr.fieldTexts_eq_map (fs : List (Name × Expr)) :
    Expr.fieldTexts ctx depth fs =
      fs.map fun (n, e) => Text.field (ctx.text n) (e.canonical ctx depth) := by
  induction fs <;> simp_all [Expr.fieldTexts]

theorem Expr.chainTexts_eq_map (c : Chain Expr) :
    Expr.chainTexts ctx depth c = c.map (Expr.canonical ctx depth) := by
  induction c <;> simp_all [Expr.chainTexts, Chain.map]

theorem Expr.entryTexts_eq_map (es : List (Expr × Expr)) :
    Expr.entryTexts ctx depth es =
      es.map fun (k, v) => Text.entry (k.canonical ctx depth) (v.canonical ctx depth) := by
  induction es <;> simp_all [Expr.entryTexts]

theorem Stmt.texts_eq_map (ss : List Stmt) :
    Stmt.texts ctx depth ss = ss.map (Stmt.canonical ctx depth) := by
  induction ss <;> simp_all [Stmt.texts]

end

/-! ## The layouts of documents -/

theorem Text.intercalate_cons (sep t : String) (ts : List String) :
    sep.intercalate (t :: ts) = t ++ String.join (ts.map (sep ++ ·)) := by
  induction ts generalizing t with
  | nil => simp
  | cons u us ih =>
    rw [String.intercalate_cons_cons, ih, List.map_cons, String.join_cons]
    simp only [String.append_assoc]

theorem Text.intercalate_concat (sep : String) (ts : List String) (t : String) :
    sep.intercalate (ts ++ [t]) = String.join (ts.map (· ++ sep)) ++ t := by
  induction ts with
  | nil => simp
  | cons u us ih =>
    rw [List.cons_append, String.intercalate_cons_of_ne_nil (by simp), ih, List.map_cons,
      String.join_cons]
    simp only [String.append_assoc]

namespace Doc

variable {ctx : Context} {depth : Nat}

@[simp] theorem output_append (a b : Doc) :
    (a ++ b).output ctx depth = a.output ctx depth ++ b.output ctx depth := rfl

theorem output_concat (ds : List Doc) :
    (concat ds).output ctx depth = String.join (ds.map (output ctx · depth)) := by
  induction ds with
  | nil => rfl
  | cons d ds ih => simp [concat, ih]

theorem output_separatedTail (sep : String) (ds : List Doc) :
    (separatedTail sep ds).output ctx depth =
      String.join ((ds.map (output ctx · depth)).map (sep ++ ·)) := by
  induction ds with
  | nil => rfl
  | cons d ds ih => simp [separatedTail, ih, output, String.append_assoc]

theorem output_separated (sep : String) (ds : List Doc) :
    (separated sep ds).output ctx depth = sep.intercalate (ds.map (output ctx · depth)) := by
  cases ds with
  | nil => rfl
  | cons d ds =>
    rw [separated, output_append, output_separatedTail, List.map_cons, Text.intercalate_cons]

theorem output_braced (ds : List Doc) :
    (braced ds).output ctx depth = Text.braced (ds.map (output ctx · depth)) := by
  cases ds with
  | nil => rfl
  | cons d ds =>
    rw [braced, output_append, output_append, output_separated]
    rfl

theorem output_lines (ds : List Doc) :
    (lines ds).output ctx depth = Text.block (ctx.pad depth) (ds.map (output ctx · depth)) := by
  induction ds with
  | nil => rfl
  | cons d ds ih =>
    simp only [lines, output_append, ih, Text.block, List.map_cons, String.join_cons]
    rfl

theorem output_sequence (ds : List Doc) :
    (sequence ds).output ctx depth =
      Text.sequence (ctx.pad depth) (ds.map (output ctx · depth)) := by
  cases ds with
  | nil => rfl
  | cons d ds =>
    rw [sequence, output_append, output_separated, List.map_map]
    simp only [Text.sequence, List.map_cons, List.map_map]
    rfl

theorem output_walk_false (c : Chain Doc) :
    (walk false c).output ctx depth =
      String.join ((c.elements.map (output ctx · depth)).map (", " ++ ·)) ++
        Text.marked " :: " (c.rest?.map (output ctx · depth)) := by
  induction c with
  | element v t ih => simp [walk, ih, Chain.elements, Chain.rest?, output, String.append_assoc]
  | last v => simp [walk, Chain.elements, Chain.rest?, output, Text.marked]
  | rest t =>
    cases t <;> simp [walk, Chain.elements, Chain.rest?, Chain.value?, output, Text.marked]
  | terminator => rfl

theorem output_bracketed (c : Chain Doc) :
    (bracketed c).output ctx depth =
      Text.bracketed (c.elements.map (output ctx · depth))
        (c.rest?.map (output ctx · depth)) := by
  cases c with
  | element v t =>
    simp only [bracketed, walk, output_append, output_walk_false, Text.bracketed, Chain.elements,
      Chain.rest?, List.map_cons, Text.intercalate_cons]
    simp [output, String.append_assoc]
  | last v =>
    simp [bracketed, walk, output, Text.bracketed, Text.marked, Chain.elements, Chain.rest?]
  | rest t =>
    cases t <;> simp [bracketed, walk, output, Text.bracketed, Text.marked, Chain.elements,
      Chain.rest?, Chain.value?]
  | terminator => rfl

theorem output_bracketed_map {α : Type} {f : α → Doc} {g : α → String} {c : Chain α}
    (h : ∀ x, some x ∈ c.slots → (f x).output ctx depth = g x) :
    (bracketed (c.map f)).output ctx depth = Text.bracketed (c.elements.map g) (c.rest?.map g) := by
  have he : (c.elements.map f).map (output ctx · depth) = c.elements.map g := by
    rw [List.map_map]
    exact List.map_congr_left fun x hx => h x (Chain.mem_slots_of_mem_elements hx)
  have hr : (c.rest?.map f).map (output ctx · depth) = c.rest?.map g := by
    rw [Option.map_map]
    exact Option.map_congr fun x hx => h x (Chain.mem_slots_of_rest? hx)
  rw [output_bracketed, Chain.elements_map, Chain.rest?_map, he, hr]

end Doc

/-! ## The text of a tree's document -/

section

variable (ctx : Context)

theorem Value.output_doc (v : Value) (depth : Nat) :
    v.doc.output ctx depth = v.canonical ctx := by
  cases v with
  | bool b => cases b <;> rfl
  | _ => rfl

theorem Symbol.output_doc (s : Symbol) (depth : Nat) :
    s.doc.output ctx depth = s.canonical ctx := by
  rw [doc, Doc.output_append, Doc.output_concat, canonical, segments, List.map_append,
    List.map_singleton, Text.intercalate_concat, List.map_map, List.map_map]
  rfl

theorem TypeExpr.output_doc (t : TypeExpr) (depth : Nat) :
    t.doc.output ctx depth = t.canonical ctx := by
  obtain ⟨form, _⟩ := t
  cases form with
  | record name => exact name.output_doc ctx depth
  | _ => rfl

theorem Doc.output_typed (mark : String) (ty : Option TypeExpr) (depth : Nat) :
    (Doc.typed mark ty).output ctx depth = Text.marked mark (ty.map (TypeExpr.canonical ctx)) := by
  cases ty with
  | none => rfl
  | some t => exact congrArg (mark ++ ·) (t.output_doc ctx depth)

theorem Pattern.output_of_form (form : PatternForm) (ty : Option TypeExpr) (place : Span)
    (depth : Nat) (h : form.doc.output ctx depth = form.canonical ctx) :
    (Pattern.doc ⟨form, ty, place⟩).output ctx depth = Pattern.canonical ctx ⟨form, ty, place⟩ := by
  rw [Pattern.doc, Pattern.canonical, Doc.output_append, h, Doc.output_typed]

theorem pattern_output_steps :
    Pattern.Steps fun p => ∀ depth, p.doc.output ctx depth = p.canonical ctx where
  list c ty place ih depth := by
    refine Pattern.output_of_form ctx _ ty place depth ?_
    rw [PatternForm.doc, PatternForm.canonical, Pattern.chainDocs_eq_map,
      Pattern.chainTexts_eq_map, Doc.output_bracketed_map fun p hp => ih p hp depth]
    simp only [Chain.elements_map, Chain.rest?_map]
  map es ty place ih depth := by
    refine Pattern.output_of_form ctx _ ty place depth ?_
    rw [PatternForm.doc, PatternForm.canonical, Doc.output_braced, Pattern.entryDocs_eq_map,
      Pattern.entryTexts_eq_map, List.map_map]
    congr 1
    refine List.map_congr_left fun e he => ?_
    simp [Doc.entry, Text.entry, Doc.output, (ih e he).1, (ih e he).2]
  record name fs ty place ih depth := by
    refine Pattern.output_of_form ctx _ ty place depth ?_
    rw [PatternForm.doc, PatternForm.canonical, Doc.output_append, Doc.output_append,
      Doc.output_braced, Pattern.fieldDocs_eq_map, Pattern.fieldTexts_eq_map, List.map_map,
      name.output_doc]
    congr 2
    refine List.map_congr_left fun f hf => ?_
    simp [Doc.field, Text.field, Doc.output, ih f hf]
  symbol path ty place depth :=
    Pattern.output_of_form ctx _ ty place depth (path.output_doc ctx depth)
  value v ty place depth :=
    Pattern.output_of_form ctx _ ty place depth (v.output_doc ctx depth)

theorem output_stmts {ss : List Stmt}
    (h : ∀ s ∈ ss, ∀ depth, s.doc.output ctx depth = s.canonical ctx depth) (depth : Nat) :
    (Stmt.docs ss).map (Doc.output ctx · depth) = Stmt.texts ctx depth ss := by
  rw [Stmt.docs_eq_map, Stmt.texts_eq_map, List.map_map]
  exact List.map_congr_left fun s hs => h s hs depth

theorem output_exprs {es : List Expr}
    (h : ∀ e ∈ es, ∀ depth, e.doc.output ctx depth = e.canonical ctx depth) (depth : Nat) :
    (Expr.docs es).map (Doc.output ctx · depth) = Expr.texts ctx depth es := by
  rw [Expr.docs_eq_map, Expr.texts_eq_map, List.map_map]
  exact List.map_congr_left fun e he => h e he depth

theorem expr_output_steps : Expr.Steps
    (fun e => ∀ depth, e.doc.output ctx depth = e.canonical ctx depth)
    (fun s => ∀ depth, s.doc.output ctx depth = s.canonical ctx depth) where
  ifElse cond body elseBody ty place ihc ihb ihe depth := by
    have hb := output_stmts ctx ihb
    cases elseBody with
    | none =>
      simp [Expr.doc, ExprForm.doc, Expr.canonical, ExprForm.canonical, Doc.block, Doc.closing,
        Doc.output, Doc.output_lines, ihc, hb, String.append_assoc]
    | some stmts =>
      have hs := output_stmts ctx (ihe stmts rfl)
      simp [Expr.doc, ExprForm.doc, Expr.canonical, ExprForm.canonical, Doc.block, Doc.closing,
        Doc.output, Doc.output_lines, ihc, hb, hs, String.append_assoc]
  case scrutinee arms ty place ihs iha depth := by
    have ha : (Expr.armDocs arms).map (Doc.output ctx · (depth + 1)) =
        (Expr.armTexts ctx (depth + 1) arms).map
          fun arm => "\n" ++ ctx.pad (depth + 1) ++ "| " ++ arm := by
      rw [Expr.armDocs_eq_map, Expr.armTexts_eq_map, List.map_map, List.map_map]
      refine List.map_congr_left fun a ha => ?_
      simp [Doc.arm, Doc.entry, Text.entry, Doc.output, iha a ha,
        (pattern_output_steps ctx).all a.1, String.append_assoc]
    simp [Expr.doc, ExprForm.doc, Expr.canonical, ExprForm.canonical, Doc.output,
      Doc.output_concat, ihs, ha]
  record name fs ty place ih depth := by
    show (ExprForm.record name fs).doc.output ctx depth = _
    rw [ExprForm.doc, Doc.output_append, Doc.output_append, Doc.output_braced,
      Expr.fieldDocs_eq_map, List.map_map, name.output_doc, Expr.canonical, ExprForm.canonical,
      Expr.fieldTexts_eq_map]
    congr 2
    refine List.map_congr_left fun f hf => ?_
    simp [Doc.field, Text.field, Doc.output, ih f hf]
  list c ty place ih depth := by
    show (ExprForm.list c).doc.output ctx depth = _
    rw [ExprForm.doc, Expr.chainDocs_eq_map, Doc.output_bracketed_map fun e he => ih e he depth,
      Expr.canonical, ExprForm.canonical, Expr.chainTexts_eq_map]
    simp only [Chain.elements_map, Chain.rest?_map]
  map es ty place ih depth := by
    show (ExprForm.map es).doc.output ctx depth = _
    rw [ExprForm.doc, Doc.output_braced, Expr.entryDocs_eq_map, List.map_map, Expr.canonical,
      ExprForm.canonical, Expr.entryTexts_eq_map]
    congr 1
    refine List.map_congr_left fun e he => ?_
    simp [Doc.entry, Text.entry, Doc.output, (ih e he).1, (ih e he).2]
  value v ty place depth := v.output_doc ctx depth
  symbol path ty place depth := path.output_doc ctx depth
  call callee args ty place ih depth := by
    simp [Expr.doc, ExprForm.doc, Expr.canonical, ExprForm.canonical, Doc.output,
      Doc.output_separated, callee.output_doc, output_exprs ctx ih]
  binary op lhs rhs ty place ihl ihr depth := by
    rw [Expr.doc, ExprForm.doc, Expr.canonical, ExprForm.canonical]
    split <;> simp [Doc.output, ihl, ihr]
  unary op operand ty place ih depth := by
    simp [Expr.doc, ExprForm.doc, Expr.canonical, ExprForm.canonical, Doc.output, ih]
  compound exprs ty place ih depth := by
    simp [Expr.doc, ExprForm.doc, Expr.canonical, ExprForm.canonical, Doc.output_separated,
      output_exprs ctx ih]
  define name params result body place ih depth := by
    have hp : (params.map Pattern.doc).map (Doc.output ctx · depth) =
        params.map (Pattern.canonical ctx) := by
      rw [List.map_map]
      exact List.map_congr_left fun p _ => (pattern_output_steps ctx).all p depth
    simp [Stmt.doc, StmtForm.doc, Stmt.canonical, StmtForm.canonical, Doc.closing, Doc.output,
      Doc.output_separated, Doc.output_typed, Doc.output_sequence, hp, output_stmts ctx ih,
      String.append_assoc]
  recordType name fields place depth := by
    have hf : (fields.map fun (n, t) => Doc.field n t.doc).map (Doc.output ctx · depth) =
        fields.map fun (n, t) => Text.field (ctx.text n) (t.canonical ctx) := by
      rw [List.map_map]
      refine List.map_congr_left fun f _ => ?_
      simp [Doc.field, Text.field, Doc.output, f.2.output_doc]
    simp [Stmt.doc, StmtForm.doc, Stmt.canonical, StmtForm.canonical, Doc.output,
      Doc.output_braced, hf]
  val name init place ih depth := by
    simp [Stmt.doc, StmtForm.doc, Stmt.canonical, StmtForm.canonical, Doc.output, ih]
  module name body place ih depth := by
    simp [Stmt.doc, StmtForm.doc, Stmt.canonical, StmtForm.canonical, Doc.block, Doc.closing,
      Doc.output, Doc.output_lines, output_stmts ctx ih, String.append_assoc]
  expr e place ih depth := by
    simp [Stmt.doc, StmtForm.doc, Stmt.canonical, StmtForm.canonical, ih]
  loop p container place ih depth := by
    simp [Stmt.doc, StmtForm.doc, Stmt.canonical, StmtForm.canonical, Doc.output, ih,
      (pattern_output_steps ctx).all p]

/-- The document of a node has the node's canonical text. -/
theorem Node.output_doc (n : Node) (depth : Nat) :
    n.doc.output ctx depth = n.canonical ctx depth := by
  cases n with
  | value v => exact v.output_doc ctx depth
  | symbol s => exact s.output_doc ctx depth
  | type t => exact t.output_doc ctx depth
  | pattern p => exact (pattern_output_steps ctx).all p depth
  | expr e => exact (expr_output_steps ctx).all e depth
  | stmt s => exact (expr_output_steps ctx).allStmts s depth
  | program p =>
    rw [doc, Program.doc, Doc.output_lines,
      output_stmts ctx fun s _ => (expr_output_steps ctx).allStmts s]
    rfl
  | exprChain c =>
    rw [doc, Expr.chainDocs_eq_map]
    exact Doc.output_bracketed_map fun e _ => (expr_output_steps ctx).all e depth
  | patternChain c =>
    rw [doc, Pattern.chainDocs_eq_map]
    exact Doc.output_bracketed_map fun p _ => (pattern_output_steps ctx).all p depth

end

/-- A node that renders at all renders to its canonical text at depth 0. -/
theorem Node.render_ok_iff (ctx : Context) (n : Node) (s : String) :
    n.render ctx = .ok s ↔ n.doc.Printable ctx 0 0 ∧ s = n.canonical ctx 0 := by
  rw [render, Doc.toText_ok_iff, Node.output_doc]

/-- Where the canonical text fits behind what was written, printing a node succeeds exactly if its
names were issued, and then it appends the canonical text. -/
theorem Node.print_ok_iff_canonical (ctx : Context) (n : Node) (k : Sink)
    (hfits : k.Fits (n.canonical ctx k.depth)) (k' : Sink) :
    n.doc.print ctx k = .ok () k' ↔
      (∀ m ∈ n.doc.names, ctx.Issued m) ∧
      k' = k.wrote (n.canonical ctx k.depth) (n.doc.events k.depth) := by
  rw [← Node.output_doc] at hfits
  rw [Doc.print_ok_iff, Node.output_doc]
  exact and_congr_left fun _ =>
    ⟨fun h => h.issued, fun h => Doc.printable_of_space h hfits.lt_limit⟩

/-- A module at depth 1, behind a text. The `if` in it opens a scope of its own, and after it the
indentation is again that of the module. -/
theorem Node.print_ok_iff_canonical_nested :
    let ctx : Context := ⟨⟨(∅ : Std.HashMap String Name).insert "x" ⟨0⟩, #["x"]⟩, 2⟩
    let x : Expr := .ofForm (.symbol (.unqualified ⟨0⟩))
    let choice : Expr := .ofForm (.ifElse x [.ofForm (.expr x)] none)
    let n : Node := .stmt (.ofForm (.module ⟨0⟩ [.ofForm (.val ⟨0⟩ choice), .ofForm (.expr x)]))
    let k : Sink := ⟨1, "val x = 1\n  ", #[]⟩
    k.Fits (n.canonical ctx 1) ∧ n.doc.print ctx k = .ok () (k.wrote
      "module x\n    val x = if x then\n      x\n    end\n    x\n  end" (n.doc.events 1)) := by
  intro ctx x choice n k
  have htext : n.canonical ctx 1 =
      "module x\n    val x = if x then\n      x\n    end\n    x\n  end" := by decide
  have hfits : k.Fits (n.canonical ctx 1) := by
    rw [htext]
    decide
  have hissued : ∀ m ∈ n.doc.names, ctx.Issued m := by decide
  refine ⟨hfits, (Node.print_ok_iff_canonical ctx n k hfits _).mpr ⟨hissued, ?_⟩⟩
  rw [htext]

/-- The depths at which a document writes indentation. -/
def Doc.depths : Doc → Nat → List Nat
  | .indent, depth => [depth]
  | .append a b, depth => a.depths depth ++ b.depths depth
  | .scope d, depth => d.depths (depth + 1)
  | _, _ => []

/-- The widths alone do not decide it. Behind the nine bytes of `module x` and its line end there
is no space left for an indentation that is nine less wide than the limit. -/
theorem Node.not_print_of_widths : ¬ ∀ (ctx : Context) (n : Node) (k : Sink),
    (∀ m ∈ n.doc.names, ctx.Issued m) →
    (∀ depth ∈ n.doc.depths k.depth, depth * ctx.indentSize < Text.limit) →
    n.doc.print ctx k = .ok () (k.wrote (n.canonical ctx k.depth) (n.doc.events k.depth)) := by
  intro h
  let ctx : Context := ⟨⟨(∅ : Std.HashMap String Name).insert "x" ⟨0⟩, #["x"]⟩, Text.limit - 9⟩
  let one : Stmt := .ofForm (.expr (.ofForm (.value (.int 1))))
  let n : Node := .stmt (.ofForm (.module ⟨0⟩ [one]))
  have hn : ∀ m ∈ n.doc.names, ctx.Issued m := by
    decide
  have hw : ∀ depth ∈ n.doc.depths 0, depth * ctx.indentSize < Text.limit := by decide
  have hp := ((Doc.print_ok_iff _ _ _).mp (h ctx n {} hn hw)).1.extents_lt
  exact absurd (hp Text.limit (by decide)) (by decide)

end Treeprint
