import Treeprint.Decimal.Literal
import Treeprint.Printer.Doc
import Treeprint.Tree.Expr

/-!
# Documents of trees

The canonical text of every node. All stands on one line except blocks, whose statements stand on
lines of their own one scope deeper, and the arms of a `case`, which start a line each. A binary
operation is always in parentheses, so no text depends on precedence. The type of a pattern is
printed behind it; the type of an expression and all spans are not printed.
-/

namespace Treeprint

/-- An atom's colon is written before its name is looked up. -/
def Value.doc : Value → Doc
  | .str text => .quoted text
  | .unit => .text "()"
  | .int n => .text (toString n.toNat)
  | .float bits => .text (Decimal.floatText bits)
  | .bool b => .text (if b then "true" else "false")
  | .atom text => .text ":" ++ .name text

def Symbol.doc (s : Symbol) : Doc :=
  .concat (s.modules.map fun m => .name m ++ .text ".") ++ .name s.name

def TypeExpr.doc (t : TypeExpr) : Doc :=
  match t.form with
  | .list => .text "list"
  | .map => .text "map"
  | .record name => name.doc
  | .any => .text "any"
  | .prim p => .text p.keyword

namespace Doc

def entry (key value : Doc) : Doc := key ++ .text " => " ++ value

def field (n : Name) (value : Doc) : Doc := .name n ++ .text ": " ++ value

/-- A type, if there is one, behind a mark and what it is the type of. -/
def typed (mark : String) : Option TypeExpr → Doc
  | none => .empty
  | some t => .text mark ++ t.doc

/-- A pattern and the expression that it guards, on a new line. -/
def arm (pattern body : Doc) : Doc :=
  .text "\n" ++ .indent ++ .text "| " ++ entry pattern body

/-- Statements on lines of their own, with a semicolon between them and a line end after the
last. -/
def sequence : List Doc → Doc
  | [] => .empty
  | d :: ds => separated ";\n" ((d :: ds).map (.indent ++ ·)) ++ .text "\n"

/-- The word that closes a block, at the depth at which the block began. -/
def closing : Doc := .indent ++ .text "end"

end Doc

mutual

def Pattern.doc : Pattern → Doc
  | ⟨form, ty, _⟩ => form.doc ++ Doc.typed ": " ty

def PatternForm.doc : PatternForm → Doc
  | .list chain => Doc.bracketed (Pattern.chainDocs chain)
  | .map entries => Doc.braced (Pattern.entryDocs entries)
  | .record name fields => name.doc ++ .text " " ++ Doc.braced (Pattern.fieldDocs fields)
  | .symbol path => path.doc
  | .value literal => literal.doc

def Pattern.chainDocs : Chain Pattern → Chain Doc
  | .element v t => .element v.doc (Pattern.chainDocs t)
  | .last v => .last v.doc
  | .rest t => .rest (Pattern.chainDocs t)
  | .terminator => .terminator

def Pattern.entryDocs : List (Pattern × Pattern) → List Doc
  | [] => []
  | (key, value) :: rest => Doc.entry key.doc value.doc :: Pattern.entryDocs rest

def Pattern.fieldDocs : List (Name × Pattern) → List Doc
  | [] => []
  | (n, p) :: rest => Doc.field n p.doc :: Pattern.fieldDocs rest

end

mutual

def Expr.doc : Expr → Doc
  | ⟨form, _, _⟩ => form.doc

def ExprForm.doc : ExprForm → Doc
  | .ifElse cond body elseBody =>
    .text "if " ++ cond.doc ++ .text " then\n" ++ Doc.block (Stmt.docs body) ++
      (match elseBody with
        | none => .empty
        | some stmts => .indent ++ .text "else\n" ++ Doc.block (Stmt.docs stmts)) ++
      Doc.closing
  | .case scrutinee arms =>
    .text "case " ++ scrutinee.doc ++ .text " of" ++ .scope (.concat (Expr.armDocs arms))
  | .record name fields => name.doc ++ .text " " ++ Doc.braced (Expr.fieldDocs fields)
  | .list chain => Doc.bracketed (Expr.chainDocs chain)
  | .map entries => Doc.braced (Expr.entryDocs entries)
  | .value literal => literal.doc
  | .symbol path => path.doc
  | .call callee args => callee.doc ++ .text "(" ++ Doc.separated ", " (Expr.docs args) ++ .text ")"
  | .binary op lhs rhs =>
    if op = .index then lhs.doc ++ .text "[" ++ rhs.doc ++ .text "]"
    else
      .text "(" ++ lhs.doc ++ .text " " ++ .text op.symbol ++ .text " " ++ rhs.doc ++ .text ")"
  | .unary op operand => .text op.symbol ++ operand.doc
  | .compound exprs => Doc.separated "; " (Expr.docs exprs)

def Expr.docs : List Expr → List Doc
  | [] => []
  | e :: rest => e.doc :: Expr.docs rest

def Expr.armDocs : List (Pattern × Expr) → List Doc
  | [] => []
  | (p, e) :: rest => Doc.arm p.doc e.doc :: Expr.armDocs rest

def Expr.fieldDocs : List (Name × Expr) → List Doc
  | [] => []
  | (n, e) :: rest => Doc.field n e.doc :: Expr.fieldDocs rest

def Expr.chainDocs : Chain Expr → Chain Doc
  | .element v t => .element v.doc (Expr.chainDocs t)
  | .last v => .last v.doc
  | .rest t => .rest (Expr.chainDocs t)
  | .terminator => .terminator

def Expr.entryDocs : List (Expr × Expr) → List Doc
  | [] => []
  | (key, value) :: rest => Doc.entry key.doc value.doc :: Expr.entryDocs rest

def Stmt.doc : Stmt → Doc
  | ⟨form, _⟩ => form.doc

def StmtForm.doc : StmtForm → Doc
  | .define name params result body =>
    .text "def " ++ .name name ++ .text "(" ++ Doc.separated ", " (params.map Pattern.doc) ++
      .text ")" ++ Doc.typed " => " result ++ .text ":\n" ++
      .scope (Doc.sequence (Stmt.docs body)) ++ Doc.closing
  | .record name fields =>
    .text "type " ++ .name name ++ .text " = " ++
      Doc.braced (fields.map fun (n, t) => Doc.field n t.doc)
  | .val name init => .text "val " ++ .name name ++ .text " = " ++ init.doc
  | .module name body =>
    .text "module " ++ .name name ++ .text "\n" ++ Doc.block (Stmt.docs body) ++ Doc.closing
  | .expr e => e.doc
  | .loop pattern container => .text "for " ++ pattern.doc ++ .text " in " ++ container.doc

def Stmt.docs : List Stmt → List Doc
  | [] => []
  | s :: rest => s.doc :: Stmt.docs rest

end

/-! ## The parts one by one -/

theorem Pattern.chainDocs_eq_map (c : Chain Pattern) :
    Pattern.chainDocs c = c.map Pattern.doc := by
  induction c <;> simp_all [Pattern.chainDocs, Chain.map]

theorem Pattern.entryDocs_eq_map (es : List (Pattern × Pattern)) :
    Pattern.entryDocs es = es.map fun (k, v) => Doc.entry k.doc v.doc := by
  induction es <;> simp_all [Pattern.entryDocs]

theorem Pattern.fieldDocs_eq_map (fs : List (Name × Pattern)) :
    Pattern.fieldDocs fs = fs.map fun (n, p) => Doc.field n p.doc := by
  induction fs <;> simp_all [Pattern.fieldDocs]

theorem Expr.docs_eq_map (es : List Expr) : Expr.docs es = es.map Expr.doc := by
  induction es <;> simp_all [Expr.docs]

theorem Expr.armDocs_eq_map (as : List (Pattern × Expr)) :
    Expr.armDocs as = as.map fun (p, e) => Doc.arm p.doc e.doc := by
  induction as <;> simp_all [Expr.armDocs]

theorem Expr.fieldDocs_eq_map (fs : List (Name × Expr)) :
    Expr.fieldDocs fs = fs.map fun (n, e) => Doc.field n e.doc := by
  induction fs <;> simp_all [Expr.fieldDocs]

theorem Expr.chainDocs_eq_map (c : Chain Expr) : Expr.chainDocs c = c.map Expr.doc := by
  induction c <;> simp_all [Expr.chainDocs, Chain.map]

theorem Expr.entryDocs_eq_map (es : List (Expr × Expr)) :
    Expr.entryDocs es = es.map fun (k, v) => Doc.entry k.doc v.doc := by
  induction es <;> simp_all [Expr.entryDocs]

theorem Stmt.docs_eq_map (ss : List Stmt) : Stmt.docs ss = ss.map Stmt.doc := by
  induction ss <;> simp_all [Stmt.docs]

def Program.doc (p : Program) : Doc := Doc.lines (Stmt.docs p.body)

end Treeprint
