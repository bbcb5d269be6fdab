import Treeprint.Datum
import Treeprint.Tree.Node

/-!
# Trees as data

The rendition of every node as plain data: all that it holds, in a fixed order and under fixed
labels. The alternatives of each form are numbered in the order of their constructors.
-/

namespace Treeprint

def Value.datum : Value → Datum
  | .str text => .variant "Str" 0 [.handle text]
  | .unit => .variant "Unit" 1 []
  | .int n => .variant "Int" 2 [.word n]
  | .float bits => .variant "Float" 3 [.word bits]
  | .bool b => .variant "Bool" 4 [.flag b]
  | .atom text => .variant "Atom" 5 [.handle text]

def Symbol.datum (s : Symbol) : Datum :=
  .record ⟨"SymbolRef", none⟩ [("modules", .seq (s.modules.map .handle)), ("name", .handle s.name)]

def PrimType.datum (p : PrimType) : Datum := .variant p.label p.tag []

def TypeForm.datum : TypeForm → Datum
  | .list => .variant "List" 0 []
  | .map => .variant "Map" 1 []
  | .record name => .variant "Record" 2 [name.datum]
  | .any => .variant "Any" 3 []
  | .prim p => .variant "Prim" 4 [p.datum]

def TypeExpr.datum (t : TypeExpr) : Datum :=
  .record ⟨"Type", none⟩ [("kind", t.form.datum), ("span", .span t.span)]

def BinaryOp.datum (op : BinaryOp) : Datum := .variant op.label op.tag []

def UnaryOp.datum (op : UnaryOp) : Datum := .variant op.label op.tag []

def Chain.datum (c : Chain Datum) : Datum := .chain (c.slots.map Datum.ofOption)

namespace Datum

def ofType (ty : Option TypeExpr) : Datum := ofOption (ty.map TypeExpr.datum)

/-- A pair under the labels of its two parts. -/
def pair (label first second : String) (a b : Datum) : Datum :=
  record ⟨label, none⟩ [(first, a), (second, b)]

def body (stmts : List Datum) : Datum := tuple ⟨"Body", none⟩ [seq stmts]

end Datum

mutual

def Pattern.datum : Pattern → Datum
  | ⟨form, ty, span⟩ =>
    .record ⟨"Pat", none⟩ [("kind", form.datum), ("ty", .ofType ty), ("span", .span span)]

def PatternForm.datum : PatternForm → Datum
  | .list chain => .variant "List" 0 [(Pattern.chainData chain).datum]
  | .map entries => .variant "Map" 1 [.seq (Pattern.entryData entries)]
  | .record name fields =>
    .variantRecord "Record" 2 [("name", name.datum), ("fields", .seq (Pattern.fieldData fields))]
  | .symbol path => .variant "Symbol" 3 [path.datum]
  | .value literal => .variant "Value" 4 [literal.datum]

def Pattern.chainData : Chain Pattern → Chain Datum
  | .element v t => .element v.datum (Pattern.chainData t)
  | .last v => .last v.datum
  | .rest t => .rest (Pattern.chainData t)
  | .terminator => .terminator

def Pattern.entryData : List (Pattern × Pattern) → List Datum
  | [] => []
  | (key, value) :: rest =>
    .pair "MapPatEntry" "key" "value" key.datum value.datum :: Pattern.entryData rest

def Pattern.fieldData : List (Name × Pattern) → List Datum
  | [] => []
  | (n, p) :: rest =>
    .pair "FieldPat" "name" "pattern" (.handle n) p.datum :: Pattern.fieldData rest

end

mutual

def Expr.datum : Expr → Datum
  | ⟨form, ty, span⟩ =>
    .record ⟨"Expr", none⟩ [("kind", form.datum), ("ty", .ofType ty), ("span", .span span)]

def ExprForm.datum : ExprForm → Datum
  | .ifElse cond body elseBody =>
    .variantRecord "IfElse" 0
      [("cond", cond.datum), ("body", .body (Stmt.data body)),
        ("else_body", match elseBody with
          | none => .absent
          | some stmts => .present (.body (Stmt.data stmts)))]
  | .case scrutinee arms =>
    .variantRecord "Case" 1 [("scrutinee", scrutinee.datum), ("arms", .seq (Expr.armData arms))]
  | .record name fields =>
    .variantRecord "Record" 2 [("name", name.datum), ("fields", .seq (Expr.fieldData fields))]
  | .list chain => .variant "List" 3 [(Expr.chainData chain).datum]
  | .map entries => .variant "Map" 4 [.seq (Expr.entryData entries)]
  | .value literal => .variant "Value" 5 [literal.datum]
  | .symbol path => .variant "Symbol" 6 [path.datum]
  | .call callee args =>
    .variantRecord "Call" 7 [("callee", callee.datum), ("args", .seq (Expr.data args))]
  | .binary op lhs rhs =>
    .variantRecord "Binary" 8 [("op", op.datum), ("lhs", lhs.datum), ("rhs", rhs.datum)]
  | .unary op operand => .variantRecord "Unary" 9 [("op", op.datum), ("operand", operand.datum)]
  | .compound exprs => .variant "Compound" 10 [.seq (Expr.data exprs)]

def Expr.data : List Expr → List Datum
  | [] => []
  | e :: rest => e.datum :: Expr.data rest

def Expr.armData : List (Pattern × Expr) → List Datum
  | [] => []
  | (p, e) :: rest => .pair "CaseArm" "pattern" "body" p.datum e.datum :: Expr.armData rest

def Expr.fieldData : List (Name × Expr) → List Datum
  | [] => []
  | (n, e) :: rest => .pair "FieldInit" "name" "value" (.handle n) e.datum :: Expr.fieldData rest

def Expr.chainData : Chain Expr → Chain Datum
  | .element v t => .element v.datum (Expr.chainData t)
  | .last v => .last v.datum
  | .rest t => .rest (Expr.chainData t)
  | .terminator => .terminator

def Expr.entryData : List (Expr × Expr) → List Datum
  | [] => []
  | (key, value) :: rest =>
    .pair "MapEntry" "key" "value" key.datum value.datum :: Expr.entryData rest

def Stmt.datum : Stmt → Datum
  | ⟨form, span⟩ => .pair "Stmt" "kind" "span" form.datum (.span span)

def StmtForm.datum : StmtForm → Datum
  | .define name params result body =>
    .variant "Def" 0
      [.record ⟨"Function", none⟩
        [("name", .handle name), ("params", .seq (params.map Pattern.datum)),
          ("return_ty", .ofType result), ("body", .body (Stmt.data body))]]
  | .record name fields =>
    .variant "Record" 1
      [.pair "RecordDecl" "name" "fields" (.handle name)
        (.seq (fields.map fun (n, t) => .pair "RecordField" "name" "ty" (.handle n) t.datum))]
  | .val name init => .variantRecord "Val" 2 [("name", .handle name), ("init", init.datum)]
  | .module name body =>
    .variant "Module" 3
      [.pair "ModuleDecl" "name" "body" (.handle name) (.body (Stmt.data body))]
  | .expr e => .variant "Expr" 4 [e.datum]
  | .loop pattern container =>
    .variantRecord "For" 5 [("pattern", pattern.datum), ("container", container.datum)]

def Stmt.data : List Stmt → List Datum
  | [] => []
  | s :: rest => s.datum :: Stmt.data rest

end

/-! ## The parts one by one -/

theorem Pattern.chainData_eq_map (c : Chain Pattern) :
    Pattern.chainData c = c.map Pattern.datum := by
  induction c <;> simp_all [Pattern.chainData, Chain.map]

theorem Pattern.entryData_eq_map (es : List (Pattern × Pattern)) :
    Pattern.entryData es =
      es.map fun (k, v) => .pair "MapPatEntry" "key" "value" k.datum v.datum := by
  induction es <;> simp_all [Pattern.entryData]

theorem Pattern.fieldData_eq_map (fs : List (Name × Pattern)) :
    Pattern.fieldData fs =
      fs.map fun (n, p) => .pair "FieldPat" "name" "pattern" (.handle n) p.datum := by
  induction fs <;> simp_all [Pattern.fieldData]

theorem Expr.data_eq_map (es : List Expr) : Expr.data es = es.map Expr.datum := by
  induction es <;> simp_all [Expr.data]

theorem Expr.armData_eq_map (as : List (Pattern × Expr)) :
    Expr.armData as = as.map fun (p, e) => .pair "CaseArm" "pattern" "body" p.datum e.datum := by
  induction as <;> simp_all [Expr.armData]

theorem Expr.fieldData_eq_map (fs : List (Name × Expr)) :
    Expr.fieldData fs =
      fs.map fun (n, e) => .pair "FieldInit" "name" "value" (.handle n) e.datum := by
  induction fs <;> simp_all [Expr.fieldData]

theorem Expr.chainData_eq_map (c : Chain Expr) : Expr.chainData c = c.map Expr.datum := by
  induction c <;> simp_all [Expr.chainData, Chain.map]

theorem Expr.entryData_eq_map (es : List (Expr × Expr)) :
    Expr.entryData es = es.map fun (k, v) => .pair "MapEntry" "key" "value" k.datum v.datum := by
  induction es <;> simp_all [Expr.entryData]

theorem Stmt.data_eq_map (ss : List Stmt) : Stmt.data ss = ss.map Stmt.datum := by
  induction ss <;> simp_all [Stmt.data]

def Program.datum (p : Program) : Datum :=
  .record ⟨"Program", none⟩ [("body", .body (Stmt.data p.body))]

def Node.datum : Node → Datum
  | .value v => v.datum
  | .symbol s => s.datum
  | .type t => t.datum
  | .pattern p => p.datum
  | .expr e => e.datum
  | .stmt s => s.datum
  | .program p => p.datum
  | .exprChain c => (Expr.chainData c).datum
  | .patternChain c => (Pattern.chainData c).datum

end Treeprint
