import Treeprint.Tree.Datum
import Treeprint.Wire.Encode
import Treeprint.Wire.Reader

/-!
# Trees as bytes

The bytes of a node, and the readers that give nodes back. The readers of nested trees take fuel,
one unit per level of nesting; as every level takes at least one byte of its own, the length of the
input is enough.
-/

namespace Treeprint

def Node.encode (n : Node) : List UInt8 := n.datum.encode

namespace Wire

open Reader

variable (room : Nat)

def value : Reader Value :=
  choice
    [return .str (← name),
      return .unit,
      return .int (← u64),
      return .float (← u64),
      return .bool (← flag),
      return .atom (← name)]

def modules : Reader (List Name) := do
  let n := (← u64).toNat
  reserve room n
  items name n

def symbol : Reader Symbol := do
  let path ← modules room
  let last ← name
  return ⟨path, last⟩

def typeForm : Reader TypeForm :=
  choice
    [return .list,
      return .map,
      return .record (← symbol room),
      return .any,
      return .prim (← oneOf PrimType.all)]

def typeExpr : Reader TypeExpr := do
  let form ← typeForm room
  let place ← span
  return ⟨form, place⟩

/-- A chain of at most `fuel` nodes. -/
def chain {α : Type} (item : Reader α) : Nat → Reader (Chain α)
  | 0 => throw .endOfInput
  | fuel + 1 => do
    let slot ← optional item
    if ← mark then return .ofParts slot (some (← chain item fuel))
    else return .ofParts slot none

def pair {α β : Type} (first : Reader α) (second : Reader β) : Reader (α × β) := do
  let a ← first
  let b ← second
  return (a, b)

/-- A pattern's form, given the reader of the patterns within it. -/
def patternForm (pattern : Reader Pattern) (fuel : Nat) : Reader PatternForm :=
  choice
    [return .list (← chain pattern fuel),
      return .map (← seq (pair pattern pattern)),
      do
        let path ← symbol room
        let fields ← seq (pair name pattern)
        return .record path fields,
      return .symbol (← symbol room),
      return .value (← value)]

def pattern : Nat → Reader Pattern
  | 0 => throw .endOfInput
  | fuel + 1 => do
    let form ← patternForm room (pattern fuel) fuel
    let ty ← optional (typeExpr room)
    let place ← span
    return ⟨form, ty, place⟩

def exprForm (pattern : Reader Pattern) (expr : Reader Expr) (stmt : Reader Stmt) (fuel : Nat) :
    Reader ExprForm :=
  choice
    [do
        let cond ← expr
        let body ← seq stmt
        let elseBody ← optional (seq stmt)
        return .ifElse cond body elseBody,
      do
        let scrutinee ← expr
        let arms ← seq (pair pattern expr)
        return .case scrutinee arms,
      do
        let path ← symbol room
        let fields ← seq (pair name expr)
        return .record path fields,
      return .list (← chain expr fuel),
      return .map (← seq (pair expr expr)),
      return .value (← value),
      return .symbol (← symbol room),
      do
        let callee ← symbol room
        let args ← seq expr
        return .call callee args,
      do
        let op ← oneOf BinaryOp.all
        let lhs ← expr
        let rhs ← expr
        return .binary op lhs rhs,
      do
        let op ← oneOf UnaryOp.all
        let operand ← expr
        return .unary op operand,
      return .compound (← seq expr)]

def stmtForm (pattern : Reader Pattern) (expr : Reader Expr) (stmt : Reader Stmt) :
    Reader StmtForm :=
  choice
    [do
        let n ← name
        let params ← seq pattern
        let result ← optional (typeExpr room)
        let body ← seq stmt
        return .define n params result body,
      do
        let n ← name
        let fields ← seq (pair name (typeExpr room))
        return .record n fields,
      do
        let n ← name
        let init ← expr
        return .val n init,
      do
        let n ← name
        let body ← seq stmt
        return .module n body,
      return .expr (← expr),
      do
        let p ← pattern
        let container ← expr
        return .loop p container]

mutual

def expr : Nat → Reader Expr
  | 0 => throw .endOfInput
  | fuel + 1 => do
    let form ← exprForm room (pattern room fuel) (expr fuel) (stmt fuel) fuel
    let ty ← optional (typeExpr room)
    let place ← span
    return ⟨form, ty, place⟩

def stmt : Nat → Reader Stmt
  | 0 => throw .endOfInput
  | fuel + 1 => do
    let form ← stmtForm room (pattern room fuel) (expr fuel) (stmt fuel)
    let place ← span
    return ⟨form, place⟩

end

def node (fuel : Nat) : Family → Reader Node
  | .value => return .value (← value)
  | .symbol => return .symbol (← symbol room)
  | .type => return .type (← typeExpr room)
  | .pattern => return .pattern (← pattern room fuel)
  | .expr => return .expr (← expr room fuel)
  | .stmt => return .stmt (← stmt room fuel)
  | .program => return .program ⟨← seq (stmt room fuel)⟩
  | .exprChain => return .exprChain (← chain (expr room fuel) fuel)
  | .patternChain => return .patternChain (← chain (pattern room fuel) fuel)

end Wire

/-- The bytes that can be set aside: less than 32 GiB. -/
def Wire.memory : Nat := 0x7ffffffff

/-- The node of a family at the front of the input, and the bytes after it, if at most `room` bytes
can be set aside for the modules of a symbol. -/
def Family.decode (room : Nat) (f : Family) (bytes : List UInt8) :
    Except Wire.ReadError (Node × List UInt8) :=
  Wire.node room bytes.length f bytes

end Treeprint
