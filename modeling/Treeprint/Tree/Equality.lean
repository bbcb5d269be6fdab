import Treeprint.Tree.Expr

/-!
# Equality of trees

Two trees are equal when they are alike in everything they hold: forms, types, spans, the bits of
floats, and every node of every chain. Chains are compared node by node from the front.
-/

namespace Treeprint

mutual

def Pattern.beq : Pattern → Pattern → Bool
  | ⟨f, t, s⟩, ⟨f', t', s'⟩ => f.beq f' && t == t' && s == s'

def PatternForm.beq : PatternForm → PatternForm → Bool
  | .list c, .list c' => Pattern.beqChain c c'
  | .map es, .map es' => Pattern.beqEntries es es'
  | .record n fs, .record n' fs' => n == n' && Pattern.beqFields fs fs'
  | .symbol p, .symbol p' => p == p'
  | .value v, .value v' => v == v'
  | _, _ => false

def Pattern.beqChain : Chain Pattern → Chain Pattern → Bool
  | .element v t, .element v' t' => v.beq v' && Pattern.beqChain t t'
  | .last v, .last v' => v.beq v'
  | .rest t, .rest t' => Pattern.beqChain t t'
  | .terminator, .terminator => true
  | _, _ => false

def Pattern.beqEntries : List (Pattern × Pattern) → List (Pattern × Pattern) → Bool
  | [], [] => true
  | (k, v) :: es, (k', v') :: es' => k.beq k' && v.beq v' && Pattern.beqEntries es es'
  | _, _ => false

def Pattern.beqFields : List (Name × Pattern) → List (Name × Pattern) → Bool
  | [], [] => true
  | (n, p) :: fs, (n', p') :: fs' => n == n' && p.beq p' && Pattern.beqFields fs fs'
  | _, _ => false

end

instance : BEq Pattern := ⟨Pattern.beq⟩

mutual

def Expr.beq : Expr → Expr → Bool
  | ⟨f, t, s⟩, ⟨f', t', s'⟩ => f.beq f' && t == t' && s == s'

def ExprForm.beq : ExprForm → ExprForm → Bool
  | .ifElse c b (some e), .ifElse c' b' (some e') =>
    c.beq c' && Stmt.beqList b b' && Stmt.beqList e e'
  | .ifElse c b none, .ifElse c' b' none => c.beq c' && Stmt.beqList b b'
  | .case e as, .case e' as' => e.beq e' && Expr.beqArms as as'
  | .record n fs, .record n' fs' => n == n' && Expr.beqFields fs fs'
  | .list c, .list c' => Expr.beqChain c c'
  | .map es, .map es' => Expr.beqEntries es es'
  | .value v, .value v' => v == v'
  | .symbol p, .symbol p' => p == p'
  | .call f as, .call f' as' => f == f' && Expr.beqList as as'
  | .binary op l r, .binary op' l' r' => op == op' && l.beq l' && r.beq r'
  | .unary op e, .unary op' e' => op == op' && e.beq e'
  | .compound es, .compound es' => Expr.beqList es es'
  | _, _ => false

def Expr.beqArms : List (Pattern × Expr) → List (Pattern × Expr) → Bool
  | [], [] => true
  | (p, e) :: as, (p', e') :: as' => p == p' && e.beq e' && Expr.beqArms as as'
  | _, _ => false

def Expr.beqFields : List (Name × Expr) → List (Name × Expr) → Bool
  | [], [] => true
  | (n, e) :: fs, (n', e') :: fs' => n == n' && e.beq e' && Expr.beqFields fs fs'
  | _, _ => false

def Expr.beqChain : Chain Expr → Chain Expr → Bool
  | .element v t, .element v' t' => v.beq v' && Expr.beqChain t t'
  | .last v, .last v' => v.beq v'
  | .rest t, .rest t' => Expr.beqChain t t'
  | .terminator, .terminator => true
  | _, _ => false

def Expr.beqEntries : List (Expr × Expr) → List (Expr × Expr) → Bool
  | [], [] => true
  | (k, v) :: es, (k', v') :: es' => k.beq k' && v.beq v' && Expr.beqEntries es es'
  | _, _ => false

def Expr.beqList : List Expr → List Expr → Bool
  | [], [] => true
  | e :: es, e' :: es' => e.beq e' && Expr.beqList es es'
  | _, _ => false

def Stmt.beq : Stmt → Stmt → Bool
  | ⟨f, s⟩, ⟨f', s'⟩ => f.beq f' && s == s'

def StmtForm.beq : StmtForm → StmtForm → Bool
  | .define n ps r b, .define n' ps' r' b' =>
    n == n' && ps == ps' && r == r' && Stmt.beqList b b'
  | .record n fs, .record n' fs' => n == n' && fs == fs'
  | .val n e, .val n' e' => n == n' && e.beq e'
  | .module n b, .module n' b' => n == n' && Stmt.beqList b b'
  | .expr e, .expr e' => e.beq e'
  | .loop p e, .loop p' e' => p == p' && e.beq e'
  | _, _ => false

def Stmt.beqList : List Stmt → List Stmt → Bool
  | [], [] => true
  | s :: ss, s' :: ss' => s.beq s' && Stmt.beqList ss ss'
  | _, _ => false

end

instance : BEq Expr := ⟨Expr.beq⟩

instance : BEq Stmt := ⟨Stmt.beq⟩

instance : BEq Program := ⟨fun p q => p.body == q.body⟩

end Treeprint
