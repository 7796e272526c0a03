/-!
# Operators and expression trees

The five operators of the expression language with their spelling in source text (`symbol`), and the
trees that they build. An expression is a literal or an operator between two expressions. Signs and
parentheses leave no node of their own: a minus sign in front of `e` is the tree of `0 - e`. The
height of a tree is what the compiler calls its `depth`.
-/

namespace ExprCompiler

/-- A binary operator on 64-bit integers. -/
inductive Operator where
  | add
  | sub
  | mul
  /-- Division, rounding toward zero. -/
  | div
  /-- Equality, which gives 1 or 0. -/
  | eq
deriving DecidableEq, Repr

namespace Operator

def symbol : Operator → String
  | .add => "+"
  | .sub => "-"
  | .mul => "*"
  | .div => "/"
  | .eq => "=="

end Operator

/-- The tree of an expression. -/
inductive Expr where
  | literal (value : Int64)
  | binary (op : Operator) (lhs rhs : Expr)
deriving DecidableEq, Repr

namespace Expr

/-- The number of nodes on the longest path from the root to a leaf. -/
def height : Expr → Nat
  | .literal _ => 1
  | .binary _ lhs rhs => 1 + max lhs.height rhs.height

@[simp]
theorem height_literal (value : Int64) : (literal value).height = 1 := rfl

@[simp]
theorem height_binary (op : Operator) (lhs rhs : Expr) :
    (binary op lhs rhs).height = 1 + max lhs.height rhs.height := rfl

theorem height_pos (e : Expr) : 0 < e.height := by
  cases e with
  | literal value => exact Nat.one_pos
  | binary op lhs rhs =>
    rw [height_binary]
    omega

end Expr

end ExprCompiler
