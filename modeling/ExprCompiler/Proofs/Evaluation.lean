import ExprCompiler.Proofs.Grammar
import Mathlib

/-!
# Values of expressions

An expression has a value in signed 64-bit words. Arithmetic wraps around, equality gives 1 or 0,
and an expression has no value exactly if it comes to a division that has none: one by zero, or the
one whose quotient is just too large for a word. Signs, parentheses and operators are taken as they
are written, and the tree has the same value (`Surface.eval?_tree`).

Where no integer on the way leaves the range of words, the value is that of the expression over the
integers (`Surface.exists_eval?_of_fits`).
-/

namespace ExprCompiler

def Operator.onWords? : Operator → Int64 → Int64 → Option Int64
  | .add, l, r => some (l + r)
  | .sub, l, r => some (l - r)
  | .mul, l, r => some (l * r)
  | .div, l, r => if r = 0 ∨ l = Int64.minValue ∧ r = -1 then none else some (l / r)
  | .eq, l, r => some (if l = r then 1 else 0)

/-- The value of a tree, unless it comes to a division that has no result. -/
def Expr.eval? : Expr → Option Int64
  | .literal value => some value
  | .binary op lhs rhs => do
    let l ← lhs.eval?
    let r ← rhs.eval?
    op.onWords? l r

namespace Surface

/-- The value of an expression as it is written. A minus sign negates its operand. -/
def eval? : Surface → Option Int64
  | .number value => some value
  | .paren inner => inner.eval?
  | .plus operand => operand.eval?
  | .minus operand => operand.eval?.map (- ·)
  | .binary op lhs rhs => do
    let l ← lhs.eval?
    let r ← rhs.eval?
    op.onWords? l r

/-- Subtracting from zero, which is what the tree does for a minus sign, is negation. -/
theorem eval?_tree (s : Surface) : s.tree.eval? = s.eval? := by
  induction s with
  | number value => rfl
  | paren inner ih => exact ih
  | plus operand ih => exact ih
  | minus operand ih =>
    have hzero (v : Int64) : Operator.sub.onWords? 0 v = some (-v) := by
      rw [Operator.onWords?, Int64.zero_sub]
    rw [tree, eval?, Expr.eval?, ih, Expr.eval?]
    cases operand.eval? with
    | none => rfl
    | some v => exact hzero v
  | binary op lhs rhs ihl ihr => rw [tree, eval?, Expr.eval?, ihl, ihr]

end Surface

/-! ## Integers and words -/

def IsWord (n : Int) : Prop := -2 ^ 63 ≤ n ∧ n < 2 ^ 63

instance (n : Int) : Decidable (IsWord n) := inferInstanceAs (Decidable (_ ∧ _))

theorem isWord_toInt (v : Int64) : IsWord v.toInt := ⟨v.le_toInt, v.toInt_lt⟩

theorem IsWord.bmod_eq {n : Int} (h : IsWord n) : n.bmod (2 ^ 64) = n :=
  Int.bmod_eq_of_le (by have := h.1; omega) (by have := h.2; omega)

/-- Only one quotient of words is not a word. -/
theorem Operator.onWords?_div (l r : Int64) :
    Operator.div.onWords? l r =
      if r = 0 ∨ ¬ IsWord (l.toInt.tdiv r.toInt) then none
      else some (Int64.ofInt (l.toInt.tdiv r.toInt)) := by
  rw [onWords?]
  by_cases hover : l = Int64.minValue ∧ r = -1
  · obtain ⟨rfl, rfl⟩ := hover
    decide
  · -- all other quotients stay between the dividend and its negative
    have hquotient : (l / r).toInt = l.toInt.tdiv r.toInt := by
      by_cases hl : l = Int64.minValue
      · exact Int64.toInt_div_of_ne_right l r fun hr => hover ⟨hl, hr⟩
      · exact Int64.toInt_div_of_ne_left l r hl
    have hword : IsWord (l.toInt.tdiv r.toInt) := hquotient ▸ isWord_toInt (l / r)
    by_cases hr : r = 0
    · rw [if_pos (.inl hr), if_pos (.inl hr)]
    · rw [if_neg (by simp [hr, hover]), if_neg (by simp [hr, hword]), ← hquotient,
        Int64.ofInt_toInt]

def Operator.onInts? : Operator → Int → Int → Option Int
  | .add, l, r => some (l + r)
  | .sub, l, r => some (l - r)
  | .mul, l, r => some (l * r)
  | .div, l, r => if r = 0 then none else some (l.tdiv r)
  | .eq, l, r => some (if l = r then 1 else 0)

/-- An operator on words gives what it gives on integers, if that is a word. -/
theorem Operator.exists_onWords?_of_onInts? {op : Operator} {l r : Int64} {n : Int}
    (h : op.onInts? l.toInt r.toInt = some n) (hn : IsWord n) :
    ∃ v, op.onWords? l r = some v ∧ v.toInt = n := by
  cases op with
  | add =>
    obtain rfl := Option.some.inj h
    exact ⟨l + r, rfl, by rw [Int64.toInt_add, hn.bmod_eq]⟩
  | sub =>
    obtain rfl := Option.some.inj h
    exact ⟨l - r, rfl, by rw [Int64.toInt_sub, hn.bmod_eq]⟩
  | mul =>
    obtain rfl := Option.some.inj h
    exact ⟨l * r, rfl, by rw [Int64.toInt_mul, hn.bmod_eq]⟩
  | div =>
    rw [onInts?, Option.ite_none_left_eq_some] at h
    obtain ⟨hzero, hquotient⟩ := h
    obtain rfl := Option.some.inj hquotient
    have hr : r ≠ 0 := by
      rintro rfl
      exact hzero rfl
    refine ⟨Int64.ofInt (l.toInt.tdiv r.toInt), ?_, Int64.toInt_ofInt_of_le hn.1 hn.2⟩
    rw [onWords?_div, if_neg (by simp [hr, hn])]
  | eq =>
    obtain rfl := Option.some.inj h
    refine ⟨if l = r then 1 else 0, rfl, ?_⟩
    by_cases heq : l = r
    · rw [if_pos heq, if_pos (congrArg Int64.toInt heq)]
      rfl
    · rw [if_neg heq, if_neg (mt Int64.toInt_inj.1 heq)]
      rfl

namespace Surface

/-- The value of an expression over the integers, unless it comes to a division by zero. -/
def evalInt? : Surface → Option Int
  | .number value => some value.toInt
  | .paren inner => inner.evalInt?
  | .plus operand => operand.evalInt?
  | .minus operand => operand.evalInt?.map (- ·)
  | .binary op lhs rhs => do
    let l ← lhs.evalInt?
    let r ← rhs.evalInt?
    op.onInts? l r

/-- Every expression that an expression is made of, itself included. -/
def parts : Surface → List Surface
  | .number value => [.number value]
  | .paren inner => .paren inner :: inner.parts
  | .plus operand => .plus operand :: operand.parts
  | .minus operand => .minus operand :: operand.parts
  | .binary op lhs rhs => .binary op lhs rhs :: (lhs.parts ++ rhs.parts)

/-- Every part has a value over the integers, and it is a word. -/
def Fits (s : Surface) : Prop := ∀ t ∈ s.parts, ∃ n, t.evalInt? = some n ∧ IsWord n

theorem mem_parts_self (s : Surface) : s ∈ s.parts := by
  cases s <;> simp [parts]

/-- Where nothing leaves the range of words, the value is exact. -/
theorem exists_eval?_of_fits {s : Surface} (h : s.Fits) :
    ∃ v, s.eval? = some v ∧ s.evalInt? = some v.toInt := by
  induction s with
  | number value => exact ⟨value, rfl, rfl⟩
  | paren inner ih | plus operand ih => exact ih fun t ht => h t (by simp [parts, ht])
  | minus operand ih =>
    obtain ⟨v, heval, hexact⟩ := ih fun t ht => h t (by simp [parts, ht])
    obtain ⟨n, hn, hword⟩ := h _ (mem_parts_self _)
    rw [evalInt?, hexact, Option.map_some] at hn
    obtain rfl := Option.some.inj hn
    refine ⟨-v, by rw [eval?, heval, Option.map_some], ?_⟩
    rw [evalInt?, hexact, Option.map_some, Int64.toInt_neg, hword.bmod_eq]
  | binary op lhs rhs ihl ihr =>
    obtain ⟨l, hl, hl'⟩ := ihl fun t ht => h t (by simp [parts, ht])
    obtain ⟨r, hr, hr'⟩ := ihr fun t ht => h t (by simp [parts, ht])
    have hexact : evalInt? (.binary op lhs rhs) = op.onInts? l.toInt r.toInt := by
      rw [evalInt?, hl', hr']
      rfl
    obtain ⟨n, hn, hword⟩ := h _ (mem_parts_self _)
    rw [hexact] at hn
    obtain ⟨v, hv, rfl⟩ := Operator.exists_onWords?_of_onInts? hn hword
    refine ⟨v, ?_, hexact.trans hn⟩
    rw [eval?, hl, hr]
    exact hv

end Surface

end ExprCompiler
