import ExprCompiler.Asm.Code
import Mathlib

/-!
# The machine

The part of an x86-64 processor that the code of `emit_expr` uses: three registers, the zero flag
and a stack, all words being 64 bits in two's complement. What an instruction leaves undefined is
`none` here, and using it is a trap, so nothing proved about a run rests on it.

Straight-line code is run by `Machine.exec`, one instruction after the other, and a program by
`Machine.run`, up to its first `ret`.
-/

namespace ExprCompiler

open Asm

structure Machine where
  rax : Int64
  rdi : Int64
  rdx : Int64
  /-- The zero flag, if it is defined. -/
  zero : Option Bool
  /-- The stack, from the top. -/
  stack : List Int64
deriving DecidableEq, Repr

/-- Why a run ends without a result. -/
inductive Trap where
  /-- A division by zero, or one whose quotient does not fit into a word. -/
  | divideError
  /-- A word is popped from an empty stack. -/
  | underflow
  /-- A flag is read that no instruction defined. -/
  | undefinedFlag
  /-- The program returns with words on the stack. -/
  | leftover
  /-- The program ends without returning. -/
  | noReturn
  /-- The text of the program is not that of instructions. -/
  | unreadable
deriving DecidableEq, Repr

namespace Machine

def get (m : Machine) : Register → Int64
  | .rax => m.rax
  | .rdi => m.rdi

def set (m : Machine) (value : Int64) : Register → Machine
  | .rax => { m with rax := value }
  | .rdi => { m with rdi := value }

/-- Sets a register to a result and the zero flag with it. -/
def setResult (m : Machine) (value : Int64) (target : Register) : Machine :=
  { m.set value target with zero := some (value = 0) }

/-- The number that `rdx` and `rax` hold together. -/
def dividend (m : Machine) : Int := m.rdx.toInt * 2 ^ 64 + m.rax.toUInt64.toNat

/-- Divides `rdx` and `rax` and rounds toward zero. -/
def divide (m : Machine) (divisor : Int64) : Except Trap Machine :=
  let quotient := m.dividend.tdiv divisor.toInt
  if divisor = 0 ∨ quotient < -2 ^ 63 ∨ 2 ^ 63 ≤ quotient then
    .error .divideError
  else
    .ok { m with
      rax := Int64.ofInt quotient
      rdx := Int64.ofInt (m.dividend.tmod divisor.toInt)
      zero := none }

def step (m : Machine) : Instruction → Except Trap Machine
  | .pushConstant value => .ok { m with stack := value.toInt64 :: m.stack }
  | .push source => .ok { m with stack := m.get source :: m.stack }
  | .pop target =>
    match m.stack with
    | [] => .error .underflow
    | top :: stack => .ok ({ m with stack := stack }.set top target)
  | .load target value => .ok (m.set value target)
  | .add target source => .ok (m.setResult (m.get target + m.get source) target)
  | .sub target source => .ok (m.setResult (m.get target - m.get source) target)
  | .imul target source => .ok { m.set (m.get target * m.get source) target with zero := none }
  | .cqo => .ok { m with rdx := if m.rax.toInt < 0 then -1 else 0 }
  | .idiv divisor => m.divide (m.get divisor)
  | .cmp lhs rhs => .ok { m with zero := some (m.get lhs - m.get rhs = 0) }
  | .sete =>
    match m.zero with
    | none => .error .undefinedFlag
    | some flag => .ok { m with rax := m.rax &&& ~~~0xff ||| if flag then 1 else 0 }
  | .movzb => .ok { m with rax := m.rax &&& 0xff }
  | .ret => if m.stack = [] then .ok m else .error .leftover

/-- Runs straight-line code to its end. -/
def exec (m : Machine) (code : List Instruction) : Except Trap Machine := code.foldlM step m

/-- Runs a program until it returns. -/
def run (m : Machine) : List Instruction → Except Trap Machine
  | [] => .error .noReturn
  | .ret :: _ => m.step .ret
  | instruction :: rest => do
    let m ← m.step instruction
    m.run rest

@[simp]
theorem exec_nil (m : Machine) : m.exec [] = .ok m := rfl

@[simp]
theorem exec_cons (m : Machine) (i : Instruction) (code : List Instruction) :
    m.exec (i :: code) = (do let m ← m.step i; m.exec code) := rfl

theorem exec_singleton (m : Machine) (i : Instruction) : m.exec [i] = m.step i := by
  rw [exec_cons]
  cases m.step i <;> rfl

theorem exec_append (m : Machine) (code next : List Instruction) :
    m.exec (code ++ next) = (do let m ← m.exec code; m.exec next) :=
  List.foldlM_append

/-- A program that starts with straight-line code runs that first. -/
theorem run_append (m : Machine) {code : List Instruction} (h : .ret ∉ code)
    (next : List Instruction) : m.run (code ++ next) = (do let m ← m.exec code; m.run next) := by
  induction code generalizing m with
  | nil => rfl
  | cons i code ih =>
    have hne : i ≠ .ret := fun hi => h (by simp [hi])
    have htail : .ret ∉ code := fun hmem => h (by simp [hmem])
    have hrun : m.run (i :: (code ++ next)) = (do let m ← m.step i; m.run (code ++ next)) := by
      rw [run]
      exact fun hi => absurd hi hne
    rw [List.cons_append, hrun, exec_cons]
    cases m.step i with
    | error trap => rfl
    | ok m' => exact ih m' htail

/-- After `cqo`, what is divided is the number in `rax`. -/
theorem dividend_cqo (m : Machine) :
    { m with rdx := if m.rax.toInt < 0 then -1 else 0 }.dividend = m.rax.toInt := by
  -- the word without its sign exceeds the word by 2 ^ 64 exactly if the sign is negative
  have hcases : m.rax.toInt = if 2 * m.rax.toUInt64.toNat < 2 ^ 64 then
      (m.rax.toUInt64.toNat : Int) else m.rax.toUInt64.toNat - (2 ^ 64 : Nat) :=
    BitVec.toInt_eq_toNat_cond m.rax.toBitVec
  have hlt : m.rax.toUInt64.toNat < 2 ^ 64 := m.rax.toUInt64.toNat_lt
  have hone : (-1 : Int64).toInt = -1 := rfl
  have hzero : (0 : Int64).toInt = 0 := rfl
  unfold dividend
  dsimp only
  by_cases hsmall : 2 * m.rax.toUInt64.toNat < 2 ^ 64
  · rw [if_pos hsmall] at hcases
    rw [if_neg (by omega), hzero]
    omega
  · rw [if_neg hsmall] at hcases
    rw [if_pos (by omega), hone]
    omega

/-- The low byte is what `sete` wrote to it, whatever the other bytes are. -/
theorem movzb_sete (word : Int64) (flag : Bool) :
    (word &&& ~~~0xff ||| if flag then 1 else 0) &&& 0xff = if flag then (1 : Int64) else 0 := by
  have hdistrib (a b c : Int64) : (a ||| b) &&& c = a &&& c ||| b &&& c := by
    apply Int64.toBitVec_inj.1
    exact BitVec.and_or_distrib_right
  rw [hdistrib, Int64.and_assoc, Int64.not_and_self, Int64.and_zero, Int64.zero_or]
  cases flag <;> decide

end Machine

end ExprCompiler
