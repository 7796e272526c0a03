import ExprCompiler.Expr.Basic
import ExprCompiler.Text.Decimal

/-!
# Instructions and the code of expressions

The x86-64 instructions that compiled expressions use, with their text in Intel syntax: an
instruction is a line of its own, set in by a tab.

An expression is compiled for a stack: its code pushes one word, the value of the expression, and
leaves the words below alone. The code of an operator node runs the code of the left operand, then
that of the right operand, pops both values, and pushes the result. `Expr.emit` is `emit_expr`: it
writes the code of a tree in front of the code that follows, so that the code of a tree of any size
is built in one pass; `Expr.emit_eq` says that this is the code of the tree followed by the other.
The text of the code is what `generate` gives, and the listing of an expression is a complete
assembly program, a function `main` that returns the value of the expression.
-/

namespace ExprCompiler

namespace Asm

/-- A 64-bit register. -/
inductive Register where
  /-- Holds the left operand and the result of an operation. -/
  | rax
  /-- Holds the right operand. -/
  | rdi
deriving DecidableEq, Repr

def Register.name : Register → String
  | .rax => "rax"
  | .rdi => "rdi"

inductive Instruction where
  /-- Pushes a constant. There is room for 32 bits in the instruction, which are sign-extended. -/
  | pushConstant (value : Int32)
  | push (source : Register)
  | pop (target : Register)
  | load (target : Register) (value : Int64)
  | add (target source : Register)
  | sub (target source : Register)
  | imul (target source : Register)
  /-- Extends the sign of `rax` into `rdx`. -/
  | cqo
  /-- Divides `rdx` and `rax`, taken as one number, by a register; the quotient goes to `rax`. -/
  | idiv (divisor : Register)
  | cmp (lhs rhs : Register)
  /-- Sets the low byte of `rax` to 1 if the last comparison found both sides equal, else to 0. -/
  | sete
  /-- Extends the low byte of `rax` with zeros. -/
  | movzb
  | ret
deriving DecidableEq, Repr

namespace Instruction

/-- An instruction in Intel syntax. -/
def text : Instruction → String
  | .pushConstant value => "push " ++ Decimal.text value.toInt
  | .push source => "push " ++ source.name
  | .pop target => "pop " ++ target.name
  | .load target value => "mov " ++ target.name ++ ", " ++ Decimal.text value.toInt
  | .add target source => "add " ++ target.name ++ ", " ++ source.name
  | .sub target source => "sub " ++ target.name ++ ", " ++ source.name
  | .imul target source => "imul " ++ target.name ++ ", " ++ source.name
  | .cqo => "cqo"
  | .idiv divisor => "idiv " ++ divisor.name
  | .cmp lhs rhs => "cmp " ++ lhs.name ++ ", " ++ rhs.name
  | .sete => "sete al"
  | .movzb => "movzb rax, al"
  | .ret => "ret"

def line (instruction : Instruction) : String := "\t" ++ instruction.text ++ "\n"

end Instruction

def lines (code : List Instruction) : String := String.join (code.map Instruction.line)

@[simp]
theorem lines_nil : lines [] = "" := rfl

theorem lines_append (code next : List Instruction) :
    lines (code ++ next) = lines code ++ lines next := by
  simp [lines]

/-! ## Code -/

/-- Pushes a literal: in one instruction if it fits into 32 bits, otherwise by way of `rax`. -/
def literalCode (value : Int64) : List Instruction :=
  if value.toInt32.toInt64 = value then
    [.pushConstant value.toInt32]
  else
    [.load .rax value, .push .rax]

/-- A literal fits into 32 bits exactly when it lies in the range of signed 32-bit words. -/
theorem toInt64_toInt32_eq_self_iff (value : Int64) :
    value.toInt32.toInt64 = value ↔
      Int32.minValue.toInt ≤ value.toInt ∧ value.toInt ≤ Int32.maxValue.toInt := by
  have hmin : Int32.minValue.toInt = -2147483648 := rfl
  have hmax : Int32.maxValue.toInt = 2147483647 := rfl
  rw [← Int64.toInt_inj, Int32.toInt_toInt64, Int64.toInt_toInt32, Int.bmod_eq_iff (by decide),
    hmin, hmax]
  omega

/-- Applies an operator to `rax` and `rdi` and leaves the result in `rax`. -/
def operatorCode : Operator → List Instruction
  | .add => [.add .rax .rdi]
  | .sub => [.sub .rax .rdi]
  | .mul => [.imul .rax .rdi]
  | .div => [.cqo, .idiv .rdi]
  | .eq => [.cmp .rax .rdi, .sete, .movzb]

/-- Replaces the two topmost words of the stack, the right operand on top, by the result. -/
def applyCode (op : Operator) : List Instruction :=
  [.pop .rdi, .pop .rax] ++ operatorCode op ++ [.push .rax]

/-! ## Listings -/

/-- The lines in front of the code: the syntax used, and the function `main`. -/
def header : String := ".intel_syntax noprefix\n.global main\nmain:\n"

def epilogue : List Instruction := [.pop .rax, .ret]

/-- The program that returns the value which `code` pushes. -/
def listing (code : List Instruction) : String := header ++ lines code ++ lines epilogue

end Asm

open Asm

namespace Expr

/-- The code that pushes the value of a tree, followed by `next`. -/
def emit : Expr → List Instruction → List Instruction
  | .literal value, next => literalCode value ++ next
  | .binary op lhs rhs, next => lhs.emit (rhs.emit (applyCode op ++ next))

/-- The code that pushes the value of a tree. -/
def code (e : Expr) : List Instruction := e.emit []

/-! ## The code of a tree is the code of its parts -/

theorem emit_eq (e : Expr) (next : List Instruction) : e.emit next = e.code ++ next := by
  induction e generalizing next with
  | literal value => simp [code, emit]
  | binary op lhs rhs ihl ihr =>
    simp only [code, emit]
    rw [ihl, ihr, ihl (rhs.emit _), ihr (applyCode op ++ [])]
    simp

@[simp]
theorem code_literal (value : Int64) : (literal value).code = literalCode value := by
  simp [code, emit]

@[simp]
theorem code_binary (op : Operator) (lhs rhs : Expr) :
    (binary op lhs rhs).code = lhs.code ++ rhs.code ++ applyCode op := by
  rw [code, emit, emit_eq, emit_eq]
  simp

end Expr

end ExprCompiler
