import ExprCompiler.Proofs.Correctness

/-!
# Trees can be told from their code

The code that `generate` gives for a tree is run here on a machine whose words are trees. It does
not work anything out: where the processor puts a sum, it puts the tree of the sum. Run on this
machine, the code of a tree pushes the tree itself (`TreeMachine.stack_run_code`), whatever the
registers and the stack hold, so no two trees have the same code.

Code can in turn be told from its text, because an assembler reads it back. Hence the text that is
generated for a tree determines the tree, down to the last literal, and two source texts have the
same listing exactly if they have the same tree (`listing_eq_iff_tree_eq`).
-/

namespace ExprCompiler

open Asm

/-- A machine whose words are trees. -/
structure TreeMachine where
  rax : Expr
  rdi : Expr
  /-- The comparison whose outcome the zero flag tells. -/
  zero : Expr
  /-- The stack, from the top. -/
  stack : List Expr
deriving DecidableEq, Repr

namespace TreeMachine

def get (m : TreeMachine) : Register → Expr
  | .rax => m.rax
  | .rdi => m.rdi

def set (m : TreeMachine) (tree : Expr) : Register → TreeMachine
  | .rax => { m with rax := tree }
  | .rdi => { m with rdi := tree }

/-- Applies an operator to the trees of two registers. The first of them gets the result. -/
def combine (m : TreeMachine) (op : Operator) (target source : Register) : TreeMachine :=
  m.set (.binary op (m.get target) (m.get source)) target

/-- What an instruction does to trees. A pop from an empty stack does nothing, and neither does an
instruction that only prepares a division or completes a comparison. -/
def step (m : TreeMachine) : Instruction → TreeMachine
  | .pushConstant value => { m with stack := .literal value.toInt64 :: m.stack }
  | .push source => { m with stack := m.get source :: m.stack }
  | .pop target =>
    match m.stack with
    | [] => m
    | top :: stack => { m with stack := stack }.set top target
  | .load target value => m.set (.literal value) target
  | .add target source => m.combine .add target source
  | .sub target source => m.combine .sub target source
  | .imul target source => m.combine .mul target source
  | .idiv divisor => m.combine .div .rax divisor
  | .cmp lhs rhs => { m with zero := .binary .eq (m.get lhs) (m.get rhs) }
  | .sete => m.set m.zero .rax
  | .cqo | .movzb | .ret => m

def run (m : TreeMachine) (code : List Instruction) : TreeMachine := code.foldl step m

theorem run_append (m : TreeMachine) (code next : List Instruction) :
    m.run (code ++ next) = (m.run code).run next :=
  List.foldl_append

/-- A literal is pushed as it is, in one instruction or two. -/
theorem stack_run_literalCode (m : TreeMachine) (value : Int64) :
    (m.run (literalCode value)).stack = .literal value :: m.stack := by
  unfold literalCode
  by_cases hfits : value.toInt32.toInt64 = value
  · rw [if_pos hfits]
    show Expr.literal value.toInt32.toInt64 :: m.stack = _
    rw [hfits]
  · rw [if_neg hfits]
    rfl

/-- The code of an operator leaves the tree of its node in place of its operands. -/
theorem stack_run_applyCode {m : TreeMachine} {l r : Expr} {stack : List Expr}
    (h : m.stack = r :: l :: stack) (op : Operator) :
    (m.run (applyCode op)).stack = .binary op l r :: stack := by
  have hfirst : m.step (.pop .rdi) = { m with rdi := r, stack := l :: stack } := by
    rw [step, h]
    rfl
  have hpops : m.run [.pop .rdi, .pop .rax] = { m with rax := l, rdi := r, stack := stack } := by
    show (m.step (.pop .rdi)).step (.pop .rax) = _
    rw [hfirst]
    rfl
  rw [applyCode, run_append, run_append, hpops]
  cases op <;> rfl

/-- The code of a tree pushes the tree. -/
theorem stack_run_code (e : Expr) (m : TreeMachine) :
    (m.run e.code).stack = e :: m.stack := by
  induction e generalizing m with
  | literal value =>
    rw [Expr.code_literal]
    exact m.stack_run_literalCode value
  | binary op lhs rhs ihl ihr =>
    -- the left operand lies on the stack, a finished tree, while the right one is built on it
    have hoperands : ((m.run lhs.code).run rhs.code).stack = rhs :: lhs :: m.stack := by
      rw [ihr, ihl]
    rw [Expr.code_binary, run_append, run_append]
    exact stack_run_applyCode hoperands op

end TreeMachine

/-! ## Code and its text -/

theorem Expr.code_injective {a b : Expr} (h : a.code = b.code) : a = b := by
  let m : TreeMachine := ⟨.literal 0, .literal 0, .literal 0, []⟩
  have hstacks : a :: m.stack = b :: m.stack := by
    rw [← m.stack_run_code a, ← m.stack_run_code b, h]
  exact (List.cons.inj hstacks).1

theorem Asm.lines_injective {code code' : List Instruction} (h : lines code = lines code') :
    code = code' := by
  have hread := readLines?_splitOn_lines code
  rw [h, readLines?_splitOn_lines] at hread
  exact (Option.some.inj hread).symm

theorem Asm.listing_injective {code code' : List Instruction} (h : listing code = listing code') :
    code = code' := by
  have hread := assemble_listing code
  rw [h, assemble_listing] at hread
  exact (List.append_cancel_right (Option.some.inj hread)).symm

theorem exists_tree_of_compile {source asm : String} (h : compile source = .ok asm) :
    ∃ e, Expr.ofSource source = .ok e ∧ asm = listing e.code := by
  obtain ⟨e, hparse, hasm⟩ := exists_parse_of_compile h
  exact ⟨e, Expr.ofSource_eq_ok_iff.2 hparse, hasm⟩

/-- The text of the code of a tree determines the tree, whatever its height and its literals. Two
source texts that are accepted have the same listing exactly if they have the same tree. -/
theorem listing_eq_iff_tree_eq :
    (Function.Injective fun e : Expr => lines e.code) ∧
    ∀ source source' asm asm' : String, compile source = .ok asm → compile source' = .ok asm' →
      (asm = asm' ↔ ∃ e, Expr.ofSource source = .ok e ∧ Expr.ofSource source' = .ok e) := by
  refine ⟨?_, ?_⟩
  · intro a b h
    exact Expr.code_injective (lines_injective h)
  · intro source source' asm asm' h h'
    obtain ⟨e, he, rfl⟩ := exists_tree_of_compile h
    obtain ⟨e', he', rfl⟩ := exists_tree_of_compile h'
    constructor
    · intro hlistings
      obtain rfl := Expr.code_injective (listing_injective hlistings)
      exact ⟨e, he, he'⟩
    · rintro ⟨tree, htree, htree'⟩
      obtain rfl := Except.ok.inj (he.symm.trans htree)
      obtain rfl := Except.ok.inj (he'.symm.trans htree')
      rfl

set_option maxRecDepth 6000 in
/-- A plus sign leaves no trace in the tree, and so none in the listing. -/
theorem listing_eq_of_plus_sign :
    ∃ asm asm', compile "7" = .ok asm ∧ compile "+7" = .ok asm' ∧ asm = asm' := by
  have htree : Expr.ofSource "7" = .ok (.literal 7) := by cbv
  have htree' : Expr.ofSource "+7" = .ok (.literal 7) := by cbv
  have h : compile "7" = .ok (listing (Expr.literal 7).code) := by
    rw [compile_eq, htree]
    rfl
  have h' : compile "+7" = .ok (listing (Expr.literal 7).code) := by
    rw [compile_eq, htree']
    rfl
  exact ⟨_, _, h, h', (listing_eq_iff_tree_eq.2 _ _ _ _ h h').2 ⟨_, htree, htree'⟩⟩

end ExprCompiler
