import ExprCompiler.Compile
import ExprCompiler.Proofs.Assembly
import ExprCompiler.Proofs.Evaluation
import ExprCompiler.Proofs.Machine
import ExprCompiler.Proofs.Scannerless

/-!
# Compiled programs compute the value of their source

The code of a tree, which `emit_expr` writes, pushes the value of the tree and leaves the words
below it alone, or ends in a division error if the tree has no value (`Expr.exec_code`). The listing
of a source text, read back as assembly, is that code and an epilogue that returns the word pushed.
Together with the grammar of source texts this says what the program compiled from a text does: it
computes the value of the expression that is written there (`execute_compile`).
-/

namespace ExprCompiler

open Asm Machine

/-- The run ends in a machine that `post` relates to the value, or in a division error if there is
no value. -/
def Machine.Yields (value? : Option Int64) (post : Int64 → Machine → Prop)
    (result : Except Trap Machine) : Prop :=
  match value? with
  | some v => ∃ m, result = .ok m ∧ post v m
  | none => result = .error .divideError

section Yields

variable {value? : Option Int64} {post post' : Int64 → Machine → Prop}
  {result : Except Trap Machine} {next : Machine → Except Trap Machine}

theorem Machine.Yields.bind (h : Yields value? post result) {f : Int64 → Option Int64}
    (hnext : ∀ v m, post v m → Yields (f v) post' (next m)) :
    Yields (value?.bind f) post' (result >>= next) := by
  cases value? with
  | none =>
    obtain rfl : result = .error .divideError := h
    exact rfl
  | some v =>
    obtain ⟨m, rfl, hm⟩ := h
    exact hnext v m hm

theorem Machine.Yields.andThen (h : Yields value? post result)
    (hnext : ∀ v m, post v m → ∃ m', next m = .ok m' ∧ post' v m') :
    Yields value? post' (result >>= next) := by
  have hbind := h.bind (f := some) hnext
  rwa [Option.bind_fun_some] at hbind

end Yields

/-! ## Code of operators and literals -/

theorem Machine.exec_literalCode (m : Machine) (value : Int64) :
    ∃ m', m.exec (literalCode value) = .ok m' ∧ m'.stack = value :: m.stack := by
  unfold literalCode
  by_cases hfits : value.toInt32.toInt64 = value
  · rw [if_pos hfits]
    refine ⟨_, rfl, ?_⟩
    rw [hfits]
  · rw [if_neg hfits]
    exact ⟨_, rfl, rfl⟩

/-- Dividing after `cqo` is dividing words. -/
theorem Machine.exec_cqo_idiv (m : Machine) :
    Yields (Operator.div.onWords? m.rax m.rdi) (fun v m' => m'.rax = v ∧ m'.stack = m.stack)
      (m.exec [.cqo, .idiv .rdi]) := by
  have hexec : m.exec [.cqo, .idiv .rdi] =
      { m with rdx := if m.rax.toInt < 0 then -1 else 0 }.divide m.rdi := by
    rw [exec_cons, step]
    exact exec_singleton _ _
  have hfaults : (m.rdi = 0 ∨ m.rax.toInt.tdiv m.rdi.toInt < -2 ^ 63 ∨
      2 ^ 63 ≤ m.rax.toInt.tdiv m.rdi.toInt) ↔
        (m.rdi = 0 ∨ ¬ IsWord (m.rax.toInt.tdiv m.rdi.toInt)) := by
    unfold IsWord
    exact or_congr_right (by omega)
  rw [hexec, divide, dividend_cqo, Operator.onWords?_div]
  by_cases hword : m.rdi = 0 ∨ ¬ IsWord (m.rax.toInt.tdiv m.rdi.toInt)
  · rw [if_pos hword]
    exact if_pos (hfaults.2 hword)
  · rw [if_neg hword]
    exact ⟨_, if_neg (mt hfaults.1 hword), rfl, rfl⟩

theorem Machine.exec_cmp_sete_movzb (m : Machine) :
    ∃ m', m.exec [.cmp .rax .rdi, .sete, .movzb] = .ok m' ∧
      m'.rax = (if m.rax = m.rdi then 1 else 0) ∧ m'.stack = m.stack := by
  refine ⟨_, rfl, ?_, rfl⟩
  show (m.rax &&& ~~~0xff ||| if decide (m.rax - m.rdi = 0) then 1 else 0) &&& 0xff = _
  have hequal : m.rax - m.rdi = 0 ↔ m.rax = m.rdi := by
    rw [Int64.sub_eq_iff_eq_add, Int64.zero_add]
  rw [movzb_sete]
  simp only [decide_eq_true_eq, hequal]

/-- An operator takes its operands from `rax` and `rdi` and leaves the result in `rax`. -/
theorem Machine.exec_operatorCode (m : Machine) (op : Operator) :
    Yields (op.onWords? m.rax m.rdi) (fun v m' => m'.rax = v ∧ m'.stack = m.stack)
      (m.exec (operatorCode op)) := by
  cases op with
  | add | sub | mul => exact ⟨_, rfl, rfl, rfl⟩
  | div => exact m.exec_cqo_idiv
  | eq => exact m.exec_cmp_sete_movzb

/-- The right operand was pushed last, so it is popped first. -/
theorem Machine.exec_pops {m : Machine} {l r : Int64} {stack : List Int64}
    (h : m.stack = r :: l :: stack) :
    m.exec [.pop .rdi, .pop .rax] = .ok { m with rax := l, rdi := r, stack := stack } := by
  rw [exec_cons, step, h]
  rfl

theorem Machine.exec_applyCode {m : Machine} {l r : Int64} {stack : List Int64}
    (h : m.stack = r :: l :: stack) (op : Operator) :
    Yields (op.onWords? l r) (fun v m' => m'.stack = v :: stack) (m.exec (applyCode op)) := by
  rw [applyCode, exec_append, exec_append, exec_pops h]
  have hoperator := exec_operatorCode { m with rax := l, rdi := r, stack := stack } op
  refine hoperator.andThen fun v m' hm' => ⟨_, rfl, ?_⟩
  show m'.rax :: m'.stack = _
  rw [hm'.1, hm'.2]

/-! ## Code of trees -/

/-- The code of a tree pushes its value. -/
theorem Expr.exec_code (e : Expr) (m : Machine) :
    Yields e.eval? (fun v m' => m'.stack = v :: m.stack) (m.exec e.code) := by
  induction e generalizing m with
  | literal value =>
    rw [code_literal]
    exact m.exec_literalCode value
  | binary op lhs rhs ihl ihr =>
    -- the right operand runs on the stack that holds the left one
    rw [code_binary, List.append_assoc, exec_append]
    refine (ihl m).bind fun l m₁ h₁ => ?_
    rw [exec_append]
    refine (ihr m₁).bind fun r m₂ h₂ => ?_
    rw [h₁] at h₂
    exact exec_applyCode h₂ op

theorem Expr.ret_not_mem_code (e : Expr) : .ret ∉ e.code := by
  induction e with
  | literal value =>
    rw [code_literal, literalCode]
    split <;> simp
  | binary op lhs rhs ihl ihr =>
    have happly : .ret ∉ applyCode op := by
      cases op <;> decide
    simp [code_binary, ihl, ihr, happly]

/-! ## Whole programs -/

def execute (text : String) (m : Machine) : Except Trap Machine :=
  match assemble text with
  | some code => m.run code
  | none => .error .unreadable

/-- The listing of a tree returns the value of the tree and leaves nothing on the stack. -/
theorem execute_listing (e : Expr) {m : Machine} (hm : m.stack = []) :
    Yields e.eval? (fun v m' => m'.rax = v ∧ m'.stack = []) (execute (listing e.code) m) := by
  rw [execute, assemble_listing]
  show Yields _ _ (m.run (e.code ++ epilogue))
  rw [m.run_append e.ret_not_mem_code]
  refine (e.exec_code m).andThen fun v m' hstack => ?_
  rw [hm] at hstack
  refine ⟨{ m' with rax := v, stack := [] }, ?_, rfl, rfl⟩
  simp only [epilogue, run, step, hstack]
  rfl

/-- The listing of a source text is that of the tree that the lexer and the parser find. -/
theorem exists_parse_of_compile {source asm : String} (h : compile source = .ok asm) :
    ∃ e, (∃ tokens, tokenize source = .ok tokens ∧ parse source tokens = .ok e) ∧
      asm = listing e.code := by
  rw [compile_eq] at h
  cases htree : Expr.ofSource source with
  | error error =>
    rw [htree] at h
    cases h
  | ok e =>
    rw [htree] at h
    exact ⟨e, Expr.ofSource_eq_ok_iff.1 htree, (Except.ok.inj h).symm⟩

/-- The program compiled from a source text, whatever the registers hold when it starts, returns the
value of the expression that the text is, or ends in a division error if there is no value. The
value is exact if nothing on the way leaves the range of words. -/
theorem execute_compile {source asm : String} (h : compile source = .ok asm) {m : Machine}
    (hm : m.stack = []) :
    (∃ s, Derives source.toList s) ∧ ∀ s, Derives source.toList s →
      Yields s.eval? (fun v m' => m'.rax = v ∧ m'.stack = []) (execute asm m) ∧
        (s.Fits → ∃ m', execute asm m = .ok m' ∧ m'.stack = [] ∧
          s.evalInt? = some m'.rax.toInt) := by
  obtain ⟨e, hparse, rfl⟩ := exists_parse_of_compile h
  obtain ⟨s, hs, rfl, -⟩ := (exists_parse_iff_derives e).1 hparse
  have hreturns := execute_listing s.tree hm
  rw [s.eval?_tree] at hreturns
  refine ⟨⟨s, hs⟩, fun t ht => ?_⟩
  obtain rfl := hs.unique ht
  refine ⟨hreturns, fun hfits => ?_⟩
  obtain ⟨v, heval, hexact⟩ := Surface.exists_eval?_of_fits hfits
  rw [heval] at hreturns
  obtain ⟨m', hexecute, rfl, hstack⟩ := hreturns
  exact ⟨m', hexecute, hstack, hexact⟩

set_option maxRecDepth 4000 in
/-- The sign of `-7/2` belongs to the dividend, and the registers need not be clear. -/
theorem execute_compile_signed_quotient :
    let asm := ".intel_syntax noprefix\n.global main\nmain:\n" ++
      "\tpush 0\n\tpush 7\n\tpop rdi\n\tpop rax\n\tsub rax, rdi\n\tpush rax\n" ++
      "\tpush 2\n\tpop rdi\n\tpop rax\n\tcqo\n\tidiv rdi\n\tpush rax\n\tpop rax\n\tret\n"
    compile "-7/2" = .ok asm ∧
      ∃ s, Derives "-7/2".toList s ∧
        Yields s.eval? (fun v m => m.rax = v ∧ m.stack = []) (execute asm ⟨3, 1, 4, none, []⟩) := by
  intro asm
  have h : compile "-7/2" = .ok asm := by
    rw [compile_eq]
    cbv
  obtain ⟨⟨s, hs⟩, hreturns⟩ := execute_compile h (m := ⟨3, 1, 4, none, []⟩) rfl
  exact ⟨h, s, hs, (hreturns s hs).1⟩

end ExprCompiler
