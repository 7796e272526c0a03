import ExprCompiler.Proofs.Correctness

/-!
# What code does to the stack on its way

`Machine.states` lists the machines that a run goes through, up to its end or to the instruction
that traps. The code that `emit_expr` writes for a tree works above the words that were on the stack
before it started: at every point the stack is those words, with at most `Expr.stackDepth` more on
top of them (`Expr.above_of_mem_states`). A run that pops one of the old words would go through a
machine in which that word is missing, so none is ever popped.
-/

namespace ExprCompiler

open Asm

namespace Machine

/-- The machines that a run goes through, the first one included. -/
def states (m : Machine) : List Instruction → List Machine
  | [] => [m]
  | i :: code => m ::
    match m.step i with
    | .ok m' => m'.states code
    | .error _ => []

variable {m m' n : Machine} {code next : List Instruction}

@[simp]
theorem states_nil (m : Machine) : m.states [] = [m] := rfl

theorem states_cons_of_ok {i : Instruction} (h : m.step i = .ok n) (code : List Instruction) :
    m.states (i :: code) = m :: n.states code := by
  rw [states, h]

theorem mem_states_self (m : Machine) (code : List Instruction) : m ∈ m.states code := by
  cases code <;> simp [states]

/-- A run through two pieces of code goes through the machines of the first piece, and through those
of the second piece if it gets there. -/
theorem mem_states_append :
    m' ∈ m.states (code ++ next) ↔
      m' ∈ m.states code ∨ ∃ n, m.exec code = .ok n ∧ m' ∈ n.states next := by
  induction code generalizing m with
  | nil =>
    constructor
    · intro h
      exact .inr ⟨m, rfl, h⟩
    · rintro (h | ⟨n, hn, h⟩)
      · obtain rfl := List.mem_singleton.1 h
        exact mem_states_self m' next
      · obtain rfl := Except.ok.inj hn
        exact h
  | cons i code ih =>
    rw [List.cons_append, states, states, exec_cons, List.mem_cons, List.mem_cons, or_assoc]
    apply or_congr_right
    cases m.step i with
    | error trap => simp [bind, Except.bind]
    | ok n => exact ih

theorem mem_states_of_exec (h : m.exec code = .ok n) : n ∈ m.states code := by
  have hmem : n ∈ m.states (code ++ []) := mem_states_append.2 (.inr ⟨n, h, by simp⟩)
  rwa [List.append_nil] at hmem

end Machine

/-! ## Code that leaves the stack alone -/

def Asm.Instruction.leavesStack : Instruction → Bool
  | .pushConstant _ | .push _ | .pop _ => false
  | _ => true

namespace Machine

variable {m m' : Machine} {code : List Instruction}

theorem stack_eq_of_step {i : Instruction} (hi : i.leavesStack) (h : m.step i = .ok m') :
    m'.stack = m.stack := by
  have hset (m : Machine) (value : Int64) (target : Register) :
      (m.set value target).stack = m.stack := by
    cases target <;> rfl
  cases i with
  | pushConstant | push | pop => simp [Instruction.leavesStack] at hi
  | load | add | sub | imul =>
    obtain rfl := Except.ok.inj h
    exact hset ..
  | cqo | cmp | movzb =>
    obtain rfl := Except.ok.inj h
    rfl
  | idiv divisor =>
    rw [step, divide] at h
    split at h
    · simp at h
    · obtain rfl := Except.ok.inj h
      rfl
  | sete =>
    rw [step] at h
    split at h
    · simp at h
    · obtain rfl := Except.ok.inj h
      rfl
  | ret =>
    rw [step] at h
    split at h
    · obtain rfl := Except.ok.inj h
      rfl
    · simp at h

theorem stack_eq_of_mem_states (hcode : ∀ i ∈ code, i.leavesStack) (h : m' ∈ m.states code) :
    m'.stack = m.stack := by
  induction code generalizing m with
  | nil =>
    obtain rfl := List.mem_singleton.1 h
    rfl
  | cons i code ih =>
    rw [states] at h
    rcases List.mem_cons.1 h with rfl | h
    · rfl
    · cases hstep : m.step i with
      | error trap => simp [hstep] at h
      | ok n =>
        rw [hstep] at h
        rw [ih (fun j hj => hcode j (by simp [hj])) h]
        exact stack_eq_of_step (hcode i (by simp)) hstep

theorem leavesStack_of_mem_operatorCode {op : Operator} {i : Instruction}
    (h : i ∈ operatorCode op) : i.leavesStack := by
  revert i
  cases op <;> simp [operatorCode, Instruction.leavesStack]

/-! ## Words on top of a stack -/

/-- The stack is `base` with at most `n` words on top. -/
def Above (base : List Int64) (n : Nat) (m : Machine) : Prop :=
  ∃ pushed, m.stack = pushed ++ base ∧ pushed.length ≤ n

theorem Above.mono {base : List Int64} {k n : Nat} (h : m.Above base k) (hle : k ≤ n) :
    m.Above base n := by
  obtain ⟨pushed, hstack, hlength⟩ := h
  exact ⟨pushed, hstack, by omega⟩

theorem Above.under {base : List Int64} {word : Int64} {n : Nat} (h : m.Above (word :: base) n) :
    m.Above base (n + 1) := by
  obtain ⟨pushed, hstack, hlength⟩ := h
  refine ⟨pushed ++ [word], ?_, ?_⟩
  · rw [hstack, List.append_assoc, List.singleton_append]
  · rw [List.length_append, List.length_singleton]
    omega

theorem Above.length_le {base : List Int64} {n : Nat} (h : m.Above base n) :
    m.stack.length ≤ n + base.length := by
  obtain ⟨pushed, hstack, hlength⟩ := h
  rw [hstack, List.length_append]
  omega

theorem above_of_mem_states_literalCode {value : Int64} (h : m' ∈ m.states (literalCode value)) :
    m'.Above m.stack 1 := by
  have hnone : m.Above m.stack 1 := ⟨[], rfl, by simp⟩
  unfold literalCode at h
  split at h
  · rw [states_cons_of_ok rfl, states_nil] at h
    rcases List.mem_pair.1 h with rfl | rfl
    · exact hnone
    · exact ⟨[_], rfl, by simp⟩
  · rw [states_cons_of_ok rfl, states_cons_of_ok rfl, states_nil] at h
    simp only [List.mem_cons, List.not_mem_nil, or_false] at h
    rcases h with rfl | rfl | rfl
    · exact hnone
    · exact ⟨[], rfl, by simp⟩
    · exact ⟨[_], rfl, by simp⟩

theorem above_of_mem_states_applyCode {l r : Int64} {base : List Int64}
    (hm : m.stack = r :: l :: base) {op : Operator} (h : m' ∈ m.states (applyCode op)) :
    m'.Above base 2 := by
  have hfirst : m.step (.pop .rdi) = .ok { m with rdi := r, stack := l :: base } := by
    rw [step, hm]
    rfl
  have hsecond : step { m with rdi := r, stack := l :: base } (.pop .rax) =
      .ok { m with rax := l, rdi := r, stack := base } := rfl
  have hcode : applyCode op =
      .pop .rdi :: .pop .rax :: (operatorCode op ++ [.push .rax]) := by
    simp [applyCode]
  rw [hcode, states_cons_of_ok hfirst, states_cons_of_ok hsecond, List.mem_cons, List.mem_cons,
    mem_states_append] at h
  rcases h with rfl | rfl | h | ⟨n, hn, h⟩
  · exact ⟨[r, l], hm, by simp⟩
  · exact ⟨[l], rfl, by simp⟩
  · have hstack := stack_eq_of_mem_states (fun i => leavesStack_of_mem_operatorCode) h
    exact ⟨[], hstack, by simp⟩
  · have hstack : n.stack = base :=
      stack_eq_of_mem_states (fun i => leavesStack_of_mem_operatorCode) (mem_states_of_exec hn)
    rw [states_cons_of_ok rfl, states_nil] at h
    rcases List.mem_pair.1 h with rfl | rfl
    · exact ⟨[], hstack, by simp⟩
    · refine ⟨[n.rax], ?_, by simp⟩
      show n.rax :: n.stack = [n.rax] ++ base
      rw [hstack, List.singleton_append]

end Machine

/-! ## Code of trees -/

namespace Expr

open Machine

/-- The most words that the code of a tree has on the stack at once: the value of the left operand
lies there while the right operand is worked out. -/
def stackDepth : Expr → Nat
  | .literal _ => 1
  | .binary _ lhs rhs => max lhs.stackDepth (rhs.stackDepth + 1)

theorem stackDepth_pos (e : Expr) : 0 < e.stackDepth := by
  cases e with
  | literal value => exact Nat.one_pos
  | binary op lhs rhs =>
    rw [stackDepth]
    omega

/-- Code of a tree that comes to its end has pushed the value of the tree. -/
theorem stack_of_exec_code {e : Expr} {m n : Machine} (h : m.exec e.code = .ok n) :
    ∃ v, e.eval? = some v ∧ n.stack = v :: m.stack := by
  have hyields := e.exec_code m
  rw [h] at hyields
  cases heval : e.eval? with
  | none =>
    rw [heval] at hyields
    exact absurd hyields (by simp [Yields])
  | some v =>
    rw [heval] at hyields
    obtain ⟨m', hm', hstack⟩ := hyields
    obtain rfl := Except.ok.inj hm'
    exact ⟨v, rfl, hstack⟩

/-- The code of a tree leaves the words below alone and needs no more room than its depth. -/
theorem above_of_mem_states (e : Expr) {m m' : Machine} (h : m' ∈ m.states e.code) :
    m'.Above m.stack e.stackDepth := by
  induction e generalizing m m' with
  | literal value =>
    rw [code_literal] at h
    exact above_of_mem_states_literalCode h
  | binary op lhs rhs ihl ihr =>
    have hpos := rhs.stackDepth_pos
    rw [code_binary, List.append_assoc, mem_states_append] at h
    rw [stackDepth]
    rcases h with h | ⟨n₁, hn₁, h⟩
    · exact (ihl h).mono (by omega)
    · -- from here on the value of the left operand lies on the old words
      obtain ⟨l, -, hstack₁⟩ := stack_of_exec_code hn₁
      rcases mem_states_append.1 h with h | ⟨n₂, hn₂, h⟩
      · have habove := ihr h
        rw [hstack₁] at habove
        exact habove.under.mono (by omega)
      · obtain ⟨r, -, hstack₂⟩ := stack_of_exec_code hn₂
        rw [hstack₁] at hstack₂
        exact (above_of_mem_states_applyCode hstack₂ h).mono (by omega)

end Expr

end ExprCompiler
