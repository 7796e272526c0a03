import ExprCompiler.Proofs.Trace

/-!
# Where compiled code faults

A tree is evaluated from the left operand over the right operand to the operator, and where a
division has no result, evaluation ends at that node. `Expr.evaluate` gives the value, or the path
from the root to the node; `Expr.subtree?_of_evaluate_eq_error` says what is wrong there.

`Expr.located` is the code of a tree with every instruction marked by the node it belongs to. No
marked instruction occurs twice, so the `idiv` of a node is one place in the code, and a run faults
at the `idiv` of the very node where evaluation ends (`Expr.faultsAt_of_evaluate_eq_error`).

The main statement, `exec_text_of_code`, is about the code as the text that `generate` gives, read
line by line.
-/

namespace ExprCompiler

open Asm Machine

/-- The way from a node to one of its operands. -/
inductive Side where
  | left
  | right
deriving DecidableEq, Repr

/-- The way from the root of a tree to one of its nodes. -/
abbrev Path := List Side

namespace Expr

def subtree? : Expr → Path → Option Expr
  | e, [] => some e
  | .binary _ lhs _, .left :: path => lhs.subtree? path
  | .binary _ _ rhs, .right :: path => rhs.subtree? path
  | .literal _, _ :: _ => none

/-- The value of a tree, or the first node on the way to it that has no result. -/
def evaluate : Expr → Except Path Int64
  | .literal value => .ok value
  | .binary op lhs rhs => do
    let l ← lhs.evaluate.mapError (.left :: ·)
    let r ← rhs.evaluate.mapError (.right :: ·)
    match op.onWords? l r with
    | some v => .ok v
    | none => .error []

/-! ## Evaluation -/

section Evaluate

variable {op : Operator} {lhs rhs : Expr} {l r : Int64}

theorem evaluate_left {path : Path} (h : lhs.evaluate = .error path) :
    (binary op lhs rhs).evaluate = .error (.left :: path) := by
  rw [evaluate, h]
  rfl

theorem evaluate_right {path : Path} (hl : lhs.evaluate = .ok l)
    (h : rhs.evaluate = .error path) :
    (binary op lhs rhs).evaluate = .error (.right :: path) := by
  rw [evaluate, hl, h]
  rfl

theorem evaluate_operator (hl : lhs.evaluate = .ok l) (hr : rhs.evaluate = .ok r) :
    (binary op lhs rhs).evaluate =
      match op.onWords? l r with
      | some v => .ok v
      | none => .error [] := by
  rw [evaluate, hl, hr]
  rfl

end Evaluate

theorem eval?_eq_toOption (e : Expr) : e.eval? = e.evaluate.toOption := by
  induction e with
  | literal value => rfl
  | binary op lhs rhs ihl ihr =>
    rw [eval?, ihl, ihr]
    cases hl : lhs.evaluate with
    | error path =>
      rw [evaluate_left hl]
      rfl
    | ok l =>
      cases hr : rhs.evaluate with
      | error path =>
        rw [evaluate_right hl hr]
        rfl
      | ok r =>
        rw [evaluate_operator hl hr]
        show op.onWords? l r = _
        cases op.onWords? l r <;> rfl

theorem eval?_of_evaluate {e : Expr} {v : Int64} (h : e.evaluate = .ok v) : e.eval? = some v := by
  rw [eval?_eq_toOption, h]
  rfl

/-- Code of a tree that has a value pushes it. -/
theorem exec_code_of_evaluate {e : Expr} {v : Int64} (h : e.evaluate = .ok v) (m : Machine) :
    ∃ n, m.exec e.code = .ok n ∧ n.stack = v :: m.stack := by
  have hyields := e.exec_code m
  rw [eval?_of_evaluate h] at hyields
  exact hyields

/-- Evaluation ends early in the left operand, in the right operand or at the operator. -/
theorem cases_of_evaluate_eq_error {op : Operator} {lhs rhs : Expr} {path : Path}
    (h : (binary op lhs rhs).evaluate = .error path) :
    (∃ tail, path = .left :: tail ∧ lhs.evaluate = .error tail) ∨
      (∃ l, lhs.evaluate = .ok l ∧ ∃ tail, path = .right :: tail ∧ rhs.evaluate = .error tail) ∨
      ∃ l r, lhs.evaluate = .ok l ∧ rhs.evaluate = .ok r ∧ path = [] ∧ op.onWords? l r = none := by
  cases hl : lhs.evaluate with
  | error tail =>
    rw [evaluate_left hl] at h
    exact .inl ⟨tail, (Except.error.inj h).symm, rfl⟩
  | ok l =>
    cases hr : rhs.evaluate with
    | error tail =>
      rw [evaluate_right hl hr] at h
      exact .inr (.inl ⟨l, rfl, tail, (Except.error.inj h).symm, rfl⟩)
    | ok r =>
      rw [evaluate_operator hl hr] at h
      cases hop : op.onWords? l r with
      | some v => simp [hop] at h
      | none =>
        rw [hop] at h
        exact .inr (.inr ⟨l, r, rfl, rfl, (Except.error.inj h).symm, hop⟩)

end Expr

/-- Only a division can have no result: one by zero, or the one whose quotient is too large. -/
theorem Operator.eq_div_of_onWords?_eq_none {op : Operator} {l r : Int64}
    (h : op.onWords? l r = none) : op = .div ∧ (r = 0 ∨ l = Int64.minValue ∧ r = -1) := by
  cases op with
  | add | sub | mul | eq => simp [onWords?] at h
  | div =>
    rw [onWords?] at h
    by_cases hfault : r = 0 ∨ l = Int64.minValue ∧ r = -1
    · exact ⟨rfl, hfault⟩
    · simp [hfault] at h

/-- Where evaluation ends early, there is a division whose operands have values but no quotient. -/
theorem Expr.subtree?_of_evaluate_eq_error {e : Expr} {path : Path}
    (h : e.evaluate = .error path) :
    ∃ lhs rhs l r, e.subtree? path = some (.binary .div lhs rhs) ∧ lhs.eval? = some l ∧
      rhs.eval? = some r ∧ (r = 0 ∨ l = Int64.minValue ∧ r = -1) := by
  induction e generalizing path with
  | literal value => simp [evaluate] at h
  | binary op lhs rhs ihl ihr =>
    rcases cases_of_evaluate_eq_error h with
      ⟨tail, rfl, htail⟩ | ⟨l, -, tail, rfl, htail⟩ | ⟨l, r, hl, hr, rfl, hop⟩
    · exact ihl htail
    · exact ihr htail
    · obtain ⟨rfl, hfault⟩ := Operator.eq_div_of_onWords?_eq_none hop
      exact ⟨lhs, rhs, l, r, rfl, eval?_of_evaluate hl, eval?_of_evaluate hr, hfault⟩

/-! ## Instructions and the nodes they belong to -/

/-- Instructions of an operand, marked by the way from its parent. -/
def inOperand (side : Side) (code : List (Path × Instruction)) : List (Path × Instruction) :=
  code.map fun marked => (side :: marked.1, marked.2)

/-- Instructions of the root. -/
def atRoot (code : List Instruction) : List (Path × Instruction) := code.map fun i => ([], i)

@[simp]
theorem inOperand_map_snd (side : Side) (code : List (Path × Instruction)) :
    (inOperand side code).map Prod.snd = code.map Prod.snd := by
  rw [inOperand, List.map_map]
  rfl

@[simp]
theorem atRoot_map_snd (code : List Instruction) : (atRoot code).map Prod.snd = code := by
  rw [atRoot, List.map_map]
  exact List.map_id code

/-- The code of a tree, each instruction with the node it belongs to. -/
def Expr.located : Expr → List (Path × Instruction)
  | .literal value => atRoot (literalCode value)
  | .binary op lhs rhs =>
    inOperand .left lhs.located ++ inOperand .right rhs.located ++ atRoot (applyCode op)

theorem Expr.located_map_snd (e : Expr) : e.located.map Prod.snd = e.code := by
  induction e with
  | literal value => rw [located, atRoot_map_snd, code_literal]
  | binary op lhs rhs ihl ihr =>
    rw [located, List.map_append, List.map_append, inOperand_map_snd, inOperand_map_snd,
      atRoot_map_snd, ihl, ihr, code_binary]

theorem nodup_literalCode (value : Int64) : (literalCode value).Nodup := by
  unfold literalCode
  split <;> simp

theorem nodup_applyCode (op : Operator) : (applyCode op).Nodup := by
  cases op <;> decide

theorem nodup_inOperand (side : Side) {code : List (Path × Instruction)} (h : code.Nodup) :
    (inOperand side code).Nodup := by
  refine h.map fun a b hab => ?_
  obtain ⟨hpath, hinstruction⟩ := Prod.mk.inj hab
  exact Prod.ext (List.cons.inj hpath).2 hinstruction

theorem nodup_atRoot {code : List Instruction} (h : code.Nodup) : (atRoot code).Nodup :=
  h.map fun _ _ hab => (Prod.mk.inj hab).2

/-- A node has each of its instructions in one place of the code only. -/
theorem Expr.nodup_located (e : Expr) : e.located.Nodup := by
  induction e with
  | literal value => exact nodup_atRoot (nodup_literalCode value)
  | binary op lhs rhs ihl ihr =>
    have hleft := nodup_inOperand .left ihl
    have hright := nodup_inOperand .right ihr
    have hroot := nodup_atRoot (nodup_applyCode op)
    -- the three parts belong to different nodes, as the first step of their paths shows
    have hoperands : (inOperand .left lhs.located).Disjoint (inOperand .right rhs.located) := by
      intro a ha hb
      obtain ⟨x, -, rfl⟩ := List.mem_map.1 ha
      obtain ⟨y, -, hy⟩ := List.mem_map.1 hb
      simp at hy
    have hdisjoint : (inOperand .left lhs.located ++ inOperand .right rhs.located).Disjoint
        (atRoot (applyCode op)) := by
      intro a ha hb
      obtain ⟨i, -, rfl⟩ := List.mem_map.1 hb
      rcases List.mem_append.1 ha with ha | ha
      · obtain ⟨x, -, hx⟩ := List.mem_map.1 ha
        simp at hx
      · obtain ⟨x, -, hx⟩ := List.mem_map.1 ha
        simp at hx
    exact (hleft.append hright hoperands).append hroot hdisjoint

/-! ## The instruction that faults -/

namespace Machine

/-- The run comes to the `idiv` of the node `path`, and faults there. -/
def FaultsAt (m : Machine) (code : List (Path × Instruction)) (path : Path) : Prop :=
  ∃ before after n, code = before ++ (path, .idiv .rdi) :: after ∧
    m.exec (before.map Prod.snd) = .ok n ∧ n.step (.idiv .rdi) = .error .divideError

variable {m n : Machine} {code next : List (Path × Instruction)} {path : Path}

theorem FaultsAt.append (h : m.FaultsAt code path) (next : List (Path × Instruction)) :
    m.FaultsAt (code ++ next) path := by
  obtain ⟨before, after, n, rfl, hexec, hstep⟩ := h
  exact ⟨before, after ++ next, n, by simp, hexec, hstep⟩

theorem FaultsAt.after (hexec : m.exec (code.map Prod.snd) = .ok n) (h : n.FaultsAt next path) :
    m.FaultsAt (code ++ next) path := by
  obtain ⟨before, after, n', rfl, hbefore, hstep⟩ := h
  refine ⟨code ++ before, after, n', by simp, ?_, hstep⟩
  rw [List.map_append, exec_append, hexec]
  exact hbefore

theorem FaultsAt.inOperand (h : m.FaultsAt code path) (side : Side) :
    m.FaultsAt (inOperand side code) (side :: path) := by
  obtain ⟨before, after, n, rfl, hexec, hstep⟩ := h
  refine ⟨ExprCompiler.inOperand side before, ExprCompiler.inOperand side after, n, ?_, ?_, hstep⟩
  · simp [ExprCompiler.inOperand]
  · rw [inOperand_map_snd]
    exact hexec

theorem FaultsAt.exec_eq (h : m.FaultsAt code path) :
    m.exec (code.map Prod.snd) = .error .divideError := by
  obtain ⟨before, after, n, rfl, hexec, hstep⟩ := h
  rw [List.map_append, List.map_cons, exec_append, hexec]
  show (do let m ← n.step (.idiv .rdi); m.exec _) = _
  rw [hstep]
  rfl

/-- A division without a result faults at its `idiv`, after its operands were popped. -/
theorem faultsAt_applyCode {l r : Int64} {base : List Int64} (hm : m.stack = r :: l :: base)
    (h : Operator.div.onWords? l r = none) : m.FaultsAt (atRoot (applyCode .div)) [] := by
  have hdivide := exec_cqo_idiv { m with rax := l, rdi := r, stack := base }
  rw [h] at hdivide
  refine ⟨atRoot [.pop .rdi, .pop .rax, .cqo], atRoot [.push .rax],
    { m with rax := l, rdi := r, rdx := if l.toInt < 0 then -1 else 0, stack := base }, rfl,
    ?_, ?_⟩
  · rw [atRoot_map_snd]
    show m.exec ([.pop .rdi, .pop .rax] ++ [.cqo]) = _
    rw [exec_append, exec_pops hm]
    rfl
  · rw [← exec_singleton]
    exact hdivide

end Machine

/-- Code faults at the node where evaluation ends early. -/
theorem Expr.faultsAt_of_evaluate_eq_error {e : Expr} {path : Path} (h : e.evaluate = .error path)
    (m : Machine) : m.FaultsAt e.located path := by
  induction e generalizing path m with
  | literal value => simp [evaluate] at h
  | binary op lhs rhs ihl ihr =>
    have hcode {e : Expr} {v : Int64} (side : Side) (m : Machine) (hv : e.evaluate = .ok v) :
        ∃ n, m.exec ((inOperand side e.located).map Prod.snd) = .ok n ∧
          n.stack = v :: m.stack := by
      rw [inOperand_map_snd, located_map_snd]
      exact exec_code_of_evaluate hv m
    rw [located]
    rcases cases_of_evaluate_eq_error h with
      ⟨tail, rfl, htail⟩ | ⟨l, hl, tail, rfl, htail⟩ | ⟨l, r, hl, hr, rfl, hop⟩
    · exact (((ihl htail m).inOperand .left).append _).append _
    · obtain ⟨n, hn, -⟩ := hcode .left m hl
      exact (FaultsAt.after hn ((ihr htail n).inOperand .right)).append _
    · obtain ⟨rfl, -⟩ := Operator.eq_div_of_onWords?_eq_none hop
      obtain ⟨n₁, hn₁, hstack₁⟩ := hcode .left m hl
      obtain ⟨n₂, hn₂, hstack₂⟩ := hcode .right n₁ hr
      rw [hstack₁] at hstack₂
      rw [List.append_assoc]
      exact .after hn₁ (.after hn₂ (faultsAt_applyCode hstack₂ hop))

/-! ## Code as a text -/

/-- The instructions of a text without a header. -/
def Asm.readText? (text : String) : Option (List Instruction) :=
  readLines? (text.toList.splitOn '\n')

/-- The text of the code of a tree, read line by line and run on any machine, either ends with the
value of the tree on top of the stack, or it faults at the `idiv` of the first node that has no
result. The words that were on the stack stay there all the time. -/
theorem exec_text_of_code (e : Expr) (m : Machine) :
    e.evaluate.toOption = e.eval? ∧ e.located.Nodup ∧
    ∃ code, readText? (lines e.code) = some code ∧ e.located.map Prod.snd = code ∧
      (∀ m' ∈ m.states code, ∃ pushed, m'.stack = pushed ++ m.stack) ∧
      match e.evaluate with
      | .ok v => ∃ m', m.exec code = .ok m' ∧ m'.stack = v :: m.stack
      | .error path =>
        (∃ lhs rhs l r, e.subtree? path = some (.binary .div lhs rhs) ∧ lhs.eval? = some l ∧
          rhs.eval? = some r ∧ (r = 0 ∨ l = Int64.minValue ∧ r = -1)) ∧
        m.exec code = .error .divideError ∧ m.FaultsAt e.located path := by
  refine ⟨e.eval?_eq_toOption.symm, e.nodup_located, e.code, readLines?_splitOn_lines e.code,
    e.located_map_snd, ?_, ?_⟩
  · intro m' hm'
    obtain ⟨pushed, hstack, -⟩ := e.above_of_mem_states hm'
    exact ⟨pushed, hstack⟩
  · cases heval : e.evaluate with
    | ok v => exact Expr.exec_code_of_evaluate heval m
    | error path =>
      have hfaults := Expr.faultsAt_of_evaluate_eq_error heval m
      refine ⟨Expr.subtree?_of_evaluate_eq_error heval, ?_, hfaults⟩
      rw [← e.located_map_snd]
      exact hfaults.exec_eq

end ExprCompiler
