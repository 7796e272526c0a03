import ExprCompiler.Proofs.Trace

/-!
# How much stack a compiled program needs

Chains of operators fold to the left, and the code that `emit_expr` writes for a left operand leaves
nothing but its value on the stack. So only right operands let the stack grow, and a right operand
is always of a tighter level of the grammar, as is the operand of a minus sign: between two
parentheses the stack grows by at most four words, one for each level that has a tighter one.
`Phrase.stackDepth_le` is this count, and `stack_length_le_of_compile` the bound for programs, which
depends on the parentheses of the source text alone.
-/

namespace ExprCompiler

open Asm Machine

/-! ## The most parentheses open at once -/

section MostOpen

variable {α : Type} [DecidableEq α] {l r : α}

/-- The largest number of brackets that are open at once in `w`. -/
def mostOpen (l r : α) (w : List α) : Nat :=
  w.inits.toFinset.sup fun p => p.count l - p.count r

theorem nestedWithin_iff_mostOpen_le {w : List α} {n : Nat} :
    NestedWithin l r n w ↔ mostOpen l r w ≤ n := by
  unfold NestedWithin mostOpen
  rw [Finset.sup_le_iff]
  constructor
  · intro h p hp
    have hprefix : p <+: w := by simpa using hp
    have := h p hprefix
    omega
  · intro h p hp
    have := h p (by simpa using hp)
    omega

end MostOpen

/-! ## The depth of a phrase -/

/-- Each level of the grammar and each pair of parentheses adds to the depth of a tree, however long
the chains of operators are. -/
theorem Phrase.stackDepth_le {α : Type} {lex : Lexicon α} {L : Level} {w : List α} {s : Surface}
    (h : Phrase lex L w s) :
    s.tree.stackDepth + L.tightness ≤ 4 * (s.nesting + 1) + 1 := by
  induction h with
  | number hw => simp [Surface.tree, Expr.stackDepth, Surface.nesting, Level.tightness]
  | paren hl hw hr ih =>
    simp only [Surface.tree, Surface.nesting, Level.tightness] at ih ⊢
    omega
  | plus hp hw ih =>
    simp only [Surface.tree, Surface.nesting, Level.tightness] at ih ⊢
    omega
  | minus hp hw ih =>
    simp only [Surface.tree, Expr.stackDepth, Surface.nesting, Level.tightness] at ih ⊢
    omega
  | tighter hL hw ih =>
    have htight := Level.tightness_of_tighter hL
    omega
  | binary hL hop hu ho hv ihu ihv =>
    -- the left operand is of the same level, the right one of a tighter level
    have htight := Level.tightness_of_tighter hL
    simp only [Surface.tree, Expr.stackDepth, Surface.nesting]
    omega

/-! ## Programs -/

/-- Returning takes the value from the stack and pushes nothing. -/
theorem length_le_of_mem_states_program (e : Expr) {m m' : Machine} (hm : m.stack = [])
    (h : m' ∈ m.states (e.code ++ epilogue)) : m'.stack.length ≤ e.stackDepth := by
  have hpos := e.stackDepth_pos
  rcases mem_states_append.1 h with h | ⟨n, hn, h⟩
  · have hlength := (e.above_of_mem_states h).length_le
    rwa [hm] at hlength
  · obtain ⟨v, -, hstack⟩ := Expr.stack_of_exec_code hn
    rw [hm] at hstack
    have hpop : n.step (.pop .rax) = .ok { n with rax := v, stack := [] } := by
      rw [step, hstack]
      rfl
    rw [epilogue, states_cons_of_ok hpop, states_cons_of_ok rfl, states_nil] at h
    simp only [List.mem_cons, List.not_mem_nil, or_false] at h
    rcases h with rfl | rfl | rfl
    · rw [hstack]
      exact hpos
    · exact Nat.zero_le _
    · exact Nat.zero_le _

/-- A compiled program never has more words on the stack than the parentheses of its source text
allow for, wherever its run is and however it ends. -/
theorem stack_length_le_of_compile {source asm : String} (h : compile source = .ok asm)
    {m : Machine} (hm : m.stack = []) :
    mostOpen '(' ')' source.toList ≤ 256 ∧
    ∃ program, assemble asm = some program ∧ ∀ m' ∈ m.states program,
      m'.stack.length ≤ 4 * (mostOpen '(' ')' source.toList + 1) + 1 ∧
        m'.stack.length ≤ 1029 := by
  obtain ⟨e, hparse, rfl⟩ := exists_parse_of_compile h
  obtain ⟨s, hs, rfl, hnesting, -⟩ := (exists_parse_iff_derives e).1 hparse
  have hopen : mostOpen '(' ')' source.toList ≤ 256 :=
    nestedWithin_iff_mostOpen_le.1 ((hs.nestedWithin_iff 256).2 hnesting)
  have hopen' : s.nesting ≤ mostOpen '(' ')' source.toList :=
    (hs.nestedWithin_iff _).1 (nestedWithin_iff_mostOpen_le.2 (Nat.le_refl _))
  refine ⟨hopen, s.tree.code ++ epilogue, assemble_listing _, fun m' hm' => ?_⟩
  obtain ⟨body, gap, -, -, hphrase⟩ := hs
  have hdepth := hphrase.stackDepth_le
  have hlength := length_le_of_mem_states_program s.tree hm hm'
  omega

/-- Where every level of the grammar waits for its right operand, as in `1==2+3*-4`, the bound is
reached. -/
example : (Expr.binary .eq (.literal 1) (.binary .add (.literal 2) (.binary .mul (.literal 3)
    (.binary .sub (.literal 0) (.literal 4))))).stackDepth = 4 * (0 + 1) + 1 := by decide

set_option maxRecDepth 4000 in
/-- The bound holds on the way to a division by zero too. -/
theorem stack_length_le_of_compile_zero_divisor :
    let asm := ".intel_syntax noprefix\n.global main\nmain:\n" ++
      "\tpush 7\n\tpush 0\n\tpop rdi\n\tpop rax\n\tcqo\n\tidiv rdi\n\tpush rax\n\tpop rax\n\tret\n"
    compile "(7)/0" = .ok asm ∧ ∃ program, assemble asm = some program ∧
      ∀ m' ∈ Machine.states ⟨3, 1, 4, none, []⟩ program, m'.stack.length ≤ 9 := by
  intro asm
  have h : compile "(7)/0" = .ok asm := by
    rw [compile_eq]
    cbv
  have hopen : mostOpen '(' ')' "(7)/0".toList = 1 := by decide
  obtain ⟨-, program, hprogram, hbound⟩ :=
    stack_length_le_of_compile h (m := ⟨3, 1, 4, none, []⟩) rfl
  rw [hopen] at hbound
  exact ⟨h, program, hprogram, fun m' hm' => (hbound m' hm').1⟩

end ExprCompiler
