import ExprCompiler.Proofs.Parsing

/-!
# Where an expression exceeds the limits

An expression goes beyond the limits at a parenthesis, which is opened although as many as allowed
are open, or at an operator, whose node is too high although its operands are not. A reader that
goes from left to right notices the parenthesis where it is opened, as `parse_primary` does, but the
operator only where its right operand ends and `join` builds its node: until then the height of the
node is not known.

`Exceeds room limit s k j` says that terminal number `k` of `s` is such a parenthesis or operator
and that it is noticed at terminal number `j`, if `room` parentheses may be open and trees may be
`limit` high. The excesses of an expression are those of its operands, some terminals further on,
and the one at its own operator (`exceeds_iff_of_operands`).

Of several excesses one is noticed first. Where an operator is just too high, its operands can only
have opened too many parentheses (`Exceeds.opens`), and that happens before their last terminal, so
the operand's first excess is still the first (`FirstExcess.minus`, `FirstExcess.right`).
-/

namespace ExprCompiler

open Terminal

/-! ## Parts of an expression -/

/-- The number of terminals that an expression is written with. -/
def Surface.width (s : Surface) : Nat := s.terminals.length

/-- The operands of an expression, or what is in its parentheses, each with the number of terminals
before it. -/
def Surface.operands : Surface → List (Nat × Surface)
  | .number _ => []
  | .paren inner => [(1, inner)]
  | .plus operand => [(1, operand)]
  | .minus operand => [(1, operand)]
  | .binary _ lhs rhs => [(0, lhs), (lhs.width + 1, rhs)]

/-- `s.PartAt n t`: the expression `t` is a part of `s`, with `n` terminals of `s` before it. -/
inductive Surface.PartAt : Surface → Nat → Surface → Prop where
  | whole (s : Surface) : PartAt s 0 s
  | inside {s t u : Surface} {d n : Nat} (hoperand : (d, t) ∈ s.operands) (hpart : PartAt t n u) :
      PartAt s (d + n) u

/-! ## Excesses -/

/-- Terminal number `k` of `w` opens a parenthesis although `room` are open already. -/
def OpensBeyond (room : Nat) (w : List Terminal) (k : Nat) : Prop :=
  w[k]? = some (ofSymbol .leftParen) ∧
    (w.take k).count (ofSymbol .leftParen) = (w.take k).count (ofSymbol .rightParen) + room

/-- The root is an operator that is one too high, and its operands are not too high. -/
def Expr.JustExceeds (limit : Nat) : Expr → Prop
  | .literal _ => False
  | .binary op lhs rhs =>
    (binary op lhs rhs).height = limit + 1 ∧ lhs.height ≤ limit ∧ rhs.height ≤ limit

/-- An expression that is itself an operator just too high: the operator is terminal number `k`, and
its right operand ends with terminal number `j`. -/
def Surface.NodeExceeds (limit : Nat) : Surface → Nat → Nat → Prop
  | .minus operand, k, j =>
    (Surface.minus operand).tree.JustExceeds limit ∧ k = 0 ∧ j = operand.width
  | .binary op l r, k, j =>
    (Surface.binary op l r).tree.JustExceeds limit ∧ k = l.width ∧ j = l.width + r.width
  | .number _, _, _ | .paren _, _, _ | .plus _, _, _ => False

/-- Terminal number `k` of `s` goes beyond the limits, which is noticed at terminal number `j`. -/
inductive Exceeds (room limit : Nat) (s : Surface) : Nat → Nat → Prop where
  | opening {k : Nat} (h : OpensBeyond room s.terminals k) : Exceeds room limit s k k
  | node {n k j : Nat} {t : Surface} (hpart : s.PartAt n t) (hnode : t.NodeExceeds limit k j) :
      Exceeds room limit s (n + k) (n + j)

/-! ## Parentheses -/

section Parentheses

variable {room k : Nat} {s : Surface} {w : List Terminal}

/-- Every parenthesis of an expression is closed in it. -/
theorem Surface.count_terminals (s : Surface) :
    s.terminals.count (ofSymbol .leftParen) = s.terminals.count (ofSymbol .rightParen) := by
  induction s with
  | number value => simp [terminals, ofSymbol]
  | paren inner ih => simp [terminals, List.count_append, ih]
  | plus operand ih | minus operand ih => simp [terminals, ih]
  | binary op l r ihl ihr => simp [terminals, List.count_append, ihl, ihr]

theorem opensBeyond_append {u v : List Terminal}
    (hu : u.count (ofSymbol .leftParen) = u.count (ofSymbol .rightParen)) :
    OpensBeyond room (u ++ v) k ↔
      OpensBeyond room u k ∨ ∃ k', OpensBeyond room v k' ∧ k = u.length + k' := by
  unfold OpensBeyond
  by_cases hk : k < u.length
  · rw [List.getElem?_append_left hk, List.take_append_of_le_length (Nat.le_of_lt hk)]
    constructor
    · exact .inl
    · rintro (h | ⟨k', -, rfl⟩)
      · exact h
      · omega
  · obtain ⟨k', rfl⟩ := Nat.exists_eq_add_of_le (Nat.le_of_not_lt hk)
    rw [List.getElem?_append_right (Nat.le_add_right _ _), Nat.add_sub_cancel_left,
      List.take_length_add_append, List.count_append, List.count_append, hu]
    constructor
    · rintro ⟨h, hcount⟩
      exact .inr ⟨k', ⟨h, by omega⟩, rfl⟩
    · rintro (⟨h, -⟩ | ⟨k'', ⟨h, hcount⟩, heq⟩)
      · rw [List.getElem?_eq_none (by omega)] at h
        simp at h
      · obtain rfl : k' = k'' := by omega
        exact ⟨h, by omega⟩

theorem not_opensBeyond_singleton {x : Terminal} (hx : x ≠ ofSymbol .leftParen) (room k : Nat) :
    ¬ OpensBeyond room [x] k := by
  rintro ⟨h, -⟩
  exact hx (List.mem_singleton.1 (List.mem_of_getElem? h)).symm

theorem opensBeyond_open :
    OpensBeyond (room + 1) (ofSymbol .leftParen :: w) k ↔
      ∃ k', OpensBeyond room w k' ∧ k = 1 + k' := by
  have hcount (v : List Terminal) :
      (ofSymbol .leftParen :: v).count (ofSymbol .leftParen) = v.count (ofSymbol .leftParen) + 1 ∧
        (ofSymbol .leftParen :: v).count (ofSymbol .rightParen) =
          v.count (ofSymbol .rightParen) :=
    ⟨List.count_cons_self, List.count_cons_of_ne (by simp)⟩
  cases k with
  | zero =>
    constructor
    · rintro ⟨-, h⟩
      simp at h
    · rintro ⟨k', -, h⟩
      omega
  | succ k =>
    have hsucc : OpensBeyond (room + 1) (ofSymbol .leftParen :: w) (k + 1) ↔
        OpensBeyond room w k := by
      unfold OpensBeyond
      rw [List.getElem?_cons_succ, List.take_succ_cons, (hcount _).1, (hcount _).2]
      exact and_congr_right fun _ => by omega
    rw [hsucc]
    constructor
    · intro h
      exact ⟨k, h, by omega⟩
    · rintro ⟨k', h, heq⟩
      obtain rfl : k = k' := by omega
      exact h

/-- In a sequence in which every parenthesis is closed, a parenthesis is not opened at the end. -/
theorem OpensBeyond.lt (h : OpensBeyond room w k)
    (hw : w.count (ofSymbol .leftParen) = w.count (ofSymbol .rightParen)) : k + 1 < w.length := by
  obtain ⟨hget, hcount⟩ := h
  obtain ⟨hk, hget⟩ := List.getElem?_eq_some_iff.1 hget
  by_contra hlast
  have hsplit : w = w.take k ++ [ofSymbol .leftParen] := by
    rw [← hget, List.take_append_getElem, List.take_of_length_le (by omega)]
  rw [hsplit, List.count_append, List.count_append, hcount, List.count_singleton_self,
    List.count_singleton] at hw
  simp at hw
  omega

theorem opensBeyond_operator {op : Operator} :
    OpensBeyond room (ofSymbol (.operator op) :: w) k ↔
      ∃ k', OpensBeyond room w k' ∧ k = 1 + k' := by
  have hbalanced : [ofSymbol (.operator op)].count (ofSymbol .leftParen) =
      [ofSymbol (.operator op)].count (ofSymbol .rightParen) := by simp
  have hoperator := @not_opensBeyond_singleton (ofSymbol (.operator op)) (by simp) room k
  rw [← List.singleton_append, opensBeyond_append hbalanced]
  exact or_iff_right hoperator

/-- Outside its operands an expression opens no parenthesis, unless it is one. -/
theorem opensBeyond_terminals_iff (hs : ∀ inner, s ≠ .paren inner) :
    OpensBeyond room s.terminals k ↔
      ∃ o ∈ s.operands, ∃ k', OpensBeyond room o.2.terminals k' ∧ k = o.1 + k' := by
  cases s with
  | number value =>
    have hnumber := not_opensBeyond_singleton (ofSymbol_ne_number .leftParen value).symm room k
    simp [Surface.operands, Surface.terminals, hnumber]
  | paren inner => exact absurd rfl (hs inner)
  | plus operand | minus operand =>
    simp [Surface.operands, Surface.terminals, opensBeyond_operator]
  | binary op l r =>
    rw [Surface.terminals, opensBeyond_append l.count_terminals]
    constructor
    · rintro (h | ⟨k', h, rfl⟩)
      · exact ⟨(0, l), by simp [Surface.operands], k, h, (Nat.zero_add k).symm⟩
      · obtain ⟨k', hr, rfl⟩ := opensBeyond_operator.1 h
        exact ⟨(l.width + 1, r), by simp [Surface.operands], k', hr, (Nat.add_assoc ..).symm⟩
    · rintro ⟨o, ho, k', h, rfl⟩
      rcases by simpa [Surface.operands] using ho with rfl | rfl
      · exact .inl (by rwa [Nat.zero_add])
      · exact .inr ⟨1 + k', opensBeyond_operator.2 ⟨k', h, rfl⟩, Nat.add_assoc ..⟩

theorem opensBeyond_paren_iff : OpensBeyond (room + 1) (Surface.paren s).terminals k ↔
    ∃ o ∈ (Surface.paren s).operands, ∃ k', OpensBeyond room o.2.terminals k' ∧
      k = o.1 + k' := by
  have hclose := @not_opensBeyond_singleton (ofSymbol .rightParen) (by simp)
  simp [Surface.operands, Surface.terminals, opensBeyond_open,
    opensBeyond_append s.count_terminals, hclose]

theorem Surface.not_opensBeyond (h : s.nesting ≤ room) : ¬ OpensBeyond room s.terminals k := by
  induction s generalizing room k with
  | number value => simp [opensBeyond_terminals_iff, operands]
  | paren inner ih =>
    rw [nesting] at h
    obtain ⟨room, rfl⟩ : ∃ n, room = n + 1 := ⟨room - 1, by omega⟩
    rw [opensBeyond_paren_iff]
    simp [operands, ih (Nat.le_of_succ_le_succ h)]
  | plus operand ih | minus operand ih =>
    simp [opensBeyond_terminals_iff, operands, ih h]
  | binary op l r ihl ihr =>
    rw [nesting, Nat.max_le] at h
    simp [opensBeyond_terminals_iff, operands, ihl h.1, ihr h.2]

end Parentheses

/-! ## The excesses of an expression and of its parts -/

/-- The pairs of `P`, `d` further on. -/
def Shifted (d : Nat) (P : Nat → Nat → Prop) (k j : Nat) : Prop :=
  ∃ k' j', P k' j' ∧ k = d + k' ∧ j = d + j'

section Parts

variable {room limit k j : Nat} {s l r : Surface}

theorem Surface.NodeExceeds.height_eq (h : s.NodeExceeds limit k j) :
    s.tree.height = limit + 1 := by
  cases s with
  | number | paren | plus => exact h.elim
  | minus operand => exact h.1.1
  | binary op l r => exact h.1.1

theorem Surface.height_le_of_mem_operands {d : Nat} {t : Surface} (h : (d, t) ∈ s.operands) :
    t.tree.height ≤ s.tree.height := by
  cases s with
  | number value => simp [operands] at h
  | paren inner | plus operand =>
    obtain ⟨-, rfl⟩ := by simpa [operands] using h
    exact Nat.le_refl _
  | minus operand =>
    obtain ⟨-, rfl⟩ := by simpa [operands] using h
    rw [tree, Expr.height_binary]
    omega
  | binary op l r =>
    rw [tree, Expr.height_binary]
    rcases by simpa [operands] using h with ⟨-, rfl⟩ | ⟨-, rfl⟩
    · omega
    · omega

/-- An operand stands in the expression where `operands` says. -/
theorem Surface.terminals_of_mem_operands {d : Nat} {t : Surface} (h : (d, t) ∈ s.operands) :
    ∃ before after, s.terminals = before ++ (t.terminals ++ after) ∧ before.length = d := by
  cases s with
  | number value => simp [operands] at h
  | paren inner =>
    obtain ⟨rfl, rfl⟩ := by simpa [operands] using h
    exact ⟨[ofSymbol .leftParen], [ofSymbol .rightParen], rfl, rfl⟩
  | plus operand =>
    obtain ⟨rfl, rfl⟩ := by simpa [operands] using h
    exact ⟨[ofSymbol (.operator .add)], [], by simp [terminals], rfl⟩
  | minus operand =>
    obtain ⟨rfl, rfl⟩ := by simpa [operands] using h
    exact ⟨[ofSymbol (.operator .sub)], [], by simp [terminals], rfl⟩
  | binary op l r =>
    rcases by simpa [operands] using h with ⟨rfl, rfl⟩ | ⟨rfl, rfl⟩
    · exact ⟨[], ofSymbol (.operator op) :: r.terminals, rfl, rfl⟩
    · exact ⟨l.terminals ++ [ofSymbol (.operator op)], [], by simp [terminals], by simp [width]⟩

theorem Surface.PartAt.height_le {n : Nat} {t : Surface} (h : s.PartAt n t) :
    t.tree.height ≤ s.tree.height := by
  induction h with
  | whole s => exact Nat.le_refl _
  | inside hoperand hpart ih => exact Nat.le_trans ih (height_le_of_mem_operands hoperand)

theorem Surface.PartAt.terminals_eq {n : Nat} {t : Surface} (h : s.PartAt n t) :
    ∃ before after, s.terminals = before ++ (t.terminals ++ after) ∧ before.length = n := by
  induction h with
  | whole s => exact ⟨[], [], by simp, rfl⟩
  | inside hoperand hpart ih =>
    obtain ⟨before, after, heq, rfl⟩ := ih
    obtain ⟨before', after', heq', rfl⟩ := terminals_of_mem_operands hoperand
    refine ⟨before' ++ before, after ++ after', ?_, List.length_append⟩
    rw [heq', heq]
    simp only [List.append_assoc]

theorem Surface.PartAt.width_le {n : Nat} {t : Surface} (h : s.PartAt n t) :
    n + t.width ≤ s.width := by
  obtain ⟨before, after, heq, rfl⟩ := h.terminals_eq
  rw [width, width, heq, List.length_append, List.length_append]
  omega

theorem Surface.NodeExceeds.lt (h : s.NodeExceeds limit k j) : k ≤ j ∧ j < s.width := by
  cases s with
  | number | paren | plus => exact h.elim
  | minus operand =>
    obtain ⟨-, rfl, rfl⟩ := h
    simp [width, terminals]
  | binary op l r =>
    obtain ⟨-, rfl, rfl⟩ := h
    simp [width, terminals]

theorem Exceeds.lt (h : Exceeds room limit s k j) : k ≤ j ∧ j < s.width := by
  cases h with
  | opening h => exact ⟨Nat.le_refl _, Nat.lt_of_succ_lt (h.lt s.count_terminals)⟩
  | @node n k j t hpart hnode =>
    have hwidth := hpart.width_le
    obtain ⟨hle, hlt⟩ := hnode.lt
    omega

/-- Where the tree is not too high, only parentheses can be too many. -/
theorem Exceeds.opens (h : Exceeds room limit s k j) (hheight : s.tree.height ≤ limit) :
    OpensBeyond room s.terminals k ∧ j = k := by
  cases h with
  | opening h => exact ⟨h, rfl⟩
  | node hpart hnode =>
    have hle := hpart.height_le
    rw [hnode.height_eq] at hle
    omega

/-- The excesses of an expression are those of its operands, which may open `inner` parentheses, and
the one at its own operator. -/
theorem exceeds_iff_of_operands {inner : Nat}
    (hopens : ∀ k, OpensBeyond room s.terminals k ↔
      ∃ o ∈ s.operands, ∃ k', OpensBeyond inner o.2.terminals k' ∧ k = o.1 + k') :
    Exceeds room limit s k j ↔ s.NodeExceeds limit k j ∨
      ∃ o ∈ s.operands, Shifted o.1 (Exceeds inner limit o.2) k j := by
  constructor
  · intro h
    cases h with
    | opening h =>
      obtain ⟨o, ho, k', h', rfl⟩ := (hopens k).1 h
      exact .inr ⟨o, ho, k', k', .opening h', rfl, rfl⟩
    | @node n k j t hpart hnode =>
      cases hpart with
      | whole =>
        rw [Nat.zero_add, Nat.zero_add]
        exact .inl hnode
      | @inside _ u _ d n ho hpart =>
        exact .inr ⟨(d, u), ho, n + k, n + j, .node hpart hnode, Nat.add_assoc .., Nat.add_assoc ..⟩
  · rintro (hnode | ⟨⟨d, t⟩, ho, k', j', h, rfl, rfl⟩)
    · rw [← Nat.zero_add k, ← Nat.zero_add j]
      exact .node (.whole s) hnode
    · cases h with
      | opening h => exact .opening ((hopens _).2 ⟨(d, t), ho, k', h, rfl⟩)
      | node hpart hnode =>
        rw [← Nat.add_assoc, ← Nat.add_assoc]
        exact .node (.inside ho hpart) hnode

theorem exceeds_paren : Exceeds (room + 1) limit (.paren s) k j ↔
    Shifted 1 (Exceeds room limit s) k j := by
  rw [exceeds_iff_of_operands fun k => opensBeyond_paren_iff]
  simp [Surface.NodeExceeds, Surface.operands]

theorem exceeds_plus : Exceeds room limit (.plus s) k j ↔
    Shifted 1 (Exceeds room limit s) k j := by
  rw [exceeds_iff_of_operands fun k => opensBeyond_terminals_iff (by simp)]
  simp [Surface.NodeExceeds, Surface.operands]

theorem exceeds_minus : Exceeds room limit (.minus s) k j ↔
    (Surface.minus s).NodeExceeds limit k j ∨ Shifted 1 (Exceeds room limit s) k j := by
  rw [exceeds_iff_of_operands fun k => opensBeyond_terminals_iff (by simp)]
  simp [Surface.operands]

theorem exceeds_binary {op : Operator} : Exceeds room limit (.binary op l r) k j ↔
    (Surface.binary op l r).NodeExceeds limit k j ∨ Exceeds room limit l k j ∨
      Shifted (l.width + 1) (Exceeds room limit r) k j := by
  rw [exceeds_iff_of_operands fun k => opensBeyond_terminals_iff (by simp)]
  simp [Surface.operands, Shifted]

/-- Within the limits there is no excess. -/
theorem Surface.Within.not_exceeds (h : s.Within room) : ¬ Exceeds room maxHeight s k j :=
  fun hexceeds => s.not_opensBeyond h.1 (hexceeds.opens h.2).1

end Parts

/-! ## The first excess -/

/-- The excess that is noticed first: the parenthesis or operator is terminal number `k`, and it is
noticed at terminal number `j`. -/
structure FirstExcess (room limit : Nat) (s : Surface) (k j : Nat) : Prop where
  exceeds : Exceeds room limit s k j
  first {k' j' : Nat} (h : Exceeds room limit s k' j') : j < j' ∨ j' = j ∧ k' = k

section First

variable {room limit k j : Nat} {s l r : Surface}

theorem FirstExcess.unique {k' j' : Nat} (h : FirstExcess room limit s k j)
    (h' : FirstExcess room limit s k' j') : k' = k ∧ j' = j := by
  have hle := h.first h'.exceeds
  have hge := h'.first h.exceeds
  omega

/-- The first excess of an operand is that of the expression if nothing else is noticed earlier. -/
theorem FirstExcess.shift {inner d : Nat} {t : Surface} (h : FirstExcess inner limit t k j)
    (hin : Shifted d (Exceeds inner limit t) (d + k) (d + j) → Exceeds room limit s (d + k) (d + j))
    (hout : ∀ {k' j'}, Exceeds room limit s k' j' →
      Shifted d (Exceeds inner limit t) k' j' ∨ d + j < j') :
    FirstExcess room limit s (d + k) (d + j) := by
  refine ⟨hin ⟨k, j, h.exceeds, rfl, rfl⟩, fun h' => ?_⟩
  rcases hout h' with ⟨k', j', ht, rfl, rfl⟩ | hlater
  · have := h.first ht
    omega
  · exact .inl hlater

theorem firstExcess_open : FirstExcess 0 limit (.paren s) 0 0 := by
  refine ⟨.opening ⟨rfl, by simp⟩, fun h => ?_⟩
  have := h.lt
  omega

theorem FirstExcess.paren (h : FirstExcess room limit s k j) :
    FirstExcess (room + 1) limit (.paren s) (1 + k) (1 + j) :=
  h.shift exceeds_paren.2 fun h' => .inl (exceeds_paren.1 h')

theorem FirstExcess.plus (h : FirstExcess room limit s k j) :
    FirstExcess room limit (.plus s) (1 + k) (1 + j) :=
  h.shift exceeds_plus.2 fun h' => .inl (exceeds_plus.1 h')

theorem FirstExcess.minus (h : FirstExcess room limit s k j) :
    FirstExcess room limit (.minus s) (1 + k) (1 + j) := by
  refine h.shift (fun h' => exceeds_minus.2 (.inr h')) fun h' => ?_
  rcases exceeds_minus.1 h' with ⟨⟨-, -, hheight⟩, -, rfl⟩ | h'
  · -- the operand is not too high, so its excess is a parenthesis, which is not its last terminal
    obtain ⟨hopens, rfl⟩ := h.exceeds.opens hheight
    have := hopens.lt s.count_terminals
    rw [Surface.width]
    exact .inr (by omega)
  · exact .inl h'

theorem firstExcess_minus (hclear : ∀ k j, ¬ Exceeds room limit s k j)
    (hnode : (Surface.minus s).tree.JustExceeds limit) :
    FirstExcess room limit (.minus s) 0 s.width := by
  refine ⟨exceeds_minus.2 (.inl ⟨hnode, rfl, rfl⟩), fun h' => ?_⟩
  rcases exceeds_minus.1 h' with ⟨-, rfl, rfl⟩ | ⟨k', j', h', -⟩
  · exact .inr ⟨rfl, rfl⟩
  · exact absurd h' (hclear k' j')

theorem FirstExcess.left (h : FirstExcess room limit l k j) (op : Operator) (r : Surface) :
    FirstExcess room limit (.binary op l r) k j := by
  refine ⟨exceeds_binary.2 (.inr (.inl h.exceeds)), fun h' => ?_⟩
  have hlt := h.exceeds.lt
  rcases exceeds_binary.1 h' with ⟨-, rfl, rfl⟩ | h' | ⟨k', j', -, rfl, rfl⟩
  · omega
  · exact h.first h'
  · omega

theorem FirstExcess.right (h : FirstExcess room limit r k j) (op : Operator)
    (hclear : ∀ k j, ¬ Exceeds room limit l k j) :
    FirstExcess room limit (.binary op l r) (l.width + 1 + k) (l.width + 1 + j) := by
  refine h.shift (fun h' => exceeds_binary.2 (.inr (.inr h'))) fun h' => ?_
  rcases exceeds_binary.1 h' with ⟨⟨-, -, hheight⟩, -, rfl⟩ | h' | h'
  · obtain ⟨hopens, rfl⟩ := h.exceeds.opens hheight
    have hlt : _ < r.width := hopens.lt r.count_terminals
    exact .inr (by omega)
  · exact absurd h' (hclear _ _)
  · exact .inl h'

theorem firstExcess_binary {op : Operator} (hl : ∀ k j, ¬ Exceeds room limit l k j)
    (hr : ∀ k j, ¬ Exceeds room limit r k j)
    (hnode : (Surface.binary op l r).tree.JustExceeds limit) :
    FirstExcess room limit (.binary op l r) l.width (l.width + r.width) := by
  refine ⟨exceeds_binary.2 (.inl ⟨hnode, rfl, rfl⟩), fun h' => ?_⟩
  rcases exceeds_binary.1 h' with ⟨-, rfl, rfl⟩ | h' | ⟨k', j', h', -⟩
  · exact .inr ⟨rfl, rfl⟩
  · exact absurd h' (hl _ _)
  · exact absurd h' (hr k' j')

end First

end ExprCompiler
