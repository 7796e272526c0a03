import ExprCompiler.Token.Basic

/-!
# The grammar of expressions

The grammar has five levels. The three binary ones repeat an operator between phrases of the next
tighter level, and the repetition folds to the left: a phrase of the level, an operator and a phrase
of the tighter level make a larger phrase of the level. A level is what one of `parse_equality`,
`parse_add`, `parse_mul`, `parse_unary` and `parse_primary` reads.

```
equality       = additive ( "==" additive )*
additive       = multiplicative ( ("+" | "-") multiplicative )*
multiplicative = unary ( ("*" | "/") unary )*
unary          = ("+" | "-")? primary
primary        = integer | "(" equality ")"
```

What a phrase is a word *over* is left open. A `Lexicon` says which words stand for a number and
which for a symbol, so the same grammar describes sequences of tokens and plain texts.

`Surface` keeps signs and parentheses, which the tree of an expression no longer shows.
-/

namespace ExprCompiler

/-- An expression as it is written, with its signs and parentheses. -/
inductive Surface where
  | number (value : Int64)
  | paren (inner : Surface)
  | plus (operand : Surface)
  | minus (operand : Surface)
  | binary (op : Operator) (lhs rhs : Surface)
deriving DecidableEq, Repr

namespace Surface

/-- The tree of an expression: a minus sign subtracts from zero, a plus sign and parentheses leave
nothing behind. -/
def tree : Surface → Expr
  | .number value => .literal value
  | .paren inner => inner.tree
  | .plus operand => operand.tree
  | .minus operand => .binary .sub (.literal 0) operand.tree
  | .binary op lhs rhs => .binary op lhs.tree rhs.tree

/-- The most parentheses that are open at once. -/
def nesting : Surface → Nat
  | .number _ => 0
  | .paren inner => inner.nesting + 1
  | .plus operand => operand.nesting
  | .minus operand => operand.nesting
  | .binary _ lhs rhs => max lhs.nesting rhs.nesting

end Surface

/-- The levels of the grammar, from the loosest to the tightest binding. -/
inductive Level where
  | equality
  | additive
  | multiplicative
  | unary
  | primary
deriving DecidableEq, Repr

namespace Level

def tighter? : Level → Option Level
  | .equality => some .additive
  | .additive => some .multiplicative
  | .multiplicative => some .unary
  | .unary => some .primary
  | .primary => none

def operators : Level → List Operator
  | .equality => [.eq]
  | .additive => [.add, .sub]
  | .multiplicative => [.mul, .div]
  | .unary => []
  | .primary => []

/-- The operators of a level and of all tighter ones: a phrase that is followed by one of them goes
on. -/
def absorbed : Level → List Operator
  | .equality => [.eq, .add, .sub, .mul, .div]
  | .additive => [.add, .sub, .mul, .div]
  | .multiplicative => [.mul, .div]
  | .unary => []
  | .primary => []

theorem mem_absorbed_equality (op : Operator) : op ∈ equality.absorbed := by
  cases op <;> decide

theorem mem_absorbed_iff {L L' : Level} (h : L.tighter? = some L') (op : Operator) :
    op ∈ L.absorbed ↔ op ∈ L.operators ∨ op ∈ L'.absorbed := by
  cases L <;> simp only [tighter?, Option.some.injEq, reduceCtorEq] at h <;> subst h <;>
    cases op <;> decide

theorem operators_subset_absorbed (L : Level) {op : Operator} (h : op ∈ L.operators) :
    op ∈ L.absorbed := by
  cases L <;> cases op <;> revert h <;> decide

theorem not_mem_absorbed_of_tighter {L L' : Level} (h : L.tighter? = some L') {op : Operator}
    (hop : op ∈ L.operators) : op ∉ L'.absorbed := by
  cases L <;> simp only [tighter?, Option.some.injEq, reduceCtorEq] at h <;> subst h <;>
    cases op <;> revert hop <;> decide

end Level

/-- How the numbers and symbols of the grammar are written as words over an alphabet. -/
structure Lexicon (α : Type) where
  number : Int64 → List α → Prop
  symbol : Symbol → List α → Prop

/-- `Phrase lex L w s`: the word `w` is an expression of level `L`, namely `s`. -/
inductive Phrase {α : Type} (lex : Lexicon α) : Level → List α → Surface → Prop where
  | number {v : Int64} {w : List α} (hw : lex.number v w) : Phrase lex .primary w (.number v)
  | paren {l w r : List α} {s : Surface} (hl : lex.symbol .leftParen l)
      (hw : Phrase lex .equality w s) (hr : lex.symbol .rightParen r) :
      Phrase lex .primary (l ++ w ++ r) (.paren s)
  | plus {p w : List α} {s : Surface} (hp : lex.symbol (.operator .add) p)
      (hw : Phrase lex .primary w s) : Phrase lex .unary (p ++ w) (.plus s)
  | minus {p w : List α} {s : Surface} (hp : lex.symbol (.operator .sub) p)
      (hw : Phrase lex .primary w s) : Phrase lex .unary (p ++ w) (.minus s)
  | tighter {L L' : Level} {w : List α} {s : Surface} (hL : L.tighter? = some L')
      (hw : Phrase lex L' w s) : Phrase lex L w s
  | binary {L L' : Level} {u o v : List α} {l r : Surface} {op : Operator}
      (hL : L.tighter? = some L') (hop : op ∈ L.operators) (hu : Phrase lex L u l)
      (ho : lex.symbol (.operator op) o) (hv : Phrase lex L' v r) :
      Phrase lex L (u ++ o ++ v) (.binary op l r)

namespace Phrase

variable {α : Type} {lex : Lexicon α}

/-- A signed operand is an expression of every binary level. -/
theorem of_unary {w : List α} {s : Surface} (h : Phrase lex .unary w s) :
    Phrase lex .multiplicative w s ∧ Phrase lex .additive w s ∧ Phrase lex .equality w s := by
  have hmul : Phrase lex .multiplicative w s := .tighter rfl h
  have hadd : Phrase lex .additive w s := .tighter rfl hmul
  exact ⟨hmul, hadd, .tighter rfl hadd⟩

theorem binary_unary {L : Level} {w o v : List α} {s t : Surface} {op : Operator}
    (h : Phrase lex L w s) (hop : op ∈ L.operators) (ho : lex.symbol (.operator op) o)
    (hv : Phrase lex .unary v t) : Phrase lex L (w ++ o ++ v) (.binary op s t) := by
  obtain ⟨hmul, hadd, -⟩ := of_unary hv
  cases L with
  | equality => exact .binary rfl hop h ho hadd
  | additive => exact .binary rfl hop h ho hmul
  | multiplicative => exact .binary rfl hop h ho hv
  | unary | primary => simp [Level.operators] at hop

/-- An operand can be appended to a phrase with any operator of the phrase's level or a tighter one.
Where the operator binds tighter, it is the last operand of the phrase that goes on. -/
theorem append_unary {L : Level} {w o v : List α} {s t : Surface} {op : Operator}
    (h : Phrase lex L w s) (hop : op ∈ L.absorbed) (ho : lex.symbol (.operator op) o)
    (hv : Phrase lex .unary v t) : ∃ s', Phrase lex L (w ++ o ++ v) s' := by
  induction h with
  | number | paren | plus | minus => simp [Level.absorbed] at hop
  | tighter hL hw ih =>
    rcases (Level.mem_absorbed_iff hL op).1 hop with hop | hop
    · exact ⟨_, binary_unary (.tighter hL hw) hop ho hv⟩
    · obtain ⟨s', hs'⟩ := ih hop
      exact ⟨s', .tighter hL hs'⟩
  | @binary L L' u o' v' l r op' hL hop' hu ho' hv' _ ihv =>
    rcases (Level.mem_absorbed_iff hL op).1 hop with hop | hop
    · exact ⟨_, binary_unary (.binary hL hop' hu ho' hv') hop ho hv⟩
    · obtain ⟨r', hr'⟩ := ihv hop
      refine ⟨.binary op' l r', ?_⟩
      have := Phrase.binary hL hop' hu ho' hr'
      simpa only [List.append_assoc] using this

end Phrase

/-! ## Open parentheses -/

section Nesting

variable {α : Type} [DecidableEq α] {l r : α}

/-- At no point of `w` are more than `n` of the brackets open that `l` opens and `r` closes. -/
def NestedWithin (l r : α) (n : Nat) (w : List α) : Prop :=
  ∀ p, p <+: w → p.count l ≤ n + p.count r

theorem nestedWithin_append {u : List α} (hu : u.count l = u.count r) (v : List α) (n : Nat) :
    NestedWithin l r n (u ++ v) ↔ NestedWithin l r n u ∧ NestedWithin l r n v := by
  constructor
  · intro h
    refine ⟨fun p hp => h p (hp.trans (List.prefix_append u v)), fun p hp => ?_⟩
    have := h (u ++ p) ((List.prefix_append_right_inj u).2 hp)
    rw [List.count_append, List.count_append] at this
    omega
  · rintro ⟨h₁, h₂⟩ p ⟨t, ht⟩
    rcases List.append_eq_append_iff.1 ht with ⟨a, rfl, -⟩ | ⟨c, rfl, rfl⟩
    · exact h₁ p (List.prefix_append p a)
    · have := h₂ c (List.prefix_append c t)
      rw [List.count_append, List.count_append]
      omega

theorem nestedWithin_of_not_mem {w : List α} (hl : l ∉ w) (n : Nat) : NestedWithin l r n w := by
  intro p hp
  have : p.count l = 0 := List.count_eq_zero.2 fun hmem => hl (hp.subset hmem)
  omega

theorem nestedWithin_open (hlr : l ≠ r) (w : List α) (n : Nat) :
    NestedWithin l r n (l :: w) ↔ ∃ m, n = m + 1 ∧ NestedWithin l r m w := by
  have hcount (p : List α) : (l :: p).count l = p.count l + 1 ∧ (l :: p).count r = p.count r :=
    ⟨List.count_cons_self, List.count_cons_of_ne hlr⟩
  constructor
  · intro h
    have hone := h [l] (List.prefix_append [l] w)
    rw [(hcount []).1, (hcount []).2] at hone
    refine ⟨n - 1, by simp at hone; omega, fun p hp => ?_⟩
    have := h (l :: p) (List.cons_prefix_cons.2 ⟨rfl, hp⟩)
    rw [(hcount p).1, (hcount p).2] at this
    simp at hone
    omega
  · rintro ⟨m, rfl, h⟩ p hp
    rcases List.prefix_cons_iff.1 hp with rfl | ⟨t, rfl, ht⟩
    · simp
    · have := h t ht
      rw [(hcount t).1, (hcount t).2]
      omega

/-- The words of a lexicon hold the brackets `l` and `r` only where they stand for a parenthesis. -/
structure Lexicon.Brackets (lex : Lexicon α) (l r : α) : Prop where
  ne : l ≠ r
  number {v : Int64} {w : List α} (h : lex.number v w) : l ∉ w ∧ r ∉ w
  operator {op : Operator} {w : List α} (h : lex.symbol (.operator op) w) : l ∉ w ∧ r ∉ w
  left {w : List α} (h : lex.symbol .leftParen w) : ∃ p, w = p ++ [l] ∧ l ∉ p ∧ r ∉ p
  right {w : List α} (h : lex.symbol .rightParen w) : ∃ p, w = p ++ [r] ∧ l ∉ p ∧ r ∉ p

theorem count_eq_count_of_not_mem {w : List α} (h : l ∉ w ∧ r ∉ w) : w.count l = w.count r := by
  rw [List.count_eq_zero.2 h.1, List.count_eq_zero.2 h.2]

variable {lex : Lexicon α}

/-- Every parenthesis that a phrase opens is closed in it. -/
theorem Phrase.count_eq (hb : lex.Brackets l r) {L : Level} {w : List α} {s : Surface}
    (h : Phrase lex L w s) : w.count l = w.count r := by
  induction h with
  | number hw => exact count_eq_count_of_not_mem (hb.number hw)
  | paren hl hw hr ih =>
    obtain ⟨p, rfl, hp⟩ := hb.left hl
    obtain ⟨q, rfl, hq⟩ := hb.right hr
    have hne := hb.ne
    simp [List.count_append, count_eq_count_of_not_mem hp, count_eq_count_of_not_mem hq, ih, hne,
      hne.symm]
    omega
  | plus hp hw ih | minus hp hw ih =>
    rw [List.count_append, List.count_append, ih, count_eq_count_of_not_mem (hb.operator hp)]
  | tighter hL hw ih => exact ih
  | binary hL hop hu ho hv ihu ihv =>
    simp only [List.count_append, ihu, ihv, count_eq_count_of_not_mem (hb.operator ho)]

/-- A phrase stays within `n` open parentheses exactly if its parentheses are nested at most `n`
deep. -/
theorem Phrase.nestedWithin_iff (hb : lex.Brackets l r) {L : Level} {w : List α} {s : Surface}
    (h : Phrase lex L w s) (n : Nat) : NestedWithin l r n w ↔ s.nesting ≤ n := by
  induction h generalizing n with
  | number hw => simp [Surface.nesting, nestedWithin_of_not_mem (hb.number hw).1]
  | @paren p w q s hl hw hr ih =>
    obtain ⟨p, rfl, hp⟩ := hb.left hl
    obtain ⟨q, rfl, hq⟩ := hb.right hr
    have hclosed (m : Nat) : NestedWithin l r m (q ++ [r]) := by
      refine nestedWithin_of_not_mem ?_ m
      simp [hq.1, hb.ne]
    rw [List.append_assoc, List.append_assoc, nestedWithin_append (count_eq_count_of_not_mem hp),
      List.singleton_append, nestedWithin_open hb.ne, Surface.nesting]
    constructor
    · rintro ⟨-, m, rfl, h⟩
      have := (ih m).1 ((nestedWithin_append (hw.count_eq hb) _ m).1 h).1
      omega
    · intro h
      refine ⟨nestedWithin_of_not_mem hp.1 n, n - 1, by omega, ?_⟩
      rw [nestedWithin_append (hw.count_eq hb)]
      exact ⟨(ih (n - 1)).2 (by omega), hclosed (n - 1)⟩
  | plus hp hw ih | minus hp hw ih =>
    have hop := hb.operator hp
    rw [nestedWithin_append (count_eq_count_of_not_mem hop), ih, Surface.nesting]
    exact and_iff_right (nestedWithin_of_not_mem hop.1 n)
  | tighter hL hw ih => exact ih n
  | binary hL hop hu ho hv ihu ihv =>
    have hout := hb.operator ho
    rw [List.append_assoc, nestedWithin_append (hu.count_eq hb),
      nestedWithin_append (count_eq_count_of_not_mem hout), ihu, ihv, Surface.nesting]
    have := nestedWithin_of_not_mem (r := r) hout.1 n
    simp only [this, true_and]
    omega

end Nesting

end ExprCompiler
