import ExprCompiler.Proofs.Terminal

/-!
# Expressions can be read in one way only

The grammar is not restricted by any limit here. A `Reading` goes through a sequence of terminals
once, from left to right, and holds back what cannot be decided yet: at each level of the grammar
the operator that waits for its right operand, and around each open parenthesis what waits outside.
It settles what it held back when a looser operator or a closing parenthesis comes.

Whatever derivation a sequence of terminals has, the reading of it ends with the expression derived
(`Phrase.result_eq`). The reading does not know the derivation, so there is only one.
-/

namespace ExprCompiler

open Terminal

namespace Level

def tightness : Level → Nat
  | .equality => 0
  | .additive => 1
  | .multiplicative => 2
  | .unary => 3
  | .primary => 4

theorem tightness_of_tighter {L L' : Level} (h : L.tighter? = some L') :
    L'.tightness = L.tightness + 1 := by
  cases L <;> simp only [tighter?, Option.some.injEq, reduceCtorEq] at h <;> subst h <;> rfl

end Level

def Operator.level : Operator → Level
  | .eq => .equality
  | .add | .sub => .additive
  | .mul | .div => .multiplicative

theorem Operator.level_of_mem {L : Level} {op : Operator} (h : op ∈ L.operators) :
    op.level = L := by
  cases L <;> cases op <;> revert h <;> decide

/-- What waits for an operand at each level; the identity where nothing waits. -/
abbrev Pending := Level → Surface → Surface

namespace Pending

def none : Pending := fun _ s => s

/-- Hands an operand to what waits at level `L` and the tighter ones, the tightest first. -/
def settle (p : Pending) : Level → Surface → Surface
  | .equality, s => p .equality (p .additive (p .multiplicative (p .unary s)))
  | .additive, s => p .additive (p .multiplicative (p .unary s))
  | .multiplicative, s => p .multiplicative (p .unary s)
  | .unary, s => p .unary s
  | .primary, s => s

theorem settle_of_tighter (p : Pending) {L L' : Level} (h : L.tighter? = some L') (s : Surface) :
    p.settle L s = p L (p.settle L' s) := by
  cases L <;> simp only [Level.tighter?, Option.some.injEq, reduceCtorEq] at h <;> subst h <;> rfl

/-- Makes `wait` wait at level `L`, and nothing at the tighter levels. -/
def hold (p : Pending) (L : Level) (wait : Surface → Surface) : Pending := fun L' =>
  if L'.tightness < L.tightness then p L' else if L' = L then wait else id

theorem hold_self (p : Pending) (L : Level) (wait : Surface → Surface) :
    p.hold L wait L = wait := by
  simp [hold]

theorem hold_of_lt (p : Pending) {L L' : Level} (h : L'.tightness < L.tightness)
    (wait : Surface → Surface) : p.hold L wait L' = p L' := by
  simp [hold, h]

theorem hold_of_gt (p : Pending) {L L' : Level} (h : L.tightness < L'.tightness)
    (wait : Surface → Surface) : p.hold L wait L' = id := by
  have hne : L' ≠ L := by
    rintro rfl
    omega
  rw [hold, if_neg (by omega), if_neg hne]

end Pending

/-- What is known of an expression after some of its terminals. -/
structure Reading where
  pending : Pending
  /-- The operand that was read last, unless an operator followed it. -/
  operand? : Option Surface
  /-- What waits outside of each open parenthesis, from the innermost. -/
  outer : List Pending

namespace Reading

def start : Reading := ⟨.none, none, []⟩

def stepSymbol (r : Reading) : Symbol → Reading
  | .leftParen => ⟨.none, none, r.pending :: r.outer⟩
  | .rightParen =>
    match r.outer with
    | [] => r
    | p :: outer => ⟨p, r.operand?.map fun s => .paren (r.pending.settle .equality s), outer⟩
  | .operator op =>
    match r.operand? with
    | none => { r with pending := r.pending.hold .unary (if op = .sub then .minus else .plus) }
    | some s =>
      let lhs := r.pending.settle op.level s
      { r with pending := r.pending.hold op.level (.binary op lhs), operand? := none }

def step (r : Reading) : Terminal → Reading
  | .number v => { r with operand? := some (.number v) }
  | .punctuation text => ((Symbol.ofSpelling? text).map r.stepSymbol).getD r
  | .endOfInput => r

@[simp]
theorem step_ofSymbol (r : Reading) (symbol : Symbol) :
    r.step (ofSymbol symbol) = r.stepSymbol symbol := by
  rw [ofSymbol, step, Symbol.ofSpelling?_eq_some_iff.2 rfl]
  rfl

def run (r : Reading) (w : List Terminal) : Reading := w.foldl step r

theorem run_append (r : Reading) (u v : List Terminal) : r.run (u ++ v) = (r.run u).run v :=
  List.foldl_append

theorem run_ofSymbol (r : Reading) (symbol : Symbol) :
    r.run [ofSymbol symbol] = r.stepSymbol symbol :=
  step_ofSymbol r symbol

def result (r : Reading) : Option Surface := r.operand?.map (r.pending.settle .equality)

/-- `r` follows on `p` and `outer` with the expression `s` of level `L`: nothing changed outside,
and what now waits at level `L` or tighter makes `s` of the last operand. -/
structure Completes (p : Pending) (outer : List Pending) (L : Level) (s : Surface) (r : Reading) :
    Prop where
  outer_eq : r.outer = outer
  pending_eq : ∀ L' : Level, L'.tightness < L.tightness → r.pending L' = p L'
  settles : r.operand?.map (r.pending.settle L) = some s

theorem Completes.tighter {p : Pending} {outer : List Pending} {L L' : Level} {s : Surface}
    {r : Reading} (h : Completes p outer L' s r) (hL : L.tighter? = some L') :
    Completes p outer L (p L s) r := by
  have htight := Level.tightness_of_tighter hL
  obtain ⟨operand, hoperand, hs⟩ := Option.map_eq_some_iff.1 h.settles
  refine ⟨h.outer_eq, fun M hM => h.pending_eq M (by omega), ?_⟩
  rw [hoperand, Option.map_some, Pending.settle_of_tighter _ hL, hs, h.pending_eq L (by omega)]

theorem Completes.held {p q : Pending} {outer : List Pending} {L L' : Level} {s : Surface}
    {wait : Surface → Surface} {r : Reading} (h : Completes (q.hold L wait) outer L' s r)
    (hL : L.tighter? = some L') (hq : ∀ M : Level, M.tightness < L.tightness → q M = p M) :
    Completes p outer L (wait s) r := by
  have hout := h.tighter hL
  rw [Pending.hold_self] at hout
  refine ⟨hout.outer_eq, fun M hM => ?_, hout.settles⟩
  rw [hout.pending_eq M hM, Pending.hold_of_lt q hM, hq M hM]

/-- Reading an operator after its left operand makes it wait for the right one. -/
theorem Completes.operator {p : Pending} {outer : List Pending} {L : Level} {s : Surface}
    {r : Reading} (h : Completes p outer L s r) {op : Operator} (hop : op ∈ L.operators) :
    r.stepSymbol (.operator op) = ⟨r.pending.hold L (.binary op s), none, outer⟩ := by
  obtain ⟨operand, hoperand, hs⟩ := Option.map_eq_some_iff.1 h.settles
  obtain rfl := Operator.level_of_mem hop
  rw [stepSymbol, hoperand]
  simp only [hs, h.outer_eq]

end Reading

open Reading

/-- Reading an expression of level `L`, where nothing waits at that level or a tighter one. -/
theorem Phrase.completes {L : Level} {w : List Terminal} {s : Surface} (h : Phrase lexicon L w s)
    {p : Pending} (hp : ∀ L' : Level, L.tightness ≤ L'.tightness → p L' = id)
    (outer : List Pending) : Completes p outer L s (run ⟨p, none, outer⟩ w) := by
  induction h generalizing p outer with
  | @number v w hw =>
    obtain rfl : w = [.number v] := hw
    exact ⟨rfl, fun _ _ => rfl, rfl⟩
  | @paren l w r s hl hw hr ih =>
    obtain rfl : l = [ofSymbol .leftParen] := hl
    obtain rfl : r = [ofSymbol .rightParen] := hr
    -- inside the parentheses nothing waits, and what waited outside is put aside
    have hin := @ih .none (fun _ _ => rfl) (p :: outer)
    obtain ⟨operand, hoperand, hs⟩ := Option.map_eq_some_iff.1 hin.settles
    rw [run_append, run_append, run_ofSymbol, run_ofSymbol]
    have hclose : Reading.stepSymbol (run ⟨.none, none, p :: outer⟩ w) .rightParen =
        ⟨p, some (.paren s), outer⟩ := by
      rw [stepSymbol, hin.outer_eq, hoperand]
      simp only [Option.map_some, hs]
    rw [stepSymbol, hclose]
    exact ⟨rfl, fun _ _ => rfl, rfl⟩
  | @plus q w s hq hw ih | @minus q w s hq hw ih =>
    obtain rfl := hq
    rw [run_append, run_ofSymbol]
    have hfree (wait : Surface → Surface) (M : Level) (hM : Level.primary.tightness ≤ M.tightness) :
        p.hold .unary wait M = id := p.hold_of_gt (show Level.unary.tightness < _ from hM) wait
    exact Completes.held (ih (hfree _) outer) rfl fun _ _ => rfl
  | @tighter L L' w s hL hw ih =>
    have htight := Level.tightness_of_tighter hL
    have hin := ih (fun M hM => hp M (by omega)) outer
    have hout := hin.tighter hL
    rwa [hp L (Nat.le_refl _)] at hout
  | @binary L L' u o v l r op hL hop hu ho hv ihu ihv =>
    obtain rfl : o = [ofSymbol (.operator op)] := ho
    have htight := Level.tightness_of_tighter hL
    have hleft := ihu hp outer
    -- the operator settles the left operand and waits at `L`, with all tighter levels free again
    rw [run_append, run_append, run_ofSymbol, hleft.operator hop]
    have hright := @ihv ((run ⟨p, none, outer⟩ u).pending.hold L (.binary op l))
      (fun M hM => Pending.hold_of_gt _ (by omega) _) outer
    exact hright.held hL hleft.pending_eq

/-- Whatever an expression is derived as, it is read as. -/
theorem Phrase.result_eq {w : List Terminal} {s : Surface} (h : Phrase lexicon .equality w s) :
    (start.run w).result = some s :=
  (h.completes (p := .none) (fun _ _ => rfl) []).settles

/-- A sequence of terminals is at most one expression. -/
theorem Phrase.unique {w : List Terminal} {s t : Surface} (hs : Phrase lexicon .equality w s)
    (ht : Phrase lexicon .equality w t) : s = t := by
  have h := hs.result_eq.symm.trans ht.result_eq
  exact Option.some.inj h

end ExprCompiler
