import ExprCompiler.Proofs.Terminal

/-!
# Viable beginnings of sentences

A sentence is an expression followed by the end of the input. A sequence of terminals is viable if
some sentence begins with it. Viability can be decided from left to right: all that matters about
the terminals read so far is what is due next and how many parentheses are open, the `Frontier`.

One direction is that an expression takes the frontier from before an operand to after it
(`Phrase.run_eq`), so a sentence never gets stuck, nor does any beginning of it. For the other
direction the frontier is given a meaning, `Frontier.Reached`: what may still be appended to get an
expression. Every step preserves the meaning, so whatever was read without getting stuck can be
completed.
-/

namespace ExprCompiler

open Terminal

/-- What may come next. -/
inductive Due where
  /-- An operand with or without a sign. -/
  | signedOperand
  /-- An operand, its sign having been read. -/
  | operand
  /-- An operator, a closing parenthesis or the end of the input. -/
  | operator
  /-- Nothing, since the input has ended. -/
  | nothing
deriving DecidableEq, Repr

/-- Where a reader stands in an expression. -/
structure Frontier where
  due : Due
  opened : Nat
deriving DecidableEq, Repr

/-- An operand is complete after this terminal. -/
def Terminal.endsOperand : Terminal → Bool
  | .number _ => true
  | .punctuation text => text == ")"
  | .endOfInput => false

namespace Frontier

def start : Frontier := ⟨.signedOperand, 0⟩

def stepSymbol (f : Frontier) : Symbol → Option Frontier
  | .leftParen =>
    match f.due with
    | .signedOperand | .operand => some ⟨.signedOperand, f.opened + 1⟩
    | .operator | .nothing => none
  | .rightParen =>
    match f.due, f.opened with
    | .operator, opened + 1 => some ⟨.operator, opened⟩
    | _, _ => none
  | .operator op =>
    match f.due with
    | .operator => some ⟨.signedOperand, f.opened⟩
    | .signedOperand => if op = .add ∨ op = .sub then some ⟨.operand, f.opened⟩ else none
    | .operand | .nothing => none

def step (f : Frontier) : Terminal → Option Frontier
  | .number _ =>
    match f.due with
    | .signedOperand | .operand => some ⟨.operator, f.opened⟩
    | .operator | .nothing => none
  | .punctuation text => (Symbol.ofSpelling? text).bind f.stepSymbol
  | .endOfInput => if f = ⟨.operator, 0⟩ then some ⟨.nothing, 0⟩ else none

def run (f : Frontier) (w : List Terminal) : Option Frontier := w.foldlM step f

@[simp]
theorem run_nil (f : Frontier) : f.run [] = some f := rfl

@[simp]
theorem run_cons (f : Frontier) (x : Terminal) (w : List Terminal) :
    f.run (x :: w) = (f.step x).bind (run · w) := rfl

theorem run_append (f : Frontier) (u v : List Terminal) :
    f.run (u ++ v) = (f.run u).bind (run · v) := by
  rw [run, List.foldlM_append]
  rfl

theorem run_eq_some_append {f g h : Frontier} {u v : List Terminal} (hu : f.run u = some g)
    (hv : g.run v = some h) : f.run (u ++ v) = some h := by
  rw [run_append, hu, Option.bind_some, hv]

@[simp]
theorem step_ofSymbol (f : Frontier) (symbol : Symbol) :
    f.step (ofSymbol symbol) = f.stepSymbol symbol := by
  rw [ofSymbol, step, Symbol.ofSpelling?_eq_some_iff.2 rfl, Option.bind_some]

/-- A punctuation that may come next is a symbol. -/
theorem exists_symbol_of_step {f g : Frontier} {text : String}
    (h : f.step (.punctuation text) = some g) :
    ∃ symbol, Terminal.punctuation text = ofSymbol symbol ∧ f.stepSymbol symbol = some g := by
  obtain ⟨symbol, hsymbol, hstep⟩ := Option.bind_eq_some_iff.1 h
  exact ⟨symbol, by rw [Symbol.ofSpelling?_eq_some_iff.1 hsymbol, ofSymbol], hstep⟩

/-- The frontier counts the parentheses that are open. -/
theorem opened_of_step {f g : Frontier} {x : Terminal} (h : f.step x = some g) :
    g.opened + [x].count (ofSymbol .rightParen) = f.opened + [x].count (ofSymbol .leftParen) := by
  obtain ⟨due, opened⟩ := f
  cases x with
  | number v =>
    cases due <;> simp [step] at h <;> subst h <;> simp [ofSymbol]
  | endOfInput =>
    simp only [step, Option.ite_none_right_eq_some, Frontier.mk.injEq] at h
    obtain ⟨⟨-, rfl⟩, hg⟩ := h
    obtain rfl := Option.some.inj hg
    simp [ofSymbol]
  | punctuation text =>
    obtain ⟨symbol, htext, hsymbol⟩ := exists_symbol_of_step h
    rw [htext]
    rcases symbol with op | _ | _
    · cases due <;> simp [stepSymbol] at hsymbol
      · obtain ⟨-, rfl⟩ := hsymbol
        simp
      · subst hsymbol
        simp
    · cases due <;> simp [stepSymbol] at hsymbol <;> subst hsymbol <;> simp
    · cases due <;> cases opened <;> simp [stepSymbol] at hsymbol
      subst hsymbol
      simp

theorem opened_of_run {f g : Frontier} {w : List Terminal} (h : f.run w = some g) :
    g.opened + w.count (ofSymbol .rightParen) = f.opened + w.count (ofSymbol .leftParen) := by
  induction w generalizing f with
  | nil =>
    obtain rfl := Option.some.inj h
    simp
  | cons x w ih =>
    obtain ⟨f', hstep, hrun⟩ := Option.bind_eq_some_iff.1 h
    have h₁ := opened_of_step hstep
    have h₂ := ih hrun
    rw [← List.singleton_append, List.count_append, List.count_append]
    omega

/-! ## What the frontier knows about the last terminal -/

theorem due_of_step {f g : Frontier} {x : Terminal} (h : f.step x = some g)
    (hx : x ≠ .endOfInput) :
    g.due ≠ .nothing ∧ (g.due = .operator ↔ x.endsOperand = true) := by
  cases x with
  | endOfInput => exact absurd rfl hx
  | number v =>
    obtain ⟨due, opened⟩ := f
    cases due <;> simp [step] at h <;> subst h <;> simp [Terminal.endsOperand]
  | punctuation text =>
    obtain ⟨symbol, htext, hsymbol⟩ := exists_symbol_of_step h
    obtain rfl : text = symbol.spelling := Terminal.punctuation.inj htext
    obtain ⟨due, opened⟩ := f
    rcases symbol with op | _ | _
    · have hspelling : Terminal.endsOperand (.punctuation (Symbol.operator op).spelling) = false := by
        cases op <;> decide
      rw [hspelling]
      cases due <;> simp [stepSymbol] at hsymbol
      · obtain ⟨-, rfl⟩ := hsymbol
        simp
      · subst hsymbol
        simp
    · cases due <;> simp [stepSymbol] at hsymbol <;> subst hsymbol <;> simp <;> decide
    · cases due <;> cases opened <;> simp [stepSymbol] at hsymbol
      subst hsymbol
      simp only [ne_eq, reduceCtorEq, not_false_eq_true, true_and, true_iff]
      decide

theorem due_of_run {g : Frontier} {w : List Terminal} (h : start.run w = some g)
    (hw : ∀ x ∈ w, x ≠ .endOfInput) :
    g.due ≠ .nothing ∧ (g.due = .operator ↔ w.getLast?.any Terminal.endsOperand = true) := by
  rcases List.eq_nil_or_concat w with rfl | ⟨w, x, rfl⟩
  · obtain rfl := Option.some.inj h
    simp [start]
  · rw [List.concat_eq_append, run_append] at h
    obtain ⟨f, -, hlast⟩ := Option.bind_eq_some_iff.1 h
    obtain ⟨g', hstep, hnil⟩ := Option.bind_eq_some_iff.1 hlast
    obtain rfl := Option.some.inj hnil
    have hdue := due_of_step hstep (hw x (by simp))
    simpa using hdue

end Frontier

open Frontier

/-- An expression takes the frontier from before an operand to after it. -/
theorem Phrase.run_eq {L : Level} {w : List Terminal} {s : Surface} (h : Phrase lexicon L w s)
    {due : Due} (hdue : due = .signedOperand ∨ due = .operand ∧ L = .primary) (opened : Nat) :
    run ⟨due, opened⟩ w = some ⟨.operator, opened⟩ := by
  induction h generalizing due opened with
  | @number v w hw =>
    obtain rfl : w = [.number v] := hw
    rcases hdue with rfl | ⟨rfl, -⟩ <;> rfl
  | @paren l w r s hl hw hr ih =>
    obtain rfl : l = [ofSymbol .leftParen] := hl
    obtain rfl : r = [ofSymbol .rightParen] := hr
    have hopen : run ⟨due, opened⟩ [ofSymbol .leftParen] = some ⟨.signedOperand, opened + 1⟩ := by
      rcases hdue with rfl | ⟨rfl, -⟩ <;> simp [stepSymbol]
    refine run_eq_some_append (run_eq_some_append hopen (ih (.inl rfl) (opened + 1))) ?_
    simp [stepSymbol]
  | @plus p w s hp hw ih | @minus p w s hp hw ih =>
    obtain rfl := hp
    obtain rfl : due = .signedOperand := by simpa using hdue
    refine run_eq_some_append (g := ⟨.operand, opened⟩) ?_ (ih (.inr ⟨rfl, rfl⟩) opened)
    simp [stepSymbol]
  | @tighter L L' w s hL hw ih =>
    rcases hdue with rfl | ⟨-, rfl⟩
    · exact ih (.inl rfl) opened
    · simp [Level.tighter?] at hL
  | @binary L L' u o v l r op hL hop hu ho hv ihu ihv =>
    obtain rfl : o = [ofSymbol (.operator op)] := ho
    obtain rfl : due = .signedOperand := by
      rcases hdue with rfl | ⟨-, rfl⟩
      · rfl
      · simp [Level.tighter?] at hL
    refine run_eq_some_append (run_eq_some_append (ihu (.inl rfl) opened) ?_)
      (ihv (.inl rfl) opened)
    simp [stepSymbol]

/-- Some sentence begins with `w`. -/
def Viable (w : List Terminal) : Prop :=
  ∃ u s, Phrase lexicon .equality u s ∧ w <+: u ++ [.endOfInput]

/-! ## Completing what was read -/

/-- With `opened` parentheses closed after it, `p` is an expression. -/
def Closes : Nat → List Terminal → Prop
  | 0, p => ∃ s, Phrase lexicon .equality p s
  | opened + 1, p => ∃ q e s, p = q ++ ofSymbol .leftParen :: e ∧ Phrase lexicon .equality e s ∧
      ∀ v t, Phrase lexicon .primary v t → Closes opened (q ++ v)

/-- A phrase of level `L` may follow `p`. -/
def Awaits (L : Level) (opened : Nat) (p : List Terminal) : Prop :=
  ∀ v t, Phrase lexicon L v t → Closes opened (p ++ v)

theorem Awaits.primary {opened : Nat} {p : List Terminal} (h : Awaits .unary opened p) :
    Awaits .primary opened p := fun v t hv => h v t (.tighter rfl hv)

theorem Awaits.number {opened : Nat} {p : List Terminal} (h : Awaits .primary opened p)
    (v : Int64) : Closes opened (p ++ [.number v]) := h _ _ (.number rfl)

theorem Awaits.sign {opened : Nat} {p : List Terminal} (h : Awaits .unary opened p) {op : Operator}
    (hop : op = .add ∨ op = .sub) : Awaits .primary opened (p ++ [ofSymbol (.operator op)]) := by
  intro v t hv
  rw [List.append_assoc]
  rcases hop with rfl | rfl
  · exact h _ _ (.plus rfl hv)
  · exact h _ _ (.minus rfl hv)

theorem Awaits.open {opened : Nat} {p : List Terminal} (h : Awaits .primary opened p) :
    Awaits .unary (opened + 1) (p ++ [ofSymbol .leftParen]) := by
  intro v t hv
  exact ⟨p, v, t, by simp, hv.of_unary.2.2, h⟩

theorem Closes.operator {opened : Nat} {p : List Terminal} (h : Closes opened p) (op : Operator) :
    Awaits .unary opened (p ++ [ofSymbol (.operator op)]) := by
  intro v t hv
  have hop := Level.mem_absorbed_equality op
  cases opened with
  | zero =>
    obtain ⟨s, hs⟩ := h
    exact hs.append_unary hop rfl hv
  | succ opened =>
    obtain ⟨q, e, s, rfl, hs, hq⟩ := h
    obtain ⟨s', hs'⟩ := hs.append_unary hop rfl hv
    exact ⟨q, _, s', by simp, hs', hq⟩

theorem Closes.close {opened : Nat} {p : List Terminal} (h : Closes (opened + 1) p) :
    Closes opened (p ++ [ofSymbol .rightParen]) := by
  obtain ⟨q, e, s, rfl, hs, hq⟩ := h
  have := hq _ _ (.paren rfl hs rfl)
  simpa using this

/-- Closing all open parentheses completes the expression. -/
theorem Closes.exists_phrase {opened : Nat} {p : List Terminal} (h : Closes opened p) :
    ∃ u s, Phrase lexicon .equality u s ∧ p <+: u := by
  induction opened generalizing p with
  | zero =>
    obtain ⟨s, hs⟩ := h
    exact ⟨p, s, hs, List.prefix_rfl⟩
  | succ opened ih =>
    obtain ⟨u, s, hu, hp⟩ := ih h.close
    exact ⟨u, s, hu, (List.prefix_append p _).trans hp⟩

namespace Frontier

/-- What a frontier says about the terminals `p` that lead to it. -/
def Reached (f : Frontier) (p : List Terminal) : Prop :=
  match f.due with
  | .signedOperand => Awaits .unary f.opened p
  | .operand => Awaits .primary f.opened p
  | .operator => Closes f.opened p
  | .nothing => ∃ u s, Phrase lexicon .equality u s ∧ p = u ++ [.endOfInput]

theorem reached_start : start.Reached [] := fun _ t hv => ⟨t, hv.of_unary.2.2⟩

theorem Reached.stepSymbol {f g : Frontier} {p : List Terminal} {symbol : Symbol}
    (h : f.Reached p) (hstep : f.stepSymbol symbol = some g) :
    g.Reached (p ++ [ofSymbol symbol]) := by
  obtain ⟨due, opened⟩ := f
  cases symbol with
  | leftParen =>
    cases due <;> simp [Frontier.stepSymbol] at hstep <;> subst hstep
    · exact (Awaits.primary h).open
    · exact Awaits.open h
  | rightParen =>
    cases due <;> cases opened <;> simp [Frontier.stepSymbol] at hstep
    subst hstep
    exact Closes.close h
  | operator op =>
    cases due <;> simp [Frontier.stepSymbol] at hstep
    · obtain ⟨hop, rfl⟩ := hstep
      exact Awaits.sign h hop
    · subst hstep
      exact Closes.operator h op

theorem Reached.step {f g : Frontier} {p : List Terminal} {x : Terminal} (h : f.Reached p)
    (hstep : f.step x = some g) : g.Reached (p ++ [x]) := by
  cases x with
  | number v =>
    obtain ⟨due, opened⟩ := f
    cases due <;> simp [Frontier.step] at hstep <;> subst hstep
    · exact (Awaits.primary h).number v
    · exact Awaits.number h v
  | punctuation text =>
    obtain ⟨symbol, htext, hsymbol⟩ := exists_symbol_of_step hstep
    rw [htext]
    exact h.stepSymbol hsymbol
  | endOfInput =>
    simp only [Frontier.step, Option.ite_none_right_eq_some, Option.some.injEq] at hstep
    obtain ⟨rfl, rfl⟩ := hstep
    obtain ⟨s, hs⟩ := h
    exact ⟨p, s, hs, rfl⟩

theorem Reached.run {f g : Frontier} {p w : List Terminal} (h : f.Reached p)
    (hrun : f.run w = some g) : g.Reached (p ++ w) := by
  induction w generalizing f p with
  | nil =>
    obtain rfl := Option.some.inj hrun
    rwa [List.append_nil]
  | cons x w ih =>
    obtain ⟨f', hstep, hrest⟩ := Option.bind_eq_some_iff.1 hrun
    have := ih (h.step hstep) hrest
    rwa [List.append_assoc, List.singleton_append] at this

theorem Reached.viable {f : Frontier} {p : List Terminal} (h : f.Reached p) : Viable p := by
  obtain ⟨due, opened⟩ := f
  have hclosed {q : List Terminal} (hq : Closes opened q) : Viable q := by
    obtain ⟨u, s, hu, hp⟩ := hq.exists_phrase
    exact ⟨u, s, hu, hp.trans (List.prefix_append u _)⟩
  have hawaits (hp : Awaits .primary opened p) : Viable p := by
    obtain ⟨u, s, hu, hq⟩ := hclosed (hp.number 0)
    exact ⟨u, s, hu, (List.prefix_append p _).trans hq⟩
  cases due with
  | signedOperand => exact hawaits (Awaits.primary h)
  | operand => exact hawaits h
  | operator => exact hclosed h
  | nothing =>
    obtain ⟨u, s, hu, rfl⟩ := h
    exact ⟨u, s, hu, List.prefix_rfl⟩

end Frontier

/-- A sequence of terminals is viable exactly if it can be read from the start. -/
theorem viable_iff_run {w : List Terminal} : Viable w ↔ ∃ f, start.run w = some f := by
  constructor
  · rintro ⟨u, s, hu, t, ht⟩
    have hrun : start.run (u ++ [.endOfInput]) = some ⟨.nothing, 0⟩ :=
      run_eq_some_append (hu.run_eq (.inl rfl) 0) rfl
    rw [← ht, run_append] at hrun
    obtain ⟨f, hf, -⟩ := Option.bind_eq_some_iff.1 hrun
    exact ⟨f, hf⟩
  · rintro ⟨f, hf⟩
    exact (reached_start.run hf).viable

end ExprCompiler
