import ExprCompiler.Expr.Parser
import ExprCompiler.Proofs.Terminal
import Mathlib

/-!
# What the parser accepts

The parser of a level, from `parse_equality` to `parse_primary`, reads an expression of that level
from the front of the tokens and stops in front of the first token that could not continue it. Both
directions are shown for all levels at once, through `Parser.atLevel`.

* `Parser.Accepts`: whatever is read is a phrase of the level (`atLevel_accepts`). The three binary
  levels are one argument, about `chain`; the recursion through parentheses is an induction on the
  number of parentheses that may still be opened.
* `Phrase.reads`: tokens that are a phrase are read, or refused as nested too deeply, the latter
  exactly if the phrase is out of bounds. Since phrases of a binary level grow on the right, the
  induction hypothesis cannot say that the level's parser stops after the phrase; it says that the
  parser comes to the point where the phrase is what the loop has read so far (`resume`).
-/

namespace ExprCompiler

open Terminal
open ParseFailure (answer refuse bind_eq_ok_iff)

def Sized.ofExpr (e : Expr) : Sized := ⟨e, e.height⟩

namespace Parser

def atLevel (source : String) (inner? : Option Parser) : Level → Parser
  | .equality => equality source inner?
  | .additive => additive source inner?
  | .multiplicative => multiplicative source inner?
  | .unary => unary source inner?
  | .primary => primary source inner?

theorem atLevel_eq_chain (source : String) (inner? : Option Parser) {L L' : Level}
    (hL : L.tighter? = some L') (hne : L ≠ .unary) :
    atLevel source inner? L = chain source L.operators (atLevel source inner? L') := by
  cases L <;> simp only [Level.tighter?, Option.some.injEq, reduceCtorEq] at hL
  · subst hL; rfl
  · subst hL; rfl
  · subst hL; rfl
  · exact absurd rfl hne

/-! ## Questions about a token -/

section Questions

variable {source : String} {token : Token}

theorem answer_eq_ok_iff {α : Type} {x : Option α} {a : α} :
    answer token x = .ok a ↔ x = some a := by
  cases x <;> simp [answer]

theorem spells_eq_ok {symbol : Symbol} {b : Bool} (h : spells source symbol token = .ok b) :
    b = decide (token.terminal source = ofSymbol symbol) := by
  have hb := answer_eq_ok_iff.1 h
  by_cases ht : token.terminal source = ofSymbol symbol
  · rw [Token.terminal_eq_ofSymbol_iff.1 ht] at hb
    simp [ht, Option.some.inj hb.symm]
  · cases b with
    | true => exact absurd (Token.terminal_eq_ofSymbol_iff.2 hb) ht
    | false => simp [ht]

theorem spells_of_readable (h : token.Readable source) (symbol : Symbol) :
    spells source symbol token = .ok (decide (token.terminal source = ofSymbol symbol)) :=
  answer_eq_ok_iff.2 (Token.spells?_of_readable h symbol)

theorem operatorOf_cons (op : Operator) (ops : List Operator) :
    operatorOf source (op :: ops) token = (do
      if ← spells source (.operator op) token then return some op
      else operatorOf source ops token) := by
  rw [operatorOf, List.findM?]
  apply bind_congr
  rintro (_ | _) <;> rfl

theorem operatorOf_eq_ok {ops : List Operator} {o : Option Operator}
    (h : operatorOf source ops token = .ok o) :
    o = ops.find? fun op => token.terminal source = ofSymbol (.operator op) := by
  induction ops with
  | nil => exact (Except.ok.inj h).symm
  | cons op ops ih =>
    rw [operatorOf_cons] at h
    obtain ⟨b, hb, h⟩ := bind_eq_ok_iff.1 h
    obtain rfl := spells_eq_ok hb
    rw [List.find?_cons]
    split at h
    · rename_i ht
      rw [ht]
      exact (Except.ok.inj h).symm
    · rename_i ht
      rw [Bool.not_eq_true] at ht
      rw [ht]
      exact ih h

theorem operatorOf_of_readable (h : token.Readable source) (ops : List Operator) :
    operatorOf source ops token =
      .ok (ops.find? fun op => token.terminal source = ofSymbol (.operator op)) := by
  induction ops with
  | nil => rfl
  | cons op ops ih =>
    rw [operatorOf_cons, spells_of_readable h, List.find?_cons, ih]
    show (if decide (token.terminal source = ofSymbol (.operator op)) = true then _ else _) = _
    split <;> rename_i ht
    · rw [ht]; rfl
    · rw [Bool.not_eq_true] at ht
      rw [ht]

theorem eq_of_find? {ops : List Operator} {op : Operator}
    (h : (ops.find? fun op => token.terminal source = ofSymbol (.operator op)) = some op) :
    op ∈ ops ∧ token.terminal source = ofSymbol (.operator op) :=
  ⟨List.mem_of_find?_eq_some h, by simpa using List.find?_some h⟩

theorem find?_eq_some_of_mem {ops : List Operator} {op : Operator} (hop : op ∈ ops)
    (ht : token.terminal source = ofSymbol (.operator op)) :
    (ops.find? fun op => token.terminal source = ofSymbol (.operator op)) = some op := by
  cases h : ops.find? fun op => token.terminal source = ofSymbol (.operator op) with
  | none =>
    have := List.find?_eq_none.1 h op hop
    simp [ht] at this
  | some op' =>
    have := (eq_of_find? h).2
    rw [ht, ofSymbol_inj] at this
    rw [Symbol.operator.inj this]

end Questions

/-- The first token, if there is one, is no operator of the level or of a tighter one. -/
def Stops (source : String) (L : Level) (tokens : List Token) : Prop :=
  ∀ token ∈ tokens.head?, ∀ op ∈ L.absorbed, token.terminal source ≠ ofSymbol (.operator op)

theorem stops_of_tighter {source : String} {L L' : Level} (hL : L.tighter? = some L')
    {tokens : List Token} (h : Stops source L' tokens)
    (hops : ∀ token ∈ tokens.head?, ∀ op ∈ L.operators,
      token.terminal source ≠ ofSymbol (.operator op)) : Stops source L tokens := by
  intro token htoken op hop
  rcases (Level.mem_absorbed_iff hL op).1 hop with hop | hop
  · exact hops token htoken op hop
  · exact h token htoken op hop

/-! ## What is read is a phrase -/

/-- Whatever the parser reads is a phrase of the level, and it cannot be continued. -/
def Accepts (source : String) (L : Level) (p : Parser) : Prop :=
  ∀ tokens tree rest, p.run tokens = .ok (tree, rest) → ∃ used s, tokens = used ++ rest ∧
    Phrase lexicon L (used.map (Token.terminal source)) s ∧ tree = .ofExpr s.tree ∧
      Stops source L rest

section Accepts

variable {source : String}

theorem eq_cons_of_close_eq_ok {tokens rest : List Token} (h : close source tokens = .ok rest) :
    ∃ token, tokens = token :: rest ∧ token.terminal source = ofSymbol .rightParen := by
  cases tokens with
  | nil => simp [close, refuse] at h
  | cons token tokens =>
    obtain ⟨b, hb, h⟩ := bind_eq_ok_iff.1 h
    obtain rfl := spells_eq_ok hb
    split at h
    · rename_i ht
      obtain rfl := Except.ok.inj h
      exact ⟨token, rfl, of_decide_eq_true ht⟩
    · exact absurd h refuseToken_ne_ok

theorem primary_accepts {inner? : Option Parser}
    (hinner : ∀ inner ∈ inner?, inner.Accepts source .equality) :
    (primary source inner?).Accepts source .primary := by
  intro tokens tree rest h
  have hstops : Stops source .primary rest := by simp [Stops, Level.absorbed]
  cases tokens with
  | nil => simp [primary, refuse] at h
  | cons token tokens =>
    obtain ⟨b, hb, h⟩ := bind_eq_ok_iff.1 h
    obtain rfl := spells_eq_ok hb
    split at h
    · rename_i ht
      have ht := of_decide_eq_true ht
      split at h
      · simp [refuse] at h
      · rename_i inner _
        obtain ⟨⟨tree', tokens'⟩, hrun, h⟩ := bind_eq_ok_iff.1 h
        obtain ⟨after, hclose, h⟩ := bind_eq_ok_iff.1 h
        cases h
        obtain ⟨used, s, rfl, hs, rfl, -⟩ := hinner inner rfl _ _ _ hrun
        obtain ⟨token', rfl, ht'⟩ := eq_cons_of_close_eq_ok hclose
        refine ⟨token :: used ++ [token'], .paren s, by simp, ?_, rfl, hstops⟩
        have hphrase : Phrase lexicon .primary
            ([ofSymbol .leftParen] ++ used.map (Token.terminal source) ++ [ofSymbol .rightParen])
            (.paren s) := .paren rfl hs rfl
        simpa [ht, ht'] using hphrase
    · split at h
      · rename_i v hkind
        cases h
        refine ⟨[token], .number v, rfl, ?_, rfl, hstops⟩
        have hterminal : token.terminal source = .number v := Token.terminal_eq_number_iff.2 hkind
        exact .number (by simp [hterminal, lexicon])
      · exact absurd h refuseToken_ne_ok

theorem unary_accepts {inner? : Option Parser}
    (hprimary : (primary source inner?).Accepts source .primary) :
    (unary source inner?).Accepts source .unary := by
  intro tokens tree rest h
  have hstops : Stops source .unary rest := by simp [Stops, Level.absorbed]
  have hplain {tokens : List Token} (h : (primary source inner?).run tokens = .ok (tree, rest)) :
      ∃ used s, tokens = used ++ rest ∧ Phrase lexicon .unary (used.map (Token.terminal source)) s ∧
        tree = .ofExpr s.tree ∧ Stops source .unary rest := by
    obtain ⟨used, s, rfl, hs, rfl, -⟩ := hprimary _ _ _ h
    exact ⟨used, s, rfl, .tighter rfl hs, rfl, hstops⟩
  cases tokens with
  | nil => exact hplain h
  | cons token tokens =>
    obtain ⟨b, hb, h⟩ := bind_eq_ok_iff.1 h
    obtain rfl := spells_eq_ok hb
    split at h
    · rename_i ht
      obtain ⟨used, s, rfl, hs, rfl, -⟩ := hprimary _ _ _ h
      refine ⟨token :: used, .plus s, rfl, ?_, rfl, hstops⟩
      rw [List.map_cons, of_decide_eq_true ht]
      exact Phrase.plus rfl hs
    · obtain ⟨b, hb, h⟩ := bind_eq_ok_iff.1 h
      obtain rfl := spells_eq_ok hb
      split at h
      · rename_i ht
        obtain ⟨⟨operand, after⟩, hrun, h⟩ := bind_eq_ok_iff.1 h
        obtain ⟨negated, hjoin, h⟩ := bind_eq_ok_iff.1 h
        cases h
        obtain ⟨used, s, rfl, hs, rfl, -⟩ := hprimary _ _ _ hrun
        obtain ⟨-, rfl⟩ := Sized.join_eq_ok_iff.1 hjoin
        refine ⟨token :: used, .minus s, rfl, ?_, rfl, hstops⟩
        rw [List.map_cons, of_decide_eq_true ht]
        exact Phrase.minus rfl hs
      · exact hplain h

/-- One round of the loop turns a phrase of the level into a longer one. -/
theorem chainFrom_accepts {L L' : Level} (hL : L.tighter? = some L') {operand : Parser}
    (hoperand : operand.Accepts source L') {lhs tree : Sized} {tokens rest : List Token}
    (h : chainFrom source L.operators operand lhs tokens = .ok (tree, rest))
    (hstops : Stops source L' tokens) {w : List Terminal} {s : Surface}
    (hw : Phrase lexicon L w s) (hlhs : lhs = .ofExpr s.tree) :
    ∃ used s', tokens = used ++ rest ∧
      Phrase lexicon L (w ++ used.map (Token.terminal source)) s' ∧ tree = .ofExpr s'.tree ∧
        Stops source L rest := by
  fun_induction chainFrom source L.operators operand lhs tokens generalizing w s with
  | case1 lhs =>
    cases h
    exact ⟨[], s, rfl, by simpa using hw, hlhs, by simp [Stops]⟩
  | case2 | case4 | case5 => simp at h
  | case3 lhs token tokens hnone =>
    cases h
    refine ⟨[], s, rfl, by simpa using hw, hlhs, stops_of_tighter hL hstops ?_⟩
    intro token' htoken' op hop
    obtain rfl : token = token' := by simpa using htoken'
    have hfind := operatorOf_eq_ok hnone
    have := List.find?_eq_none.1 hfind.symm op hop
    simpa using this
  | case6 lhs token tokens op hsome rhs after hrun node hjoin ih =>
    obtain ⟨hop, hterminal⟩ := eq_of_find? (operatorOf_eq_ok hsome).symm
    obtain ⟨used, r, rfl, hr, rfl, hafter⟩ := hoperand _ _ _ hrun
    obtain ⟨-, rfl⟩ := Sized.join_eq_ok_iff.1 hjoin
    have hnode : Phrase lexicon L
        (w ++ [ofSymbol (.operator op)] ++ used.map (Token.terminal source)) (.binary op s r) :=
      .binary hL hop hw rfl hr
    obtain ⟨used', s', rfl, hs', htree, hrest⟩ := ih h hafter hnode (by rw [hlhs]; rfl)
    refine ⟨token :: used ++ used', s', by simp, ?_, htree, hrest⟩
    simpa [hterminal] using hs'

theorem chain_accepts {L L' : Level} (hL : L.tighter? = some L') {operand : Parser}
    (hoperand : operand.Accepts source L') :
    (chain source L.operators operand).Accepts source L := by
  intro tokens tree rest h
  obtain ⟨⟨lhs, after⟩, hrun, hloop⟩ := bind_eq_ok_iff.1 h
  obtain ⟨used, s, rfl, hs, hlhs, hstops⟩ := hoperand _ _ _ hrun
  obtain ⟨used', s', rfl, hs', htree, hrest⟩ :=
    chainFrom_accepts hL hoperand hloop hstops (.tighter hL hs) hlhs
  exact ⟨used ++ used', s', by simp, by simpa using hs', htree, hrest⟩

theorem atLevel_accepts_of_inner {inner? : Option Parser}
    (hinner : ∀ inner ∈ inner?, inner.Accepts source .equality) (L : Level) :
    (atLevel source inner? L).Accepts source L := by
  have hprimary := primary_accepts hinner
  have hunary := unary_accepts hprimary
  have hmul := chain_accepts (L := .multiplicative) rfl hunary
  have hadd := chain_accepts (L := .additive) rfl hmul
  have heq := chain_accepts (L := .equality) rfl hadd
  cases L with
  | equality => exact heq
  | additive => exact hadd
  | multiplicative => exact hmul
  | unary => exact hunary
  | primary => exact hprimary

theorem enclosed?_accepts (room : Nat) :
    ∀ inner ∈ enclosed? source room, inner.Accepts source .equality := by
  induction room with
  | zero => simp [enclosed?]
  | succ room ih =>
    rintro inner ⟨⟩
    exact atLevel_accepts_of_inner ih .equality

theorem atLevel_accepts (room : Nat) (L : Level) :
    (atLevel source (enclosed? source room) L).Accepts source L :=
  atLevel_accepts_of_inner (enclosed?_accepts room) L

end Accepts

/-! ## A phrase is read -/

section Steps

variable {source : String} {inner? : Option Parser} {token : Token} (hread : token.Readable source)

include hread

theorem close_paren (ht : token.terminal source = ofSymbol .rightParen) (rest : List Token) :
    close source (token :: rest) = .ok rest := by
  show (do if ← spells source .rightParen token then return rest else _) = _
  rw [spells_of_readable hread, ht]
  rfl

theorem primary_number {v : Int64} (ht : token.terminal source = .number v) (rest : List Token) :
    (primary source inner?).run (token :: rest) = .ok (.literal v, rest) := by
  show (do if ← spells source .leftParen token then _ else _) = _
  rw [spells_of_readable hread, ht, decide_eq_false (ofSymbol_ne_number _ v).symm,
    Token.terminal_eq_number_iff.1 ht]
  rfl

theorem primary_none (ht : token.terminal source = ofSymbol .leftParen) (rest : List Token) :
    (primary source none).run (token :: rest) = refuse token.span.start .nestedTooDeeply := by
  show (do if ← spells source .leftParen token then _ else _) = _
  rw [spells_of_readable hread, ht, decide_eq_true rfl]
  rfl

theorem primary_some (ht : token.terminal source = ofSymbol .leftParen) (inner : Parser)
    (rest : List Token) :
    (primary source (some inner)).run (token :: rest) = (do
      let (tree, rest) ← inner.run rest
      let rest ← close source rest
      return (tree, rest)) := by
  show (do if ← spells source .leftParen token then _ else _) = _
  rw [spells_of_readable hread, ht, decide_eq_true rfl]
  rfl

theorem unary_plus (ht : token.terminal source = ofSymbol (.operator .add)) (rest : List Token) :
    (unary source inner?).run (token :: rest) = (primary source inner?).run rest := by
  show (do if ← spells source (.operator .add) token then _ else _) = _
  rw [spells_of_readable hread, ht, decide_eq_true rfl]
  rfl

theorem unary_minus (ht : token.terminal source = ofSymbol (.operator .sub)) (rest : List Token) :
    (unary source inner?).run (token :: rest) = (do
      let (tree, rest) ← (primary source inner?).run rest
      return (← (Sized.literal 0).join .sub token.span.start tree, rest)) := by
  show (do if ← spells source (.operator .add) token then _ else _) = _
  rw [spells_of_readable hread, spells_of_readable hread, ht, decide_eq_false (by simp),
    decide_eq_true rfl]
  rfl

theorem unary_unsigned (hadd : token.terminal source ≠ ofSymbol (.operator .add))
    (hsub : token.terminal source ≠ ofSymbol (.operator .sub)) (rest : List Token) :
    (unary source inner?).run (token :: rest) = (primary source inner?).run (token :: rest) := by
  show (do if ← spells source (.operator .add) token then _ else _) = _
  rw [spells_of_readable hread, spells_of_readable hread, decide_eq_false hadd,
    decide_eq_false hsub]
  rfl

end Steps

/-- Goes on at a level that has read `lhs`. The levels without operators have nothing to go on
with. -/
def resume (source : String) (inner? : Option Parser) (L : Level) (lhs : Sized)
    (rest : List Token) : Except ParseFailure (Sized × List Token) :=
  chainFrom source L.operators (atLevel source inner? (L.tighter?.getD L)) lhs rest

def HeadReadable (source : String) (tokens : List Token) : Prop :=
  ∀ token ∈ tokens.head?, token.Readable source

theorem resume_of_stops {source : String} {L : Level} {rest : List Token}
    (hread : HeadReadable source rest) (hstops : Stops source L rest) (inner? : Option Parser)
    (lhs : Sized) : resume source inner? L lhs rest = .ok (lhs, rest) := by
  rw [resume]
  cases rest with
  | nil => rw [chainFrom_nil]
  | cons token rest =>
    have hnone : (L.operators.find? fun op => token.terminal source = ofSymbol (.operator op)) =
        none := by
      rw [List.find?_eq_none]
      intro op hop
      simpa using hstops token rfl op (L.operators_subset_absorbed hop)
    rw [chainFrom_cons, operatorOf_of_readable (hread token rfl), hnone]
    rfl

/-- The failure of an expression that is out of bounds. -/
def TooDeep {α : Type} (result : Except ParseFailure α) : Prop :=
  ∃ offset, result = refuse offset .nestedTooDeeply

theorem TooDeep.bind {α β : Type} {x : Except ParseFailure α} (h : TooDeep x)
    (f : α → Except ParseFailure β) : TooDeep (x >>= f) := by
  obtain ⟨offset, rfl⟩ := h
  exact ⟨offset, rfl⟩

theorem join_eq_refuse {op : Operator} {offset : Nat} {lhs rhs : Sized}
    (h : ¬ 1 + max lhs.height rhs.height ≤ maxHeight) :
    lhs.join op offset rhs = refuse offset .nestedTooDeeply := by
  simp [Sized.join, h]

theorem tooDeep_join {op : Operator} {offset : Nat} {lhs rhs : Sized}
    (h : ¬ 1 + max lhs.height rhs.height ≤ maxHeight) : TooDeep (lhs.join op offset rhs) :=
  ⟨offset, join_eq_refuse h⟩

end Parser

open ExprCompiler.Parser

/-- An expression in which no more than `room` parentheses are open at once and whose tree is not
too high. -/
def Surface.Within (room : Nat) (s : Surface) : Prop :=
  s.nesting ≤ room ∧ s.tree.height ≤ maxHeight

theorem Surface.within_binary {room : Nat} {op : Operator} {l r : Surface} :
    (Surface.binary op l r).Within room ↔
      l.Within room ∧ r.Within room ∧ 1 + max l.tree.height r.tree.height ≤ maxHeight := by
  simp only [Within, nesting, tree, Expr.height_binary]
  omega

/-- Reading `s` gives the expected result, unless `s` is out of bounds and refused for that. -/
def Settles {α : Type} (room : Nat) (s : Surface) (result expected : Except ParseFailure α) :
    Prop :=
  s.Within room ∧ result = expected ∨ ¬ s.Within room ∧ TooDeep result

/-- Wherever the tokens `used` stand in front of a token that goes on with no tighter level, they
bring the parser of level `L` to the point where it has read `s`. -/
def Reads (source : String) (L : Level) (s : Surface) (used : List Token) : Prop :=
  ∀ room rest, HeadReadable source rest → (∀ L', L.tighter? = some L' → Stops source L' rest) →
    Settles room s ((atLevel source (enclosed? source room) L).run (used ++ rest))
      (resume source (enclosed? source room) L (.ofExpr s.tree) rest)

section Reads

variable {source : String} {L L' : Level} {s l r : Surface}

theorem Parser.Stops.tighter {tokens : List Token} (h : Stops source L tokens)
    (hL : L.tighter? = some L') : Stops source L' tokens :=
  fun token htoken op hop => h token htoken op ((Level.mem_absorbed_iff hL op).2 (.inr hop))

theorem stops_cons_iff {token : Token} {tokens : List Token} :
    Stops source L (token :: tokens) ↔
      ∀ op ∈ L.absorbed, token.terminal source ≠ ofSymbol (.operator op) := by
  simp [Stops]

theorem stops_unary (tokens : List Token) : Stops source .unary tokens := by
  simp [Stops, Level.absorbed]

theorem stops_primary (tokens : List Token) : Stops source .primary tokens := by
  simp [Stops, Level.absorbed]

theorem stops_endOfInput {e : Token} (he : e.kind = .eof) (L : Level) (tokens : List Token) :
    Stops source L (e :: tokens) := by
  rw [stops_cons_iff, Token.terminal_eq_endOfInput_iff.2 he]
  simp [(ofSymbol_ne_endOfInput _).symm]

theorem headReadable_cons_iff {token : Token} {tokens : List Token} :
    HeadReadable source (token :: tokens) ↔ token.Readable source := by
  simp [HeadReadable]

theorem resume_eq_chainFrom (hL : L.tighter? = some L') (inner? : Option Parser) (lhs : Sized)
    (rest : List Token) :
    resume source inner? L lhs rest =
      chainFrom source L.operators (atLevel source inner? L') lhs rest := by
  rw [resume, hL, Option.getD_some]

/-- In front of a token that does not go on with the phrase, the level stops. -/
theorem Reads.stop {used : List Token} (h : Reads source L s used) (room : Nat) {rest : List Token}
    (hread : HeadReadable source rest) (hstops : Stops source L rest) :
    Settles room s ((atLevel source (enclosed? source room) L).run (used ++ rest))
      (.ok (.ofExpr s.tree, rest)) := by
  have := h room rest hread (fun L' hL => hstops.tighter hL)
  rwa [resume_of_stops hread hstops] at this

theorem reads_number {token : Token} {v : Int64} (hread : token.Readable source)
    (ht : token.terminal source = .number v) : Reads source .primary (.number v) [token] := by
  intro room rest hrest _
  refine .inl ⟨⟨Nat.zero_le room, by simp [Surface.tree, maxHeight]⟩, ?_⟩
  rw [resume_of_stops hrest (stops_primary rest)]
  exact primary_number hread ht rest

theorem Reads.paren {o c : Token} {inside : List Token} (hin : Reads source .equality s inside)
    (horead : o.Readable source) (ho : o.terminal source = ofSymbol .leftParen)
    (hcread : c.Readable source) (hc : c.terminal source = ofSymbol .rightParen) :
    Reads source .primary (.paren s) (o :: inside ++ [c]) := by
  intro room rest hrest _
  rw [resume_of_stops hrest (stops_primary rest)]
  cases room with
  | zero =>
    refine .inr ⟨by simp [Surface.Within, Surface.nesting], o.span.start, ?_⟩
    exact primary_none horead ho _
  | succ room =>
    have happend : o :: inside ++ [c] ++ rest = o :: (inside ++ c :: rest) := by simp
    have hrun := primary_some horead ho (equality source (enclosed? source room))
      (inside ++ c :: rest)
    rw [happend]
    show Settles (room + 1) _ ((primary source (some _)).run _) _
    rw [hrun]
    have hstops : Stops source .equality (c :: rest) := by
      rw [stops_cons_iff, hc]
      simp
    rcases hin.stop room (headReadable_cons_iff.2 hcread) hstops with ⟨hwithin, hok⟩ | ⟨hout, hdeep⟩
    · refine .inl ⟨⟨Nat.succ_le_succ hwithin.1, hwithin.2⟩, ?_⟩
      show (do let (tree, rest) ← (atLevel source _ .equality).run _; _) = _
      rw [hok]
      show (do let rest ← close source (c :: rest); _) = _
      rw [close_paren hcread hc]
      rfl
    · exact .inr ⟨fun h => hout ⟨Nat.le_of_succ_le_succ h.1, h.2⟩, hdeep.bind _⟩

theorem Reads.plus {token : Token} {used : List Token} (h : Reads source .primary s used)
    (hread : token.Readable source) (ht : token.terminal source = ofSymbol (.operator .add)) :
    Reads source .unary (.plus s) (token :: used) := by
  intro room rest hrest _
  have hrun := h.stop room hrest (stops_primary rest)
  rw [resume_of_stops hrest (stops_unary rest)]
  show Settles room _ ((unary source _).run (token :: (used ++ rest))) _
  rw [unary_plus hread ht]
  exact hrun

theorem Reads.minus {token : Token} {used : List Token} (h : Reads source .primary s used)
    (hread : token.Readable source) (ht : token.terminal source = ofSymbol (.operator .sub)) :
    Reads source .unary (.minus s) (token :: used) := by
  intro room rest hrest _
  rw [resume_of_stops hrest (stops_unary rest)]
  show Settles room _ ((unary source _).run (token :: (used ++ rest))) _
  rw [unary_minus hread ht]
  show Settles room _ (do
    let (tree, rest) ← (atLevel source _ .primary).run (used ++ rest)
    return (← (Sized.literal 0).join .sub token.span.start tree, rest)) _
  rcases h.stop room hrest (stops_primary rest) with ⟨hwithin, hok⟩ | ⟨hout, hdeep⟩
  · rw [hok]
    show Settles room (.minus s) (do
      let negated ← (Sized.literal 0).join .sub token.span.start (.ofExpr s.tree)
      return (negated, rest)) _
    by_cases hheight : 1 + max 1 s.tree.height ≤ maxHeight
    · refine .inl ⟨⟨hwithin.1, by simpa [Surface.tree] using hheight⟩, ?_⟩
      rw [Sized.join_eq_ok_iff.2 ⟨hheight, rfl⟩]
      rfl
    · refine .inr ⟨fun h => hheight (by simpa [Surface.tree] using h.2), ?_⟩
      exact (tooDeep_join hheight).bind _
  · refine .inr ⟨fun h => hout ⟨h.1, ?_⟩, hdeep.bind _⟩
    have hheight := h.2
    simp only [Surface.tree, Expr.height_binary] at hheight
    omega

/-- A primary starts with a number or a parenthesis. -/
theorem Phrase.primary_head {used : List Token} (h : Phrase (tokenLexicon source) .primary used s) :
    ∃ token rest, used = token :: rest ∧ token.Readable source ∧
      ∀ op, token.terminal source ≠ ofSymbol (.operator op) := by
  cases h with
  | @number v used hused =>
    obtain ⟨token, rfl, hread, ht⟩ := hused
    refine ⟨token, [], rfl, hread, fun op => ?_⟩
    rw [ht]
    exact (ofSymbol_ne_number _ v).symm
  | @paren left inside right s hleft hs hright =>
    obtain ⟨token, rfl, hread, ht⟩ := hleft
    exact ⟨token, inside ++ right, rfl, hread, fun op => by simp [ht]⟩
  | tighter hL => simp [Level.tighter?] at hL
  | binary hL => simp [Level.tighter?] at hL

theorem Phrase.unary_run {used : List Token} (h : Phrase (tokenLexicon source) .primary used s)
    (inner? : Option Parser) (rest : List Token) :
    (unary source inner?).run (used ++ rest) = (primary source inner?).run (used ++ rest) := by
  obtain ⟨token, used, rfl, hread, hunsigned⟩ := h.primary_head
  exact unary_unsigned hread (hunsigned .add) (hunsigned .sub) (used ++ rest)

theorem Reads.unsigned {used : List Token} (h : Reads source .primary s used)
    (hphrase : Phrase (tokenLexicon source) .primary used s) : Reads source .unary s used := by
  intro room rest hrest _
  rw [resume_of_stops hrest (stops_unary rest)]
  show Settles room _ ((unary source _).run (used ++ rest)) _
  rw [hphrase.unary_run]
  exact h.stop room hrest (stops_primary rest)

theorem Reads.tighter {used : List Token} (h : Reads source L' s used)
    (hL : L.tighter? = some L') (hne : L ≠ .unary) : Reads source L s used := by
  intro room rest hrest hstops
  rw [atLevel_eq_chain source _ hL hne, resume_eq_chainFrom hL]
  show Settles room s (do
    let (lhs, rest) ← (atLevel source _ L').run (used ++ rest)
    chainFrom source L.operators _ lhs rest) _
  rcases h.stop room hrest (hstops L' hL) with ⟨hwithin, hok⟩ | ⟨hout, hdeep⟩
  · refine .inl ⟨hwithin, ?_⟩
    rw [hok]
    rfl
  · exact .inr ⟨hout, hdeep.bind _⟩

section Operator

variable {o : Token} {op : Operator} (hL : L.tighter? = some L') (hop : op ∈ L.operators)
  (ho : o.terminal source = ofSymbol (.operator op))

include hL hop ho

/-- In front of an operator of the level, the operands of the level stop. -/
theorem stops_operator (tokens : List Token) : Stops source L' (o :: tokens) := by
  rw [stops_cons_iff, ho]
  intro op' hop' heq
  rw [ofSymbol_inj] at heq
  obtain rfl := Symbol.operator.inj heq
  exact Level.not_mem_absorbed_of_tighter hL hop hop'

/-- One round of the loop. -/
theorem resume_operator (horead : o.Readable source) (inner? : Option Parser) (lhs : Sized)
    (tokens : List Token) :
    resume source inner? L lhs (o :: tokens) = (do
      let (rhs, after) ← (atLevel source inner? L').run tokens
      let tree ← lhs.join op o.span.start rhs
      chainFrom source L.operators (atLevel source inner? L') tree after) := by
  rw [resume_eq_chainFrom hL, chainFrom_cons, operatorOf_of_readable horead,
    find?_eq_some_of_mem hop ho]
  rfl

theorem Reads.binary {left right : List Token} (hl : Reads source L l left)
    (hr : Reads source L' r right) (horead : o.Readable source) :
    Reads source L (.binary op l r) (left ++ o :: right) := by
  intro room rest hrest hstops
  rw [resume_eq_chainFrom hL, List.append_assoc, List.cons_append]
  have hbefore := stops_operator hL hop ho (right ++ rest)
  rcases hl room (o :: (right ++ rest)) (headReadable_cons_iff.2 horead)
    (fun L'' hL'' => Option.some.inj (hL.symm.trans hL'') ▸ hbefore)
    with ⟨hlwithin, hlok⟩ | ⟨hout, hdeep⟩
  · rw [hlok, resume_operator hL hop ho horead]
    rcases hr.stop room hrest (hstops L' hL) with ⟨hrwithin, hrok⟩ | ⟨hout, hdeep⟩
    · rw [hrok]
      show Settles room _ (do
        let tree ← (Sized.ofExpr l.tree).join op o.span.start (.ofExpr r.tree)
        chainFrom source L.operators _ tree rest) _
      by_cases hheight : 1 + max l.tree.height r.tree.height ≤ maxHeight
      · refine .inl ⟨Surface.within_binary.2 ⟨hlwithin, hrwithin, hheight⟩, ?_⟩
        rw [Sized.join_eq_ok_iff.2 ⟨hheight, rfl⟩]
        rfl
      · refine .inr ⟨fun h => hheight (Surface.within_binary.1 h).2.2, ?_⟩
        exact (tooDeep_join hheight).bind _
    · exact .inr ⟨fun h => hout (Surface.within_binary.1 h).2.1, hdeep.bind _⟩
  · exact .inr ⟨fun h => hout (Surface.within_binary.1 h).1, hdeep⟩

end Operator

theorem Phrase.reads {used : List Token} (h : Phrase (tokenLexicon source) L used s) :
    Reads source L s used := by
  induction h with
  | number hused =>
    obtain ⟨token, rfl, hread, ht⟩ := hused
    exact reads_number hread ht
  | paren hleft hs hright ih =>
    obtain ⟨o, rfl, horead, ho⟩ := hleft
    obtain ⟨c, rfl, hcread, hc⟩ := hright
    exact ih.paren horead ho hcread hc
  | plus hsign hs ih =>
    obtain ⟨token, rfl, hread, ht⟩ := hsign
    exact ih.plus hread ht
  | minus hsign hs ih =>
    obtain ⟨token, rfl, hread, ht⟩ := hsign
    exact ih.minus hread ht
  | @tighter L L' used s hL hs ih =>
    by_cases hne : L = .unary
    · subst hne
      obtain rfl : .primary = L' := Option.some.inj hL
      exact ih.unsigned hs
    · exact ih.tighter hL hne
  | binary hL hop hl hoperator hr ihl ihr =>
    obtain ⟨o, rfl, horead, ho⟩ := hoperator
    rw [List.append_assoc, List.singleton_append]
    exact ihl.binary hL hop ho ihr horead

end Reads

/-! ## Whole expressions -/

section Whole

variable {source : String}

/-- An accepted sequence of tokens is a phrase up to the first end of the input. -/
theorem exists_phrase_of_parse {tokens : List Token} {a : Expr}
    (h : parse source tokens = .ok a) :
    ∃ used token rest s, tokens = used ++ token :: rest ∧ token.kind = .eof ∧
      Phrase lexicon .equality (used.map (Token.terminal source)) s ∧ a = s.tree := by
  obtain ⟨⟨tree, rest⟩, hrun, h⟩ := bind_eq_ok_iff.1 h
  obtain ⟨used, s, rfl, hs, rfl, -⟩ := atLevel_accepts maxNesting .equality _ _ _ hrun
  cases rest with
  | nil => simp [refuse] at h
  | cons token rest =>
    dsimp only at h
    split at h
    · rename_i heof
      exact ⟨used, token, rest, s, rfl, heof, hs, (Except.ok.inj h).symm⟩
    · exact absurd h refuseToken_ne_ok

theorem Phrase.settles_parse {used : List Token} {s : Surface}
    (h : Phrase lexicon .equality (used.map (Token.terminal source)) s)
    (hread : ∀ t ∈ used, t.Readable source) {e : Token} (he : e.kind = .eof) (rest : List Token) :
    Settles maxNesting s (parse source (used ++ e :: rest)) (.ok s.tree) := by
  have hsettles := (h.tokens rfl hread).reads.stop maxNesting (headReadable_cons_iff.2 (.inl he))
    (stops_endOfInput he .equality rest)
  rcases hsettles with ⟨hwithin, hok⟩ | ⟨hout, hdeep⟩
  · refine .inl ⟨hwithin, ?_⟩
    show (do match ← (atLevel source _ .equality).run _ with | _ => _) = _
    rw [hok]
    show (if e.kind = .eof then _ else _) = _
    rw [if_pos he]
    rfl
  · exact .inr ⟨hout, hdeep.bind _⟩

theorem not_tooDeep_ok {α : Type} (a : α) : ¬ TooDeep (.ok a) := by
  rintro ⟨offset, h⟩
  simp [refuse] at h

/-- Where tokens are accepted, they are no other expression than the one they are accepted as. -/
theorem Phrase.tree_eq_of_parse {used : List Token} {s : Surface}
    (h : Phrase lexicon .equality (used.map (Token.terminal source)) s)
    (hread : ∀ t ∈ used, t.Readable source) {e : Token} (he : e.kind = .eof) {rest : List Token}
    {a : Expr} (hparse : parse source (used ++ e :: rest) = .ok a) :
    s.tree = a ∧ s.Within maxNesting := by
  rcases h.settles_parse hread he rest with ⟨hwithin, hok⟩ | ⟨-, hdeep⟩
  · exact ⟨Except.ok.inj (hok.symm.trans hparse), hwithin⟩
  · exact absurd (hparse ▸ hdeep) (not_tooDeep_ok a)

/-- Where the tokens hold no other end of the input than the last one, the parser accepts exactly
the expressions within the limits. -/
theorem parse_eq_ok_iff_within {body : List Token} {e : Token} (he : e.kind = .eof)
    (hkind : ∀ t ∈ body, t.kind ≠ .eof) (hread : ∀ t ∈ body, t.Readable source) (a : Expr) :
    parse source (body ++ [e]) = .ok a ↔
      ∃ s, Phrase lexicon .equality (body.map (Token.terminal source)) s ∧ s.tree = a ∧
        s.Within maxNesting := by
  constructor
  · intro h
    obtain ⟨used, token, rest, s, htokens, htoken, hs, rfl⟩ := exists_phrase_of_parse h
    -- the expression ends at the first end of the input, which is the one after `body`
    obtain rfl : used = body := by
      rcases List.append_eq_append_iff.1 htokens with ⟨c, rfl, hc⟩ | ⟨c, rfl, hc⟩
      · obtain ⟨rfl, -⟩ := by simpa [List.singleton_eq_append_iff] using hc
        simp
      · cases c with
        | nil => simp
        | cons t c =>
          obtain ⟨rfl, -⟩ := List.cons.inj hc
          exact absurd htoken (hkind token (by simp))
    exact ⟨s, hs, hs.tree_eq_of_parse hread he h⟩
  · rintro ⟨s, hs, rfl, hwithin⟩
    rcases hs.settles_parse hread he [] with ⟨-, hok⟩ | ⟨hout, -⟩
    · exact hok
    · exact absurd hwithin hout

/-- The parser accepts exactly the expressions of the grammar that stay within the limits, and gives
the tree that the grammar prescribes. -/
theorem parse_append_eof_eq_ok_iff {body : List Token} {e : Token} (he : e.kind = .eof)
    (hbody : ∀ t ∈ body, t.kind ≠ .eof ∧ t.span.LiesIn source) (a : Expr) :
    parse source (body ++ [e]) = .ok a ↔
      (∃ s, Phrase lexicon .equality (body.map (Token.terminal source)) s ∧ s.tree = a) ∧
        NestedWithin (ofSymbol .leftParen) (ofSymbol .rightParen) 256
          (body.map (Token.terminal source)) ∧
        a.height ≤ 4096 := by
  have hread : ∀ t ∈ body, t.Readable source := fun t ht => .inr (hbody t ht).2
  rw [parse_eq_ok_iff_within he (fun t ht => (hbody t ht).1) hread]
  constructor
  · rintro ⟨s, hs, rfl, hnesting, hheight⟩
    exact ⟨⟨s, hs, rfl⟩, (hs.nestedWithin_iff lexicon_brackets 256).2 hnesting, hheight⟩
  · rintro ⟨⟨s, hs, rfl⟩, hnested, hheight⟩
    exact ⟨s, hs, rfl, (hs.nestedWithin_iff lexicon_brackets 256).1 hnested, hheight⟩

set_option maxRecDepth 2000 in
/-- Hand-made tokens need not stand in the source in their order, nor fit the end of the input. -/
theorem parse_scattered_tokens :
    let body : List Token := [⟨.punctuator, ⟨4, 1⟩⟩, ⟨.punctuator, ⟨3, 1⟩⟩, ⟨.number 7, ⟨0, 1⟩⟩,
      ⟨.punctuator, ⟨5, 1⟩⟩]
    (∀ t ∈ body, t.kind ≠ .eof ∧ t.span.LiesIn "1é(-)") ∧
      (∃ s, Phrase lexicon .equality (body.map (Token.terminal "1é(-)")) s ∧
        s.tree = .binary .sub (.literal 0) (.literal 7)) ∧
      NestedWithin (ofSymbol .leftParen) (ofSymbol .rightParen) 256
        (body.map (Token.terminal "1é(-)")) ∧
      (Expr.binary .sub (.literal 0) (.literal 7)).height ≤ 4096 := by
  refine ⟨by decide, ?_⟩
  exact (parse_append_eof_eq_ok_iff (e := ⟨.eof, ⟨9, 9⟩⟩) rfl (by decide) _).1 (by cbv)

end Whole

end ExprCompiler
