import ExprCompiler.Proofs.Parsing
import ExprCompiler.Proofs.Viability

/-!
# Where the parser refuses

A parse that fails has read some tokens, each of which might come next where it stands, and fails at
a token that might not: the frontier decides what is reported. `Refused` says so for every sequence
of tokens, with the end of the sequence, spans that do not lie in the source and the limits on the
size of an expression as the other reasons to fail.

The parsers of the levels are taken in the order in which they are built from each other. A level
that succeeds has moved the frontier past an operand (`Phrase.run_eq`) and stopped at a token that
cannot continue it; this is what the next test of the parser, for a closing parenthesis (`skip`) or
for the end of the input (`is_eof`), finds there.
-/

namespace ExprCompiler

open Terminal Frontier ExprCompiler.Parser
open ParseFailure (answer refuse bind_eq_ok_iff)

namespace Frontier

/-- What is reported about a token that may not come next. -/
def refusal (f : Frontier) (got : String) : SyntaxCause :=
  match f.due with
  | .signedOperand | .operand => .expectedNumber got
  | .operator | .nothing => if f.opened = 0 then .unexpectedToken got else .unclosed got

/-- What is reported where the tokens end without an end of the input. -/
def refusalAtEnd (f : Frontier) : SyntaxCause :=
  match f.due with
  | .signedOperand | .operand => .numberMissing
  | .operator | .nothing => if f.opened = 0 then .endMissing else .unclosed Token.endName

theorem step_punctuation_eq_none {f : Frontier} {text : String}
    (h : ∀ symbol, Terminal.punctuation text = ofSymbol symbol → f.stepSymbol symbol = none) :
    f.step (.punctuation text) = none := by
  cases hg : f.step (.punctuation text) with
  | none => rfl
  | some g =>
    obtain ⟨symbol, htext, hsymbol⟩ := exists_symbol_of_step hg
    exact absurd (hsymbol.symm.trans (h symbol htext)) (by simp)

theorem step_nothing (opened : Nat) (x : Terminal) : step ⟨.nothing, opened⟩ x = none := by
  cases x with
  | number v => rfl
  | endOfInput => simp [step]
  | punctuation text =>
    refine step_punctuation_eq_none fun symbol _ => ?_
    rcases symbol with op | _ | _ <;> rfl

/-- Where an operand is due, only a number or an opening parenthesis may come. -/
theorem step_operand_eq_none {opened : Nat} {x : Terminal} (hnumber : ∀ v, x ≠ .number v)
    (hparen : x ≠ ofSymbol .leftParen) : step ⟨.operand, opened⟩ x = none := by
  cases x with
  | number v => exact absurd rfl (hnumber v)
  | endOfInput => simp [step]
  | punctuation text =>
    refine step_punctuation_eq_none fun symbol htext => ?_
    rcases symbol with op | _ | _
    · rfl
    · exact absurd htext hparen
    · rfl

/-- After an operand, what is neither an operator nor closes a parenthesis ends the expression. -/
theorem step_operator_eq_none {opened : Nat} {x : Terminal}
    (hop : ∀ op, x ≠ ofSymbol (.operator op)) (hparen : x = ofSymbol .rightParen → opened = 0)
    (hend : x = .endOfInput → opened ≠ 0) : step ⟨.operator, opened⟩ x = none := by
  cases x with
  | number v => rfl
  | endOfInput => simp [step, hend rfl]
  | punctuation text =>
    refine step_punctuation_eq_none fun symbol htext => ?_
    rcases symbol with op | _ | _
    · exact absurd htext (hop op)
    · rfl
    · obtain rfl := hparen htext
      rfl

/-- Where a sign is allowed but does not come, the same may come as after a sign. -/
theorem step_signedOperand {opened : Nat} {x : Terminal} (hadd : x ≠ ofSymbol (.operator .add))
    (hsub : x ≠ ofSymbol (.operator .sub)) :
    step ⟨.signedOperand, opened⟩ x = step ⟨.operand, opened⟩ x := by
  cases x with
  | number v => rfl
  | endOfInput => simp [step]
  | punctuation text =>
    rw [step, step]
    cases hsymbol : Symbol.ofSpelling? text with
    | none => rfl
    | some symbol =>
      rw [Symbol.ofSpelling?_eq_some_iff] at hsymbol
      subst hsymbol
      rcases symbol with op | _ | _
      · have hop : op ≠ .add ∧ op ≠ .sub :=
          ⟨fun h => hadd (by rw [h]; rfl), fun h => hsub (by rw [h]; rfl)⟩
        simp [stepSymbol, hop]
      · rfl
      · rfl

end Frontier

/-- `Refused source f tokens failure`: reading on from `f`, the tokens are refused with
`failure`. -/
inductive Refused (source : String) : Frontier → List Token → ParseFailure → Prop where
  | stuck {f : Frontier} {token : Token} {rest : List Token} {got : String}
      (hstep : f.step (token.terminal source) = none)
      (hgot : Token.describe? source (some token) = some got) :
      Refused source f (token :: rest) (.fault ⟨token.span.start, f.refusal got⟩)
  | ranOut {f : Frontier} : Refused source f [] (.fault ⟨source.utf8ByteSize, f.refusalAtEnd⟩)
  | unreadable {f : Frontier} {token : Token} {rest : List Token}
      (hread : ¬ token.Readable source) : Refused source f (token :: rest) (.unreadable token.span)
  | tooDeep {f : Frontier} {tokens : List Token} {offset : Nat} :
      Refused source f tokens (.fault ⟨offset, .nestedTooDeeply⟩)
  | next {f g : Frontier} {token : Token} {rest : List Token} {failure : ParseFailure}
      (hkind : token.kind ≠ .eof) (hstep : f.step (token.terminal source) = some g)
      (hrest : Refused source g rest failure) : Refused source f (token :: rest) failure

variable {source : String}

/-- Tokens that were read come before the tokens that are refused. -/
theorem Refused.append {f g : Frontier} {used rest : List Token} {failure : ParseFailure}
    (hrun : f.run (used.map (Token.terminal source)) = some g) (hdue : g.due ≠ .nothing)
    (h : Refused source g rest failure) : Refused source f (used ++ rest) failure := by
  induction used generalizing f with
  | nil =>
    obtain rfl := Option.some.inj hrun
    exact h
  | cons token used ih =>
    obtain ⟨f', hstep, hused⟩ := Option.bind_eq_some_iff.1 hrun
    refine .next (fun hkind => hdue ?_) hstep (ih hused)
    -- after the end of the input nothing more is read
    rw [Token.terminal_eq_endOfInput_iff.2 hkind, step, Option.ite_none_right_eq_some] at hstep
    obtain ⟨-, hf'⟩ := hstep
    obtain rfl := Option.some.inj hf'
    cases used with
    | nil =>
      obtain rfl := Option.some.inj hused
      rfl
    | cons token' used => simp [step_nothing] at hused

theorem Refused.signed {opened : Nat} {tokens : List Token} {failure : ParseFailure}
    (h : Refused source ⟨.operand, opened⟩ tokens failure)
    (hsign : ∀ token ∈ tokens.head?, token.terminal source ≠ ofSymbol (.operator .add) ∧
      token.terminal source ≠ ofSymbol (.operator .sub)) :
    Refused source ⟨.signedOperand, opened⟩ tokens failure := by
  cases h with
  | @stuck _ token rest got hstep hgot =>
    obtain ⟨hadd, hsub⟩ := hsign token rfl
    rw [← step_signedOperand hadd hsub] at hstep
    exact .stuck hstep hgot
  | ranOut => exact .ranOut
  | unreadable hread => exact .unreadable hread
  | tooDeep => exact .tooDeep
  | @next _ g token rest failure hkind hstep hrest =>
    obtain ⟨hadd, hsub⟩ := hsign token rfl
    rw [← step_signedOperand hadd hsub] at hstep
    exact .next hkind hstep hrest

/-! ## The parsers -/

theorem bind_eq_error_iff {α β : Type} {x : Except ParseFailure α} {f : α → Except ParseFailure β}
    {e : ParseFailure} :
    (x >>= f) = .error e ↔ x = .error e ∨ ∃ a, x = .ok a ∧ f a = .error e := by
  cases x <;> simp [bind, Except.bind]

theorem spells_eq_error {symbol : Symbol} {token : Token} {failure : ParseFailure}
    (h : spells source symbol token = .error failure) :
    ¬ token.Readable source ∧ failure = .unreadable token.span := by
  refine ⟨fun hread => ?_, ?_⟩
  · rw [spells_of_readable hread] at h
    simp at h
  · rw [spells] at h
    cases hs : token.spells? source symbol <;> rw [hs] at h <;> simp [answer] at h
    exact h.symm

/-- A token whose text has to be looked at is refused if that cannot be done. -/
theorem Refused.spells {α : Type} {f : Frontier} {symbol : Symbol} {token : Token}
    {rest : List Token} {next : Bool → Except ParseFailure α} {failure : ParseFailure}
    (h : (Parser.spells source symbol token >>= next) = .error failure)
    (hnext : next (decide (token.terminal source = ofSymbol symbol)) = .error failure →
      Refused source f (token :: rest) failure) : Refused source f (token :: rest) failure := by
  rcases bind_eq_error_iff.1 h with h | ⟨b, hb, h⟩
  · obtain ⟨hread, rfl⟩ := spells_eq_error h
    exact .unreadable hread
  · obtain rfl := spells_eq_ok hb
    exact hnext h

theorem operatorOf_eq_error {ops : List Operator} {token : Token} {failure : ParseFailure}
    (h : operatorOf source ops token = .error failure) :
    ¬ token.Readable source ∧ failure = .unreadable token.span := by
  induction ops with
  | nil => simp [operatorOf, List.findM?, pure, Except.pure] at h
  | cons op ops ih =>
    rw [operatorOf_cons] at h
    rcases bind_eq_error_iff.1 h with h | ⟨b, -, h⟩
    · exact spells_eq_error h
    · split at h
      · simp [pure, Except.pure] at h
      · exact ih h

theorem eq_tooDeep_of_join_eq_error {op : Operator} {offset : Nat} {lhs rhs : Sized}
    {failure : ParseFailure} (h : lhs.join op offset rhs = .error failure) :
    failure = .fault ⟨offset, .nestedTooDeeply⟩ := by
  rw [Sized.join] at h
  split at h
  · simp at h
  · exact (Except.error.inj h).symm

/-- A token that may not come next is refused as the frontier says. -/
theorem Refused.refuseToken {α : Type} {f : Frontier} {token : Token} {rest : List Token}
    {cause : String → SyntaxCause} {failure : ParseFailure}
    (h : Parser.refuseToken (α := α) source token cause = .error failure)
    (hstep : f.step (token.terminal source) = none) (hcause : ∀ got, f.refusal got = cause got) :
    Refused source f (token :: rest) failure := by
  rcases bind_eq_error_iff.1 h with h | ⟨got, hgot, h⟩
  · cases hd : Token.describe? source (some token) with
    | some got =>
      rw [hd] at h
      simp [answer] at h
    | none =>
      rw [hd] at h
      obtain rfl := Except.error.inj h
      refine .unreadable fun hread => ?_
      have := Token.isSome_describe? hread
      simp [hd] at this
  · obtain rfl := Except.error.inj h
    rw [← hcause got]
    exact .stuck hstep (answer_eq_ok_iff.1 hgot)

def Level.due : Level → Due
  | .equality | .additive | .multiplicative | .unary => .signedOperand
  | .primary => .operand

/-- Whatever the parser fails at is refused there by the frontier. -/
def Parser.Refuses (source : String) (L : Level) (p : Parser) : Prop :=
  ∀ tokens failure, p.run tokens = .error failure → ∀ opened,
    Refused source ⟨L.due, opened⟩ tokens failure

theorem Refused.close {tokens : List Token} {failure : ParseFailure}
    (h : Parser.close source tokens = .error failure) (hstops : Stops source .equality tokens)
    (opened : Nat) : Refused source ⟨.operator, opened + 1⟩ tokens failure := by
  cases tokens with
  | nil =>
    obtain rfl := Except.error.inj h
    exact .ranOut
  | cons token rest =>
    refine .spells h fun h => ?_
    split at h
    · simp [pure, Except.pure] at h
    · rename_i ht
      refine .refuseToken h (step_operator_eq_none (fun op => ?_) (fun hparen => ?_) (by simp))
        (fun got => rfl)
      · exact stops_cons_iff.1 hstops op (Level.mem_absorbed_equality op)
      · exact absurd hparen (by simpa using ht)

theorem primary_refuses {inner? : Option Parser}
    (haccepts : ∀ inner ∈ inner?, inner.Accepts source .equality)
    (hrefuses : ∀ inner ∈ inner?, inner.Refuses source .equality) :
    (primary source inner?).Refuses source .primary := by
  intro tokens failure h opened
  cases tokens with
  | nil =>
    obtain rfl := Except.error.inj h
    exact .ranOut
  | cons token rest =>
    refine .spells h fun h => ?_
    split at h
    · rename_i ht
      have ht := of_decide_eq_true ht
      have hstep : step ⟨.operand, opened⟩ (token.terminal source) =
          some ⟨.signedOperand, opened + 1⟩ := by
        rw [ht, step_ofSymbol]
        rfl
      split at h
      · obtain rfl := Except.error.inj h
        exact .tooDeep
      · rename_i inner _
        refine .next (Token.kind_ne_eof_of_terminal ht) hstep ?_
        rcases bind_eq_error_iff.1 h with h | ⟨⟨tree, after⟩, hrun, h⟩
        · exact hrefuses inner rfl _ _ h (opened + 1)
        · obtain ⟨used, s, rfl, hs, rfl, hstops⟩ := haccepts inner rfl _ _ _ hrun
          refine .append (hs.run_eq (.inl rfl) (opened + 1)) (by simp) ?_
          rcases bind_eq_error_iff.1 h with h | ⟨after', -, h⟩
          · exact .close h hstops opened
          · simp [pure, Except.pure] at h
    · rename_i ht
      split at h
      · simp [pure, Except.pure] at h
      · rename_i hkind
        refine .refuseToken h (step_operand_eq_none (fun v hv => ?_) ?_) (fun got => rfl)
        · exact hkind v (Token.terminal_eq_number_iff.1 hv)
        · simpa using ht

theorem unary_refuses {inner? : Option Parser}
    (hrefuses : (primary source inner?).Refuses source .primary) :
    (unary source inner?).Refuses source .unary := by
  intro tokens failure h opened
  cases tokens with
  | nil => exact (hrefuses [] _ h opened).signed (by simp)
  | cons token rest =>
    have hnext {op : Operator} (hop : op = .add ∨ op = .sub)
        (ht : token.terminal source = ofSymbol (.operator op))
        (h : Refused source ⟨.operand, opened⟩ rest failure) :
        Refused source ⟨.signedOperand, opened⟩ (token :: rest) failure := by
      refine .next (Token.kind_ne_eof_of_terminal ht) (g := ⟨.operand, opened⟩) ?_ h
      rw [ht, step_ofSymbol]
      simp [stepSymbol, hop]
    refine .spells h fun h => ?_
    split at h
    · rename_i hadd
      exact hnext (.inl rfl) (of_decide_eq_true hadd) (hrefuses _ _ h opened)
    rename_i hadd
    refine .spells h fun h => ?_
    split at h
    · rename_i hsub
      rcases bind_eq_error_iff.1 h with h | ⟨⟨tree, after⟩, hrun, h⟩
      · exact hnext (.inr rfl) (of_decide_eq_true hsub) (hrefuses _ _ h opened)
      · rcases bind_eq_error_iff.1 h with h | ⟨negated, -, h⟩
        · obtain rfl := eq_tooDeep_of_join_eq_error h
          exact .tooDeep
        · simp [pure, Except.pure] at h
    · rename_i hsub
      refine (hrefuses _ _ h opened).signed ?_
      rintro token ⟨⟩
      exact ⟨by simpa using hadd, by simpa using hsub⟩

/-- The loop of a binary level starts after an operand and comes back there in every round. -/
theorem chainFrom_refuses {L L' : Level} {operand : Parser} (haccepts : operand.Accepts source L')
    (hrefuses : operand.Refuses source L') (hL : L' ≠ .primary) {lhs : Sized} {tokens : List Token}
    {failure : ParseFailure} (h : chainFrom source L.operators operand lhs tokens = .error failure)
    (opened : Nat) : Refused source ⟨.operator, opened⟩ tokens failure := by
  have hdue : L'.due = .signedOperand := by
    cases L' <;> first | rfl | exact absurd rfl hL
  fun_induction chainFrom source L.operators operand lhs tokens with
  | case1 | case3 => simp at h
  | case2 lhs token rest failure' hop =>
    obtain rfl := Except.error.inj h
    obtain ⟨hread, rfl⟩ := operatorOf_eq_error hop
    exact .unreadable hread
  | case4 lhs token rest op hop failure' hrun =>
    obtain rfl := Except.error.inj h
    obtain ⟨-, ht⟩ := eq_of_find? (operatorOf_eq_ok hop).symm
    refine .next (Token.kind_ne_eof_of_terminal ht) (by rw [ht, step_ofSymbol]; rfl)
      (hdue ▸ hrefuses _ _ hrun opened)
  | case5 lhs token rest op hop rhs after hrun failure' hjoin =>
    obtain rfl := Except.error.inj h
    obtain rfl := eq_tooDeep_of_join_eq_error hjoin
    exact .tooDeep
  | case6 lhs token rest op hop rhs after hrun node hjoin ih =>
    obtain ⟨-, ht⟩ := eq_of_find? (operatorOf_eq_ok hop).symm
    obtain ⟨used, s, rfl, hs, -, -⟩ := haccepts _ _ _ hrun
    refine .next (Token.kind_ne_eof_of_terminal ht) (by rw [ht, step_ofSymbol]; rfl) ?_
    exact .append (hs.run_eq (.inl rfl) opened) (by simp) (ih h)

theorem chain_refuses {L L' : Level} {operand : Parser} (haccepts : operand.Accepts source L')
    (hrefuses : operand.Refuses source L') (hL : L'.due = L.due) (hne : L' ≠ .primary) :
    (chain source L.operators operand).Refuses source L := by
  intro tokens failure h opened
  rcases bind_eq_error_iff.1 h with h | ⟨⟨lhs, after⟩, hrun, hloop⟩
  · exact hL ▸ hrefuses _ _ h opened
  · obtain ⟨used, s, rfl, hs, -, -⟩ := haccepts _ _ _ hrun
    have hdue : L.due = .signedOperand := by
      rw [← hL]
      cases L' <;> first | rfl | exact absurd rfl hne
    rw [hdue]
    exact .append (hs.run_eq (.inl rfl) opened) (by simp)
      (chainFrom_refuses haccepts hrefuses hne hloop opened)

theorem atLevel_refuses_of_inner {inner? : Option Parser}
    (haccepts : ∀ inner ∈ inner?, inner.Accepts source .equality)
    (hrefuses : ∀ inner ∈ inner?, inner.Refuses source .equality) (L : Level) :
    (atLevel source inner? L).Refuses source L := by
  have haccepts' := atLevel_accepts_of_inner haccepts
  have hprimary := primary_refuses haccepts hrefuses
  have hunary := unary_refuses hprimary
  have hmul := chain_refuses (L := .multiplicative) (haccepts' .unary) hunary rfl (by simp)
  have hadd := chain_refuses (L := .additive) (haccepts' .multiplicative) hmul rfl (by simp)
  have heq := chain_refuses (L := .equality) (haccepts' .additive) hadd rfl (by simp)
  cases L with
  | equality => exact heq
  | additive => exact hadd
  | multiplicative => exact hmul
  | unary => exact hunary
  | primary => exact hprimary

theorem enclosed?_refuses (room : Nat) :
    ∀ inner ∈ enclosed? source room, inner.Refuses source .equality := by
  induction room with
  | zero => simp [enclosed?]
  | succ room ih =>
    rintro inner ⟨⟩
    exact atLevel_refuses_of_inner (enclosed?_accepts room) ih .equality

/-- A parse that fails has read viable tokens up to the one it fails at. -/
theorem refused_of_parse {tokens : List Token} {failure : ParseFailure}
    (h : parse source tokens = .error failure) : Refused source start tokens failure := by
  rcases bind_eq_error_iff.1 h with hrun | ⟨⟨tree, rest⟩, hrun, hend⟩
  · exact atLevel_refuses_of_inner (enclosed?_accepts maxNesting) (enclosed?_refuses maxNesting)
      .equality _ _ hrun 0
  · obtain ⟨used, s, rfl, hs, -, hstops⟩ := atLevel_accepts maxNesting .equality _ _ _ hrun
    refine .append (hs.run_eq (.inl rfl) 0) (by simp) ?_
    cases rest with
    | nil =>
      obtain rfl := Except.error.inj hend
      exact .ranOut
    | cons token rest =>
      dsimp only at hend
      split at hend
      · simp [pure, Except.pure] at hend
      · rename_i hkind
        refine .refuseToken hend (step_operator_eq_none (fun op => ?_) (fun _ => rfl) fun ht => ?_)
          (fun got => rfl)
        · exact stops_cons_iff.1 hstops op (Level.mem_absorbed_equality op)
        · exact absurd (Token.terminal_eq_endOfInput_iff.1 ht) hkind

/-- Only a token that is not readable lets a parse end without an answer. -/
theorem Refused.exists_not_readable {f : Frontier} {tokens : List Token}
    {span : Span} (h : Refused source f tokens (.unreadable span)) :
    ∃ t ∈ tokens, ¬ t.Readable source := by
  generalize hfailure : ParseFailure.unreadable span = failure at h
  induction h with
  | stuck => cases hfailure
  | ranOut => cases hfailure
  | tooDeep => cases hfailure
  | @unreadable f token rest hread => exact ⟨token, List.mem_cons_self, hread⟩
  | @next f g token rest failure hkind hstep hrest ih =>
    obtain ⟨t, ht, hread⟩ := ih hfailure
    exact ⟨t, List.mem_cons_of_mem token ht, hread⟩

/-- Tokens that can be read are parsed, or refused with a fault. -/
theorem parse_of_readable {tokens : List Token}
    (h : ∀ t ∈ tokens, t.Readable source) :
    (∃ a, parse source tokens = .ok a) ∨
      ∃ fault, parse source tokens = .error (.fault fault) := by
  cases hparse : parse source tokens with
  | ok a => exact .inl ⟨a, rfl⟩
  | error failure =>
    cases failure with
    | fault fault => exact .inr ⟨fault, rfl⟩
    | unreadable span =>
      obtain ⟨t, ht, hread⟩ := (refused_of_parse hparse).exists_not_readable
      exact absurd (h t ht) hread

end ExprCompiler
