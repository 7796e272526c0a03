import ExprCompiler.Proofs.Parsing

/-!
# Two parses in step

Two runs of the parsers are compared, on two lists of tokens with a source each. As long as both
lists go on with tokens that answer the parsers' questions alike (`Comparison.SameToken`), the runs
do the same, and where both lists have come to an end, they do what can be done at an end
(`EndsAt`). Which failures count as the same, and which ends may stand opposite one another, is the
choice of a `Comparison`.

Every parser from `parse_primary` on keeps in step: it reads the same tree from both lists and
leaves lists that go on alike, or it fails on both with failures that count as the same
(`Comparison.expression_keepsStep`). So the two calls of `parse` end alike, except that a complete
expression is judged by what its end is (`Comparison.parse_inStep`).
-/

namespace ExprCompiler

open ExprCompiler.Parser
open ParseFailure (answer refuse)

/-! ## The parsers at an end -/

/-- Nothing more of an expression comes: the tokens have run out, which counts as the end of the
source, or the end of the input is next. -/
def EndsAt (source : String) (offset : Nat) : List Token → Prop
  | [] => source.utf8ByteSize = offset
  | token :: _ => token.kind = .eof ∧ token.span.start = offset

/-- What is reported at an end where a number is due. -/
def reportAtEnd : List Token → SyntaxCause
  | [] => .numberMissing
  | _ :: _ => .expectedNumber Token.endName

/-- What becomes of an expression by what follows it. -/
def finish (source : String) (tree : Sized) : List Token → Except ParseFailure Expr
  | [] => refuse source.utf8ByteSize .endMissing
  | token :: _ =>
    if token.kind = .eof then return tree.expr else refuseToken source token .unexpectedToken

theorem parse_eq_finish (source : String) (tokens : List Token) :
    parse source tokens = (do
      let (tree, rest) ← (expression source maxNesting).run tokens
      finish source tree rest) := by
  unfold parse
  apply bind_congr
  rintro ⟨tree, _ | ⟨token, rest⟩⟩ <;> rfl

section End

variable {source : String} {offset : Nat} {token : Token} {tail : List Token}

theorem spells_of_eof (h : token.kind = .eof) (symbol : Symbol) :
    spells source symbol token = .ok false := by
  unfold spells Token.spells?
  rw [if_neg (by simp [h])]
  rfl

theorem operatorOf_of_eof (h : token.kind = .eof) (ops : List Operator) :
    operatorOf source ops token = .ok none := by
  induction ops with
  | nil => rfl
  | cons op ops ih =>
    rw [operatorOf_cons, spells_of_eof h]
    exact ih

theorem refuseToken_of_eof {α : Type} (h : token.kind = .eof) (cause : String → SyntaxCause) :
    refuseToken (α := α) source token cause = refuse token.span.start (cause Token.endName) := by
  have hname : Token.describe? source (some token) = some Token.endName := if_pos h
  unfold refuseToken
  rw [hname]
  rfl

theorem close_of_endsAt (h : EndsAt source offset tail) :
    close source tail = refuse offset (.unclosed Token.endName) := by
  cases tail with
  | nil =>
    obtain rfl := h
    rfl
  | cons token rest =>
    obtain ⟨hkind, rfl⟩ := h
    show (do if ← spells source .rightParen token then _ else _) = _
    rw [spells_of_eof hkind]
    exact refuseToken_of_eof hkind .unclosed

theorem primary_of_endsAt (inner? : Option Parser) (h : EndsAt source offset tail) :
    (primary source inner?).run tail = refuse offset (reportAtEnd tail) := by
  cases tail with
  | nil =>
    obtain rfl := h
    rfl
  | cons token rest =>
    obtain ⟨hkind, rfl⟩ := h
    show (do if ← spells source .leftParen token then _ else _) = _
    rw [spells_of_eof hkind, hkind]
    exact refuseToken_of_eof hkind .expectedNumber

theorem unary_of_endsAt (inner? : Option Parser) (h : EndsAt source offset tail) :
    (unary source inner?).run tail = (primary source inner?).run tail := by
  cases tail with
  | nil => rfl
  | cons token rest =>
    obtain ⟨hkind, -⟩ := h
    show (do if ← spells source (.operator .add) token then _ else _) = _
    rw [spells_of_eof hkind]
    show (do if ← spells source (.operator .sub) token then _ else _) = _
    rw [spells_of_eof hkind]
    rfl

theorem chainFrom_of_endsAt (ops : List Operator) (operand : Parser) (lhs : Sized)
    (h : EndsAt source offset tail) :
    chainFrom source ops operand lhs tail = .ok (lhs, tail) := by
  cases tail with
  | nil => exact chainFrom_nil source ops operand lhs
  | cons token rest =>
    rw [chainFrom_cons, operatorOf_of_eof h.1]
    rfl

end End

/-! ## Outcomes in step -/

/-- Both have related results, or both fail, with failures that count as the same. -/
inductive InStep {α β : Type} (Failed : ParseFailure → ParseFailure → Prop) (R : α → β → Prop) :
    Except ParseFailure α → Except ParseFailure β → Prop where
  | ok {a : α} {b : β} (h : R a b) : InStep Failed R (.ok a) (.ok b)
  | error {failure failure' : ParseFailure} (h : Failed failure failure') :
      InStep Failed R (.error failure) (.error failure')

theorem InStep.bind {Failed : ParseFailure → ParseFailure → Prop} {α α' β β' : Type}
    {R : α → α' → Prop} {S : β → β' → Prop} {x : Except ParseFailure α}
    {x' : Except ParseFailure α'} (h : InStep Failed R x x') {f : α → Except ParseFailure β}
    {f' : α' → Except ParseFailure β'}
    (hnext : ∀ a a', x = .ok a → R a a' → InStep Failed S (f a) (f' a')) :
    InStep Failed S (x >>= f) (x' >>= f') := by
  cases h with
  | ok h => exact hnext _ _ rfl h
  | error h => exact .error h

/-- What two parses are compared by. -/
structure Comparison where
  source : String
  source' : String
  /-- Failures that count as the same. -/
  Failed : ParseFailure → ParseFailure → Prop
  /-- Lists that may stand opposite one another where both have come to an end. -/
  Ended : List Token → List Token → Prop
  /-- What the parsers report at these ends counts as the same. -/
  reported : ∀ {tail tail'}, Ended tail tail' →
    ∃ offset offset', EndsAt source offset tail ∧ EndsAt source' offset' tail' ∧
      Failed (.fault ⟨offset, .unclosed Token.endName⟩)
        (.fault ⟨offset', .unclosed Token.endName⟩) ∧
      Failed (.fault ⟨offset, reportAtEnd tail⟩) (.fault ⟨offset', reportAtEnd tail'⟩)

namespace Comparison

/-- Every question about one token is answered like that about the other, and what is wrong with the
one counts as the same as what is wrong with the other. -/
structure SameToken (k : Comparison) (t t' : Token) : Prop where
  kind_eq : t'.kind = t.kind
  spells?_eq : ∀ symbol, t'.spells? k.source' symbol = t.spells? k.source symbol
  describe?_eq : Token.describe? k.source' (some t') = Token.describe? k.source (some t)
  unreadable : k.Failed (.unreadable t.span) (.unreadable t'.span)
  fault : ∀ cause, k.Failed (.fault ⟨t.span.start, cause⟩) (.fault ⟨t'.span.start, cause⟩)

/-- The lists go on with the same tokens, up to where both end. -/
inductive GoOnAlike (k : Comparison) : List Token → List Token → Prop where
  | ends {tail tail' : List Token} (h : k.Ended tail tail') : GoOnAlike k tail tail'
  | cons {t t' : Token} {rest rest' : List Token} (htoken : k.SameToken t t')
      (hrest : GoOnAlike k rest rest') : GoOnAlike k (t :: rest) (t' :: rest')

/-- The same tree was read, and what is left goes on alike. -/
def SameReading (k : Comparison) (x x' : Sized × List Token) : Prop :=
  x'.1 = x.1 ∧ k.GoOnAlike x.2 x'.2

/-- The parsers do the same on lists that go on alike. -/
def KeepsStep (k : Comparison) (p p' : Parser) : Prop :=
  ∀ tokens tokens', k.GoOnAlike tokens tokens' →
    InStep k.Failed k.SameReading (p.run tokens) (p'.run tokens')

variable {k : Comparison}

/-! ## Questions about a token -/

section Questions

variable {token token' : Token} (h : k.SameToken token token')

include h

theorem answer_inStep {α : Type} (x : Option α) :
    InStep k.Failed Eq (answer token x) (answer token' x) := by
  cases x with
  | some a => exact .ok rfl
  | none => exact .error h.unreadable

theorem spells_inStep (symbol : Symbol) :
    InStep k.Failed Eq (spells k.source symbol token) (spells k.source' symbol token') := by
  unfold spells
  rw [h.spells?_eq]
  exact answer_inStep h _

theorem operatorOf_inStep (ops : List Operator) :
    InStep k.Failed Eq (operatorOf k.source ops token) (operatorOf k.source' ops token') := by
  induction ops with
  | nil => exact .ok rfl
  | cons op ops ih =>
    rw [operatorOf_cons, operatorOf_cons]
    refine (spells_inStep h (.operator op)).bind ?_
    rintro b _ - rfl
    cases b with
    | true => exact .ok rfl
    | false => exact ih

theorem refuseToken_inStep {α β : Type} (R : α → β → Prop) (cause : String → SyntaxCause) :
    InStep k.Failed R (refuseToken k.source token cause) (refuseToken k.source' token' cause) := by
  unfold refuseToken
  rw [h.describe?_eq]
  refine (answer_inStep h _).bind ?_
  rintro got _ - rfl
  exact .error (h.fault (cause got))

theorem join_inStep (op : Operator) (lhs rhs : Sized) :
    InStep k.Failed Eq (lhs.join op token.span.start rhs) (lhs.join op token'.span.start rhs) := by
  unfold Sized.join
  dsimp only
  split
  · exact .ok rfl
  · exact .error (h.fault .nestedTooDeeply)

end Questions

/-! ## The levels -/

theorem close_inStep {tokens tokens' : List Token} (h : k.GoOnAlike tokens tokens') :
    InStep k.Failed k.GoOnAlike (close k.source tokens) (close k.source' tokens') := by
  cases h with
  | ends hends =>
    obtain ⟨offset, offset', hend, hend', hunclosed, -⟩ := k.reported hends
    rw [close_of_endsAt hend, close_of_endsAt hend']
    exact .error hunclosed
  | cons htoken hrest =>
    refine (spells_inStep htoken .rightParen).bind ?_
    rintro b _ - rfl
    cases b with
    | true => exact .ok hrest
    | false => exact refuseToken_inStep htoken _ _

section Levels

variable {inner? inner?' : Option Parser} (hinner : Option.Rel k.KeepsStep inner? inner?')

include hinner

theorem primary_keepsStep :
    k.KeepsStep (primary k.source inner?) (primary k.source' inner?') := by
  intro tokens tokens' h
  cases h with
  | ends hends =>
    obtain ⟨offset, offset', hend, hend', -, hnumber⟩ := k.reported hends
    rw [primary_of_endsAt inner? hend, primary_of_endsAt inner?' hend']
    exact .error hnumber
  | @cons token token' rest rest' htoken hrest =>
    refine (spells_inStep htoken .leftParen).bind ?_
    rintro b _ - rfl
    cases b with
    | true =>
      cases hinner with
      | none => exact .error (htoken.fault .nestedTooDeeply)
      | some hinner =>
        refine (hinner rest rest' hrest).bind ?_
        rintro ⟨tree, after⟩ ⟨_, after'⟩ - ⟨rfl, hafter⟩
        refine (close_inStep hafter).bind ?_
        rintro left left' - hleft
        exact .ok ⟨rfl, hleft⟩
    | false =>
      rw [if_neg Bool.false_ne_true, if_neg Bool.false_ne_true, htoken.kind_eq]
      cases token.kind with
      | number value => exact .ok ⟨rfl, hrest⟩
      | punctuator => exact refuseToken_inStep htoken _ _
      | eof => exact refuseToken_inStep htoken _ _

theorem unary_keepsStep : k.KeepsStep (unary k.source inner?) (unary k.source' inner?') := by
  have hprimary := primary_keepsStep hinner
  intro tokens tokens' h
  cases h with
  | ends hends =>
    obtain ⟨offset, offset', hend, hend', -⟩ := k.reported hends
    rw [unary_of_endsAt inner? hend, unary_of_endsAt inner?' hend']
    exact hprimary _ _ (.ends hends)
  | @cons token token' rest rest' htoken hrest =>
    refine (spells_inStep htoken (.operator .add)).bind ?_
    rintro b _ - rfl
    cases b with
    | true => exact hprimary rest rest' hrest
    | false =>
      refine (spells_inStep htoken (.operator .sub)).bind ?_
      rintro b _ - rfl
      cases b with
      | true =>
        refine (hprimary rest rest' hrest).bind ?_
        rintro ⟨tree, after⟩ ⟨_, after'⟩ - ⟨rfl, hafter⟩
        refine (join_inStep htoken .sub (.literal 0) _).bind ?_
        rintro negated _ - rfl
        exact .ok ⟨rfl, hafter⟩
      | false => exact hprimary _ _ (.cons htoken hrest)

omit hinner in
/-- Both loops go the same rounds: each one leaves fewer tokens, which go on alike. -/
theorem chainFrom_inStep {operand operand' : Parser} (hoperand : k.KeepsStep operand operand')
    (ops : List Operator) (lhs : Sized) {tokens tokens' : List Token}
    (h : k.GoOnAlike tokens tokens') :
    InStep k.Failed k.SameReading (chainFrom k.source ops operand lhs tokens)
      (chainFrom k.source' ops operand' lhs tokens') := by
  induction hlength : tokens.length using Nat.strong_induction_on
    generalizing lhs tokens tokens' with
  | _ length ih =>
    cases h with
    | ends hends =>
      obtain ⟨offset, offset', hend, hend', -⟩ := k.reported hends
      rw [chainFrom_of_endsAt ops operand lhs hend, chainFrom_of_endsAt ops operand' lhs hend']
      exact .ok ⟨rfl, .ends hends⟩
    | @cons token token' rest rest' htoken hrest =>
      rw [chainFrom_cons, chainFrom_cons]
      refine (operatorOf_inStep htoken ops).bind ?_
      rintro op? _ - rfl
      cases op? with
      | none => exact .ok ⟨rfl, .cons htoken hrest⟩
      | some op =>
        refine (hoperand rest rest' hrest).bind ?_
        rintro ⟨rhs, after⟩ ⟨_, after'⟩ hrun ⟨rfl, hafter⟩
        refine (join_inStep htoken op lhs _).bind ?_
        rintro tree _ - rfl
        have hshorter := operand.consumes hrun
        rw [List.length_cons] at hlength
        exact ih after.length (by omega) tree hafter rfl

omit hinner in
theorem chain_keepsStep {operand operand' : Parser} (hoperand : k.KeepsStep operand operand')
    (ops : List Operator) :
    k.KeepsStep (chain k.source ops operand) (chain k.source' ops operand') := by
  intro tokens tokens' h
  refine (hoperand tokens tokens' h).bind ?_
  rintro ⟨lhs, after⟩ ⟨_, after'⟩ - ⟨rfl, hafter⟩
  exact chainFrom_inStep hoperand ops _ hafter

theorem equality_keepsStep :
    k.KeepsStep (equality k.source inner?) (equality k.source' inner?') := by
  have hmul := chain_keepsStep (unary_keepsStep hinner) [.mul, .div]
  have hadd := chain_keepsStep hmul [.add, .sub]
  exact chain_keepsStep hadd [.eq]

end Levels

theorem enclosed?_keepsStep (room : Nat) :
    Option.Rel k.KeepsStep (enclosed? k.source room) (enclosed? k.source' room) := by
  induction room with
  | zero => exact .none
  | succ room ih => exact .some (equality_keepsStep ih)

theorem expression_keepsStep (room : Nat) :
    k.KeepsStep (expression k.source room) (expression k.source' room) :=
  equality_keepsStep (enclosed?_keepsStep room)

/-- Lists that go on alike are parsed alike, except that an expression which reaches up to the ends
is judged by them. -/
theorem parse_inStep {tokens tokens' : List Token} (h : k.GoOnAlike tokens tokens') :
    InStep k.Failed Eq (parse k.source tokens) (parse k.source' tokens') ∨
      ∃ tree tail tail', k.Ended tail tail' ∧ parse k.source tokens = finish k.source tree tail ∧
        parse k.source' tokens' = finish k.source' tree tail' := by
  have hrun := expression_keepsStep maxNesting tokens tokens' h
  rw [parse_eq_finish, parse_eq_finish]
  generalize (expression k.source maxNesting).run tokens = x at hrun ⊢
  generalize (expression k.source' maxNesting).run tokens' = x' at hrun ⊢
  cases hrun with
  | error hfailed => exact .inl (.error hfailed)
  | @ok a a' hread =>
    obtain ⟨_, after⟩ := a
    obtain ⟨tree, after'⟩ := a'
    obtain ⟨rfl, hafter⟩ := hread
    cases hafter with
    | ends hends => exact .inr ⟨tree, after, after', hends, rfl, rfl⟩
    | @cons token token' rest rest' htoken hrest =>
      left
      show InStep k.Failed Eq (finish k.source tree (token :: rest))
        (finish k.source' tree (token' :: rest'))
      rw [finish, finish, htoken.kind_eq]
      split
      · exact .ok rfl
      · exact refuseToken_inStep htoken _ _

end Comparison

end ExprCompiler
