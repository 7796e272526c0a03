import ExprCompiler.Expr.Fault

/-!
# Parsing

The function `parse`. The grammar has five levels, from the loosest to the tightest binding:

* equality (`parse_equality`): additive expressions, separated by `==`;
* additive (`parse_add`): multiplicative expressions, separated by `+` or `-`;
* multiplicative (`parse_mul`): signed operands, separated by `*` or `/`;
* unary (`parse_unary`): a primary, with at most one sign `+` or `-` in front;
* primary (`parse_primary`): a number, or an expression in parentheses.

Operators of one level group to the left. At most `maxNesting` parentheses may be open at once and
the tree may be at most `maxHeight` high. While a tree is built from its leaves, its height is
carried along, so that the limit on it is checked at every node (`Sized.join`) without walking the
tree, after both operands have been read.

A `Parser` leaves fewer tokens than it was given, which is why the loops of the three binary levels
come to an end. The recursion through parentheses ends because each parenthesis uses up one of those
that may still be opened. Which operator a token is, `consume_op` asks (`operatorOf`), and the
parenthesis that is due, `skip` passes over (`close`).
-/

namespace ExprCompiler

open ParseFailure (answer refuse bind_eq_ok_iff)

/-! ## Trees under construction -/

/-- The height of the highest tree accepted. -/
def maxHeight : Nat := 4096

/-- A tree and its height. -/
structure Sized where
  expr : Expr
  height : Nat
deriving DecidableEq, Repr

namespace Sized

def literal (value : Int64) : Sized := ⟨.literal value, 1⟩

/-- Builds the node of the operator that stands at byte `offset`, if it is not too high. -/
def join (op : Operator) (offset : Nat) (lhs rhs : Sized) : Except ParseFailure Sized :=
  let height := 1 + max lhs.height rhs.height
  if height ≤ maxHeight then
    .ok ⟨.binary op lhs.expr rhs.expr, height⟩
  else
    refuse offset .nestedTooDeeply

/-- A node is built exactly if it is not too high, and its height is carried along. -/
theorem join_eq_ok_iff {op : Operator} {offset : Nat} {lhs rhs tree : Sized} :
    lhs.join op offset rhs = .ok tree ↔
      1 + max lhs.height rhs.height ≤ maxHeight ∧
        tree = ⟨.binary op lhs.expr rhs.expr, 1 + max lhs.height rhs.height⟩ := by
  unfold join
  by_cases h : 1 + max lhs.height rhs.height ≤ maxHeight
  · simp [h, eq_comm]
  · simp [h, refuse]

end Sized

/-! ## Questions about a token -/

/-- The most parentheses that may be open at once. -/
def maxNesting : Nat := 256

/-- Reads a tree from the front of a list of tokens and gives the tokens after it. -/
structure Parser where
  run : List Token → Except ParseFailure (Sized × List Token)
  /-- A parser that succeeds has used up a token. -/
  consumes : ∀ {tokens tree rest}, run tokens = .ok (tree, rest) → rest.length < tokens.length

namespace Parser

def spells (source : String) (symbol : Symbol) (token : Token) : Except ParseFailure Bool :=
  answer token (token.spells? source symbol)

/-- The first of `ops` that a token is. -/
def operatorOf (source : String) (ops : List Operator) (token : Token) :
    Except ParseFailure (Option Operator) :=
  ops.findM? fun op => spells source (.operator op) token

/-- Refuses a token, which the message names by its text. -/
def refuseToken {α : Type} (source : String) (token : Token) (cause : String → SyntaxCause) :
    Except ParseFailure α := do
  let got ← answer token (Token.describe? source (some token))
  refuse token.span.start (cause got)

theorem refuseToken_ne_ok {α : Type} {source : String} {token : Token}
    {cause : String → SyntaxCause} {a : α} : refuseToken source token cause ≠ .ok a := by
  intro h
  obtain ⟨got, -, h⟩ := bind_eq_ok_iff.1 h
  exact absurd h (by simp [refuse])

/-! ## Numbers, parentheses and signs -/

/-- The tokens after the closing parenthesis that is due at the front of `tokens`. -/
def close (source : String) (tokens : List Token) : Except ParseFailure (List Token) :=
  match tokens with
  | [] => refuse source.utf8ByteSize (.unclosed Token.endName)
  | token :: rest => do
    if ← spells source .rightParen token then
      return rest
    else
      refuseToken source token .unclosed

theorem length_lt_of_close_eq_ok {source : String} {tokens rest : List Token}
    (h : close source tokens = .ok rest) : rest.length < tokens.length := by
  cases tokens with
  | nil => simp [close, refuse] at h
  | cons token tokens =>
    obtain ⟨isParen, -, h⟩ := bind_eq_ok_iff.1 h
    split at h
    · obtain rfl := Except.ok.inj h
      exact Nat.lt_add_one _
    · exact absurd h refuseToken_ne_ok

/-- Reads a number or an expression in parentheses. `inner?` reads the expression; it is `none` if
no more parentheses may be opened. -/
def primary (source : String) (inner? : Option Parser) : Parser where
  run
    | [] => refuse source.utf8ByteSize .numberMissing
    | token :: rest => do
      if ← spells source .leftParen token then
        match inner? with
        | none => refuse token.span.start .nestedTooDeeply
        | some inner => do
          let (tree, rest) ← inner.run rest
          let rest ← close source rest
          return (tree, rest)
      else
        match token.kind with
        | .number value => return (.literal value, rest)
        | _ => refuseToken source token .expectedNumber
  consumes := by
    intro tokens tree rest h
    cases tokens with
    | nil => simp [refuse] at h
    | cons token tokens =>
      obtain ⟨isParen, -, h⟩ := bind_eq_ok_iff.1 h
      split at h
      · split at h
        · simp [refuse] at h
        · rename_i inner _
          obtain ⟨⟨inside, tokens'⟩, hinner, h⟩ := bind_eq_ok_iff.1 h
          obtain ⟨after, hclose, h⟩ := bind_eq_ok_iff.1 h
          cases h
          have := inner.consumes hinner
          have := length_lt_of_close_eq_ok hclose
          simp only [List.length_cons]
          omega
      · split at h
        · cases h
          exact Nat.lt_add_one _
        · exact absurd h refuseToken_ne_ok

/-- Reads a primary with at most one sign in front. -/
def unary (source : String) (inner? : Option Parser) : Parser where
  run
    | [] => (primary source inner?).run []
    | token :: rest => do
      if ← spells source (.operator .add) token then
        (primary source inner?).run rest
      else if ← spells source (.operator .sub) token then
        let (tree, rest) ← (primary source inner?).run rest
        return (← (Sized.literal 0).join .sub token.span.start tree, rest)
      else
        (primary source inner?).run (token :: rest)
  consumes := by
    intro tokens tree rest h
    cases tokens with
    | nil => exact (primary source inner?).consumes h
    | cons token tokens =>
      obtain ⟨isPlus, -, h⟩ := bind_eq_ok_iff.1 h
      split at h
      · exact Nat.lt_succ_of_lt ((primary source inner?).consumes h)
      · obtain ⟨isMinus, -, h⟩ := bind_eq_ok_iff.1 h
        split at h
        · obtain ⟨⟨operand, after⟩, hoperand, h⟩ := bind_eq_ok_iff.1 h
          obtain ⟨negated, -, h⟩ := bind_eq_ok_iff.1 h
          cases h
          exact Nat.lt_succ_of_lt ((primary source inner?).consumes hoperand)
        · exact (primary source inner?).consumes h

/-! ## Binary levels -/

/-- Reads on after `lhs`: as long as one of `ops` follows, the operand after it is joined. -/
def chainFrom (source : String) (ops : List Operator) (operand : Parser) (lhs : Sized)
    (tokens : List Token) : Except ParseFailure (Sized × List Token) :=
  match tokens with
  | [] => .ok (lhs, [])
  | token :: rest =>
    match operatorOf source ops token with
    | .error failure => .error failure
    | .ok none => .ok (lhs, token :: rest)
    | .ok (some op) =>
      match _h : operand.run rest with
      | .error failure => .error failure
      | .ok (rhs, after) =>
        match lhs.join op token.span.start rhs with
        | .error failure => .error failure
        | .ok tree => chainFrom source ops operand tree after
termination_by tokens.length
decreasing_by exact Nat.lt_succ_of_lt (operand.consumes _h)

@[simp]
theorem chainFrom_nil (source : String) (ops : List Operator) (operand : Parser) (lhs : Sized) :
    chainFrom source ops operand lhs [] = .ok (lhs, []) := by
  rw [chainFrom]

theorem chainFrom_cons (source : String) (ops : List Operator) (operand : Parser) (lhs : Sized)
    (token : Token) (rest : List Token) :
    chainFrom source ops operand lhs (token :: rest) = (do
      match ← operatorOf source ops token with
      | none => return (lhs, token :: rest)
      | some op =>
        let (rhs, after) ← operand.run rest
        let tree ← lhs.join op token.span.start rhs
        chainFrom source ops operand tree after) := by
  rw [chainFrom]
  split
  · rename_i h
    simp [h, bind, Except.bind]
  · rename_i h
    simp [h, bind, Except.bind, pure, Except.pure]
  · rename_i op h
    simp only [h, bind, Except.bind]
    split
    · rename_i h'
      simp [h']
    · rename_i h'
      simp only [h']
      split <;> rename_i h'' <;> simp [h'']

theorem length_le_of_chainFrom_eq_ok {source : String} {ops : List Operator} {operand : Parser}
    {lhs tree : Sized} {tokens rest : List Token}
    (h : chainFrom source ops operand lhs tokens = .ok (tree, rest)) :
    rest.length ≤ tokens.length := by
  fun_induction chainFrom source ops operand lhs tokens with
  | case1 => simp_all
  | case2 => simp at h
  | case3 => simp_all
  | case4 => simp at h
  | case5 => simp at h
  | case6 lhs token tokens op _ rhs after hoperand node _ ih =>
    have := operand.consumes hoperand
    have := ih h
    simp only [List.length_cons]
    omega

/-- Reads operands separated by `ops`, which group to the left. -/
def chain (source : String) (ops : List Operator) (operand : Parser) : Parser where
  run tokens := do
    let (lhs, rest) ← operand.run tokens
    chainFrom source ops operand lhs rest
  consumes := by
    intro tokens tree rest h
    obtain ⟨⟨lhs, after⟩, hoperand, h⟩ := bind_eq_ok_iff.1 h
    exact Nat.lt_of_le_of_lt (length_le_of_chainFrom_eq_ok h) (operand.consumes hoperand)

def multiplicative (source : String) (inner? : Option Parser) : Parser :=
  chain source [.mul, .div] (unary source inner?)

def additive (source : String) (inner? : Option Parser) : Parser :=
  chain source [.add, .sub] (multiplicative source inner?)

def equality (source : String) (inner? : Option Parser) : Parser :=
  chain source [.eq] (additive source inner?)

/-! ## Expressions -/

/-- The parser of the expression in parentheses where `room` more parentheses may be opened, if any
may. -/
def enclosed? (source : String) (room : Nat) : Option Parser :=
  match room with
  | 0 => none
  | room + 1 => some (equality source (enclosed? source room))

/-- Reads an expression inside which at most `room` parentheses are open at once. -/
def expression (source : String) (room : Nat) : Parser :=
  equality source (enclosed? source room)

end Parser

/-- The tree of an expression from all of its tokens, which end with the end of the input. What
follows the end of the input does not matter. -/
def parse (source : String) (tokens : List Token) : Except ParseFailure Expr := do
  match ← (Parser.expression source maxNesting).run tokens with
  | (_, []) => refuse source.utf8ByteSize .endMissing
  | (tree, token :: _) =>
    if token.kind = .eof then
      return tree.expr
    else
      Parser.refuseToken source token .unexpectedToken

end ExprCompiler
