import ExprCompiler.Token.Basic

/-!
# Why tokens are not an expression

The faults that `parse` reports, with their wording. A parse can also fail without a fault of the
expression: a token that was not made from the source may have a span that does not lie in it, and
then the question what the token is has no answer.
-/

namespace ExprCompiler

/-- What is wrong with the tokens of an expression. -/
inductive SyntaxCause where
  /-- A closing parenthesis is due, but something else stands there. -/
  | unclosed (got : String)
  /-- A number is due, but something else stands there. -/
  | expectedNumber (got : String)
  /-- A number is due, but there are no more tokens, not even the end of the input. -/
  | numberMissing
  /-- The expression is complete, but more follows it. -/
  | unexpectedToken (got : String)
  /-- The expression is complete, but the end of the input does not follow it. -/
  | endMissing
  /-- Too many parentheses are open, or the tree is too high. -/
  | nestedTooDeeply
deriving DecidableEq, Repr

def SyntaxCause.message : SyntaxCause → String
  | .unclosed got => "expected \")\", but got \"" ++ got ++ "\""
  | .expectedNumber got => "expected a number, but got \"" ++ got ++ "\""
  | .numberMissing => "expected a number, but reached end of input"
  | .unexpectedToken got => "unexpected token \"" ++ got ++ "\""
  | .endMissing => "unexpected end of input after expression"
  | .nestedTooDeeply => "expression nested too deeply"

/-- The place where tokens stop being the beginning of an acceptable expression. -/
structure SyntaxFault where
  offset : Nat
  cause : SyntaxCause
deriving DecidableEq, Repr

/-- Why a parse has no tree to give. -/
inductive ParseFailure where
  /-- The tokens are not an acceptable expression. -/
  | fault (fault : SyntaxFault)
  /-- The parser had to look at the text of a span that does not lie in the source. -/
  | unreadable (span : Span)
deriving DecidableEq, Repr

namespace ParseFailure

/-- Refuses the tokens at a byte offset of the source. -/
def refuse {α : Type} (offset : Nat) (cause : SyntaxCause) : Except ParseFailure α :=
  .error (.fault ⟨offset, cause⟩)

/-- The answer to a question about the text of a token. -/
def answer {α : Type} (token : Token) : Option α → Except ParseFailure α
  | some a => .ok a
  | none => .error (.unreadable token.span)

theorem bind_eq_ok_iff {α β : Type} {x : Except ParseFailure α} {f : α → Except ParseFailure β}
    {b : β} : (x >>= f) = .ok b ↔ ∃ a, x = .ok a ∧ f a = .ok b := by
  cases x <;> simp [bind, Except.bind]

end ParseFailure

end ExprCompiler
