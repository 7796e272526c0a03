import ExprCompiler.Expr.Fault
import ExprCompiler.Text.Position
import ExprCompiler.Token.Lexer

/-!
# Diagnostics and errors

A source text that is refused is shown to the user with a caret under the place where it went wrong
and the reason beside the caret. The caret counts characters, while faults are found at byte
offsets; an offset that is no place of the text is moved back to the nearest one, which is what
`caret` does. `Diagnostic.pointAt` is both `lex_at` and `syntax_at`, according to the phase.

A compilation ends without a listing for one of three reasons: the command line is wrong (`usage`),
the source text is refused, or a token that was not made from the source cannot be read.
-/

namespace ExprCompiler

/-- The stage of compilation that refuses a text. -/
inductive Phase where
  | lexical
  | syntactic
deriving DecidableEq, Repr

/-- A refused source text. -/
structure Diagnostic where
  phase : Phase
  source : String
  /-- The place that the caret points at. -/
  position : Position
  detail : String
deriving DecidableEq, Repr

namespace Diagnostic

/-- Refuses `source` at a byte offset, or at the last place of the text before it. -/
def pointAt (phase : Phase) (source : String) (offset : Nat) (detail : String) : Diagnostic :=
  ⟨phase, source, Position.atMost source offset, detail⟩

def ofLexicalFault (source : String) (fault : LexicalFault) : Diagnostic :=
  pointAt .lexical source fault.offset fault.cause.message

def ofSyntaxFault (source : String) (fault : SyntaxFault) : Diagnostic :=
  pointAt .syntactic source fault.offset fault.cause.message

/-- The text, and below it the caret with the reason. The caret is set in by one space for each
character before its place, line breaks included. -/
def render (d : Diagnostic) : String :=
  d.source ++ "\n" ++ "".pushn ' ' d.position.column ++ "^ " ++ d.detail

end Diagnostic

/-! ## Errors -/

/-- Why there is no listing. -/
inductive CompileError where
  /-- The command line does not name exactly one source text. -/
  | usage (program : String)
  | refused (diagnostic : Diagnostic)
  /-- The text of a token was needed, but its span does not lie in the source. -/
  | unreadable (span : Span)
deriving DecidableEq, Repr

namespace CompileError

def ofLexicalFault (source : String) (fault : LexicalFault) : CompileError :=
  .refused (.ofLexicalFault source fault)

def ofParseFailure (source : String) : ParseFailure → CompileError
  | .fault fault => .refused (.ofSyntaxFault source fault)
  | .unreadable span => .unreadable span

/-- What the user is shown. -/
def render : CompileError → String
  | .usage program => program ++ ": invalid number of arguments"
  | .refused diagnostic => diagnostic.render
  | .unreadable span =>
    "no text from byte " ++ Decimal.text span.start ++ " to byte " ++ Decimal.text span.stop

end CompileError

end ExprCompiler
