import ExprCompiler.Asm.Code
import ExprCompiler.Diagnostic
import ExprCompiler.Expr.Parser

/-!
# Compilation

The tree of a source text is found by cutting the text into tokens, all of it, and parsing these.
`generate_assembly` is `compile`: the tree is then compiled to a listing, and the first stage that
fails ends the compilation.

While it works, the compiler reports events: every token as it is found, and the end of each stage
with the size of its result. `compile_eq` says that the log makes no difference to the result.
-/

namespace ExprCompiler

namespace Expr

def ofTokens (source : String) (tokens : List Token) : Except CompileError Expr :=
  (parse source tokens).mapError (.ofParseFailure source)

/-- The tree of the expression that a source text is. -/
def ofSource (source : String) : Except CompileError Expr := do
  let tokens ← (tokenize source).mapError (.ofLexicalFault source)
  ofTokens source tokens

/-- Whether two source texts have the same tree; the first is read first. -/
def sameTree (a b : String) : Except CompileError Bool := do
  let left ← ofSource a
  let right ← ofSource b
  return left = right

/-! ## Texts that have a tree -/

theorem ofTokens_eq_ok_iff {source : String} {tokens : List Token} {a : Expr} :
    ofTokens source tokens = .ok a ↔ parse source tokens = .ok a := by
  unfold ofTokens
  cases parse source tokens with
  | error failure =>
    show Except.error _ = Except.ok a ↔ Except.error failure = Except.ok a
    simp
  | ok e =>
    show Except.ok e = Except.ok a ↔ Except.ok e = Except.ok a
    simp

/-- A text has a tree exactly if it can be cut into tokens and these have the tree. -/
theorem ofSource_eq_ok_iff {source : String} {a : Expr} :
    ofSource source = .ok a ↔
      ∃ tokens, tokenize source = .ok tokens ∧ parse source tokens = .ok a := by
  unfold ofSource
  cases tokenize source with
  | error fault =>
    constructor
    · intro h
      cases h
    · rintro ⟨tokens, h, -⟩
      cases h
  | ok tokens =>
    show ofTokens source tokens = .ok a ↔ _
    simp [ofTokens_eq_ok_iff]

end Expr

/-! ## The log -/

/-- How severe a log event is. -/
inductive Severity where
  | trace
  | debug
deriving DecidableEq, Repr

inductive Event where
  | lexed (token : Token)
  /-- The whole text was cut into this many tokens, with the end of the input. -/
  | tokenized (tokens : Nat)
  /-- The tokens were parsed to a tree of this height. -/
  | parsed (height : Nat)
  /-- The tree was compiled to this many instructions, each of them a line of text. -/
  | generated (instructions : Nat)
deriving DecidableEq, Repr

namespace Event

def severity : Event → Severity
  | .lexed _ => .trace
  | .tokenized _ | .parsed _ | .generated _ => .debug

def message : Event → String
  | .lexed _ => "lexed token"
  | .tokenized _ => "tokenized input"
  | .parsed _ => "parsed expression"
  | .generated _ => "generated code"

/-- The fields that go with the message, by name. -/
def fields : Event → List (String × String)
  | .lexed token =>
    [("kind", token.kind.label), ("loc", Decimal.text token.span.start),
      ("len", Decimal.text token.span.length)]
  | .tokenized tokens => [("tokens", Decimal.text tokens)]
  | .parsed height => [("depth", Decimal.text height)]
  | .generated instructions => [("instructions", Decimal.text instructions)]

end Event

/-! ## Compiling -/

/-- The number of lines of a text. A line ends with a line break or with the text. -/
def lineCount (text : String) : Nat :=
  text.toList.count '\n' + if text.toList.getLast?.any (· ≠ '\n') then 1 else 0

/-- What comes of compiling a source text. -/
structure Compilation where
  /-- The log events, in the order in which they happened. -/
  events : List Event
  result : Except CompileError String

/-- Compiles a source text and keeps the log. -/
def Compilation.ofSource (source : String) : Compilation :=
  let found := scan source
  let lexed := found.tokens.map Event.lexed
  match found.result with
  | .error fault => ⟨lexed, .error (.ofLexicalFault source fault)⟩
  | .ok tokens =>
    let tokenized := lexed ++ [.tokenized tokens.length]
    match Expr.ofTokens source tokens with
    | .error error => ⟨tokenized, .error error⟩
    | .ok expr =>
      let code := expr.code
      let instructions := lineCount (Asm.lines code)
      ⟨tokenized ++ [.parsed expr.height, .generated instructions], .ok (Asm.listing code)⟩

def compile (source : String) : Except CompileError String := (Compilation.ofSource source).result

/-- The listing of a source text is the listing of its tree. -/
theorem compile_eq (source : String) :
    compile source = (Expr.ofSource source).map fun expr => Asm.listing expr.code := by
  unfold compile Compilation.ofSource Expr.ofSource tokenize
  dsimp only
  split
  · rename_i h
    rw [h]
    rfl
  · rename_i tokens h
    rw [h]
    show _ = (Expr.ofTokens source tokens).map fun expr => Asm.listing expr.code
    split <;> rename_i h' <;> rw [h'] <;> rfl

theorem compile_of_tokenize {source : String} {tokens : List Token}
    (h : tokenize source = .ok tokens) :
    compile source = ((parse source tokens).mapError (.ofParseFailure source)).map
      fun expr => Asm.listing expr.code := by
  rw [compile_eq]
  unfold Expr.ofSource
  rw [h]
  rfl

theorem compile_of_fault {source : String} {fault : LexicalFault}
    (h : tokenize source = .error fault) :
    compile source = .error (.ofLexicalFault source fault) := by
  rw [compile_eq]
  unfold Expr.ofSource
  rw [h]
  rfl

end ExprCompiler
