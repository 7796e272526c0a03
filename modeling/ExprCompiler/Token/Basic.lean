import ExprCompiler.Expr.Basic
import ExprCompiler.Text.Decimal
import ExprCompiler.Text.Span

/-!
# Symbols and tokens

The lexemes that are not numbers are the operators and the two parentheses. No symbol's spelling is
the beginning of another's, so a text starts with at most one symbol, and `Symbol.read?_eq_some_iff`
says that `Symbol.read?` finds exactly that one.

A token is a kind together with the span of source text it stands for. The kind tells numbers, with
their value, from symbols and from the end of the input; which symbol a token is, only its text in
the source can say. A token by itself promises nothing about the source, so every question about its
text may find that the span does not lie there; then the answer is `none`. The questions are
`token_text` (`Token.text?`), `describe_token` (`Token.describe?`) and `equal` (`Token.spells?`).
-/

namespace ExprCompiler

/-- A lexeme that is not a number. -/
inductive Symbol where
  | operator (op : Operator)
  | leftParen
  | rightParen
deriving DecidableEq, Repr

namespace Symbol

def spelling : Symbol → String
  | .operator op => op.symbol
  | .leftParen => "("
  | .rightParen => ")"

/-- The symbol at the start of a text, and the text after it. -/
def read? : List Char → Option (Symbol × List Char)
  | '=' :: '=' :: rest => some (.operator .eq, rest)
  | '+' :: rest => some (.operator .add, rest)
  | '-' :: rest => some (.operator .sub, rest)
  | '*' :: rest => some (.operator .mul, rest)
  | '/' :: rest => some (.operator .div, rest)
  | '(' :: rest => some (.leftParen, rest)
  | ')' :: rest => some (.rightParen, rest)
  | _ => none

/-- A symbol is read exactly where it is written. -/
theorem read?_eq_some_iff {cs rest : List Char} {symbol : Symbol} :
    read? cs = some (symbol, rest) ↔ cs = symbol.spelling.toList ++ rest := by
  constructor
  · intro h
    unfold read? at h
    split at h <;> simp at h <;> obtain ⟨rfl, rfl⟩ := h <;> rfl
  · rintro rfl
    rcases symbol with (_ | _ | _ | _ | _) | _ | _ <;> rfl

theorem spelling_length_pos (symbol : Symbol) : 0 < symbol.spelling.toList.length := by
  rcases symbol with (_ | _ | _ | _ | _) | _ | _ <;> decide

theorem length_lt_of_read?_eq_some {cs rest : List Char} {symbol : Symbol}
    (h : read? cs = some (symbol, rest)) : rest.length < cs.length := by
  rw [read?_eq_some_iff.1 h, List.length_append]
  have := symbol.spelling_length_pos
  omega

end Symbol

/-- What kind of lexeme a token stands for. -/
inductive Token.Kind where
  /-- An operator or a parenthesis. -/
  | punctuator
  /-- A number, with its value. -/
  | number (value : Int64)
  | eof
deriving DecidableEq, Repr

/-- A kind of lexeme and the place where it stands in the source. -/
structure Token where
  kind : Token.Kind
  /-- The part of the source the lexeme covers. -/
  span : Span
deriving DecidableEq, Repr

namespace Token

/-- The name of a kind in the compiler's log. -/
def Kind.label : Kind → String
  | .punctuator => "Punctuator"
  | .number value => "Num(" ++ Decimal.text value.toInt ++ ")"
  | .eof => "Eof"

/-- The end of an input that is `size` bytes long. -/
def endOfInput (size : Nat) : Token := ⟨.eof, ⟨size, 0⟩⟩

/-- How messages name the end of the input. -/
def endName : String := "EOF"

def text? (source : String) (token : Token) : Option String := token.span.text? source

/-- How a message names a token, or the lack of one: by its text, or as the end of the input. -/
def describe? (source : String) : Option Token → Option String
  | none => some endName
  | some token => if token.kind = .eof then some endName else token.text? source

/-- Whether a token is the given symbol. The source is consulted only for a punctuator that is as
long as the symbol's spelling, since no other token can be the symbol. -/
def spells? (source : String) (symbol : Symbol) (token : Token) : Option Bool :=
  if token.kind = .punctuator ∧ token.span.length = symbol.spelling.utf8ByteSize then
    (token.text? source).map (· == symbol.spelling)
  else
    some false

/-! ## Questions about the text -/

theorem spells?_eq_some_true_iff {source : String} {symbol : Symbol} {token : Token} :
    token.spells? source symbol = some true ↔
      token.kind = .punctuator ∧ token.text? source = some symbol.spelling := by
  unfold spells?
  split
  · simp_all
  · rename_i h
    simp only [Option.some.injEq, Bool.false_eq_true, false_iff]
    rintro ⟨hkind, htext⟩
    obtain ⟨_, _, _, _, hlength⟩ := Span.text?_eq_some_iff.1 htext
    exact h ⟨hkind, hlength.symm⟩

/-- Whether a token is a symbol can be told if the token lies in the source, or is the end of the
input. -/
theorem isSome_spells? {source : String} {token : Token}
    (h : token.kind = .eof ∨ token.span.LiesIn source) (symbol : Symbol) :
    (token.spells? source symbol).isSome := by
  unfold spells?
  split
  · rename_i hpunct
    have inside := h.resolve_left (by simp [hpunct.1])
    simpa [text?, Span.isSome_text?_iff] using inside
  · rfl

theorem isSome_describe? {source : String} {token : Token}
    (h : token.kind = .eof ∨ token.span.LiesIn source) :
    (describe? source (some token)).isSome := by
  rw [describe?]
  split
  · rfl
  · rename_i hkind
    exact Span.isSome_text?_iff.2 (h.resolve_left hkind)

end Token

end ExprCompiler
