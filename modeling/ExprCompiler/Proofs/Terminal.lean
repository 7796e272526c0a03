import ExprCompiler.Proofs.Grammar

/-!
# Tokens as terminals of the grammar

To the grammar a token is its value if it is a number and its text, as `token_text` gives it, if it
is a punctuator; where it stands in the source makes no difference. The end of the input is a
terminal too, which no expression contains.
-/

namespace ExprCompiler

theorem Symbol.spelling_injective {a b : Symbol} (h : a.spelling = b.spelling) : a = b := by
  have hab : read? (b.spelling.toList ++ []) = some (a, []) :=
    read?_eq_some_iff.2 (by rw [h])
  rw [read?_eq_some_iff.2 rfl] at hab
  exact (Prod.mk.inj (Option.some.inj hab)).1.symm

def Symbol.ofSpelling? (text : String) : Option Symbol :=
  match read? text.toList with
  | some (symbol, []) => some symbol
  | _ => none

theorem Symbol.ofSpelling?_eq_some_iff {text : String} {symbol : Symbol} :
    ofSpelling? text = some symbol ↔ text = symbol.spelling := by
  unfold ofSpelling?
  constructor
  · intro h
    split at h
    · rename_i symbol' hread
      obtain rfl := Option.some.inj h
      have := read?_eq_some_iff.1 hread
      rw [List.append_nil] at this
      exact String.toList_inj.1 this
    · simp at h
  · rintro rfl
    rw [← List.append_nil symbol.spelling.toList, read?_eq_some_iff.2 rfl]

/-- What a token is to the grammar. -/
inductive Terminal where
  | number (value : Int64)
  | punctuation (text : String)
  | endOfInput
deriving DecidableEq, Repr

namespace Terminal

def ofSymbol (symbol : Symbol) : Terminal := .punctuation symbol.spelling

@[simp]
theorem ofSymbol_inj {a b : Symbol} : ofSymbol a = ofSymbol b ↔ a = b := by
  constructor
  · intro h
    exact Symbol.spelling_injective (Terminal.punctuation.inj h)
  · rintro rfl
    rfl

@[simp]
theorem ofSymbol_ne_number (symbol : Symbol) (v : Int64) : ofSymbol symbol ≠ .number v := by
  simp [ofSymbol]

@[simp]
theorem ofSymbol_ne_endOfInput (symbol : Symbol) : ofSymbol symbol ≠ .endOfInput := by
  simp [ofSymbol]

/-- Sequences of terminals: every number and every symbol is one terminal. -/
def lexicon : Lexicon Terminal where
  number v w := w = [.number v]
  symbol symbol w := w = [ofSymbol symbol]

theorem lexicon_brackets : lexicon.Brackets (ofSymbol .leftParen) (ofSymbol .rightParen) where
  ne := by simp
  number := by
    rintro v w rfl
    simp
  operator := by
    rintro op w rfl
    simp
  left := by
    rintro w rfl
    exact ⟨[], rfl, by simp, by simp⟩
  right := by
    rintro w rfl
    exact ⟨[], rfl, by simp, by simp⟩

end Terminal

namespace Token

/-- The terminal of a token. The text of a punctuator whose span does not lie in the source counts
as empty, which is the text of no symbol. -/
def terminal (source : String) (token : Token) : Terminal :=
  match token.kind with
  | .number value => .number value
  | .punctuator => .punctuation ((token.text? source).getD "")
  | .eof => .endOfInput

/-- A token whose text can be told, or is never asked for. -/
def Readable (source : String) (token : Token) : Prop :=
  token.kind = .eof ∨ token.span.LiesIn source

variable {source : String} {token : Token}

theorem terminal_eq_number_iff {v : Int64} :
    token.terminal source = .number v ↔ token.kind = .number v := by
  unfold terminal
  split <;> simp_all

theorem terminal_eq_endOfInput_iff : token.terminal source = .endOfInput ↔ token.kind = .eof := by
  unfold terminal
  split <;> simp_all

theorem terminal_eq_ofSymbol_iff {symbol : Symbol} :
    token.terminal source = .ofSymbol symbol ↔ token.spells? source symbol = some true := by
  rw [spells?_eq_some_true_iff]
  unfold terminal
  split
  · simp_all [Terminal.ofSymbol]
  · rename_i hkind
    simp only [Terminal.ofSymbol, Terminal.punctuation.injEq, hkind, true_and]
    have hne : symbol.spelling ≠ "" := by
      rcases symbol with (_ | _ | _ | _ | _) | _ | _ <;> decide
    cases token.text? source with
    | none => simp [hne.symm]
    | some t => simp
  · simp_all [Terminal.ofSymbol]

theorem kind_ne_eof_of_terminal {symbol : Symbol} (h : token.terminal source = .ofSymbol symbol) :
    token.kind ≠ .eof := by
  intro hkind
  rw [terminal_eq_endOfInput_iff.2 hkind] at h
  exact absurd h.symm (Terminal.ofSymbol_ne_endOfInput symbol)

theorem spells?_of_readable (h : token.Readable source) (symbol : Symbol) :
    token.spells? source symbol = some (decide (token.terminal source = .ofSymbol symbol)) := by
  obtain ⟨b, hb⟩ := Option.isSome_iff_exists.1 (isSome_spells? h symbol)
  rw [hb]
  congr 1
  have hiff : b = true ↔ token.terminal source = .ofSymbol symbol := by
    rw [terminal_eq_ofSymbol_iff, hb, Option.some.injEq]
  by_cases ht : token.terminal source = .ofSymbol symbol
  · simp [ht, hiff.2 ht]
  · cases b with
    | true => exact absurd (hiff.1 rfl) ht
    | false => simp [ht]

end Token

open Terminal

/-! ## Expressions as sequences of tokens -/

/-- Sequences of tokens: every number and every symbol is one token, whose text can be told. -/
def tokenLexicon (source : String) : Lexicon Token where
  number v tokens := ∃ t, tokens = [t] ∧ t.Readable source ∧ t.terminal source = .number v
  symbol symbol tokens :=
    ∃ t, tokens = [t] ∧ t.Readable source ∧ t.terminal source = ofSymbol symbol

/-- Tokens are an expression if their terminals are. -/
theorem Phrase.tokens {source : String} {L : Level} {w : List Terminal} {s : Surface}
    (h : Phrase lexicon L w s) {used : List Token} (hused : used.map (Token.terminal source) = w)
    (hread : ∀ t ∈ used, t.Readable source) : Phrase (tokenLexicon source) L used s := by
  have hsymbol {symbol : Symbol} {w : List Terminal} (hw : lexicon.symbol symbol w)
      {used : List Token} (hused : used.map (Token.terminal source) = w)
      (hread : ∀ t ∈ used, t.Readable source) : (tokenLexicon source).symbol symbol used := by
    obtain rfl : w = [ofSymbol symbol] := hw
    obtain ⟨t, rfl, ht⟩ := List.map_eq_singleton_iff.1 hused
    exact ⟨t, rfl, hread t (by simp), ht⟩
  induction h generalizing used with
  | @number v w hw =>
    obtain rfl : w = [.number v] := hw
    obtain ⟨t, rfl, ht⟩ := List.map_eq_singleton_iff.1 hused
    exact .number ⟨t, rfl, hread t (by simp), ht⟩
  | paren hl hw hr ih =>
    obtain ⟨_, c, rfl, hleft, hc⟩ := List.map_eq_append_iff.1 hused
    obtain ⟨o, inside, rfl, ho, hinside⟩ := List.map_eq_append_iff.1 hleft
    exact .paren (hsymbol hl ho fun t ht => hread t (by simp [ht]))
      (ih hinside fun t ht => hread t (by simp [ht]))
      (hsymbol hr hc fun t ht => hread t (by simp [ht]))
  | plus hp hw ih =>
    obtain ⟨sign, operand, rfl, hsign, hoperand⟩ := List.map_eq_append_iff.1 hused
    exact .plus (hsymbol hp hsign fun t ht => hread t (by simp [ht]))
      (ih hoperand fun t ht => hread t (by simp [ht]))
  | minus hp hw ih =>
    obtain ⟨sign, operand, rfl, hsign, hoperand⟩ := List.map_eq_append_iff.1 hused
    exact .minus (hsymbol hp hsign fun t ht => hread t (by simp [ht]))
      (ih hoperand fun t ht => hread t (by simp [ht]))
  | tighter hL hw ih => exact .tighter hL (ih hused hread)
  | binary hL hop hu ho hv ihu ihv =>
    obtain ⟨_, right, rfl, hleft, hright⟩ := List.map_eq_append_iff.1 hused
    obtain ⟨left, o, rfl, hleft, hoperator⟩ := List.map_eq_append_iff.1 hleft
    exact .binary hL hop (ihu hleft fun t ht => hread t (by simp [ht]))
      (hsymbol ho hoperator fun t ht => hread t (by simp [ht]))
      (ihv hright fun t ht => hread t (by simp [ht]))

/-! ## The terminals of an expression -/

/-- The terminals that an expression is written with. -/
def Surface.terminals : Surface → List Terminal
  | .number value => [.number value]
  | .paren inner => ofSymbol .leftParen :: (inner.terminals ++ [ofSymbol .rightParen])
  | .plus operand => ofSymbol (.operator .add) :: operand.terminals
  | .minus operand => ofSymbol (.operator .sub) :: operand.terminals
  | .binary op lhs rhs => lhs.terminals ++ ofSymbol (.operator op) :: rhs.terminals

/-- A sequence of terminals is what every expression derived from it is written with. -/
theorem Phrase.eq_terminals {L : Level} {w : List Terminal} {s : Surface}
    (h : Phrase lexicon L w s) : w = s.terminals := by
  induction h with
  | number hw => exact hw
  | paren hl hw hr ih =>
    rw [hl, hr, ih]
    simp [Surface.terminals]
  | plus hp hw ih =>
    rw [hp, ih]
    rfl
  | minus hp hw ih =>
    rw [hp, ih]
    rfl
  | tighter hL hw ih => exact ih
  | binary hL hop hu ho hv ihu ihv =>
    rw [ihu, ho, ihv]
    simp [Surface.terminals]

end ExprCompiler
