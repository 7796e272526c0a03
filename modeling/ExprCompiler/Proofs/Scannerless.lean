import ExprCompiler.Proofs.Lexing
import ExprCompiler.Proofs.Parsing
import ExprCompiler.Proofs.Unambiguity
import ExprCompiler.Proofs.Viability

/-!
# One grammar for plain texts

The grammar over characters has no lexemes of its own: each number and each symbol is preceded by
any run of blanks, and a number is any run of digits, not the longest one. Still it admits the same
texts with the same trees as `tokenize` and `parse` one after the other.

The two sides meet in `Spelled w cs`, which spells terminals out without saying where one has to
end. A text cut by the lexer is spelled (`Cut.exists_spelled`). Conversely, a spelling can be cut
the same way unless two numbers stand side by side, and in an expression they never do, since after
a number an operator is due (`Spelled.exists_cut`).
-/

namespace ExprCompiler

open Terminal Frontier

/-- Plain texts: a number is a run of digits, and blanks may stand before it or a symbol. -/
def textLexicon : Lexicon Char where
  number v cs := ∃ gap digits, cs = gap ++ digits ∧ IsGap gap ∧ digits ≠ [] ∧
    (∀ c ∈ digits, c.isDigit) ∧ Decimal.value digits < 2 ^ 63 ∧
      v = Int64.ofNat (Decimal.value digits)
  symbol symbol cs := ∃ gap, cs = gap ++ symbol.spelling.toList ∧ IsGap gap

/-- The text `cs` is the expression `s`, followed by blanks. -/
def Derives (cs : List Char) (s : Surface) : Prop :=
  ∃ body gap, cs = body ++ gap ∧ IsGap gap ∧ Phrase textLexicon .equality body s

theorem IsGap.not_mem {gap : List Char} (h : IsGap gap) {c : Char} (hc : c ∉ blanks) : c ∉ gap :=
  fun hmem => hc (h c hmem)

theorem textLexicon_brackets : textLexicon.Brackets '(' ')' where
  ne := by decide
  number := by
    rintro v w ⟨gap, digits, rfl, hgap, -, hdigits, -⟩
    have hout {c : Char} (hblank : c ∉ blanks) (hdigit : c.isDigit = false) :
        c ∉ gap ++ digits := by
      intro hmem
      rcases List.mem_append.1 hmem with hmem | hmem
      · exact hgap.not_mem hblank hmem
      · simp [hdigits c hmem] at hdigit
    exact ⟨hout (by decide) (by decide), hout (by decide) (by decide)⟩
  operator := by
    rintro op w ⟨gap, rfl, hgap⟩
    have hspelling : '(' ∉ (Symbol.operator op).spelling.toList ∧
        ')' ∉ (Symbol.operator op).spelling.toList := by
      cases op <;> decide
    simp only [List.mem_append, not_or]
    exact ⟨⟨hgap.not_mem (by decide), hspelling.1⟩, hgap.not_mem (by decide), hspelling.2⟩
  left := by
    rintro w ⟨gap, rfl, hgap⟩
    exact ⟨gap, rfl, hgap.not_mem (by decide), hgap.not_mem (by decide)⟩
  right := by
    rintro w ⟨gap, rfl, hgap⟩
    exact ⟨gap, rfl, hgap.not_mem (by decide), hgap.not_mem (by decide)⟩

/-! ## Spelling out terminals -/

def Token.Kind.terminal (text : List Char) : Token.Kind → Terminal
  | .number v => .number v
  | .punctuator => .punctuation (String.ofList text)
  | .eof => .endOfInput

/-- The text is made of the terminals, each with a gap before it. -/
inductive Spelled : List Terminal → List Char → Prop where
  | nil : Spelled [] []
  | lexeme {gap text rest : List Char} {kind : Token.Kind} {w : List Terminal} (hgap : IsGap gap)
      (htext : kind.Writes text) (hrest : Spelled w rest) :
      Spelled (kind.terminal text :: w) (gap ++ text ++ rest)

theorem Terminal.spelled_number {v : Int64} {cs : List Char} :
    Spelled [.number v] cs ↔ textLexicon.number v cs := by
  constructor
  · intro h
    generalize hw : [Terminal.number v] = w at h
    cases h with
    | nil => simp at hw
    | @lexeme gap text rest kind w hgap htext hrest =>
      obtain ⟨hkind, rfl⟩ := List.cons.inj hw
      cases hrest
      cases kind with
      | number v' =>
        obtain rfl := Terminal.number.inj hkind
        exact ⟨gap, text, List.append_nil _, hgap, htext⟩
      | punctuator | eof => simp [Token.Kind.terminal] at hkind
  · rintro ⟨gap, digits, rfl, hgap, hdigits⟩
    have htext : (Token.Kind.number v).Writes digits := hdigits
    have := Spelled.lexeme hgap htext .nil
    rwa [List.append_nil] at this

theorem Terminal.spelled_ofSymbol {symbol : Symbol} {cs : List Char} :
    Spelled [ofSymbol symbol] cs ↔ textLexicon.symbol symbol cs := by
  constructor
  · intro h
    generalize hw : [ofSymbol symbol] = w at h
    cases h with
    | nil => simp at hw
    | @lexeme gap text rest kind w hgap htext hrest =>
      obtain ⟨hkind, rfl⟩ := List.cons.inj hw
      cases hrest
      cases kind with
      | punctuator =>
        obtain hspelling := Terminal.punctuation.inj hkind
        refine ⟨gap, ?_, hgap⟩
        rw [List.append_nil, hspelling, String.toList_ofList]
      | number v => exact absurd hkind (ofSymbol_ne_number symbol v)
      | eof => exact absurd hkind (ofSymbol_ne_endOfInput symbol)
  · rintro ⟨gap, rfl, hgap⟩
    have htext : Token.Kind.punctuator.Writes symbol.spelling.toList := ⟨symbol, rfl⟩
    have := Spelled.lexeme hgap htext .nil
    rwa [List.append_nil, Token.Kind.terminal, String.ofList_toList] at this

theorem spelled_append {u v : List Terminal} {cs : List Char} :
    Spelled (u ++ v) cs ↔ ∃ a b, cs = a ++ b ∧ Spelled u a ∧ Spelled v b := by
  constructor
  · intro h
    induction u generalizing cs with
    | nil => exact ⟨[], cs, rfl, .nil, h⟩
    | cons x u ih =>
      rw [List.cons_append] at h
      cases h with
      | @lexeme gap text rest kind w hgap htext hrest =>
        obtain ⟨a, b, rfl, ha, hb⟩ := ih hrest
        exact ⟨gap ++ text ++ a, b, by simp, .lexeme hgap htext ha, hb⟩
  · rintro ⟨a, b, rfl, ha, hb⟩
    induction ha with
    | nil => exact hb
    | @lexeme gap text rest kind w hgap htext hrest ih =>
      have := Spelled.lexeme hgap htext ih
      simpa only [List.append_assoc, List.cons_append] using this

/-- An expression as a text is the same expression as a sequence of terminals. -/
theorem Phrase.exists_spelled {L : Level} {cs : List Char} {s : Surface}
    (h : Phrase textLexicon L cs s) : ∃ w, Phrase lexicon L w s ∧ Spelled w cs := by
  induction h with
  | @number v cs hcs => exact ⟨_, .number rfl, spelled_number.2 hcs⟩
  | @paren l cs r s hl hcs hr ih =>
    obtain ⟨w, hw, hspelled⟩ := ih
    refine ⟨_, .paren rfl hw rfl, spelled_append.2 ⟨l ++ cs, r, rfl, ?_, spelled_ofSymbol.2 hr⟩⟩
    exact spelled_append.2 ⟨l, cs, rfl, spelled_ofSymbol.2 hl, hspelled⟩
  | @plus p cs s hp hcs ih =>
    obtain ⟨w, hw, hspelled⟩ := ih
    exact ⟨_, .plus rfl hw, spelled_append.2 ⟨p, cs, rfl, spelled_ofSymbol.2 hp, hspelled⟩⟩
  | @minus p cs s hp hcs ih =>
    obtain ⟨w, hw, hspelled⟩ := ih
    exact ⟨_, .minus rfl hw, spelled_append.2 ⟨p, cs, rfl, spelled_ofSymbol.2 hp, hspelled⟩⟩
  | tighter hL hcs ih =>
    obtain ⟨w, hw, hspelled⟩ := ih
    exact ⟨w, .tighter hL hw, hspelled⟩
  | @binary L L' a o b l r op hL hop ha ho hb iha ihb =>
    obtain ⟨u, hu, hspelledu⟩ := iha
    obtain ⟨v, hv, hspelledv⟩ := ihb
    refine ⟨_, .binary hL hop hu rfl hv, spelled_append.2 ⟨a ++ o, b, rfl, ?_, hspelledv⟩⟩
    exact spelled_append.2 ⟨a, o, rfl, hspelledu, spelled_ofSymbol.2 ho⟩

/-- However an expression is spelled, the text is the expression. -/
theorem Phrase.of_spelled {L : Level} {w : List Terminal} {s : Surface} (h : Phrase lexicon L w s)
    {cs : List Char} (hcs : Spelled w cs) : Phrase textLexicon L cs s := by
  induction h generalizing cs with
  | @number v w hw =>
    obtain rfl : w = [.number v] := hw
    exact .number (spelled_number.1 hcs)
  | @paren l w r s hl hw hr ih =>
    obtain rfl : l = [ofSymbol .leftParen] := hl
    obtain rfl : r = [ofSymbol .rightParen] := hr
    obtain ⟨ab, c, rfl, hab, hc⟩ := spelled_append.1 hcs
    obtain ⟨a, b, rfl, ha, hb⟩ := spelled_append.1 hab
    exact .paren (spelled_ofSymbol.1 ha) (ih hb) (spelled_ofSymbol.1 hc)
  | @plus p w s hp hw ih =>
    obtain rfl : p = [ofSymbol (.operator .add)] := hp
    obtain ⟨a, b, rfl, ha, hb⟩ := spelled_append.1 hcs
    exact .plus (spelled_ofSymbol.1 ha) (ih hb)
  | @minus p w s hp hw ih =>
    obtain rfl : p = [ofSymbol (.operator .sub)] := hp
    obtain ⟨a, b, rfl, ha, hb⟩ := spelled_append.1 hcs
    exact .minus (spelled_ofSymbol.1 ha) (ih hb)
  | tighter hL hw ih => exact .tighter hL (ih hcs)
  | @binary L L' u o v l r op hL hop hu ho hv ihu ihv =>
    obtain rfl : o = [ofSymbol (.operator op)] := ho
    obtain ⟨ab, c, rfl, hab, hc⟩ := spelled_append.1 hcs
    obtain ⟨a, b, rfl, ha, hb⟩ := spelled_append.1 hab
    exact .binary hL hop (ihu ha) (spelled_ofSymbol.1 hb) (ihv hc)

/-! ## Spellings and cuts -/

section Cuts

variable {source : String}

/-- The terminal of a token is that of its lexeme, if the lexeme stands where the span says. -/
theorem Token.terminal_eq {offset : Nat} {text rest : List Char} {kind : Token.Kind}
    (htext : kind.Writes text) (h : Remains source offset (text ++ rest)) :
    Token.terminal source ⟨kind, ⟨offset, text.length⟩⟩ = kind.terminal text := by
  cases kind with
  | number v => rfl
  | punctuator =>
    unfold Token.terminal Token.text?
    rw [h.text? htext.utf8Size]
    rfl
  | eof => exact htext.elim

/-- A text that is cut is spelled, up to the blanks at its end. -/
theorem Cut.exists_spelled {offset : Nat} {cs : List Char} {tokens : List Token}
    (h : Cut offset cs tokens) (hcs : Remains source offset cs) :
    ∃ w body gap, tokens.map (Token.terminal source) = w ++ [.endOfInput] ∧ cs = body ++ gap ∧
      Spelled w body ∧ IsGap gap := by
  induction h with
  | @finish offset gap hgap => exact ⟨[], [], gap, rfl, rfl, .nil, hgap⟩
  | @lexeme offset gap text rest kind tokens hgap htext hmax hrest ih =>
    rw [List.append_assoc] at hcs
    have htextAt := hcs.skipGap hgap
    obtain ⟨w, body, last, htokens, rfl, hbody, hlast⟩ := ih (htextAt.skip htext.utf8Size)
    refine ⟨kind.terminal text :: w, gap ++ text ++ body, last, ?_, by simp, ?_, hlast⟩
    · rw [List.map_cons, Token.terminal_eq htext htextAt, htokens, List.cons_append]
    · exact .lexeme hgap htext hbody

theorem IsGap.head_not_digit {gap : List Char} (h : IsGap gap) :
    ∀ c ∈ gap.head?, c.isDigit = false := by
  intro c hc
  exact isDigit_eq_false_of_mem_blanks (h c (List.mem_of_mem_head? hc))

/-- Where no number is due, no digit comes next. -/
theorem Spelled.head_not_digit {w : List Terminal} {cs last : List Char} (h : Spelled w cs)
    {f g : Frontier} (hdue : f.due = .operator) (hrun : f.run w = some g) (hlast : IsGap last) :
    ∀ c ∈ (cs ++ last).head?, c.isDigit = false := by
  cases h with
  | nil => exact hlast.head_not_digit
  | @lexeme gap text rest kind w hgap htext hrest =>
    cases gap with
    | cons b gap =>
      intro c hc
      exact hgap.head_not_digit c (by simpa using hc)
    | nil =>
      cases kind with
      | punctuator =>
        obtain ⟨symbol, rfl⟩ := htext
        obtain ⟨d, ds, hd, -, hdigit⟩ := exists_spelling_eq_cons symbol
        intro c hc
        rw [hd] at hc
        obtain rfl : d = c := by simpa using hc
        exact hdigit
      | number v => simp [Token.Kind.terminal, step, hdue] at hrun
      | eof => exact htext.elim

/-- A spelling without numbers side by side is cut where the terminals end. -/
theorem Spelled.exists_cut {w : List Terminal} {cs last : List Char} (h : Spelled w cs)
    {f g : Frontier} (hrun : f.run w = some g) (hlast : IsGap last) {offset : Nat}
    (hcs : Remains source offset (cs ++ last)) :
    ∃ body size, Cut offset (cs ++ last) (body ++ [.endOfInput size]) ∧
      body.map (Token.terminal source) = w := by
  induction h generalizing f offset with
  | nil => exact ⟨[], offset + last.length, .finish hlast, rfl⟩
  | @lexeme gap text rest kind w hgap htext hrest ih =>
    obtain ⟨f', hstep, hrun'⟩ := Option.bind_eq_some_iff.1 hrun
    rw [List.append_assoc, List.append_assoc] at hcs
    have htextAt := hcs.skipGap hgap
    obtain ⟨body, size, hcut, hbody⟩ := ih hrun' (htextAt.skip htext.utf8Size)
    -- after a number an operator is due, so the digits of the number end where its spelling does
    have hmax : kind ≠ .punctuator → ∀ c ∈ (rest ++ last).head?, c.isDigit = false := by
      intro hkind
      cases kind with
      | punctuator => exact absurd rfl hkind
      | number v =>
        have hdue := (due_of_step hstep (by simp [Token.Kind.terminal])).2.2 rfl
        exact hrest.head_not_digit hdue hrun' hlast
      | eof => exact htext.elim
    have := Cut.lexeme hgap htext hmax hcut
    refine ⟨⟨kind, ⟨offset + gap.length, text.length⟩⟩ :: body, size, ?_, ?_⟩
    · simpa only [List.append_assoc, List.cons_append] using this
    · rw [List.map_cons, Token.terminal_eq htext htextAt, hbody]

/-! ## Whole texts -/

/-- A text that is an expression is cut into the terminals of the expression, however it is
derived. -/
theorem Derives.exists_tokens {s : Surface} (h : Derives source.toList s) :
    ∃ body size, tokenize source = .ok (body ++ [.endOfInput size]) ∧
      Phrase lexicon .equality (body.map (Token.terminal source)) s := by
  obtain ⟨text, gap, hsource, hgap, hs⟩ := h
  obtain ⟨w, hw, hspelled⟩ := hs.exists_spelled
  have hrun : start.run w = some ⟨.operator, 0⟩ := hw.run_eq (.inl rfl) 0
  have hremains := remains_all source
  rw [hsource] at hremains
  obtain ⟨body, size, hcut, hbody⟩ := hspelled.exists_cut hrun hgap hremains
  rw [← hsource] at hcut
  exact ⟨body, size, tokenize_eq_ok_iff.2 hcut, by rwa [hbody]⟩

/-- A text whose tokens are an expression is that expression. -/
theorem derives_of_tokenize {body : List Token} {size : Nat}
    (h : tokenize source = .ok (body ++ [.endOfInput size])) {s : Surface}
    (hs : Phrase lexicon .equality (body.map (Token.terminal source)) s) :
    Derives source.toList s := by
  have hcut := tokenize_eq_ok_iff.1 h
  obtain ⟨w, text, gap, hw, hsource, hspelled, hgap⟩ := hcut.exists_spelled (remains_all source)
  have hbody : body.map (Token.terminal source) = w := by
    rw [List.map_append] at hw
    exact List.append_inj_left' hw rfl
  rw [hbody] at hs
  exact ⟨text, gap, hsource, hgap, hs.of_spelled hspelled⟩

theorem Derives.unique {s t : Surface} (hs : Derives source.toList s)
    (ht : Derives source.toList t) : s = t := by
  obtain ⟨body, size, hbody, hphrase⟩ := hs.exists_tokens
  obtain ⟨body', size', hbody', hphrase'⟩ := ht.exists_tokens
  have heq := Except.ok.inj (hbody.symm.trans hbody')
  rw [← List.append_inj_left' heq rfl] at hphrase'
  exact hphrase.unique hphrase'

theorem Derives.nestedWithin_iff {cs : List Char} {s : Surface} (h : Derives cs s) (n : Nat) :
    NestedWithin '(' ')' n cs ↔ s.nesting ≤ n := by
  obtain ⟨body, gap, rfl, hgap, hs⟩ := h
  rw [nestedWithin_append (hs.count_eq textLexicon_brackets),
    hs.nestedWithin_iff textLexicon_brackets]
  exact and_iff_left (nestedWithin_of_not_mem (hgap.not_mem (by decide)) n)

theorem parse_of_tokenize {body : List Token} {size : Nat}
    (h : tokenize source = .ok (body ++ [.endOfInput size])) (a : Expr) :
    parse source (body ++ [.endOfInput size]) = .ok a ↔
      ∃ s, Phrase lexicon .equality (body.map (Token.terminal source)) s ∧ s.tree = a ∧
        s.Within maxNesting := by
  have hread : ∀ t ∈ body, t.Readable source := fun t ht =>
    readable_of_tokenize h t (by simp [ht])
  exact parse_eq_ok_iff_within rfl (kind_ne_eof_of_tokenize h) hread a

/-- The lexer and the parser together accept exactly the texts that are an expression within the
limits. -/
theorem exists_parse_iff_derives (a : Expr) :
    (∃ tokens, tokenize source = .ok tokens ∧ parse source tokens = .ok a) ↔
      ∃ s, Derives source.toList s ∧ s.tree = a ∧ s.Within maxNesting := by
  constructor
  · rintro ⟨tokens, htokens, hparse⟩
    obtain ⟨body, size, rfl, -⟩ := (tokenize_eq_ok_iff.1 htokens).eq_append_endOfInput
    obtain ⟨s, hs, hwithin⟩ := (parse_of_tokenize htokens a).1 hparse
    exact ⟨s, derives_of_tokenize htokens hs, hwithin⟩
  · rintro ⟨s, hs, hwithin⟩
    obtain ⟨body, size, htokens, hphrase⟩ := hs.exists_tokens
    exact ⟨_, htokens, (parse_of_tokenize htokens a).2 ⟨s, hphrase, hwithin⟩⟩

theorem height_le_of_parse {tokens : List Token} {e : Expr}
    (htokens : tokenize source = .ok tokens) (h : parse source tokens = .ok e) :
    e.height ≤ maxHeight := by
  obtain ⟨s, -, rfl, -, hheight⟩ := (exists_parse_iff_derives e).1 ⟨tokens, htokens, h⟩
  exact hheight

end Cuts

/-- Lexing and parsing one after the other is the same as one grammar over characters. The lexer
never stands in the way: it cuts every text that is an expression, of any size, into the terminals
of that expression, and a text is at most one expression. -/
theorem tokenize_parse_iff_derives (source : String) :
    (∀ a, (∃ tokens, tokenize source = .ok tokens ∧ parse source tokens = .ok a) ↔
      (∃ s, Derives source.toList s ∧ s.tree = a) ∧ NestedWithin '(' ')' 256 source.toList ∧
        a.height ≤ 4096) ∧
    (∀ s, Derives source.toList s →
      ∃ body size, tokenize source = .ok (body ++ [.endOfInput size]) ∧
        Phrase lexicon .equality (body.map (Token.terminal source)) s) ∧
    ∀ s t, Derives source.toList s → Derives source.toList t → s = t := by
  refine ⟨fun a => ?_, fun s hs => hs.exists_tokens, fun s t hs ht => hs.unique ht⟩
  rw [exists_parse_iff_derives]
  constructor
  · rintro ⟨s, hs, rfl, hnesting, hheight⟩
    exact ⟨⟨s, hs, rfl⟩, (hs.nestedWithin_iff 256).2 hnesting, hheight⟩
  · rintro ⟨⟨s, hs, rfl⟩, hnested, hheight⟩
    exact ⟨s, hs, rfl, (hs.nestedWithin_iff 256).1 hnested, hheight⟩

end ExprCompiler
