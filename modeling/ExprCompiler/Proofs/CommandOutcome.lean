import ExprCompiler.Command
import ExprCompiler.Proofs.LexicalFault
import ExprCompiler.Proofs.Scannerless

/-!
# What comes of a command line

A command line is carried out in stages, and the first stage that fails decides what is reported: a
wrong number of arguments, which `run` finds, before anything in the text, and a lexical fault
anywhere in the text before any fault of its tokens. Both kinds of validity are said without the
compiler: `Splits` for texts that consist of blanks, symbols and numbers, and `IsSentence` for those
whose tokens are an expression within the limits. The outcomes are told apart by them alone, and
only a command that succeeds writes to the standard output (`Command.outcome_classified`).

The log shares the error output with the message of an error. No event is severe enough for it
unless the user asks for more (`Command.write_defaultFilter`), so of a command that succeeds the
error output holds nothing.
-/

namespace ExprCompiler

open Terminal Frontier

/-! ## Texts without a lexical fault -/

/-- The text consists of blanks, symbols and numbers below the 63rd power of two, a number being a
run of digits that no further digit follows. -/
inductive Splits : List Char → Prop where
  | nil : Splits []
  | blank {c : Char} {cs : List Char} (hc : c ∈ blanks) (hcs : Splits cs) : Splits (c :: cs)
  | symbol (symbol : Symbol) {cs : List Char} (hcs : Splits cs) :
      Splits (symbol.spelling.toList ++ cs)
  | number {digits cs : List Char} (hne : digits ≠ []) (hdigits : ∀ c ∈ digits, c.isDigit)
      (hbound : Decimal.value digits < 2 ^ 63) (hmax : ∀ c ∈ cs.head?, c.isDigit = false)
      (hcs : Splits cs) : Splits (digits ++ cs)

theorem Splits.gap {gap cs : List Char} (hgap : IsGap gap) (h : Splits cs) :
    Splits (gap ++ cs) := by
  induction gap with
  | nil => exact h
  | cons c gap ih =>
    have hrest := ih fun d hd => hgap d (by simp [hd])
    exact .blank (hgap c (by simp)) hrest

theorem Cut.splits {offset : Nat} {cs : List Char} {tokens : List Token}
    (h : Cut offset cs tokens) : Splits cs := by
  induction h with
  | finish hgap =>
    have hsplits := Splits.nil.gap hgap
    rwa [List.append_nil] at hsplits
  | @lexeme offset gap text rest kind tokens hgap htext hmax hrest ih =>
    rw [List.append_assoc]
    refine Splits.gap hgap ?_
    cases kind with
    | punctuator =>
      obtain ⟨symbol, rfl⟩ := htext
      exact .symbol symbol ih
    | number value =>
      obtain ⟨hne, hdigits, hbound, -⟩ := htext
      exact .number hne hdigits hbound (hmax (by simp)) ih
    | eof => exact htext.elim

theorem Splits.exists_cut {cs : List Char} (h : Splits cs) (offset : Nat) :
    ∃ tokens, Cut offset cs tokens := by
  induction h generalizing offset with
  | nil => exact ⟨_, .finish isGap_nil⟩
  | blank hc hcs ih =>
    obtain ⟨tokens, hcut⟩ := ih (offset + 1)
    exact ⟨tokens, hcut.blank hc⟩
  | @symbol symbol cs hcs ih =>
    obtain ⟨tokens, hcut⟩ := ih (offset + ([] : List Char).length + symbol.spelling.toList.length)
    have htext : Token.Kind.punctuator.Writes symbol.spelling.toList := ⟨symbol, rfl⟩
    exact ⟨_, .lexeme isGap_nil htext (fun hkind => absurd rfl hkind) hcut⟩
  | @number digits cs hne hdigits hbound hmax hcs ih =>
    obtain ⟨tokens, hcut⟩ := ih (offset + ([] : List Char).length + digits.length)
    have htext : (Token.Kind.number (Int64.ofNat (Decimal.value digits))).Writes digits :=
      ⟨hne, hdigits, hbound, rfl⟩
    exact ⟨_, .lexeme isGap_nil htext (fun _ => hmax) hcut⟩

theorem exists_tokenize_iff_splits {source : String} :
    (∃ tokens, tokenize source = .ok tokens) ↔ Splits source.toList := by
  constructor
  · rintro ⟨tokens, htokens⟩
    exact (tokenize_eq_ok_iff.1 htokens).splits
  · intro h
    obtain ⟨tokens, hcut⟩ := h.exists_cut 0
    exact ⟨tokens, tokenize_eq_ok_iff.2 hcut⟩

/-! ## Texts without a syntactic fault -/

/-- The tokens of the text are an expression in which no more than 256 parentheses are open at once
and whose tree is at most 4096 high. -/
def IsSentence (source : String) : Prop :=
  ∃ body size s, Cut 0 source.toList (body ++ [.endOfInput size]) ∧
    Phrase lexicon .equality (body.map (Token.terminal source)) s ∧
    NestedWithin (ofSymbol .leftParen) (ofSymbol .rightParen) 256
      (body.map (Token.terminal source)) ∧
    s.tree.height ≤ 4096

theorem exists_parse_iff_isSentence {source : String} {tokens : List Token}
    (h : tokenize source = .ok tokens) :
    (∃ a, parse source tokens = .ok a) ↔ IsSentence source := by
  obtain ⟨body, size, rfl, -⟩ := (tokenize_eq_ok_iff.1 h).eq_append_endOfInput
  constructor
  · rintro ⟨a, ha⟩
    obtain ⟨s, hs, rfl, hnesting, hheight⟩ := (parse_of_tokenize h a).1 ha
    exact ⟨body, size, s, tokenize_eq_ok_iff.1 h, hs,
      (hs.nestedWithin_iff lexicon_brackets 256).2 hnesting, hheight⟩
  · rintro ⟨body', size', s, hcut, hs, hnested, hheight⟩
    have heq := Except.ok.inj (h.symm.trans (tokenize_eq_ok_iff.2 hcut))
    rw [← List.append_inj_left' heq rfl] at hs hnested
    exact ⟨s.tree, (parse_of_tokenize h s.tree).2 ⟨s, hs, rfl,
      (hs.nestedWithin_iff lexicon_brackets 256).1 hnested, hheight⟩⟩

/-! ## Compilation -/

/-- How a compilation can end, and for which texts. -/
theorem compile_cases (source : String) :
    (¬ Splits source.toList ∧
      ∃ d, compile source = .error (.refused d) ∧ d.phase = .lexical) ∨
    (Splits source.toList ∧ ¬ IsSentence source ∧
      ∃ d, compile source = .error (.refused d) ∧ d.phase = .syntactic) ∨
    (Splits source.toList ∧ IsSentence source ∧ ∃ asm, compile source = .ok asm) := by
  cases htokens : tokenize source with
  | error fault =>
    refine .inl ⟨fun hsplits => ?_, _, compile_of_fault htokens, rfl⟩
    obtain ⟨tokens, hok⟩ := exists_tokenize_iff_splits.2 hsplits
    rw [htokens] at hok
    cases hok
  | ok tokens =>
    have hsplits := exists_tokenize_iff_splits.1 ⟨tokens, htokens⟩
    have hsentence := exists_parse_iff_isSentence htokens
    have hcompile := compile_of_tokenize htokens
    rcases parse_of_readable (readable_of_tokenize htokens) with ⟨a, ha⟩ | ⟨fault, hfault⟩
    · rw [ha] at hcompile
      exact .inr (.inr ⟨hsplits, hsentence.1 ⟨a, ha⟩, _, hcompile⟩)
    · rw [hfault] at hcompile
      refine .inr (.inl ⟨hsplits, fun h => ?_, _, hcompile, rfl⟩)
      obtain ⟨a, ha⟩ := hsentence.2 h
      rw [hfault] at ha
      cases ha

/-! ## Command lines -/

namespace Command

theorem run_of_length_eq_two (program source : String) :
    run [program, source] = compile source := rfl

theorem run_of_length_ne_two {commandLine : List String} (h : commandLine.length ≠ 2) :
    run commandLine = .error (.usage (commandLine.head?.getD defaultProgram)) := by
  unfold run compilation
  split
  · exact absurd rfl h
  · rfl

/-- A command gives no other listings than the whole listing of the tree of its text. -/
theorem exists_tree_of_run {commandLine : List String} {asm : String}
    (h : run commandLine = .ok asm) : ∃ program source e,
      commandLine = [program, source] ∧ Expr.ofSource source = .ok e ∧
        asm = Asm.listing e.code := by
  by_cases hlength : commandLine.length = 2
  · obtain ⟨program, source, rfl⟩ := List.length_eq_two.1 hlength
    rw [run_of_length_eq_two, compile_eq] at h
    cases he : Expr.ofSource source with
    | error error =>
      rw [he] at h
      cases h
    | ok e =>
      rw [he] at h
      exact ⟨program, source, e, rfl, he, (Except.ok.inj h).symm⟩
  · rw [run_of_length_ne_two hlength] at h
    cases h

/-- No event is as severe as a warning. -/
theorem not_admits_severity (event : Event) : defaultFilter.admits event.severity = false := by
  cases event <;> rfl

theorem write_defaultFilter (line : Event → String) (events : List Event) :
    defaultFilter.write line events = "" := by
  have hnone : events.filter (defaultFilter.admits ·.severity) = [] := by
    refine List.filter_eq_nil_iff.2 ?_
    intro event _
    simp [not_admits_severity event]
  rw [LogFilter.write, hnone]
  rfl

/-- However the log is written, nothing of it is shown. -/
theorem execute_eq (commandLine : List String) (line : Event → String) :
    execute commandLine line =
      match run commandLine with
      | .ok listing => ⟨listing, "", 0⟩
      | .error error => ⟨"", error.render ++ "\n", 1⟩ := by
  unfold execute
  simp only [write_defaultFilter, String.empty_append]
  rfl

/-- What a command line gives is decided by the number of its arguments, then by the lexical
validity of the whole text, then by its grammar and its size. A command that succeeds writes the
whole listing and nothing else; one that fails writes the error and nothing else, and neither shows
anything of the log, however that would be written. -/
theorem outcome_classified (commandLine : List String) :
    ((∃ program, run commandLine = .error (.usage program)) ↔ commandLine.length ≠ 2) ∧
    (∀ program source, commandLine = [program, source] →
      ((∃ d, run commandLine = .error (.refused d) ∧ d.phase = .lexical) ↔
        ¬ Splits source.toList) ∧
      ((∃ d, run commandLine = .error (.refused d) ∧ d.phase = .syntactic) ↔
        Splits source.toList ∧ ¬ IsSentence source) ∧
      ((∃ asm, run commandLine = .ok asm) ↔ Splits source.toList ∧ IsSentence source)) ∧
    (∀ asm, run commandLine = .ok asm →
      (∃ program source e, commandLine = [program, source] ∧ Expr.ofSource source = .ok e ∧
        asm = Asm.listing e.code) ∧
      ∀ line, execute commandLine line = ⟨asm, "", 0⟩) ∧
    ∀ error, run commandLine = .error error →
      ∀ line, execute commandLine line = ⟨"", error.render ++ "\n", 1⟩ := by
  refine ⟨⟨?_, ?_⟩, ?_, ?_, ?_⟩
  · rintro ⟨program, h⟩ hlength
    obtain ⟨first, source, rfl⟩ := List.length_eq_two.1 hlength
    rw [run_of_length_eq_two] at h
    rcases compile_cases source with ⟨-, d, hd, -⟩ | ⟨-, -, d, hd, -⟩ | ⟨-, -, asm, hasm⟩
    · rw [hd] at h
      cases h
    · rw [hd] at h
      cases h
    · rw [hasm] at h
      cases h
  · intro hlength
    exact ⟨_, run_of_length_ne_two hlength⟩
  · rintro program source rfl
    rw [run_of_length_eq_two]
    rcases compile_cases source with
      ⟨hs, d, hd, hphase⟩ | ⟨hs, hn, d, hd, hphase⟩ | ⟨hs, hn, asm, hasm⟩
    · simp [hs, hd, hphase]
    · simp [hs, hn, hd, hphase]
    · simp [hs, hn, hasm]
  · intro asm h
    refine ⟨exists_tree_of_run h, fun line => ?_⟩
    rw [execute_eq, h]
  · intro error h line
    rw [execute_eq, h]

end Command

end ExprCompiler
