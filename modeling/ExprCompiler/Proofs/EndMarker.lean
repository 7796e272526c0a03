import ExprCompiler.Proofs.CaretPlace
import ExprCompiler.Proofs.FirstFault
import ExprCompiler.Proofs.InStep

/-!
# Where the tokens end

The lexer puts the end of the input after the last token, but a parser can be given tokens without
it, or with more after it. To the parsers both are an end: the tokens run out, or the end of the
input is next (`EndsAt`), which is what `parse` asks for with `is_eof`. No parser moves past an end,
and so two lists of tokens that differ only in what comes from the end on are parsed alike
(`parse_append_ends`). What is reported about a missing number says which end was found, and tokens
that run out are no complete expression; nothing else tells the two ends apart.
-/

namespace ExprCompiler

open ExprCompiler.Parser
open ParseFailure (refuse)

/-! ## Two ends -/

/-- The failures are the same, or a number is due at either end. -/
inductive SameButForEnd (offset : Nat) (one other : List Token) :
    ParseFailure → ParseFailure → Prop where
  | same (failure : ParseFailure) : SameButForEnd offset one other failure failure
  | numberDue : SameButForEnd offset one other (.fault ⟨offset, reportAtEnd one⟩)
      (.fault ⟨offset, reportAtEnd other⟩)

section TwoEnds

variable {source : String} {offset : Nat} {one other : List Token}
  (hone : EndsAt source offset one) (hother : EndsAt source offset other)

/-- Two parses of the same tokens, which end one way or the other. -/
def twoEnds : Comparison where
  source := source
  source' := source
  Failed := SameButForEnd offset one other
  Ended tail tail' := tail = one ∧ tail' = other
  reported := by
    rintro _ _ ⟨rfl, rfl⟩
    exact ⟨offset, offset, hone, hother, .same _, .numberDue⟩

theorem goOnAlike_append (tokens : List Token) :
    (twoEnds hone hother).GoOnAlike (tokens ++ one) (tokens ++ other) := by
  induction tokens with
  | nil => exact .ends ⟨rfl, rfl⟩
  | cons token rest ih =>
    exact .cons ⟨rfl, fun _ => rfl, rfl, .same _, fun _ => .same _⟩ ih

include hone hother

/-- Two lists of tokens that differ only in their ends are parsed alike. -/
theorem parse_append_ends (tokens : List Token) :
    InStep (SameButForEnd offset one other) Eq (parse source (tokens ++ one))
        (parse source (tokens ++ other)) ∨
      ∃ tree, parse source (tokens ++ one) = finish source tree one ∧
        parse source (tokens ++ other) = finish source tree other := by
  rcases Comparison.parse_inStep (goOnAlike_append hone hother tokens) with
    hparse | ⟨tree, _, _, ⟨rfl, rfl⟩, hboth⟩
  · exact .inl hparse
  · exact .inr ⟨tree, hboth⟩

end TwoEnds

/-! ## What follows the end, and no end -/

section NoEnd

variable {source : String} {tokens : List Token} {e : Token}

theorem parse_append_cons (tokens : List Token) (he : e.kind = .eof) (rest : List Token) :
    parse source (tokens ++ e :: rest) = parse source (tokens ++ [e]) := by
  have hone : EndsAt source e.span.start (e :: rest) := ⟨he, rfl⟩
  have hother : EndsAt source e.span.start [e] := ⟨he, rfl⟩
  rcases parse_append_ends hone hother tokens with hboth | ⟨tree, htree, htree'⟩
  · generalize parse source (tokens ++ e :: rest) = x at hboth ⊢
    generalize parse source (tokens ++ [e]) = x' at hboth ⊢
    -- at both ends the end of the input is named
    cases hboth with
    | ok h => rw [h]
    | error hfailed =>
      cases hfailed with
      | same => rfl
      | numberDue => rfl
  · rw [htree, htree']
    rfl

theorem parse_ne_ok_of_no_end (hfree : ∀ t ∈ tokens, t.kind ≠ .eof) (a : Expr) :
    parse source tokens ≠ .ok a := by
  intro h
  obtain ⟨used, token, rest, s, rfl, heof, -⟩ := exists_phrase_of_parse h
  exact hfree token (by simp) heof

/-- Without the end of the input the same comes out, but for the two reports about it. -/
theorem parse_without_end (hfree : ∀ t ∈ tokens, t.kind ≠ .eof) (he : e.kind = .eof)
    (hstart : e.span.start = source.utf8ByteSize) :
    (∃ failure, parse source (tokens ++ [e]) = .error failure ∧
      parse source tokens = .error failure) ∨
    (parse source (tokens ++ [e]) = refuse source.utf8ByteSize (.expectedNumber Token.endName) ∧
      parse source tokens = refuse source.utf8ByteSize .numberMissing) ∨
    ∃ a, parse source (tokens ++ [e]) = .ok a ∧
      parse source tokens = refuse source.utf8ByteSize .endMissing := by
  have hone : EndsAt source source.utf8ByteSize [e] := ⟨he, hstart⟩
  have hother : EndsAt source source.utf8ByteSize [] := rfl
  have hboth := parse_append_ends hone hother tokens
  rw [List.append_nil] at hboth
  rcases hboth with hstep | ⟨tree, htree, htree'⟩
  · have hne : ∀ a, parse source tokens ≠ .ok a := parse_ne_ok_of_no_end hfree
    generalize parse source (tokens ++ [e]) = x at hstep ⊢
    generalize parse source tokens = x' at hstep hne ⊢
    cases hstep with
    | @ok a a' h => exact absurd rfl (hne a')
    | error hfailed =>
      cases hfailed with
      | same => exact .inl ⟨_, rfl, rfl⟩
      | numberDue => exact .inr (.inl ⟨rfl, rfl⟩)
  · have haccepted : finish source tree [e] = .ok tree.expr := if_pos he
    exact .inr (.inr ⟨tree.expr, htree.trans haccepted, htree'⟩)

end NoEnd

/-! ## The messages -/

section Messages

variable {source : String} {tokens : List Token}

/-- What a text starts with can be read off its beginning. -/
theorem take_of_append_append {start got last text : String} (h : start ++ got ++ last = text) :
    text.toList.take start.toList.length = start.toList := by
  rw [← h, String.toList_append, String.toList_append, List.append_assoc]
  exact List.take_left

theorem eq_expectedNumber_of_message {cause : SyntaxCause}
    (h : cause.message = "expected a number, but got \"EOF\"") :
    cause = .expectedNumber Token.endName := by
  cases cause with
  | expectedNumber got =>
    have hend : SyntaxCause.message (.expectedNumber Token.endName) =
        "expected a number, but got \"EOF\"" := by decide
    have hsame := h.trans hend.symm
    unfold SyntaxCause.message at hsame
    rw [String.append_left_inj, String.append_right_inj] at hsame
    rw [hsame]
  | unclosed got => exact absurd (take_of_append_append h) (by decide)
  | unexpectedToken got => exact absurd (take_of_append_append h) (by decide)
  | numberMissing | endMissing | nestedTooDeeply => exact absurd h (by decide)

/-- The two messages about tokens that run out. -/
def AboutMissingEnd (detail : String) : Prop :=
  detail = "unexpected end of input after expression" ∨
    detail = "expected a number, but reached end of input"

theorem LexicalCause.not_aboutMissingEnd (cause : LexicalCause) :
    ¬ AboutMissingEnd cause.message := by
  cases cause with
  | invalidCharacter c => rintro (h | h) <;> exact absurd (take_of_append_append h) (by decide)
  | numberTooLarge => rintro (h | h) <;> exact absurd h (by decide)

/-- A token that may not come next is reported in one of three ways. -/
theorem Frontier.refusal_cases (f : Frontier) (got : String) :
    f.refusal got = .expectedNumber got ∨ f.refusal got = .unclosed got ∨
      f.refusal got = .unexpectedToken got := by
  unfold refusal
  cases f.due with
  | signedOperand | operand => exact .inl rfl
  | operator | nothing =>
    by_cases hopened : f.opened = 0
    · exact .inr (.inr (if_pos hopened))
    · exact .inr (.inl (if_neg hopened))

theorem Frontier.not_aboutMissingEnd_refusal (f : Frontier) (got : String) :
    ¬ AboutMissingEnd (f.refusal got).message := by
  rcases f.refusal_cases got with hcause | hcause | hcause <;> rw [hcause] <;>
    rintro (h | h) <;> exact absurd (take_of_append_append h) (by decide)

theorem Frontier.refusalAtEnd_ne (f : Frontier) (got : String) :
    f.refusalAtEnd ≠ .expectedNumber got := by
  unfold refusalAtEnd
  cases f.due with
  | signedOperand | operand => simp
  | operator | nothing =>
    by_cases hopened : f.opened = 0
    · simp [hopened]
    · simp [hopened]

/-- What is reported in place of a number is the name of one of the tokens. -/
theorem Refused.exists_named {f : Frontier} {offset : Nat} {got : String}
    (h : Refused source f tokens (.fault ⟨offset, .expectedNumber got⟩)) :
    ∃ t ∈ tokens, t.span.start = offset ∧ Token.describe? source (some t) = some got := by
  generalize hfailure : ParseFailure.fault ⟨offset, .expectedNumber got⟩ = failure at h
  induction h with
  | @stuck f token rest got' hstep hgot =>
    injection hfailure with hfault
    injection hfault with hoffset hcause
    refine ⟨token, List.mem_cons_self, hoffset.symm, ?_⟩
    rcases f.refusal_cases got' with h | h | h
    · rw [h] at hcause
      injection hcause with hname
      rw [hname, hgot]
    · rw [h] at hcause
      cases hcause
    · rw [h] at hcause
      cases hcause
  | @ranOut f =>
    injection hfailure with hfault
    injection hfault with _ hcause
    exact absurd hcause.symm (f.refusalAtEnd_ne got)
  | unreadable hread => cases hfailure
  | tooDeep => cases hfailure
  | @next f g token rest failure hkind hstep hrest ih =>
    obtain ⟨t, ht, hnamed⟩ := ih hfailure
    exact ⟨t, List.mem_cons_of_mem token ht, hnamed⟩

/-- Some other token may be spelled like the name of the end, but then it lies before the end. -/
theorem offset_lt_of_parse (hfree : ∀ t ∈ tokens, t.kind ≠ .eof) {offset : Nat}
    (h : parse source tokens = .error (.fault ⟨offset, .expectedNumber Token.endName⟩)) :
    offset < source.utf8ByteSize := by
  obtain ⟨t, ht, rfl, hname⟩ := (refused_of_parse h).exists_named
  have htext : t.span.text? source = some Token.endName := by
    rw [Token.describe?, if_neg (hfree t ht)] at hname
    exact hname
  obtain ⟨before, after, hsource, hstart, -⟩ := Span.text?_eq_some_iff.1 htext
  have hsize := congrArg String.utf8ByteSize hsource
  have hlength : Token.endName.utf8ByteSize = 3 := by decide
  rw [String.utf8ByteSize_append, String.utf8ByteSize_append] at hsize
  omega

theorem ofTokens_of_parse_eq_error {failure : ParseFailure}
    (h : parse source tokens = .error failure) :
    Expr.ofTokens source tokens = .error (.ofParseFailure source failure) := by
  rw [Expr.ofTokens, h]
  rfl

theorem ofTokens_eq_unreadable_iff {span : Span} :
    Expr.ofTokens source tokens = .error (.unreadable span) ↔
      parse source tokens = .error (.unreadable span) := by
  constructor
  · intro h
    cases hparse : parse source tokens with
    | ok a =>
      rw [Expr.ofTokens_eq_ok_iff.2 hparse] at h
      cases h
    | error failure =>
      rw [ofTokens_of_parse_eq_error hparse] at h
      cases failure with
      | fault fault => cases h
      | unreadable span' => cases h; rfl
  · exact ofTokens_of_parse_eq_error

/-- Tokens among which there is an end do not run out. -/
theorem not_aboutMissingEnd_of_parse {fault : SyntaxFault}
    (h : parse source tokens = .error (.fault fault)) (heof : ∃ t ∈ tokens, t.kind = .eof) :
    ¬ AboutMissingEnd fault.cause.message := by
  by_cases hdeep : fault.cause = .nestedTooDeeply
  · rw [hdeep]
    rintro (hmessage | hmessage) <;> exact absurd hmessage (by decide)
  · obtain ⟨used, token, rest, g, got, -, -, -, -, -, -, hcause⟩ :=
      (refused_of_parse h).exists_stuck hdeep heof
    rw [hcause]
    exact g.not_aboutMissingEnd_refusal got

theorem not_aboutMissingEnd_of_compile {d : Diagnostic}
    (h : compile source = .error (.refused d)) : ¬ AboutMissingEnd d.detail := by
  cases htokens : tokenize source with
  | error fault =>
    rw [compile_of_fault htokens] at h
    cases h
    exact fault.cause.not_aboutMissingEnd
  | ok tokens =>
    have heof : ∃ t ∈ tokens, t.kind = .eof := by
      obtain ⟨body, size, rfl, -⟩ := (tokenize_eq_ok_iff.1 htokens).eq_append_endOfInput
      exact ⟨.endOfInput size, by simp, rfl⟩
    rw [compile_of_tokenize htokens] at h
    rcases parse_of_readable (readable_of_tokenize htokens) with ⟨a, ha⟩ | ⟨fault, hfault⟩
    · rw [ha] at h
      cases h
    · rw [hfault] at h
      cases h
      exact not_aboutMissingEnd_of_parse hfault heof

end Messages

/-- What a diagnostic becomes if the tokens run out at the end of the source: where the end is named
in place of a number, it is no longer there to be named. -/
def Diagnostic.withoutEnd (d : Diagnostic) : Diagnostic :=
  { d with
    detail :=
      if d.detail = "expected a number, but got \"EOF\"" ∧
          d.position.offset = d.source.utf8ByteSize then
        "expected a number, but reached end of input"
      else
        d.detail }

theorem Diagnostic.withoutEnd_eq_self {d : Diagnostic}
    (h : d.detail = "expected a number, but got \"EOF\"" →
      d.position.offset ≠ d.source.utf8ByteSize) : d.withoutEnd = d := by
  unfold withoutEnd
  rw [if_neg fun hend => h hend.1 hend.2]

section WithoutEnd

variable {source : String} {tokens : List Token} {e : Token}
  (hfree : ∀ t ∈ tokens, t.kind ≠ .eof) (he : e.kind = .eof)
  (hstart : e.span.start = source.utf8ByteSize)

include hfree

/-- A diagnostic that does not name the end stays as it is, also if it names a token `EOF`. -/
theorem withoutEnd_of_parse {fault : SyntaxFault}
    (h : parse source tokens = .error (.fault fault)) :
    (Diagnostic.ofSyntaxFault source fault).withoutEnd = .ofSyntaxFault source fault := by
  obtain ⟨offset, cause⟩ := fault
  apply Diagnostic.withoutEnd_eq_self
  intro hdetail
  obtain rfl := eq_expectedNumber_of_message hdetail
  have hlt := offset_lt_of_parse hfree h
  have hle := Position.atMost_offset_le source offset
  show (Position.atMost source offset).offset ≠ source.utf8ByteSize
  omega

include he hstart

theorem ofTokens_of_complete {a : Expr} (h : Expr.ofTokens source (tokens ++ [e]) = .ok a) :
    Expr.ofTokens source tokens = .error (.refused ⟨.syntactic, source,
      ⟨source.utf8ByteSize, source.length⟩, "unexpected end of input after expression"⟩) := by
  rw [Expr.ofTokens_eq_ok_iff] at h
  rcases parse_without_end hfree he hstart with ⟨failure, hfail, -⟩ | ⟨hfail, -⟩ | ⟨a', -, hmissing⟩
  · rw [h] at hfail
    cases hfail
  · rw [h] at hfail
    cases hfail
  · rw [ofTokens_of_parse_eq_error hmissing, ← Position.atMost_utf8ByteSize]
    rfl

theorem ofTokens_of_refused {d : Diagnostic}
    (h : Expr.ofTokens source (tokens ++ [e]) = .error (.refused d)) :
    d.phase = .syntactic ∧ d.source = source ∧
      Expr.ofTokens source tokens = .error (.refused d.withoutEnd) := by
  obtain ⟨fault, hparse, rfl⟩ := exists_fault_of_ofTokens h
  refine ⟨rfl, rfl, ?_⟩
  rcases parse_without_end hfree he hstart with ⟨failure, hfail, hsame⟩ | ⟨hfail, hran⟩ | ⟨a, ha, -⟩
  · obtain rfl := Except.error.inj (hfail.symm.trans hparse)
    rw [withoutEnd_of_parse hfree hsame, ofTokens_of_parse_eq_error hsame]
    rfl
  · obtain rfl : SyntaxFault.mk _ _ = fault :=
      ParseFailure.fault.inj (Except.error.inj (hfail.symm.trans hparse))
    have hplace : (Position.atMost source source.utf8ByteSize).offset = source.utf8ByteSize := by
      rw [Position.atMost_utf8ByteSize]
    rw [ofTokens_of_parse_eq_error hran]
    unfold Diagnostic.withoutEnd
    rw [if_pos ⟨rfl, hplace⟩]
    rfl
  · rw [ha] at hparse
    cases hparse

theorem ofTokens_unreadable_iff (span : Span) :
    Expr.ofTokens source (tokens ++ [e]) = .error (.unreadable span) ↔
      Expr.ofTokens source tokens = .error (.unreadable span) := by
  rw [ofTokens_eq_unreadable_iff, ofTokens_eq_unreadable_iff]
  rcases parse_without_end hfree he hstart with ⟨failure, h, h'⟩ | ⟨h, h'⟩ | ⟨a, h, h'⟩
  · rw [h, h']
  · rw [h, h']
    simp [refuse]
  · rw [h, h']
    simp [refuse]

end WithoutEnd

/-- Tokens are parsed up to the first end of the input: what comes after it makes no difference.
Tokens without one are never an expression. What is reported about them is what is reported if the
end of the source follows, except that a number missing there is said to be missing for lack of
tokens, and that an expression which would be accepted is said to lack its end. A source text is
never refused with one of these two messages. -/
theorem tokens_parsed_to_first_end (source : String) :
    (∀ tokens : List Token, (∀ t ∈ tokens, t.kind ≠ .eof) →
      (∀ (e : Token) (rest : List Token), e.kind = .eof →
        Expr.ofTokens source (tokens ++ [e] ++ rest) = Expr.ofTokens source (tokens ++ [e])) ∧
      (∀ a, Expr.ofTokens source tokens ≠ .ok a) ∧
      ∀ e : Token, e.kind = .eof → e.span.start = source.utf8ByteSize →
        (∀ a, Expr.ofTokens source (tokens ++ [e]) = .ok a →
          Expr.ofTokens source tokens = .error (.refused ⟨.syntactic, source,
            ⟨source.utf8ByteSize, source.length⟩, "unexpected end of input after expression"⟩)) ∧
        (∀ d, Expr.ofTokens source (tokens ++ [e]) = .error (.refused d) →
          d.phase = .syntactic ∧ d.source = source ∧
            Expr.ofTokens source tokens = .error (.refused d.withoutEnd)) ∧
        ∀ span, Expr.ofTokens source (tokens ++ [e]) = .error (.unreadable span) ↔
          Expr.ofTokens source tokens = .error (.unreadable span)) ∧
    ∀ d, compile source = .error (.refused d) →
      d.detail ≠ "unexpected end of input after expression" ∧
        d.detail ≠ "expected a number, but reached end of input" := by
  refine ⟨fun tokens hfree => ⟨?_, ?_, ?_⟩, fun d h => ?_⟩
  · intro e rest he
    rw [Expr.ofTokens, Expr.ofTokens, List.append_assoc, List.singleton_append,
      parse_append_cons tokens he rest]
  · intro a h
    exact parse_ne_ok_of_no_end hfree a (Expr.ofTokens_eq_ok_iff.1 h)
  · intro e he hstart
    exact ⟨fun a => ofTokens_of_complete hfree he hstart,
      fun d => ofTokens_of_refused hfree he hstart, ofTokens_unreadable_iff hfree he hstart⟩
  · have hnone := not_aboutMissingEnd_of_compile h
    exact ⟨fun hdetail => hnone (.inl hdetail), fun hdetail => hnone (.inr hdetail)⟩

set_option maxRecDepth 4000 in
/-- An operand is missing after `1*`, at the end of the input or where there are no more tokens. -/
theorem operand_missing_without_end :
    let tokens : List Token := [⟨.number 1, ⟨0, 1⟩⟩, ⟨.punctuator, ⟨1, 1⟩⟩]
    Expr.ofTokens "1*" (tokens ++ [.endOfInput 2]) = .error (.refused
      ⟨.syntactic, "1*", ⟨2, 2⟩, "expected a number, but got \"EOF\""⟩) ∧
    Expr.ofTokens "1*" tokens = .error (.refused
      ⟨.syntactic, "1*", ⟨2, 2⟩, "expected a number, but reached end of input"⟩) := by
  intro tokens
  have hfree : ∀ t ∈ tokens, t.kind ≠ .eof := by decide
  have hparse : parse "1*" (tokens ++ [.endOfInput 2]) =
      .error (.fault ⟨2, .expectedNumber "EOF"⟩) := by cbv
  have h := ofTokens_of_parse_eq_error hparse
  obtain ⟨-, -, hwithout⟩ :=
    (((tokens_parsed_to_first_end "1*").1 tokens hfree).2.2 (.endOfInput 2) rfl (by decide)).2.1 _ h
  refine ⟨h.trans ?_, hwithout.trans ?_⟩
  · congr 1
  · congr 1

end ExprCompiler
