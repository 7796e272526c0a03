import ExprCompiler.Compile
import ExprCompiler.Proofs.Lexing
import ExprCompiler.Proofs.Refusal

/-!
# Syntax errors are reported at the first place possible

Limits on the size of an expression apart, a source text is refused by `parse` at the first token
that no sentence continues with: the tokens before it are the beginning of a sentence, with it they
are not. What the message asks for depends on the tokens before it alone.
-/

namespace ExprCompiler

open Terminal Frontier

variable {source : String}

/-- The message about a token with the text `got` after the terminals `w`. -/
def detailAfter (w : List Terminal) (got : String) : String :=
  if w.getLast?.any Terminal.endsOperand then
    if w.count (ofSymbol .rightParen) < w.count (ofSymbol .leftParen) then
      "expected \")\", but got \"" ++ got ++ "\""
    else
      "unexpected token \"" ++ got ++ "\""
  else
    "expected a number, but got \"" ++ got ++ "\""

/-! ## What the frontier reports -/

theorem Frontier.message_refusal {g : Frontier} {w : List Terminal} (h : start.run w = some g)
    (hw : ∀ x ∈ w, x ≠ .endOfInput) (got : String) :
    (g.refusal got).message = detailAfter w got := by
  obtain ⟨hnothing, hoperator⟩ := due_of_run h hw
  have hopened := opened_of_run h
  rw [detailAfter, refusal]
  have hzero : g.opened = 0 ↔ ¬ w.count (ofSymbol .rightParen) < w.count (ofSymbol .leftParen) := by
    rw [show start.opened = 0 from rfl] at hopened
    omega
  by_cases hends : w.getLast?.any Terminal.endsOperand = true
  · rw [if_pos hends, hoperator.2 hends]
    by_cases hzero' : g.opened = 0
    · simp only [if_pos hzero', if_neg (hzero.1 hzero')]
      rfl
    · have hlt : w.count (ofSymbol .rightParen) < w.count (ofSymbol .leftParen) := by omega
      simp only [if_neg hzero', if_pos hlt]
      rfl
  · rw [if_neg hends]
    cases hdue : g.due with
    | signedOperand | operand => rfl
    | operator => exact absurd (hoperator.1 hdue) hends
    | nothing => exact absurd hdue hnothing

/-! ## The token at fault -/

theorem Refused.exists_stuck {f : Frontier} {tokens : List Token} {offset : Nat}
    {cause : SyntaxCause} (h : Refused source f tokens (.fault ⟨offset, cause⟩))
    (hcause : cause ≠ .nestedTooDeeply) (heof : ∃ t ∈ tokens, t.kind = .eof) :
    ∃ used token rest g got, tokens = used ++ token :: rest ∧ (∀ t ∈ used, t.kind ≠ .eof) ∧
      f.run (used.map (Token.terminal source)) = some g ∧
        g.step (token.terminal source) = none ∧
          Token.describe? source (some token) = some got ∧ offset = token.span.start ∧
            cause = g.refusal got := by
  generalize hfailure : ParseFailure.fault ⟨offset, cause⟩ = failure at h
  induction h with
  | @stuck f token rest got hstep hgot =>
    cases hfailure
    exact ⟨[], token, rest, f, got, rfl, by simp, rfl, hstep, hgot, rfl, rfl⟩
  | ranOut =>
    obtain ⟨t, ht, -⟩ := heof
    simp at ht
  | unreadable hread => cases hfailure
  | tooDeep =>
    cases hfailure
    exact absurd rfl hcause
  | @next f g token rest failure hkind hstep hrest ih =>
    have heof' : ∃ t ∈ rest, t.kind = .eof := by
      obtain ⟨t, ht, hteof⟩ := heof
      rcases List.mem_cons.1 ht with rfl | ht
      · exact absurd hteof hkind
      · exact ⟨t, ht, hteof⟩
    obtain ⟨used, token', rest', g', got, rfl, hused, hrun, hstuck⟩ := ih heof' hfailure
    refine ⟨token :: used, token', rest', g', got, rfl, ?_, ?_, hstuck⟩
    · intro t ht
      rcases List.mem_cons.1 ht with rfl | ht
      · exact hkind
      · exact hused t ht
    · rw [List.map_cons, run_cons, hstep, Option.bind_some, hrun]

theorem exists_fault_of_ofTokens {tokens : List Token} {d : Diagnostic}
    (h : Expr.ofTokens source tokens = .error (.refused d)) :
    ∃ fault, parse source tokens = .error (.fault fault) ∧ d = .ofSyntaxFault source fault := by
  unfold Expr.ofTokens at h
  cases hparse : parse source tokens with
  | ok a => simp [hparse, Except.mapError] at h
  | error failure =>
    rw [hparse] at h
    cases failure with
    | unreadable span => simp [Except.mapError, CompileError.ofParseFailure] at h
    | fault fault =>
      exact ⟨fault, rfl, (CompileError.refused.inj (Except.error.inj h)).symm⟩

/-- The place of a token is a place of the source that a caret can point at. -/
theorem atMost_start_of_tokenize {tokens : List Token} (h : tokenize source = .ok tokens)
    {token : Token} (htoken : token ∈ tokens) :
    (Position.atMost source token.span.start).offset = token.span.start := by
  obtain ⟨text, htext, -⟩ := exists_text?_of_tokenize h token htoken
  obtain ⟨before, after, rfl, hstart, -⟩ := Span.text?_eq_some_iff.1 htext
  rw [String.append_assoc, ← hstart, Position.atMost_append]

/-- A source text whose tokens are refused, not for its size, is refused at the first token that no
sentence continues with. -/
theorem ofTokens_refused_at_first_fault {tokens : List Token}
    (htokens : tokenize source = .ok tokens) {d : Diagnostic}
    (h : Expr.ofTokens source tokens = .error (.refused d))
    (hdetail : d.detail ≠ "expression nested too deeply") :
    d.phase = .syntactic ∧ ∃ k, ∃ hk : k < tokens.length,
      tokens[k].span.start = d.position.offset ∧
      (∀ j, ∀ hj : j < tokens.length, tokens[j].span.start = d.position.offset → j = k) ∧
      Viable ((tokens.take k).map (Token.terminal source)) ∧
      ¬ Viable ((tokens.take (k + 1)).map (Token.terminal source)) ∧
      ∃ got, (tokens[k].kind = .eof ∧ got = "EOF" ∨
          tokens[k].kind ≠ .eof ∧ tokens[k].text? source = some got) ∧
        d.detail = detailAfter ((tokens.take k).map (Token.terminal source)) got := by
  have hcut := tokenize_eq_ok_iff.1 htokens
  obtain ⟨⟨offset, cause⟩, hparse, rfl⟩ := exists_fault_of_ofTokens h
  have hcause : cause ≠ .nestedTooDeeply := by
    rintro rfl
    exact hdetail rfl
  have heof : ∃ t ∈ tokens, t.kind = .eof := by
    obtain ⟨body, size, rfl, -⟩ := hcut.eq_append_endOfInput
    exact ⟨.endOfInput size, by simp, rfl⟩
  obtain ⟨used, token, rest, g, got, rfl, hused, hrun, hstep, hgot, rfl, rfl⟩ :=
    (refused_of_parse hparse).exists_stuck hcause heof
  have hend : ∀ x ∈ used.map (Token.terminal source), x ≠ .endOfInput := by
    intro x hx
    obtain ⟨t, ht, rfl⟩ := List.mem_map.1 hx
    exact fun hterminal => hused t ht (Token.terminal_eq_endOfInput_iff.1 hterminal)
  have hplace : (Position.atMost source token.span.start).offset = token.span.start :=
    atMost_start_of_tokenize htokens (by simp)
  refine ⟨rfl, used.length, by simp, ?_, ?_, ?_, ?_, got, ?_, ?_⟩
  · simpa [Diagnostic.ofSyntaxFault, Diagnostic.pointAt] using hplace.symm
  · intro j hj hstart
    have hsame : (used ++ token :: rest)[j].span.start = token.span.start := hstart.trans hplace
    exact hcut.eq_of_start_eq hj (by simp) (by simpa using hsame)
  · rw [List.take_left]
    exact viable_iff_run.2 ⟨g, hrun⟩
  · rw [List.take_length_add_append]
    rintro hviable
    obtain ⟨g', hg'⟩ := viable_iff_run.1 hviable
    rw [List.map_append, run_append, hrun] at hg'
    simp [hstep] at hg'
  · rw [Token.describe?] at hgot
    split at hgot
    · rename_i hkind
      exact .inl ⟨by simpa using hkind, (Option.some.inj hgot).symm⟩
    · rename_i hkind
      exact .inr ⟨by simpa using hkind, by simpa using hgot⟩
  · rw [List.take_left]
    exact message_refusal hrun hend got

set_option maxRecDepth 4000 in
/-- In `(1 3` the second number is at fault, and it is the parenthesis that is asked for. -/
theorem refused_at_second_number :
    let tokens : List Token := [⟨.punctuator, ⟨0, 1⟩⟩, ⟨.number 1, ⟨1, 1⟩⟩, ⟨.number 3, ⟨3, 1⟩⟩,
      .endOfInput 4]
    tokenize "(1 3" = .ok tokens ∧ ∃ k, ∃ hk : k < tokens.length,
      tokens[k].span.start = 3 ∧
      Viable ((tokens.take k).map (Token.terminal "(1 3")) ∧
      ¬ Viable ((tokens.take (k + 1)).map (Token.terminal "(1 3")) := by
  intro tokens
  have htokens : tokenize "(1 3" = .ok tokens := by cbv
  have hparse : parse "(1 3" tokens = .error (.fault ⟨3, .unclosed "3"⟩) := by cbv
  have h : Expr.ofTokens "(1 3" tokens =
      .error (.refused (.ofSyntaxFault "(1 3" ⟨3, .unclosed "3"⟩)) := by
    rw [Expr.ofTokens, hparse]
    rfl
  obtain ⟨-, k, hk, hplace, -, hviable, hstuck, -⟩ :=
    ofTokens_refused_at_first_fault htokens h (by decide)
  exact ⟨htokens, k, hk, hplace, hviable, hstuck⟩

end ExprCompiler
