import ExprCompiler.Proofs.FirstFault

/-!
# Where the lexer stops

A scan, the loop of `tokenize`, that does not reach the end of the text has cut everything before
the place where it stops. `LexicalStop` is that division of the text: a part that is cut into
tokens, and after it a character that is no blank and at which no lexeme starts. The part before the
fault is a text that the lexer accepts (`tokenize_before_fault`), and all of it is ASCII, so the
fault is at a place of the source that a caret can point at (`atMost_fault_offset`).
-/

namespace ExprCompiler

/-- The text `cs` that starts at byte `offset` is cut into `tokens` up to the fault, where it goes
on with a character that neither is a blank nor starts a lexeme. -/
def LexicalStop (offset : Nat) (cs : List Char) (tokens : List Token) (fault : LexicalFault) :
    Prop :=
  ∃ before c rest, cs = before ++ c :: rest ∧ fault.offset = offset + before.length ∧
    Cut offset before (tokens ++ [.endOfInput fault.offset]) ∧ c ∉ blanks ∧
      Lexeme.read c rest = .error fault.cause

namespace LexicalStop

variable {offset : Nat} {cs : List Char} {tokens : List Token} {fault : LexicalFault}

theorem blank {c : Char} (hc : c ∈ blanks) (h : LexicalStop (offset + 1) cs tokens fault) :
    LexicalStop offset (c :: cs) tokens fault := by
  obtain ⟨before, d, rest, rfl, hoffset, hcut, hd, hread⟩ := h
  refine ⟨c :: before, d, rest, rfl, ?_, hcut.blank hc, hd, hread⟩
  rw [hoffset, List.length_cons]
  omega

theorem lexeme {c : Char} {lexeme : Lexeme} (hread : Lexeme.read c cs = .ok lexeme)
    (h : LexicalStop (offset + lexeme.length) lexeme.rest tokens fault) :
    LexicalStop offset (c :: cs) (lexeme.tokenAt offset :: tokens) fault := by
  obtain ⟨text, hcs, htext, hlength, hmax⟩ := Lexeme.read_eq_ok_iff.1 hread
  obtain ⟨before, d, rest, hrest, hoffset, hcut, hd, hfault⟩ := h
  -- a number that no digit follows in the whole text is followed by none in a part of it
  have hmax' : lexeme.kind ≠ .punctuator → ∀ e ∈ before.head?, e.isDigit = false := by
    intro hkind e he
    refine hmax hkind e ?_
    rw [hrest, List.head?_append, Option.mem_def.1 he]
    rfl
  refine ⟨text ++ before, d, rest, ?_, ?_, ?_, hd, hfault⟩
  · rw [hcs, hrest, List.append_assoc]
  · rw [hoffset, hlength, List.length_append]
    omega
  · rw [hlength] at hcut
    have hwhole := Cut.lexeme isGap_nil htext hmax' hcut
    simpa [Lexeme.tokenAt, hlength] using hwhole

end LexicalStop

/-- A scan that finds a fault has found the tokens before it. -/
theorem Scan.exists_lexicalStop {offset : Nat} {done : List Token} {cs : List Char}
    {fault : LexicalFault} (h : (scanFrom offset done cs).fault? = some fault) :
    ∃ tokens, (scanFrom offset done cs).tokens = done.reverse ++ tokens ∧
      LexicalStop offset cs tokens fault := by
  fun_induction scanFrom offset done cs with
  | case1 => simp at h
  | case2 offset done c rest hc ih =>
    obtain ⟨tokens, htokens, hstop⟩ := ih h
    exact ⟨tokens, htokens, hstop.blank (isBlank_iff.1 hc)⟩
  | case3 offset done c rest hc lexeme hread ih =>
    obtain ⟨tokens, htokens, hstop⟩ := ih h
    exact ⟨lexeme.tokenAt offset :: tokens, by simpa using htokens, hstop.lexeme hread⟩
  | case4 offset done c rest hc cause hread =>
    obtain rfl := Option.some.inj h
    refine ⟨[], by simp, [], c, rest, rfl, by simp, @Cut.finish offset [] isGap_nil, ?_, hread⟩
    rwa [isBlank_iff] at hc

section Fault

variable {source : String} {fault : LexicalFault}

theorem lexicalStop_of_tokenize (h : tokenize source = .error fault) :
    LexicalStop 0 source.toList (scan source).tokens fault := by
  unfold tokenize Scan.result at h
  split at h
  · cases h
  · rename_i found hfault
    obtain rfl := Except.error.inj h
    obtain ⟨tokens, htokens, hstop⟩ := Scan.exists_lexicalStop hfault
    have heq : (scan source).tokens = tokens := htokens
    rwa [heq]

/-- The text before a fault is cut into the tokens that were found before the fault. -/
theorem tokenize_before_fault (h : tokenize source = .error fault) :
    ∃ before after, source = before ++ after ∧ before.utf8ByteSize = fault.offset ∧
      tokenize before = .ok ((scan source).tokens ++ [.endOfInput fault.offset]) := by
  obtain ⟨before, c, rest, hsource, hoffset, hcut, -⟩ := lexicalStop_of_tokenize h
  refine ⟨String.ofList before, String.ofList (c :: rest), ?_, ?_, ?_⟩
  · apply String.toList_inj.1
    rw [String.toList_append, String.toList_ofList, String.toList_ofList, hsource]
  · rw [utf8ByteSize_ofList_eq_length hcut.utf8Size, hoffset, Nat.zero_add]
  · rw [tokenize_eq_ok_iff, String.toList_ofList]
    exact hcut

theorem atMost_fault_offset (h : tokenize source = .error fault) :
    (Position.atMost source fault.offset).offset = fault.offset := by
  obtain ⟨before, after, rfl, hsize, -⟩ := tokenize_before_fault h
  rw [← hsize, Position.atMost_append]

end Fault

end ExprCompiler
