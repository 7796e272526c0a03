import ExprCompiler.Proofs.LexicalErrorPlace

/-!
# Texts with blanks between them

Two texts with blanks between them are cut by `tokenize` one after the other. The blanks keep apart
what might otherwise grow together over the seam, digits or two equals signs
(`Lexeme.read_append_blank`), and the lexer knows nothing of where a text starts, so what it finds
in the second text moves by the bytes that stand before it (`Scan.scanFrom_add`).

The first fault is the fault of the whole. A scan that stops in the first text stops as if nothing
followed (`Scan.scanFrom_append_of_fault`), and one that gets through the first text goes on as a
scan of the second (`scan_append_of_ok`).
-/

namespace ExprCompiler

/-- The token as it stands with `n` more bytes before it. -/
def Token.after (n : Nat) (token : Token) : Token :=
  ⟨token.kind, ⟨n + token.span.start, token.span.length⟩⟩

/-- The fault as it is found with `n` more bytes before it. -/
def LexicalFault.after (n : Nat) (fault : LexicalFault) : LexicalFault :=
  ⟨n + fault.offset, fault.cause⟩

/-- What is found with `n` more bytes before it. -/
def Scan.after (n : Nat) (s : Scan) : Scan :=
  ⟨s.tokens.map (Token.after n), s.fault?.map (LexicalFault.after n)⟩

/-! ## In front of a blank -/

section Blank

variable {d : Char} (hd : d ∈ blanks)

include hd

theorem ne_equals_of_mem_blanks : d ≠ '=' := by
  rintro rfl
  exact absurd hd (by decide)

theorem apart_blank (before after : List Char) : Apart before (d :: after) := by
  intro c _ e he _
  obtain rfl : d = e := by simpa using he
  exact isDigit_eq_false_of_mem_blanks hd

/-- Where no digit comes next, none does with a blank put behind. -/
theorem head_not_digit_append_blank {rest : List Char}
    (h : ∀ e ∈ rest.head?, e.isDigit = false) (after : List Char) :
    ∀ e ∈ (rest ++ d :: after).head?, e.isDigit = false := by
  intro e he
  cases rest with
  | nil =>
    obtain rfl : d = e := by simpa using he
    exact isDigit_eq_false_of_mem_blanks hd
  | cons f rest => exact h e he

theorem StartsNothing.append_blank {c : Char} {rest : List Char} (h : StartsNothing c rest)
    (after : List Char) : StartsNothing c (rest ++ d :: after) := by
  refine ⟨h.not_blank, h.not_symbol, h.not_digit, ?_⟩
  rintro ⟨rfl, hhead⟩
  cases rest with
  | nil => exact ne_equals_of_mem_blanks hd (by simpa using hhead)
  | cons f rest => exact h.not_equality ⟨rfl, hhead⟩

theorem StartsHugeNumber.append_blank {text : List Char} (h : StartsHugeNumber text)
    (after : List Char) : StartsHugeNumber (text ++ d :: after) := by
  obtain ⟨digits, rest, rfl, hne, hdigits, hmax, hvalue⟩ := h
  refine ⟨digits, rest ++ d :: after, ?_, hne, hdigits, ?_, hvalue⟩
  · rw [List.append_assoc]
  · exact head_not_digit_append_blank hd hmax after

/-- A blank behind a text changes neither what the text starts with nor what is wrong there. -/
theorem Lexeme.read_append_blank {c : Char} (hc : c ∉ blanks) (rest after : List Char) :
    Lexeme.read c (rest ++ d :: after) =
      (Lexeme.read c rest).map fun lexeme =>
        { lexeme with rest := lexeme.rest ++ d :: after } := by
  cases hread : Lexeme.read c rest with
  | ok lexeme =>
    obtain ⟨text, hcs, htext, hlength, hmax⟩ := Lexeme.read_eq_ok_iff.1 hread
    refine Lexeme.read_eq_ok_iff.2 ⟨text, ?_, htext, hlength, fun hkind => ?_⟩
    · rw [← List.cons_append, hcs, List.append_assoc]
    · exact head_not_digit_append_blank hd (hmax hkind) after
  | error cause =>
    refine (Lexeme.read_eq_error_iff hc).2 ?_
    rcases (Lexeme.read_eq_error_iff hc).1 hread with ⟨hnothing, hcause⟩ | ⟨hhuge, hcause⟩
    · exact .inl ⟨hnothing.append_blank hd after, hcause⟩
    · exact .inr ⟨hhuge.append_blank hd after, hcause⟩

end Blank

/-! ## Scans -/

namespace Scan

/-- A scan finds the same wherever it starts. -/
theorem scanFrom_add (n offset : Nat) (done : List Token) (cs : List Char) :
    scanFrom (n + offset) (done.map (Token.after n)) cs = (scanFrom offset done cs).after n := by
  fun_induction scanFrom offset done cs with
  | case1 offset done => simp [after, Token.after, Token.endOfInput]
  | case2 offset done c rest hc ih => rw [scanFrom_blank hc, Nat.add_assoc, ih]
  | case3 offset done c rest hc lexeme hread ih =>
    rw [scanFrom_lexeme hc hread, Nat.add_assoc]
    exact ih
  | case4 offset done c rest hc cause hread =>
    rw [scanFrom_fault hc hread]
    simp [after, LexicalFault.after]

/-- A scan that stops in a text stops there too if a blank and more follow. -/
theorem scanFrom_append_of_fault {offset : Nat} {done : List Token} {cs : List Char}
    (h : (scanFrom offset done cs).fault? ≠ none) {d : Char} (hd : d ∈ blanks)
    (after : List Char) :
    scanFrom offset done (cs ++ d :: after) = scanFrom offset done cs := by
  fun_induction scanFrom offset done cs with
  | case1 => exact absurd rfl h
  | case2 offset done c rest hc ih =>
    rw [List.cons_append, scanFrom_blank hc]
    exact ih h
  | case3 offset done c rest hc lexeme hread ih =>
    have hsame := Lexeme.read_append_blank hd (mt isBlank_iff.2 hc) rest after
    rw [hread] at hsame
    rw [List.cons_append, scanFrom_lexeme hc hsame]
    exact ih h
  | case4 offset done c rest hc cause hread =>
    have hsame := Lexeme.read_append_blank hd (mt isBlank_iff.2 hc) rest after
    rw [hread] at hsame
    rw [List.cons_append, scanFrom_fault hc hsame]

end Scan

section Separated

variable {a w b : String} (hw : w ≠ "") (hblank : ∀ c ∈ w.toList, c ∈ blanks)

include hw in
/-- The text in the middle starts with one of its characters. -/
theorem exists_toList_eq_cons : ∃ d rest, w.toList = d :: rest := by
  refine List.exists_cons_of_ne_nil fun hnil => hw ?_
  exact String.toList_eq_nil_iff.1 hnil

include hw hblank

/-- A fault in the first text is all that is found. -/
theorem scan_append_of_error {fault : LexicalFault} (ha : tokenize a = .error fault) :
    scan (a ++ w ++ b) = scan a := by
  obtain ⟨d, rest, hcons⟩ := exists_toList_eq_cons hw
  have hd : d ∈ blanks := hblank d (by simp [hcons])
  have hfault : (scan a).fault? ≠ none := by
    intro hnone
    rw [tokenize, Scan.result, hnone] at ha
    cases ha
  have happend : (a ++ w ++ b).toList = a.toList ++ d :: (rest ++ b.toList) := by
    simp [hcons]
  rw [scan, happend]
  exact Scan.scanFrom_append_of_fault hfault hd _

/-- If the first text can be cut, the second is scanned as if it stood alone, only further on. -/
theorem scan_append_of_ok {body : List Token} {size : Nat}
    (ha : tokenize a = .ok (body ++ [.endOfInput size])) :
    scan (a ++ w ++ b) =
      ⟨body ++ ((scan b).after (a.utf8ByteSize + w.utf8ByteSize)).tokens,
        ((scan b).after (a.utf8ByteSize + w.utf8ByteSize)).fault?⟩ := by
  obtain ⟨d, rest, hcons⟩ := exists_toList_eq_cons hw
  have hd : d ∈ blanks := hblank d (by simp [hcons])
  have hcut := tokenize_eq_ok_iff.1 ha
  have hasize : a.utf8ByteSize = a.toList.length := utf8ByteSize_eq_length hcut.utf8Size
  have hwsize : w.utf8ByteSize = w.toList.length :=
    utf8ByteSize_eq_length fun c hc => utf8Size_of_mem_blanks (hblank c hc)
  have hapart : Apart a.toList (w.toList ++ b.toList) := by
    rw [hcons]
    exact apart_blank hd _ _
  -- the scan gets through the first text, then over the blanks, and starts on the second
  have hthrough := Scan.scanFrom_append_of_cut hcut hapart []
  rw [List.append_nil, Nat.zero_add, Scan.scanFrom_gap hblank, ← hasize, ← hwsize] at hthrough
  have hsecond := Scan.scanFrom_add (a.utf8ByteSize + w.utf8ByteSize) 0 [] b.toList
  have hearlier := Scan.scanFrom_append (a.utf8ByteSize + w.utf8ByteSize) [] body.reverse b.toList
  rw [List.nil_append, List.reverse_reverse] at hearlier
  rw [Nat.add_zero, List.map_nil] at hsecond
  have htext : (a ++ w ++ b).toList = a.toList ++ (w.toList ++ b.toList) := by simp
  rw [scan, htext, hthrough, hearlier, hsecond]
  rfl

theorem tokenize_append_of_error {fault : LexicalFault} (ha : tokenize a = .error fault) :
    tokenize (a ++ w ++ b) = .error fault := by
  rw [← ha, tokenize, scan_append_of_error hw hblank ha]
  rfl

theorem tokenize_append_of_ok {tokens : List Token} (ha : tokenize a = .ok tokens) :
    tokenize (a ++ w ++ b) =
      match tokenize b with
      | .ok tokens' => .ok (tokens.filter (·.kind ≠ .eof) ++
          tokens'.map (Token.after (a.utf8ByteSize + w.utf8ByteSize)))
      | .error fault => .error (fault.after (a.utf8ByteSize + w.utf8ByteSize)) := by
  obtain ⟨body, size, rfl, -⟩ := (tokenize_eq_ok_iff.1 ha).eq_append_endOfInput
  have hscan := scan_append_of_ok hw hblank ha (b := b)
  rw [filter_kind_of_tokenize ha]
  unfold tokenize Scan.result
  rw [hscan]
  cases hfault : (scan b).fault? with
  | none => simp [Scan.after, hfault]
  | some fault => simp [Scan.after, hfault]

end Separated

/-! ## What is reported -/

/-- The lexer refuses the text at a byte offset, with a message. -/
def LexicallyRefused (source : String) (offset : Nat) (detail : String) : Prop :=
  ∃ d : Diagnostic,
    (tokenize source).mapError (CompileError.ofLexicalFault source) = .error (.refused d) ∧
      d.phase = .lexical ∧ d.position.offset = offset ∧ d.detail = detail

theorem lexicallyRefused_of_tokenize {source : String} {fault : LexicalFault}
    (h : tokenize source = .error fault) :
    LexicallyRefused source fault.offset fault.cause.message := by
  refine ⟨.ofLexicalFault source fault, ?_, rfl, atMost_fault_offset h, rfl⟩
  rw [h]
  rfl

/-- The lexer takes texts with blanks between them one by one. If both can be cut, the tokens of the
whole are those of the first text without the end of the input, and those of the second moved by the
bytes before it. If the first cannot be cut, the whole is refused as the first is; if only the
second cannot, the whole is refused as the second is, at the place to which that has moved. -/
theorem tokenize_separated (a w b : String) (hw : w ≠ "") (hblank : ∀ c ∈ w.toList, c ∈ blanks) :
    (∀ tokens tokens', tokenize a = .ok tokens → tokenize b = .ok tokens' →
      tokenize (a ++ w ++ b) = .ok (tokens.filter (·.kind ≠ .eof) ++
        tokens'.map (Token.after (a.utf8ByteSize + w.utf8ByteSize)))) ∧
    (∀ fault, tokenize a = .error fault →
      LexicallyRefused a fault.offset fault.cause.message ∧
        LexicallyRefused (a ++ w ++ b) fault.offset fault.cause.message) ∧
    ∀ tokens fault, tokenize a = .ok tokens → tokenize b = .error fault →
      LexicallyRefused b fault.offset fault.cause.message ∧
        LexicallyRefused (a ++ w ++ b) (a.utf8ByteSize + w.utf8ByteSize + fault.offset)
          fault.cause.message := by
  refine ⟨?_, ?_, ?_⟩
  · intro tokens tokens' ha hb
    have hjoined := tokenize_append_of_ok hw hblank ha (b := b)
    rwa [hb] at hjoined
  · intro fault ha
    have hjoined := tokenize_append_of_error hw hblank ha (b := b)
    exact ⟨lexicallyRefused_of_tokenize ha, lexicallyRefused_of_tokenize hjoined⟩
  · intro tokens fault ha hb
    have hjoined := tokenize_append_of_ok hw hblank ha (b := b)
    rw [hb] at hjoined
    exact ⟨lexicallyRefused_of_tokenize hb, lexicallyRefused_of_tokenize hjoined⟩

/-- A blank keeps apart two numbers, and two equals signs, the first of which is then refused. A
character of two bytes in the second text is refused at the place to which it has moved. -/
theorem tokenize_separated_by_tab :
    ("\t" ≠ "" ∧ ∀ c ∈ "\t".toList, c ∈ blanks) ∧
      tokenize ("1" ++ "\t" ++ "2") =
        .ok [⟨.number 1, ⟨0, 1⟩⟩, ⟨.number 2, ⟨2, 1⟩⟩, .endOfInput 3] ∧
      LexicallyRefused ("1=" ++ "\t" ++ "=é") 1 "invalid token: '='" ∧
      LexicallyRefused ("1" ++ "\t" ++ "+é") 3 "invalid token: 'é'" := by
  have hne : "\t" ≠ "" := by decide
  have hblank : ∀ c ∈ "\t".toList, c ∈ blanks := by simp [blanks]
  have hone : tokenize "1" = .ok [⟨.number 1, ⟨0, 1⟩⟩, .endOfInput 1] := by cbv
  have htwo : tokenize "2" = .ok [⟨.number 2, ⟨0, 1⟩⟩, .endOfInput 1] := by cbv
  have hequals : tokenize "1=" = .error ⟨1, .invalidCharacter '='⟩ := by cbv
  have hletter : tokenize "+é" = .error ⟨1, .invalidCharacter 'é'⟩ := by cbv
  refine ⟨⟨hne, hblank⟩, ?_, ?_, ?_⟩
  · exact (tokenize_separated "1" "\t" "2" hne hblank).1 _ _ hone htwo
  · exact ((tokenize_separated "1=" "\t" "=é" hne hblank).2.1 _ hequals).2
  · exact ((tokenize_separated "1" "\t" "+é" hne hblank).2.2 _ _ hone hletter).2

end ExprCompiler
