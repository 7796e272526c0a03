import ExprCompiler.Proofs.Terminal
import ExprCompiler.Token.Lexer
import Mathlib

/-!
# What the lexer finds

`Cut offset cs tokens` cuts the text `cs`, which starts at byte `offset` of the source, into lexemes
with gaps of blanks between them, without saying how the cuts are found. The lexer, `tokenize`,
succeeds exactly on the texts that can be cut (`tokenize_eq_ok_iff`), and its tokens are the
lexemes.

All lexemes and blanks are ASCII, so up to the place where a cut stands characters and bytes are
counted alike, and the span of a token holds the text of its lexeme (`Cut.exists_text?`).
-/

namespace ExprCompiler

/-- The characters that may stand between two lexemes: space, tab, line feed, vertical tab, form
feed and carriage return. -/
def blanks : List Char := [' ', '\t', '\n', '\x0b', '\x0c', '\r']

/-- A run of characters that may stand between two lexemes. -/
def IsGap (gap : List Char) : Prop := ∀ c ∈ gap, c ∈ blanks

/-- `text` is a lexeme of the kind. -/
def Token.Kind.Writes (text : List Char) : Token.Kind → Prop
  | .punctuator => ∃ symbol : Symbol, text = symbol.spelling.toList
  | .number value => text ≠ [] ∧ (∀ c ∈ text, c.isDigit) ∧ Decimal.value text < 2 ^ 63 ∧
      value = Int64.ofNat (Decimal.value text)
  | .eof => False

/-- The text `cs` that starts at byte `offset` is cut into `tokens`. A number is never cut in two:
no digit follows it. -/
inductive Cut : Nat → List Char → List Token → Prop where
  | finish {offset : Nat} {gap : List Char} (hgap : IsGap gap) :
      Cut offset gap [.endOfInput (offset + gap.length)]
  | lexeme {offset : Nat} {gap text rest : List Char} {kind : Token.Kind} {tokens : List Token}
      (hgap : IsGap gap) (htext : kind.Writes text)
      (hmax : kind ≠ .punctuator → ∀ c ∈ rest.head?, c.isDigit = false)
      (hrest : Cut (offset + gap.length + text.length) rest tokens) :
      Cut offset (gap ++ text ++ rest) (⟨kind, ⟨offset + gap.length, text.length⟩⟩ :: tokens)

/-! ## Characters of lexemes and gaps -/

/-- The lexer passes over the blanks and over nothing else. -/
theorem isBlank_iff {c : Char} : isBlank c ↔ c ∈ blanks := by
  simp [isBlank, blanks, or_assoc]

theorem isGap_nil : IsGap [] := by
  simp [IsGap]

theorem isGap_append {u v : List Char} : IsGap (u ++ v) ↔ IsGap u ∧ IsGap v :=
  List.forall_mem_append

theorem utf8ByteSize_ofList_eq_length {text : List Char} (h : ∀ c ∈ text, c.utf8Size = 1) :
    (String.ofList text).utf8ByteSize = text.length := by
  induction text with
  | nil => rfl
  | cons c text ih =>
    rw [String.ofList_cons, String.utf8ByteSize_append, String.utf8ByteSize_singleton,
      h c (by simp), ih fun d hd => h d (by simp [hd]), List.length_cons]
    omega

theorem utf8ByteSize_eq_length {text : String} (h : ∀ c ∈ text.toList, c.utf8Size = 1) :
    text.utf8ByteSize = text.toList.length := by
  rw [← utf8ByteSize_ofList_eq_length h, String.ofList_toList]

theorem utf8Size_of_mem_blanks {c : Char} (h : c ∈ blanks) : c.utf8Size = 1 := by
  simp only [blanks, List.mem_cons, List.not_mem_nil, or_false] at h
  rcases h with rfl | rfl | rfl | rfl | rfl | rfl <;> rfl

theorem utf8Size_of_isDigit {c : Char} (h : c.isDigit) : c.utf8Size = 1 := by
  rw [Char.utf8Size_eq_one_iff, UInt32.le_iff_toNat_le]
  have := (Char.isDigit_iff_toNat.1 h).2
  have hval : '9'.toNat = 57 := rfl
  rw [hval] at this
  exact Nat.le_trans this (by decide)

theorem utf8Size_of_mem_spelling (symbol : Symbol) :
    ∀ c ∈ symbol.spelling.toList, c.utf8Size = 1 := by
  rcases symbol with (_ | _ | _ | _ | _) | _ | _ <;>
    simp [Symbol.spelling, Operator.symbol] <;> decide

theorem Token.Kind.Writes.utf8Size {kind : Token.Kind} {text : List Char} (h : kind.Writes text) :
    ∀ c ∈ text, c.utf8Size = 1 := by
  intro c hc
  cases kind with
  | punctuator =>
    obtain ⟨symbol, rfl⟩ := h
    exact utf8Size_of_mem_spelling symbol c hc
  | number value => exact utf8Size_of_isDigit (h.2.1 c hc)
  | eof => exact h.elim

theorem isDigit_eq_false_of_mem_blanks {c : Char} (h : c ∈ blanks) : c.isDigit = false := by
  simp only [blanks, List.mem_cons, List.not_mem_nil, or_false] at h
  rcases h with rfl | rfl | rfl | rfl | rfl | rfl <;> rfl

theorem not_mem_blanks_of_isDigit {c : Char} (h : c.isDigit) : c ∉ blanks := by
  intro hblank
  rw [isDigit_eq_false_of_mem_blanks hblank] at h
  cases h

theorem exists_spelling_eq_cons (symbol : Symbol) : ∃ c rest,
    symbol.spelling.toList = c :: rest ∧ c ∉ blanks ∧ c.isDigit = false := by
  rcases symbol with (_ | _ | _ | _ | _) | _ | _ <;> exact ⟨_, _, rfl, by decide, by decide⟩

theorem Token.Kind.Writes.exists_eq_cons {kind : Token.Kind} {text : List Char}
    (h : kind.Writes text) : ∃ c rest, text = c :: rest ∧ c ∉ blanks := by
  cases kind with
  | punctuator =>
    obtain ⟨symbol, rfl⟩ := h
    obtain ⟨c, rest, hc, hblank, -⟩ := exists_spelling_eq_cons symbol
    exact ⟨c, rest, hc, hblank⟩
  | number value =>
    obtain ⟨hne, hdigits, -⟩ := h
    obtain ⟨c, rest, rfl⟩ := List.exists_cons_of_ne_nil hne
    exact ⟨c, rest, rfl, not_mem_blanks_of_isDigit (hdigits c (by simp))⟩
  | eof => exact h.elim

/-! ## The lexeme at the start of a text -/

/-- The digits at the start of a text are digits. -/
theorem isDigit_of_mem_run {c : Char} (hc : c.isDigit) (cs : List Char) :
    ∀ d ∈ c :: cs.takeWhile Char.isDigit, d.isDigit := by
  intro d hd
  rcases List.mem_cons.1 hd with rfl | hd
  · exact hc
  · exact List.mem_takeWhile_imp hd

/-- What comes after them starts with no further digit. -/
theorem head_dropWhile_isDigit (cs : List Char) :
    ∀ d ∈ (cs.dropWhile Char.isDigit).head?, d.isDigit = false := by
  intro d hd
  have hstop := List.head?_dropWhile_not Char.isDigit cs
  rw [Option.mem_def.1 hd] at hstop
  simpa using hstop

theorem takeWhile_dropWhile_isDigit {cs : List Char} (h : ∀ d ∈ cs.head?, d.isDigit = false) :
    cs.takeWhile Char.isDigit = [] ∧ cs.dropWhile Char.isDigit = cs := by
  cases cs with
  | nil => exact ⟨rfl, rfl⟩
  | cons d cs => simp [h d rfl]

theorem Symbol.read?_eq_none_of_isDigit {c : Char} (h : c.isDigit) (rest : List Char) :
    Symbol.read? (c :: rest) = none := by
  cases hread : Symbol.read? (c :: rest) with
  | none => rfl
  | some found =>
    obtain ⟨symbol, after⟩ := found
    obtain ⟨d, rest', hd, -, hdigit⟩ := exists_spelling_eq_cons symbol
    have heq := Symbol.read?_eq_some_iff.1 hread
    rw [hd, List.cons_append] at heq
    rw [(List.cons.inj heq).1, hdigit] at h
    exact absurd h (by simp)

theorem utf8ByteSize_spelling (symbol : Symbol) :
    symbol.spelling.utf8ByteSize = symbol.spelling.toList.length := by
  rw [← utf8ByteSize_ofList_eq_length (utf8Size_of_mem_spelling symbol), String.ofList_toList]

theorem Lexeme.exists_writes_of_read {c : Char} {cs : List Char} {lexeme : Lexeme}
    (h : Lexeme.read c cs = .ok lexeme) :
    ∃ text, c :: cs = text ++ lexeme.rest ∧ lexeme.kind.Writes text ∧
      lexeme.length = text.length ∧
        (lexeme.kind ≠ .punctuator → ∀ d ∈ lexeme.rest.head?, d.isDigit = false) := by
  unfold Lexeme.read at h
  split at h
  · rename_i symbol after hread
    obtain rfl := Except.ok.inj h
    exact ⟨symbol.spelling.toList, Symbol.read?_eq_some_iff.1 hread, ⟨symbol, rfl⟩,
      utf8ByteSize_spelling symbol, fun hne => absurd rfl hne⟩
  · split at h
    · rename_i hdigit
      dsimp only at h
      rw [Decimal.readBelow?_eq] at h
      split at h
      · rename_i value hvalue
        obtain rfl := Except.ok.inj h
        obtain ⟨hbound, rfl⟩ := by simpa using hvalue
        refine ⟨c :: cs.takeWhile Char.isDigit, ?_, ⟨by simp, ?_, hbound, rfl⟩, rfl, ?_⟩
        · rw [List.cons_append, List.takeWhile_append_dropWhile]
        · exact isDigit_of_mem_run hdigit cs
        · exact fun _ => head_dropWhile_isDigit cs
      · simp at h
    · simp at h

theorem Lexeme.read_number {c : Char} {digits rest : List Char}
    (hdigits : ∀ d ∈ c :: digits, d.isDigit) (hbound : Decimal.value (c :: digits) < numberBound)
    (hmax : ∀ d ∈ rest.head?, d.isDigit = false) :
    Lexeme.read c (digits ++ rest) =
      .ok ⟨.number (Int64.ofNat (Decimal.value (c :: digits))), (c :: digits).length, rest⟩ := by
  have hc : c.isDigit := hdigits c (by simp)
  have htail : ∀ d ∈ digits, d.isDigit := fun d hd => hdigits d (by simp [hd])
  have hstop := takeWhile_dropWhile_isDigit hmax
  unfold Lexeme.read
  rw [Symbol.read?_eq_none_of_isDigit hc, List.takeWhile_append_of_pos htail,
    List.dropWhile_append_of_pos htail, hstop.1, hstop.2, List.append_nil]
  dsimp only
  rw [if_pos hc, Decimal.readBelow?_eq, if_pos hbound]

/-- A lexeme is read exactly where it is written, a number as far as its digits go. -/
theorem Lexeme.read_eq_ok_iff {c : Char} {cs : List Char} {lexeme : Lexeme} :
    Lexeme.read c cs = .ok lexeme ↔ ∃ text, c :: cs = text ++ lexeme.rest ∧
      lexeme.kind.Writes text ∧ lexeme.length = text.length ∧
        (lexeme.kind ≠ .punctuator → ∀ d ∈ lexeme.rest.head?, d.isDigit = false) := by
  constructor
  · exact exists_writes_of_read
  · rintro ⟨text, hcs, htext, hlength, hmax⟩
    obtain ⟨kind, length, rest⟩ := lexeme
    dsimp only at hcs htext hlength hmax
    subst hlength
    cases kind with
    | punctuator =>
      obtain ⟨symbol, rfl⟩ := htext
      unfold Lexeme.read
      rw [Symbol.read?_eq_some_iff.2 hcs, ← utf8ByteSize_spelling]
    | number value =>
      obtain ⟨hne, hdigits, hbound, rfl⟩ := htext
      obtain ⟨d, digits, rfl⟩ := List.exists_cons_of_ne_nil hne
      obtain ⟨rfl, rfl⟩ := List.cons.inj hcs
      exact read_number hdigits hbound (hmax (by simp))
    | eof => exact htext.elim

/-! ## The lexer -/

theorem Cut.blank {offset : Nat} {c : Char} {cs : List Char} {tokens : List Token}
    (hc : c ∈ blanks) (h : Cut (offset + 1) cs tokens) : Cut offset (c :: cs) tokens := by
  have hcons {gap : List Char} (hgap : IsGap gap) : IsGap (c :: gap) := by
    intro d hd
    rcases List.mem_cons.1 hd with rfl | hd
    · exact hc
    · exact hgap d hd
  have hlength (gap : List Char) : offset + 1 + gap.length = offset + (c :: gap).length := by
    rw [List.length_cons]
    omega
  cases h with
  | finish hgap =>
    rw [hlength]
    exact .finish (hcons hgap)
  | lexeme hgap htext hmax hrest =>
    rw [hlength] at hrest ⊢
    exact .lexeme (hcons hgap) htext hmax hrest

/-- A text that can be cut is ASCII. -/
theorem Cut.utf8Size {offset : Nat} {cs : List Char} {tokens : List Token}
    (h : Cut offset cs tokens) : ∀ c ∈ cs, c.utf8Size = 1 := by
  induction h with
  | finish hgap => exact fun c hc => utf8Size_of_mem_blanks (hgap c hc)
  | lexeme hgap htext hmax hrest ih =>
    intro c hc
    rcases List.mem_append.1 hc with hc | hc
    · rcases List.mem_append.1 hc with hc | hc
      · exact utf8Size_of_mem_blanks (hgap c hc)
      · exact htext.utf8Size c hc
    · exact ih c hc

namespace Scan

theorem scanFrom_gap {gap : List Char} (hgap : IsGap gap) (offset : Nat) (done : List Token)
    (cs : List Char) :
    scanFrom offset done (gap ++ cs) = scanFrom (offset + gap.length) done cs := by
  induction gap generalizing offset with
  | nil => rfl
  | cons c gap ih =>
    have hc : isBlank c := isBlank_iff.2 (hgap c (by simp))
    rw [List.cons_append, scanFrom_blank hc, ih fun d hd => hgap d (by simp [hd]),
      List.length_cons]
    congr 1
    omega

/-- A scan that reaches the end of the text has cut it. -/
theorem exists_cut_of_scanFrom {offset : Nat} {done : List Token} {cs : List Char}
    (h : (scanFrom offset done cs).fault? = none) :
    ∃ tokens, (scanFrom offset done cs).tokens = done.reverse ++ tokens ∧ Cut offset cs tokens := by
  fun_induction scanFrom offset done cs with
  | case1 offset done =>
    exact ⟨[.endOfInput offset], by simp, @Cut.finish offset [] isGap_nil⟩
  | case2 offset done c rest hc ih =>
    obtain ⟨tokens, htokens, hcut⟩ := ih h
    exact ⟨tokens, htokens, hcut.blank (isBlank_iff.1 hc)⟩
  | case3 offset done c rest hc lexeme hread ih =>
    obtain ⟨tokens, htokens, hcut⟩ := ih h
    obtain ⟨text, hcs, htext, hlength, hmax⟩ := Lexeme.read_eq_ok_iff.1 hread
    refine ⟨lexeme.tokenAt offset :: tokens, by simpa using htokens, ?_⟩
    rw [hcs]
    rw [hlength] at hcut
    have := Cut.lexeme isGap_nil htext hmax hcut
    simpa [Lexeme.tokenAt, hlength] using this
  | case4 => simp at h

/-- A text that is cut is scanned to its end, and the cuts are found. -/
theorem scanFrom_of_cut {offset : Nat} {cs : List Char} {tokens : List Token}
    (h : Cut offset cs tokens) (done : List Token) :
    scanFrom offset done cs = ⟨done.reverse ++ tokens, none⟩ := by
  induction h generalizing done with
  | @finish offset gap hgap =>
    have := scanFrom_gap hgap offset done []
    rwa [List.append_nil, scanFrom_nil] at this
  | @lexeme offset gap text rest kind tokens hgap htext hmax hrest ih =>
    obtain ⟨c, text', rfl, hblank⟩ := htext.exists_eq_cons
    have hread : Lexeme.read c (text' ++ rest) = .ok ⟨kind, (c :: text').length, rest⟩ :=
      Lexeme.read_eq_ok_iff.2 ⟨c :: text', rfl, htext, rfl, hmax⟩
    rw [List.append_assoc, scanFrom_gap hgap, List.cons_append,
      scanFrom_lexeme (mt isBlank_iff.1 hblank) hread, ih]
    simp [Lexeme.tokenAt]

end Scan

/-- The lexer succeeds exactly on the texts that can be cut into lexemes. -/
theorem tokenize_eq_ok_iff {source : String} {tokens : List Token} :
    tokenize source = .ok tokens ↔ Cut 0 source.toList tokens := by
  constructor
  · intro h
    unfold tokenize Scan.result at h
    split at h
    · rename_i hfault
      obtain ⟨tokens', htokens', hcut⟩ := Scan.exists_cut_of_scanFrom hfault
      have heq : tokens' = tokens := htokens'.symm.trans (Except.ok.inj h)
      rwa [heq] at hcut
    · simp at h
  · intro h
    unfold tokenize scan
    rw [Scan.scanFrom_of_cut h]
    rfl

/-! ## Where the tokens stand -/

/-- Of two ways to divide a text, the one that comes later goes on where the other stopped. -/
theorem exists_append_of_utf8ByteSize_le {u v p q : String} (h : u ++ v = p ++ q)
    (hle : p.utf8ByteSize ≤ u.utf8ByteSize) : ∃ r, u = p ++ r ∧ q = r ++ v := by
  have hlist : u.toList ++ v.toList = p.toList ++ q.toList := by
    rw [← String.toList_append, ← String.toList_append, h]
  rcases List.append_eq_append_iff.1 hlist with ⟨r, hp, hv⟩ | ⟨r, hu, hq⟩
  · have hp' : p = u ++ String.ofList r := by
      apply String.toList_inj.1
      rw [hp, String.toList_append, String.toList_ofList]
    have hr : String.ofList r = "" := by
      have hsize := congrArg String.utf8ByteSize hp'
      rw [String.utf8ByteSize_append] at hsize
      exact String.utf8ByteSize_eq_zero_iff.1 (by omega)
    rw [hr, String.append_empty] at hp'
    subst hp'
    exact ⟨"", by simp, by simpa using (String.append_right_inj _).1 h.symm⟩
  · refine ⟨String.ofList r, ?_, ?_⟩
    · apply String.toList_inj.1
      rw [hu, String.toList_append, String.toList_ofList]
    · apply String.toList_inj.1
      rw [hq, String.toList_append, String.toList_ofList]

section Split

variable {source : String}

/-- `cs` is what is left of the source from byte `offset` on. -/
def Remains (source : String) (offset : Nat) (cs : List Char) : Prop :=
  ∃ before, source = before ++ String.ofList cs ∧ before.utf8ByteSize = offset

theorem remains_all (source : String) : Remains source 0 source.toList :=
  ⟨"", by simp, rfl⟩

theorem Remains.skip {offset : Nat} {text cs : List Char} (h : Remains source offset (text ++ cs))
    (htext : ∀ c ∈ text, c.utf8Size = 1) : Remains source (offset + text.length) cs := by
  obtain ⟨before, rfl, rfl⟩ := h
  refine ⟨before ++ String.ofList text, ?_, ?_⟩
  · rw [String.ofList_append, String.append_assoc]
  · rw [String.utf8ByteSize_append, utf8ByteSize_ofList_eq_length htext]

theorem Remains.skipGap {offset : Nat} {gap cs : List Char} (h : Remains source offset (gap ++ cs))
    (hgap : IsGap gap) : Remains source (offset + gap.length) cs :=
  h.skip fun c hc => utf8Size_of_mem_blanks (hgap c hc)

theorem Remains.text? {offset : Nat} {text cs : List Char}
    (h : Remains source offset (text ++ cs)) (htext : ∀ c ∈ text, c.utf8Size = 1) :
    (Span.mk offset text.length).text? source = some (String.ofList text) := by
  obtain ⟨before, rfl, hbefore⟩ := h
  refine Span.text?_eq_some_iff.2 ⟨before, String.ofList cs, ?_, hbefore, ?_⟩
  · rw [String.ofList_append, String.append_assoc]
  · exact utf8ByteSize_ofList_eq_length htext

/-- The text of every token stands in the source where its span says. -/
theorem Cut.exists_text? {offset : Nat} {cs : List Char} {tokens : List Token}
    (h : Cut offset cs tokens) (hcs : Remains source offset cs) :
    ∀ token ∈ tokens, ∃ text, token.text? source = some (String.ofList text) ∧
      (token.kind = .eof ∧ text = [] ∨ token.kind.Writes text) := by
  induction h with
  | @finish offset gap hgap =>
    intro token htoken
    obtain rfl := List.mem_singleton.1 htoken
    rw [← List.append_nil gap] at hcs
    have hend : Remains source (offset + gap.length) ([] ++ []) := hcs.skipGap hgap
    exact ⟨[], hend.text? (by simp), .inl ⟨rfl, rfl⟩⟩
  | @lexeme offset gap text rest kind tokens hgap htext hmax hrest ih =>
    intro token htoken
    rw [List.append_assoc] at hcs
    have htextAt := hcs.skipGap hgap
    rcases List.mem_cons.1 htoken with rfl | htoken
    · exact ⟨text, htextAt.text? htext.utf8Size, .inr htext⟩
    · exact ih (htextAt.skip htext.utf8Size) token htoken

/-- The only end of the input is the last token, and it is at the end. -/
theorem Cut.eq_append_endOfInput {offset : Nat} {cs : List Char} {tokens : List Token}
    (h : Cut offset cs tokens) : ∃ body size, tokens = body ++ [.endOfInput size] ∧
      ∀ token ∈ body, token.kind ≠ .eof := by
  induction h with
  | @finish offset gap hgap => exact ⟨[], offset + gap.length, rfl, by simp⟩
  | @lexeme offset gap text rest kind tokens hgap htext hmax hrest ih =>
    obtain ⟨body, size, rfl, hbody⟩ := ih
    refine ⟨_ :: body, size, rfl, ?_⟩
    intro token htoken
    rcases List.mem_cons.1 htoken with rfl | htoken
    · rintro rfl
      exact htext.elim
    · exact hbody token htoken

/-- The tokens stand in the source one after the other. -/
theorem Cut.pairwise_start_lt {offset : Nat} {cs : List Char} {tokens : List Token}
    (h : Cut offset cs tokens) :
    (∀ token ∈ tokens, offset ≤ token.span.start) ∧
      tokens.Pairwise fun a b => a.span.start < b.span.start := by
  induction h with
  | @finish offset gap hgap => simp [Token.endOfInput]
  | @lexeme offset gap text rest kind tokens hgap htext hmax hrest ih =>
    obtain ⟨hle, hpairwise⟩ := ih
    obtain ⟨c, text', rfl, -⟩ := htext.exists_eq_cons
    rw [List.length_cons] at hle
    refine ⟨fun token htoken => ?_, List.pairwise_cons.2 ⟨fun token htoken => ?_, hpairwise⟩⟩
    · rcases List.mem_cons.1 htoken with rfl | htoken
      · exact Nat.le_add_right _ _
      · have := hle token htoken
        omega
    · have := hle token htoken
      show offset + gap.length < token.span.start
      omega

theorem Cut.eq_of_start_eq {offset : Nat} {cs : List Char} {tokens : List Token}
    (h : Cut offset cs tokens) {j k : Nat} (hj : j < tokens.length) (hk : k < tokens.length)
    (hstart : tokens[j].span.start = tokens[k].span.start) : j = k := by
  have hpairwise := List.pairwise_iff_getElem.1 h.pairwise_start_lt.2
  rcases Nat.lt_trichotomy j k with hlt | heq | hgt
  · have := hpairwise j k hj hk hlt
    omega
  · exact heq
  · have := hpairwise k j hk hj hgt
    omega

theorem exists_text?_of_tokenize {tokens : List Token} (h : tokenize source = .ok tokens) :
    ∀ token ∈ tokens, ∃ text, token.text? source = some (String.ofList text) ∧
      (token.kind = .eof ∧ text = [] ∨ token.kind.Writes text) :=
  (tokenize_eq_ok_iff.1 h).exists_text? (remains_all source)

theorem liesIn_of_tokenize {tokens : List Token} (h : tokenize source = .ok tokens) :
    ∀ token ∈ tokens, token.span.LiesIn source := by
  intro token htoken
  obtain ⟨text, htext, -⟩ := exists_text?_of_tokenize h token htoken
  exact Span.isSome_text?_iff.1 (Option.isSome_iff_exists.2 ⟨_, htext⟩)

theorem readable_of_tokenize {tokens : List Token} (h : tokenize source = .ok tokens) :
    ∀ token ∈ tokens, token.Readable source :=
  fun token htoken => .inr (liesIn_of_tokenize h token htoken)

theorem kind_ne_eof_of_tokenize {body : List Token} {size : Nat}
    (h : tokenize source = .ok (body ++ [.endOfInput size])) : ∀ t ∈ body, t.kind ≠ .eof := by
  obtain ⟨body', size', heq, hkind⟩ := (tokenize_eq_ok_iff.1 h).eq_append_endOfInput
  rwa [List.append_inj_left' heq rfl]

theorem filter_kind_of_tokenize {body : List Token} {size : Nat}
    (h : tokenize source = .ok (body ++ [.endOfInput size])) :
    (body ++ [Token.endOfInput size]).filter (·.kind ≠ .eof) = body := by
  have hbody : body.filter (·.kind ≠ .eof) = body :=
    List.filter_eq_self.2 fun t ht => by simpa using kind_ne_eof_of_tokenize h t ht
  have hend : [Token.endOfInput size].filter (·.kind ≠ .eof) = [] := by
    simp [Token.endOfInput]
  rw [List.filter_append, hbody, hend, List.append_nil]

end Split

end ExprCompiler
