import ExprCompiler.Diagnostic
import ExprCompiler.Proofs.Lexing

/-!
# Computing with words and slices

A machine counts bytes in words. A sum may be too large for a word, a difference may fall below
zero, and a stretch of a text that is cut out between two bytes may reach past the end or start in
the middle of a character. In a `Checked` computation each of these stops everything: it panics.

The lexer and the search for the place of a caret, `tokenize` and `caret`, are repeated here as they
go over the bytes of a text, with every index checked. The index of the lexer never leaves the
boundaries of characters, and so it finds what the lexer finds, without a panic, on every text whose
size is a word (`scanFrom_eq`, `tokenize_eq`). The search steps back byte by byte and stops in time
(`caret_eq`).
-/

namespace ExprCompiler

/-- Why a checked computation has no result: for a reason that is reported, or because a number or a
part of a text that it needs does not exist. -/
inductive Stop (ε : Type) where
  | fault (fault : ε)
  | panic
deriving DecidableEq, Repr

abbrev Checked (ε α : Type) := Except (Stop ε) α

namespace Checked

variable {ε : Type} {source : String}

/-- The sum of two words, if it is at most `limit`, the largest word. -/
def add (limit a b : Nat) : Checked ε Nat :=
  if a + b ≤ limit then .ok (a + b) else .error .panic

/-- The difference of two words, if it is not below zero. -/
def sub (a b : Nat) : Checked ε Nat := if b ≤ a then .ok (a - b) else .error .panic

/-- The part of a text from byte `start` up to byte `stop`, if both are boundaries of characters and
in this order. -/
def slice (source : String) (start stop : Nat) : Checked ε String :=
  if start ≤ stop then
    match (Span.mk start (stop - start)).text? source with
    | some text => .ok text
    | none => .error .panic
  else
    .error .panic

theorem ok_bind {α β : Type} (a : α) (f : α → Checked ε β) : (Except.ok a >>= f) = f a := rfl

theorem add_of_le {limit a b : Nat} (h : a + b ≤ limit) :
    (add limit a b : Checked ε Nat) = .ok (a + b) :=
  if_pos h

theorem sub_of_le {a b : Nat} (h : b ≤ a) : (sub a b : Checked ε Nat) = .ok (a - b) :=
  if_pos h

theorem slice_add_of_text? {start length : Nat} {text : String}
    (h : (Span.mk start length).text? source = some text) :
    (slice source start (start + length) : Checked ε String) = .ok text := by
  rw [slice, if_pos (Nat.le_add_right start length), Nat.add_sub_cancel_left, h]

theorem slice_add_of_text?_eq_none {start length : Nat}
    (h : (Span.mk start length).text? source = none) :
    (slice source start (start + length) : Checked ε String) = .error .panic := by
  rw [slice, if_pos (Nat.le_add_right start length), Nat.add_sub_cancel_left, h]

/-! ## The place of a caret -/

/-- Steps back from byte `n` until a boundary is found. -/
def backUp (source : String) (n : Nat) : Checked ε Nat :=
  if String.Pos.Raw.IsValid source ⟨n⟩ then
    .ok n
  else
    match n with
    | 0 => .error .panic
    | n + 1 => backUp source n

/-- The place that a caret points at, for a fault at any offset. -/
def caret (source : String) (offset : Nat) : Checked ε Position := do
  let place ← backUp source (min offset source.utf8ByteSize)
  let before ← slice source 0 place
  return ⟨place, before.toList.length⟩

/-- Stepping back finds the last boundary. -/
theorem backUp_eq {n place : Nat} (hplace : String.Pos.Raw.IsValid source ⟨place⟩) (hle : place ≤ n)
    (hlast : ∀ m, String.Pos.Raw.IsValid source ⟨m⟩ → m ≤ n → m ≤ place) :
    (backUp source n : Checked ε Nat) = .ok place := by
  induction n with
  | zero =>
    obtain rfl : place = 0 := by omega
    rw [backUp, if_pos hplace]
  | succ n ih =>
    rw [backUp]
    by_cases hvalid : String.Pos.Raw.IsValid source ⟨n + 1⟩
    · have hge := hlast (n + 1) hvalid (Nat.le_refl _)
      obtain rfl : place = n + 1 := by omega
      rw [if_pos hvalid]
    · have hne : place ≠ n + 1 := by
        rintro rfl
        exact hvalid hplace
      rw [if_neg hvalid]
      exact ih (by omega) fun m hm hmn => hlast m hm (by omega)

theorem isValid_iff {n : Nat} : String.Pos.Raw.IsValid source ⟨n⟩ ↔
    ∃ before after, source = before ++ after ∧ before.utf8ByteSize = n := by
  rw [String.Pos.Raw.isValid_iff_exists_append]
  constructor
  · rintro ⟨before, after, hsource, hn⟩
    exact ⟨before, after, hsource, congrArg (·.byteIdx) hn.symm⟩
  · rintro ⟨before, after, hsource, hn⟩
    exact ⟨before, after, hsource, String.Pos.Raw.ext hn.symm⟩

/-- The search never steps below zero and ends where the caret of a diagnostic is. -/
theorem caret_eq (source : String) (offset : Nat) :
    (caret source offset : Checked ε Position) = .ok (Position.atMost source offset) := by
  obtain ⟨passed, left, hsource, hoffset, hcolumn⟩ :=
    Position.walk_eq offset .origin source.toList
  have hplace : (Position.atMost source offset).offset = (String.ofList passed).utf8ByteSize := by
    rw [Position.atMost, hoffset]
    exact Nat.zero_add _
  have hwidth : (Position.atMost source offset).column = passed.length := by
    rw [Position.atMost, hcolumn]
    exact Nat.zero_add _
  have happend : source = String.ofList passed ++ String.ofList left := by
    apply String.toList_inj.1
    rw [hsource, String.toList_append, String.toList_ofList, String.toList_ofList]
  have hvalid : String.Pos.Raw.IsValid source ⟨(Position.atMost source offset).offset⟩ :=
    isValid_iff.2 ⟨String.ofList passed, String.ofList left, happend, hplace.symm⟩
  have hle : (Position.atMost source offset).offset ≤ min offset source.utf8ByteSize := by
    have hsize := congrArg String.utf8ByteSize happend
    rw [String.utf8ByteSize_append] at hsize
    have hlimit := Position.atMost_offset_le source offset
    omega
  have hback : (backUp source (min offset source.utf8ByteSize) : Checked ε Nat) =
      .ok (Position.atMost source offset).offset := by
    refine backUp_eq hvalid hle fun m hm hmin => ?_
    obtain ⟨before, after, rfl, rfl⟩ := isValid_iff.1 hm
    exact Position.utf8ByteSize_le_atMost_offset (by omega)
  have htext : (Span.mk 0 (Position.atMost source offset).offset).text? source =
      some (String.ofList passed) :=
    Span.text?_eq_some_iff.2
      ⟨"", String.ofList left, by rwa [String.empty_append], rfl, hplace.symm⟩
  have hslice : (slice source 0 (Position.atMost source offset).offset : Checked ε String) =
      .ok (String.ofList passed) := by
    have h := slice_add_of_text? (ε := ε) htext
    rwa [Nat.zero_add] at h
  unfold caret
  rw [hback, ok_bind, hslice, ok_bind, String.toList_ofList, ← hwidth]
  rfl

/-! ## The lexer -/

/-- What the text `cs` from byte `i` on starts with: a token or a blank, and the byte after it. The
value of a number is that of the text between its ends. -/
def lexAt (limit : Nat) (source : String) (i : Nat) :
    List Char → Checked LexicalFault (Option Token × Nat)
  | [] => .error .panic
  | c :: cs =>
    if isBlank c then do
      return (none, ← add limit i 1)
    else
      match Symbol.read? (c :: cs) with
      | some (symbol, _) => do
        let stop ← add limit i symbol.spelling.utf8ByteSize
        return (some ⟨.punctuator, ⟨i, symbol.spelling.utf8ByteSize⟩⟩, stop)
      | none =>
        if c.isDigit then do
          let stop ← add limit i (c :: cs.takeWhile Char.isDigit).length
          let text ← slice source i stop
          let length ← sub stop i
          match Decimal.readBelow? Lexeme.numberBound text.toList with
          | some value => return (some ⟨.number (Int64.ofNat value), ⟨i, length⟩⟩, stop)
          | none => .error (.fault ⟨i, .numberTooLarge⟩)
        else
          .error (.fault ⟨i, .invalidCharacter c⟩)

def lex (limit : Nat) (source : String) (i : Nat) :
    Checked LexicalFault (Option Token × Nat) := do
  let rest ← slice source i source.utf8ByteSize
  lexAt limit source i rest.toList

/-- Goes on at byte `i`, after the tokens of `done`, which are listed from the last to the first. A
step that stays where it is would never come to an end, and counts as a panic. -/
def scanFrom (limit : Nat) (source : String) (i : Nat) (done : List Token) :
    Checked LexicalFault (List Token) :=
  if i < source.utf8ByteSize then
    match lex limit source i with
    | .error stop => .error stop
    | .ok (token?, next) =>
      if i < next then scanFrom limit source next (token?.toList ++ done) else .error .panic
  else
    .ok (Token.endOfInput source.utf8ByteSize :: done).reverse
termination_by source.utf8ByteSize - i

def tokenize (limit : Nat) (source : String) : Checked LexicalFault (List Token) :=
  scanFrom limit source 0 []

end Checked

section Lexer

variable {source : String} {limit i : Nat} {c : Char} {cs : List Char}

theorem Remains.le_size (h : Remains source i cs) : i ≤ source.utf8ByteSize := by
  obtain ⟨before, rfl, rfl⟩ := h
  simp

theorem Remains.slice {ε : Type} (h : Remains source i cs) :
    (Checked.slice source i source.utf8ByteSize : Checked ε String) = .ok (String.ofList cs) := by
  obtain ⟨before, rfl, rfl⟩ := h
  have htext : (Span.mk before.utf8ByteSize (String.ofList cs).utf8ByteSize).text?
      (before ++ String.ofList cs) = some (String.ofList cs) :=
    Span.text?_eq_some_iff.2 ⟨before, "", by rw [String.append_empty], rfl, rfl⟩
  have hslice := Checked.slice_add_of_text? (ε := ε) htext
  rwa [← String.utf8ByteSize_append] at hslice

namespace Checked

theorem lex_eq_lexAt (h : Remains source i cs) : lex limit source i = lexAt limit source i cs := by
  unfold lex
  rw [h.slice, ok_bind, String.toList_ofList]

theorem lexAt_blank (hc : isBlank c) (hle : i + 1 ≤ limit) :
    lexAt limit source i (c :: cs) = .ok (none, i + 1) := by
  rw [lexAt, if_pos hc, add_of_le hle]
  rfl

theorem lexAt_symbol {symbol : Symbol} {after : List Char} (hc : ¬ isBlank c)
    (hsymbol : Symbol.read? (c :: cs) = some (symbol, after))
    (hle : i + symbol.spelling.utf8ByteSize ≤ limit) :
    lexAt limit source i (c :: cs) =
      .ok (some ⟨.punctuator, ⟨i, symbol.spelling.utf8ByteSize⟩⟩,
        i + symbol.spelling.utf8ByteSize) := by
  rw [lexAt, if_neg hc, hsymbol]
  dsimp only
  rw [add_of_le hle]
  rfl

/-- A run of digits is cut out of the text as a whole. -/
theorem lexAt_digits (h : Remains source i (c :: cs)) (hlimit : source.utf8ByteSize ≤ limit)
    (hc : ¬ isBlank c) (hsymbol : Symbol.read? (c :: cs) = none) (hdigit : c.isDigit) :
    lexAt limit source i (c :: cs) =
      match Decimal.readBelow? Lexeme.numberBound (c :: cs.takeWhile Char.isDigit) with
      | some value => .ok
          (some ⟨.number (Int64.ofNat value), ⟨i, (c :: cs.takeWhile Char.isDigit).length⟩⟩,
            i + (c :: cs.takeWhile Char.isDigit).length)
      | none => .error (.fault ⟨i, .numberTooLarge⟩) := by
  have hsplit : c :: cs = (c :: cs.takeWhile Char.isDigit) ++ cs.dropWhile Char.isDigit := by
    rw [List.cons_append, List.takeWhile_append_dropWhile]
  have hascii : ∀ d ∈ c :: cs.takeWhile Char.isDigit, d.utf8Size = 1 := by
    intro d hd
    rcases List.mem_cons.1 hd with rfl | hd
    · exact utf8Size_of_isDigit hdigit
    · exact utf8Size_of_isDigit (List.mem_takeWhile_imp hd)
  rw [hsplit] at h
  have htext := h.text? hascii
  have hle := (h.skip hascii).le_size
  rw [lexAt, if_neg hc, hsymbol]
  dsimp only
  rw [if_pos hdigit]
  generalize c :: cs.takeWhile Char.isDigit = digits at htext hle ⊢
  rw [add_of_le (by omega), ok_bind, slice_add_of_text? htext, ok_bind, sub_of_le (by omega),
    ok_bind, Nat.add_sub_cancel_left, String.toList_ofList]
  rfl

/-- At a boundary the checked lexer finds the lexeme that stands there, or its fault. -/
theorem lexAt_eq_read (h : Remains source i (c :: cs)) (hlimit : source.utf8ByteSize ≤ limit)
    (hc : ¬ isBlank c) :
    lexAt limit source i (c :: cs) =
      match Lexeme.read c cs with
      | .ok lexeme => .ok (some (lexeme.tokenAt i), i + lexeme.length)
      | .error cause => .error (.fault ⟨i, cause⟩) := by
  unfold Lexeme.read
  cases hsymbol : Symbol.read? (c :: cs) with
  | some found =>
    obtain ⟨symbol, after⟩ := found
    rw [Symbol.read?_eq_some_iff.1 hsymbol] at h
    have hle := (h.skip (utf8Size_of_mem_spelling symbol)).le_size
    rw [← utf8ByteSize_spelling] at hle
    exact lexAt_symbol hc hsymbol (by omega)
  | none =>
    dsimp only
    by_cases hdigit : c.isDigit
    · rw [lexAt_digits h hlimit hc hsymbol hdigit, if_pos hdigit]
      cases Decimal.readBelow? Lexeme.numberBound (c :: cs.takeWhile Char.isDigit) <;> rfl
    · rw [lexAt, if_neg hc, hsymbol, if_neg hdigit]
      dsimp only
      rw [if_neg hdigit]

/-- From every boundary on the checked lexer goes as the lexer goes. -/
theorem scanFrom_eq (hlimit : source.utf8ByteSize ≤ limit) (h : Remains source i cs)
    (done : List Token) :
    scanFrom limit source i done = (Scan.scanFrom i done cs).result.mapError .fault := by
  fun_induction Scan.scanFrom i done cs with
  | case1 i done =>
    have hend : i = source.utf8ByteSize := by
      obtain ⟨before, rfl, rfl⟩ := h
      simp
    rw [scanFrom, if_neg (by omega), hend]
    rfl
  | case2 i done c rest hc ih =>
    have hgap : IsGap [c] := by simpa [IsGap] using isBlank_iff.1 hc
    have hrest : Remains source (i + 1) rest := @Remains.skipGap source i [c] rest h hgap
    have hle := hrest.le_size
    rw [scanFrom, if_pos (by omega), lex_eq_lexAt h, lexAt_blank hc (by omega)]
    dsimp only
    rw [if_pos (by omega)]
    exact ih hrest
  | case3 i done c rest hc lexeme hread ih =>
    obtain ⟨text, hcs, htext, hlength, -⟩ := Lexeme.exists_writes_of_read hread
    have hne : 0 < text.length := by
      obtain ⟨d, text', rfl, -⟩ := htext.exists_eq_cons
      exact Nat.succ_pos _
    -- a lexeme is ASCII, so the index after it is a boundary again
    have hrest : Remains source (i + lexeme.length) lexeme.rest := by
      rw [hlength]
      rw [hcs] at h
      exact h.skip htext.utf8Size
    have hle := hrest.le_size
    rw [scanFrom, if_pos (by omega), lex_eq_lexAt h, lexAt_eq_read h hlimit hc, hread]
    dsimp only
    rw [if_pos (by omega)]
    exact ih hrest
  | case4 i done c rest hc cause hread =>
    have hlt : i < source.utf8ByteSize := by
      obtain ⟨before, rfl, rfl⟩ := h
      have hpos := c.utf8Size_pos
      simp only [String.utf8ByteSize_append, String.ofList_cons, String.utf8ByteSize_singleton]
      omega
    rw [scanFrom, if_pos hlt, lex_eq_lexAt h, lexAt_eq_read h hlimit hc, hread]
    rfl

/-- A text whose size is a word is cut into tokens without a panic. -/
theorem tokenize_eq (hlimit : source.utf8ByteSize ≤ limit) :
    tokenize limit source = (ExprCompiler.tokenize source).mapError .fault :=
  scanFrom_eq hlimit (remains_all source) []

end Checked

end Lexer

end ExprCompiler
