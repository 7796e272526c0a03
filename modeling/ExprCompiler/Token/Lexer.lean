import ExprCompiler.Token.Basic

/-!
# Lexing

The function `tokenize`. A source text is cut into lexemes from left to right, passing over the
blanks between them, up to the first place where no lexeme starts.

The lexeme at the start of a text is a symbol, or a number written as a run of digits that no
further digit extends. Where a text starts with no lexeme, `Lexeme.read` says why. Every lexeme is
ASCII, so it is as many bytes long as it has characters. `scan` goes from lexeme to lexeme: it gives
the tokens found, in the order in which they are pushed, and, if it did not reach the end of the
text, the fault that stopped it; `tokenize` gives the one or the other.
-/

namespace ExprCompiler

/-- The blanks: space, tab, line feed, vertical tab, form feed and carriage return. -/
def isBlank (c : Char) : Bool :=
  c == ' ' || c == '\t' || c == '\n' || c == '\x0b' || c == '\x0c' || c == '\r'

/-- Why a text starts with no lexeme. -/
inductive LexicalCause where
  /-- Its first character starts no lexeme. -/
  | invalidCharacter (c : Char)
  /-- It starts with a number that does not fit into a signed 64-bit word. -/
  | numberTooLarge
deriving DecidableEq, Repr

def LexicalCause.message : LexicalCause → String
  | .invalidCharacter c => "invalid token: '" ++ c.toString ++ "'"
  | .numberTooLarge => "invalid number: number too large to fit in target type"

/-- A lexeme at the start of a text. -/
structure Lexeme where
  kind : Token.Kind
  length : Nat
  rest : List Char
deriving DecidableEq, Repr

namespace Lexeme

/-- Numbers of a source text are below this bound, the 63rd power of two. -/
def numberBound : Nat := 0x8000000000000000

/-- The lexeme at the start of the text that consists of `c` and `rest`. -/
def read (c : Char) (rest : List Char) : Except LexicalCause Lexeme :=
  match Symbol.read? (c :: rest) with
  | some (symbol, after) => .ok ⟨.punctuator, symbol.spelling.utf8ByteSize, after⟩
  | none =>
    if c.isDigit then
      let digits := c :: rest.takeWhile Char.isDigit
      match Decimal.readBelow? numberBound digits with
      | some value =>
        .ok ⟨.number (Int64.ofNat value), digits.length, rest.dropWhile Char.isDigit⟩
      | none => .error .numberTooLarge
    else
      .error (.invalidCharacter c)

/-- The token of a lexeme that stands at a byte offset of the source. -/
def tokenAt (offset : Nat) (lexeme : Lexeme) : Token := ⟨lexeme.kind, ⟨offset, lexeme.length⟩⟩

theorem length_rest_le_of_read_eq_ok {c : Char} {rest : List Char} {lexeme : Lexeme}
    (h : read c rest = .ok lexeme) : lexeme.rest.length ≤ rest.length := by
  unfold read at h
  split at h
  · rename_i symbol after hread
    have hlt := Symbol.length_lt_of_read?_eq_some hread
    obtain rfl := Except.ok.inj h
    exact Nat.le_of_lt_succ hlt
  · split at h
    · dsimp only at h
      split at h
      · obtain rfl := Except.ok.inj h
        exact (List.dropWhile_sublist _).length_le
      · simp at h
    · simp at h

end Lexeme

/-- The first place where a text cannot be cut further into lexemes. -/
structure LexicalFault where
  offset : Nat
  cause : LexicalCause
deriving DecidableEq, Repr

/-- How far a text can be cut into lexemes. -/
structure Scan where
  /-- The tokens in the order of the text; the last is the end of the input if there is no fault. -/
  tokens : List Token
  /-- What stopped the scan before the end of the text. -/
  fault? : Option LexicalFault
deriving DecidableEq, Repr

namespace Scan

/-- Scans on through the text `cs` that starts at byte `offset`, after the tokens of `done`, which
are listed from the last to the first. -/
def scanFrom (offset : Nat) (done : List Token) (cs : List Char) : Scan :=
  match cs with
  | [] => ⟨(Token.endOfInput offset :: done).reverse, none⟩
  | c :: rest =>
    if isBlank c then
      scanFrom (offset + 1) done rest
    else
      match _h : Lexeme.read c rest with
      | .ok lexeme =>
        scanFrom (offset + lexeme.length) (lexeme.tokenAt offset :: done) lexeme.rest
      | .error cause => ⟨done.reverse, some ⟨offset, cause⟩⟩
termination_by cs.length
decreasing_by
  · exact Nat.lt_add_one rest.length
  · exact Nat.lt_succ_of_le (Lexeme.length_rest_le_of_read_eq_ok _h)

/-- The tokens of a text that was scanned to its end, or the fault that stopped the scan. -/
def result (s : Scan) : Except LexicalFault (List Token) :=
  match s.fault? with
  | none => .ok s.tokens
  | some fault => .error fault

/-! ## One step of a scan -/

@[simp]
theorem scanFrom_nil (offset : Nat) (done : List Token) :
    scanFrom offset done [] = ⟨done.reverse ++ [Token.endOfInput offset], none⟩ := by
  rw [scanFrom, List.reverse_cons]

theorem scanFrom_blank {c : Char} (h : isBlank c) (offset : Nat) (done : List Token)
    (rest : List Char) : scanFrom offset done (c :: rest) = scanFrom (offset + 1) done rest := by
  rw [scanFrom, if_pos h]

theorem scanFrom_lexeme {c : Char} {rest : List Char} {lexeme : Lexeme} (hc : ¬ isBlank c)
    (h : Lexeme.read c rest = .ok lexeme) (offset : Nat) (done : List Token) :
    scanFrom offset done (c :: rest) =
      scanFrom (offset + lexeme.length) (lexeme.tokenAt offset :: done) lexeme.rest := by
  rw [scanFrom, if_neg hc]
  split <;> simp_all

theorem scanFrom_fault {c : Char} {rest : List Char} {cause : LexicalCause} (hc : ¬ isBlank c)
    (h : Lexeme.read c rest = .error cause) (offset : Nat) (done : List Token) :
    scanFrom offset done (c :: rest) = ⟨done.reverse, some ⟨offset, cause⟩⟩ := by
  rw [scanFrom, if_neg hc]
  split <;> simp_all

theorem scanFrom_append (offset : Nat) (done earlier : List Token) (cs : List Char) :
    scanFrom offset (done ++ earlier) cs =
      ⟨earlier.reverse ++ (scanFrom offset done cs).tokens, (scanFrom offset done cs).fault?⟩ := by
  fun_induction scanFrom offset done cs with
  | case1 => simp
  | case2 offset done c rest hc ih => rw [scanFrom_blank hc, ih]
  | case3 offset done c rest hc lexeme h ih =>
    rw [scanFrom_lexeme hc h]
    exact ih
  | case4 offset done c rest hc cause h =>
    rw [scanFrom_fault hc h]
    simp

end Scan

/-- Cuts a source text into lexemes as far as that is possible. -/
def scan (source : String) : Scan := Scan.scanFrom 0 [] source.toList

/-- The tokens of a source text, ending with the end of the input. -/
def tokenize (source : String) : Except LexicalFault (List Token) := (scan source).result

end ExprCompiler
