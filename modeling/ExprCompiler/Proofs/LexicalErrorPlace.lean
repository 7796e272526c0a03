import ExprCompiler.Proofs.LexicalFault

/-!
# Lexical errors are reported where they are

A text that `tokenize` refuses is refused at the one place where it cannot be cut further.
Everything before the place can be cut, the place is not inside a number, and there either a
character stands that starts nothing a text may consist of, or a number that is too large.
`LexicalErrorAt` says so without the scan, and `lexical_error_located` that the lexer reports
exactly this.

That no number goes on over the place has to be said: the text before it is cut on its own, and the
digits that it ends with might be the beginning of a longer run. Where they are not, a scan of the
whole text comes to the place with the tokens of the part before it (`Scan.scanFrom_append_of_cut`).
-/

namespace ExprCompiler

/-! ## What can be wrong at a place -/

/-- Neither a blank nor a lexeme starts with the character `c`, which `rest` follows. -/
structure StartsNothing (c : Char) (rest : List Char) : Prop where
  not_blank : c ∉ blanks
  not_symbol : c ∉ ['+', '-', '*', '/', '(', ')']
  not_digit : c.isDigit = false
  not_equality : ¬ (c = '=' ∧ rest.head? = some '=')

/-- The text starts with a run of digits, all that there are, whose value does not fit into a signed
64-bit word. -/
def StartsHugeNumber (text : List Char) : Prop :=
  ∃ digits rest, text = digits ++ rest ∧ digits ≠ [] ∧ (∀ c ∈ digits, c.isDigit) ∧
    (∀ c ∈ rest.head?, c.isDigit = false) ∧ 2 ^ 63 ≤ Decimal.value digits

/-- The text starts with something wrong, one way or the other, and `detail` says with what. -/
def FaultyStart (text : List Char) (detail : String) : Prop :=
  Xor (∃ c rest, text = c :: rest ∧ StartsNothing c rest ∧
      detail = "invalid token: '" ++ c.toString ++ "'")
    (StartsHugeNumber text ∧ detail = "invalid number: number too large to fit in target type")

/-- No run of digits goes on from `u` into `v`. -/
def Apart (u v : List Char) : Prop :=
  ∀ c ∈ u.getLast?, ∀ d ∈ v.head?, c.isDigit → d.isDigit = false

/-- The text can be cut up to byte `offset`, which is not inside a number, and no further. -/
def LexicalErrorAt (source : String) (offset : Nat) (detail : String) : Prop :=
  ∃ before after : String, source = before ++ after ∧ before.utf8ByteSize = offset ∧
    (∃ tokens, tokenize before = .ok tokens) ∧ Apart before.toList after.toList ∧
      FaultyStart after.toList detail

theorem Symbol.read?_eq_none_iff {c : Char} {rest : List Char} :
    read? (c :: rest) = none ↔
      c ∉ ['+', '-', '*', '/', '(', ')'] ∧ ¬ (c = '=' ∧ rest.head? = some '=') := by
  constructor
  · intro h
    refine ⟨fun hc => ?_, ?_⟩
    · simp only [List.mem_cons, List.not_mem_nil, or_false] at hc
      rcases hc with rfl | rfl | rfl | rfl | rfl | rfl <;> simp [read?] at h
    · rintro ⟨rfl, hrest⟩
      obtain ⟨rest', rfl⟩ := List.head?_eq_some_iff.1 hrest
      simp [read?] at h
  · rintro ⟨hsymbol, hequality⟩
    cases hread : read? (c :: rest) with
    | none => rfl
    | some found =>
      obtain ⟨symbol, after⟩ := found
      have htext := read?_eq_some_iff.1 hread
      rcases symbol with (_ | _ | _ | _ | _) | _ | _ <;>
        simp [spelling, Operator.symbol] at htext <;> obtain ⟨rfl, rfl⟩ := htext <;>
        simp at hsymbol hequality

/-- The run of digits at the start of a text is cut off where its first other character stands. -/
theorem startsHugeNumber_iff {c : Char} {rest : List Char} :
    StartsHugeNumber (c :: rest) ↔
      c.isDigit ∧ 2 ^ 63 ≤ Decimal.value (c :: rest.takeWhile Char.isDigit) := by
  constructor
  · rintro ⟨digits, after, htext, hne, hdigits, hmax, hvalue⟩
    obtain ⟨d, digits, rfl⟩ := List.exists_cons_of_ne_nil hne
    rw [List.cons_append] at htext
    obtain ⟨rfl, rfl⟩ := List.cons.inj htext
    have htail : ∀ d ∈ digits, d.isDigit := fun d hd => hdigits d (by simp [hd])
    rw [List.takeWhile_append_of_pos htail, (takeWhile_dropWhile_isDigit hmax).1, List.append_nil]
    exact ⟨hdigits c (by simp), hvalue⟩
  · rintro ⟨hc, hvalue⟩
    refine ⟨c :: rest.takeWhile Char.isDigit, rest.dropWhile Char.isDigit, ?_, by simp,
      isDigit_of_mem_run hc rest, head_dropWhile_isDigit rest, hvalue⟩
    rw [List.cons_append, List.takeWhile_append_dropWhile]

/-- No lexeme is read exactly where something is wrong. -/
theorem Lexeme.read_eq_error_iff {c : Char} {rest : List Char} (hc : c ∉ blanks)
    {cause : LexicalCause} :
    Lexeme.read c rest = .error cause ↔
      StartsNothing c rest ∧ cause = .invalidCharacter c ∨
        StartsHugeNumber (c :: rest) ∧ cause = .numberTooLarge := by
  rw [startsHugeNumber_iff]
  cases hsymbol : Symbol.read? (c :: rest) with
  | some found =>
    have hok : ∃ lexeme, Lexeme.read c rest = .ok lexeme := by
      unfold Lexeme.read
      rw [hsymbol]
      exact ⟨_, rfl⟩
    obtain ⟨lexeme, hlexeme⟩ := hok
    rw [hlexeme]
    refine iff_of_false nofun ?_
    rintro (⟨⟨-, hnot, -, hequality⟩, -⟩ | ⟨⟨hdigit, -⟩, -⟩)
    · rw [Symbol.read?_eq_none_iff.2 ⟨hnot, hequality⟩] at hsymbol
      cases hsymbol
    · rw [Symbol.read?_eq_none_of_isDigit hdigit] at hsymbol
      cases hsymbol
  | none =>
    obtain ⟨hnot, hequality⟩ := Symbol.read?_eq_none_iff.1 hsymbol
    unfold Lexeme.read
    rw [hsymbol]
    dsimp only
    by_cases hdigit : c.isDigit
    · have hnothing : ¬ StartsNothing c rest := fun h => by simp [h.not_digit] at hdigit
      rw [if_pos hdigit, Decimal.readBelow?_eq]
      by_cases hvalue : Decimal.value (c :: rest.takeWhile Char.isDigit) < Lexeme.numberBound
      · rw [if_pos hvalue]
        refine iff_of_false nofun ?_
        rintro (⟨h, -⟩ | ⟨⟨-, hhuge⟩, -⟩)
        · exact hnothing h
        · exact absurd hvalue (Nat.not_lt.2 hhuge)
      · rw [if_neg hvalue]
        constructor
        · intro h
          exact .inr ⟨⟨hdigit, Nat.not_lt.1 hvalue⟩, (Except.error.inj h).symm⟩
        · rintro (⟨h, -⟩ | ⟨-, rfl⟩)
          · exact absurd h hnothing
          · rfl
    · have hnothing : StartsNothing c rest := ⟨hc, hnot, by simpa using hdigit, hequality⟩
      rw [if_neg hdigit]
      simp [hnothing, hdigit, eq_comm]

/-- A character that starts nothing is no digit, so not both can be wrong. -/
theorem faultyStart_iff {text : List Char} {detail : String} :
    FaultyStart text detail ↔ ∃ c rest cause, text = c :: rest ∧ c ∉ blanks ∧
      Lexeme.read c rest = .error cause ∧ cause.message = detail := by
  constructor
  · rintro (⟨⟨c, rest, rfl, hnothing, rfl⟩, -⟩ | ⟨⟨hhuge, rfl⟩, -⟩)
    · have hblank := hnothing.not_blank
      exact ⟨c, rest, .invalidCharacter c, rfl, hblank,
        (Lexeme.read_eq_error_iff hblank).2 (.inl ⟨hnothing, rfl⟩), rfl⟩
    · obtain ⟨c, rest, rfl⟩ : ∃ c rest, text = c :: rest := by
        obtain ⟨digits, rest, rfl, hne, -⟩ := hhuge
        obtain ⟨c, digits, rfl⟩ := List.exists_cons_of_ne_nil hne
        exact ⟨c, digits ++ rest, rfl⟩
      have hblank := not_mem_blanks_of_isDigit (startsHugeNumber_iff.1 hhuge).1
      exact ⟨c, rest, .numberTooLarge, rfl, hblank,
        (Lexeme.read_eq_error_iff hblank).2 (.inr ⟨hhuge, rfl⟩), rfl⟩
  · rintro ⟨c, rest, cause, rfl, hblank, hread, rfl⟩
    rcases (Lexeme.read_eq_error_iff hblank).1 hread with ⟨hnothing, rfl⟩ | ⟨hhuge, rfl⟩
    · refine .inl ⟨⟨c, rest, rfl, hnothing, rfl⟩, fun h => ?_⟩
      have hdigit := (startsHugeNumber_iff.1 h.1).1
      simp [hnothing.not_digit] at hdigit
    · refine .inr ⟨⟨hhuge, rfl⟩, ?_⟩
      rintro ⟨d, rest', htext, hnothing, -⟩
      obtain ⟨rfl, rfl⟩ := List.cons.inj htext
      have hdigit := (startsHugeNumber_iff.1 hhuge).1
      simp [hnothing.not_digit] at hdigit

/-! ## Numbers that end where a text is divided -/

theorem apart_append_of_ne_nil {u v w : List Char} (hv : v ≠ []) :
    Apart (u ++ v) w ↔ Apart v w := by
  rw [Apart, Apart, List.getLast?_append_of_ne_nil u hv]

theorem isDigit_of_mem_spelling (symbol : Symbol) :
    ∀ c ∈ symbol.spelling.toList, c.isDigit = false := by
  rcases symbol with (_ | _ | _ | _ | _) | _ | _ <;>
    simp [Symbol.spelling, Operator.symbol]

/-- After a number no digit may come, after a symbol anything. -/
theorem Token.Kind.Writes.apart_iff {kind : Token.Kind} {text : List Char} (h : kind.Writes text)
    (after : List Char) :
    Apart text after ↔ (kind ≠ .punctuator → ∀ d ∈ after.head?, d.isDigit = false) := by
  cases kind with
  | punctuator =>
    obtain ⟨symbol, rfl⟩ := h
    refine iff_of_true (fun c hc d hd hdigit => ?_) fun hkind => absurd rfl hkind
    have hnot := isDigit_of_mem_spelling symbol c (List.mem_of_getLast? hc)
    simp [hnot] at hdigit
  | number value =>
    obtain ⟨hne, hdigits, -⟩ := h
    obtain ⟨c, hc⟩ : ∃ c, text.getLast? = some c := ⟨_, List.getLast?_eq_some_getLast hne⟩
    constructor
    · intro h _ d hd
      exact h c hc d hd (hdigits c (List.mem_of_getLast? hc))
    · intro h _ _ d hd _
      exact h (by simp) d hd
  | eof => exact h.elim

/-- A scan goes through a text that can be cut, and on behind it, if no number goes on there. -/
theorem Scan.scanFrom_append_of_cut {offset size : Nat} {before after : List Char}
    {tokens : List Token} (h : Cut offset before (tokens ++ [.endOfInput size]))
    (hapart : Apart before after) (done : List Token) :
    scanFrom offset done (before ++ after) =
      scanFrom (offset + before.length) (tokens.reverse ++ done) after := by
  generalize hall : tokens ++ [Token.endOfInput size] = all at h
  induction h generalizing tokens done with
  | @finish offset gap hgap =>
    obtain ⟨rfl, -⟩ := (List.append_eq_singleton_iff.1 hall).resolve_right (by simp)
    exact scanFrom_gap hgap offset done after
  | @lexeme offset gap text rest kind tokens' hgap htext hmax hrest ih =>
    obtain ⟨body, size', rfl, -⟩ := hrest.eq_append_endOfInput
    rw [← List.cons_append] at hall
    obtain ⟨rfl, hend⟩ := List.append_inj' hall rfl
    have hmax' : kind ≠ .punctuator → ∀ d ∈ (rest ++ after).head?, d.isDigit = false := by
      cases rest with
      | nil =>
        obtain ⟨c, text', rfl, -⟩ := htext.exists_eq_cons
        rw [List.append_nil, apart_append_of_ne_nil (List.cons_ne_nil c text')] at hapart
        exact (htext.apart_iff after).1 hapart
      | cons d rest => exact hmax
    have hapart' : Apart rest after := by
      cases rest with
      | nil => nofun
      | cons d rest => rwa [apart_append_of_ne_nil (List.cons_ne_nil d rest)] at hapart
    have htail := ih hapart' (⟨kind, ⟨offset + gap.length, text.length⟩⟩ :: done) (by rw [hend])
    have hlength : offset + (gap ++ text ++ rest).length =
        offset + gap.length + text.length + rest.length := by
      simp only [List.length_append]
      omega
    rw [hlength]
    obtain ⟨c, text', rfl, hblank⟩ := htext.exists_eq_cons
    have hread : Lexeme.read c (text' ++ (rest ++ after)) =
        .ok ⟨kind, (c :: text').length, rest ++ after⟩ :=
      Lexeme.read_eq_ok_iff.2 ⟨c :: text', rfl, htext, rfl, hmax'⟩
    rw [List.append_assoc, List.append_assoc, scanFrom_gap hgap, List.cons_append,
      scanFrom_lexeme (mt isBlank_iff.1 hblank) hread]
    simpa [Lexeme.tokenAt] using htail

/-- A scan that stops does so at a place where no number goes on. -/
theorem Scan.exists_apart_of_fault {offset : Nat} {done : List Token} {cs : List Char}
    {fault : LexicalFault} (h : (scanFrom offset done cs).fault? = some fault) :
    ∃ before after, cs = before ++ after ∧ fault.offset = offset + before.length ∧
      Apart before after := by
  fun_induction scanFrom offset done cs with
  | case1 => simp at h
  | case2 offset done c rest hc ih =>
    obtain ⟨before, after, rfl, hoffset, hapart⟩ := ih h
    refine ⟨c :: before, after, rfl, by rw [hoffset, List.length_cons]; omega, ?_⟩
    cases before with
    | nil =>
      intro e he d _ hdigit
      obtain rfl : c = e := by simpa using he
      exact absurd (isBlank_iff.1 hc) (not_mem_blanks_of_isDigit hdigit)
    | cons d before =>
      exact (apart_append_of_ne_nil (u := [c]) (List.cons_ne_nil d before)).2 hapart
  | case3 offset done c rest hc lexeme hread ih =>
    obtain ⟨before, after, hrest, hoffset, hapart⟩ := ih h
    obtain ⟨text, hcs, htext, hlength, hmax⟩ := Lexeme.read_eq_ok_iff.1 hread
    rw [hrest] at hcs hmax
    refine ⟨text ++ before, after, by rw [hcs, List.append_assoc], ?_, ?_⟩
    · rw [hoffset, hlength, List.length_append]
      omega
    · cases before with
      | nil =>
        rw [List.append_nil]
        exact (htext.apart_iff after).2 hmax
      | cons d before => exact (apart_append_of_ne_nil (List.cons_ne_nil d before)).2 hapart
  | case4 offset done c rest hc cause hread =>
    obtain rfl := Option.some.inj h
    exact ⟨[], c :: rest, rfl, rfl, by simp [Apart]⟩

/-! ## The place of an error -/

section Place

variable {source : String}

theorem lexicalErrorAt_of_tokenize {fault : LexicalFault} (h : tokenize source = .error fault) :
    LexicalErrorAt source fault.offset fault.cause.message := by
  obtain ⟨before, c, rest, hsource, hoffset, hcut, hblank, hread⟩ := lexicalStop_of_tokenize h
  obtain ⟨before', after', hsource', hoffset', hapart⟩ : ∃ before after,
      source.toList = before ++ after ∧ fault.offset = 0 + before.length ∧ Apart before after := by
    unfold tokenize Scan.result at h
    split at h
    · cases h
    · rename_i found hfault
      obtain rfl := Except.error.inj h
      exact Scan.exists_apart_of_fault hfault
  -- both ways to divide the text divide it at the fault
  obtain ⟨rfl, rfl⟩ := List.append_inj (hsource'.symm.trans hsource) (by omega)
  have htokens : tokenize (String.ofList before') =
      .ok ((scan source).tokens ++ [.endOfInput fault.offset]) := by
    rw [tokenize_eq_ok_iff, String.toList_ofList]
    exact hcut
  refine ⟨String.ofList before', String.ofList (c :: rest), ?_, ?_, ⟨_, htokens⟩, ?_, ?_⟩
  · apply String.toList_inj.1
    rw [String.toList_append, String.toList_ofList, String.toList_ofList, hsource]
  · rw [utf8ByteSize_ofList_eq_length hcut.utf8Size, hoffset, Nat.zero_add]
  · rwa [String.toList_ofList, String.toList_ofList]
  · rw [String.toList_ofList]
    exact faultyStart_iff.2 ⟨c, rest, fault.cause, rfl, hblank, hread, rfl⟩

theorem LexicalErrorAt.exists_fault {offset : Nat} {detail : String}
    (h : LexicalErrorAt source offset detail) :
    ∃ cause, tokenize source = .error ⟨offset, cause⟩ ∧ cause.message = detail := by
  obtain ⟨before, after, rfl, rfl, ⟨tokens, htokens⟩, hapart, hfaulty⟩ := h
  obtain ⟨c, rest, cause, hafter, hblank, hread, rfl⟩ := faultyStart_iff.1 hfaulty
  have hcut := tokenize_eq_ok_iff.1 htokens
  obtain ⟨body, size, rfl, -⟩ := hcut.eq_append_endOfInput
  have hscan := Scan.scanFrom_append_of_cut hcut hapart []
  rw [Nat.zero_add, ← utf8ByteSize_eq_length hcut.utf8Size, hafter,
    Scan.scanFrom_fault (mt isBlank_iff.1 hblank) hread] at hscan
  refine ⟨cause, ?_, rfl⟩
  rw [tokenize, scan, String.toList_append, hafter, hscan]
  rfl

end Place

/-- A text that the lexer refuses is refused where it can be cut no further, with a message about
what stands there: a character, all of it, that starts nothing, or a number that is too large.
Conversely, a text with such a place is refused at that place, and there is only one. -/
theorem lexical_error_located (source : String) :
    (∀ error, (tokenize source).mapError (CompileError.ofLexicalFault source) = .error error →
      ∃ d : Diagnostic, error = .refused d ∧ d.phase = .lexical ∧
        LexicalErrorAt source d.position.offset d.detail) ∧
    (∀ offset detail, LexicalErrorAt source offset detail →
      ∃ d : Diagnostic,
        (tokenize source).mapError (CompileError.ofLexicalFault source) = .error (.refused d) ∧
        d.phase = .lexical ∧ d.position.offset = offset ∧ d.detail = detail) ∧
    ∀ offset offset' detail detail', LexicalErrorAt source offset detail →
      LexicalErrorAt source offset' detail' → offset = offset' := by
  refine ⟨fun error h => ?_, fun offset detail h => ?_,
    fun offset offset' detail detail' h h' => ?_⟩
  · cases htokens : tokenize source with
    | ok tokens =>
      rw [htokens] at h
      cases h
    | error fault =>
      rw [htokens] at h
      obtain rfl := Except.error.inj h
      refine ⟨.ofLexicalFault source fault, rfl, rfl, ?_⟩
      have hplace := lexicalErrorAt_of_tokenize htokens
      rw [← atMost_fault_offset htokens] at hplace
      exact hplace
  · obtain ⟨cause, htokens, rfl⟩ := h.exists_fault
    refine ⟨.ofLexicalFault source ⟨offset, cause⟩, ?_, rfl, atMost_fault_offset htokens, rfl⟩
    rw [htokens]
    rfl
  · obtain ⟨cause, htokens, -⟩ := h.exists_fault
    obtain ⟨cause', htokens', -⟩ := h'.exists_fault
    exact congrArg LexicalFault.offset (Except.error.inj (htokens.symm.trans htokens'))

end ExprCompiler
