import ExprCompiler.Proofs.Lexing

/-!
# Texts as gaps and lexemes in turn

A `Segmentation` writes a text out completely: a gap, and then any number of lexemes, each with the
gap after it. Gaps may be empty, but no digit follows a number. The lexer, `tokenize`, accepts
exactly the texts that can be written so, its tokens are the lexemes at their places, and there is
only one way to write a text so (`tokenize_exact`).

A segmentation is more than a `Cut`: it holds the gaps and the lexemes themselves. Two segmentations
of one text have the same tokens, because the lexer finds both. The places of the tokens then tell
where each gap and each lexeme ends (`Piece.eq_of_tokensFrom_eq`).
-/

namespace ExprCompiler

/-- The text is an operator or a parenthesis. -/
def IsSymbol (text : String) : Prop := text ∈ ["==", "+", "-", "*", "/", "(", ")"]

/-- The text is a run of digits whose value fits into a signed 64-bit word. -/
def IsNumber (text : String) : Prop :=
  text ≠ "" ∧ (∀ c ∈ text.toList, c.isDigit) ∧ Decimal.value text.toList ≤ 2 ^ 63 - 1

/-- A lexeme and the gap after it. -/
@[ext]
structure Piece where
  lexeme : String
  gap : String
  isLexeme : IsSymbol lexeme ∨ IsNumber lexeme
  isGap : IsGap gap.toList

namespace Piece

/-- The text of pieces that stand one after the other. -/
def textOf : List Piece → String
  | [] => ""
  | p :: ps => p.lexeme ++ (p.gap ++ textOf ps)

/-- No number is followed by a further digit. -/
def Unextended : List Piece → Prop
  | [] => True
  | p :: ps =>
    (IsNumber p.lexeme → ∀ c ∈ (p.gap ++ textOf ps).toList.head?, c.isDigit = false) ∧
      Unextended ps

/-- The kind of the lexeme. A run of digits is a number and carries its value. -/
def kind (p : Piece) : Token.Kind :=
  if p.lexeme.toList.all Char.isDigit then
    .number (Int64.ofNat (Decimal.value p.lexeme.toList))
  else
    .punctuator

/-- The tokens of pieces, the first of which starts at byte `offset`. -/
def tokensFrom (offset : Nat) : List Piece → List Token
  | [] => []
  | p :: ps =>
    ⟨p.kind, ⟨offset, p.lexeme.utf8ByteSize⟩⟩ ::
      tokensFrom (offset + p.lexeme.utf8ByteSize + p.gap.utf8ByteSize) ps

end Piece

/-- A text written as gaps and lexemes in turn. -/
@[ext]
structure Segmentation where
  /-- The gap before the first lexeme. -/
  margin : String
  pieces : List Piece
  isGap : IsGap margin.toList
  unextended : Piece.Unextended pieces

namespace Segmentation

def text (d : Segmentation) : String := d.margin ++ Piece.textOf d.pieces

/-- The tokens of the lexemes, and the end of the input. -/
def tokens (d : Segmentation) : List Token :=
  Piece.tokensFrom d.margin.utf8ByteSize d.pieces ++ [.endOfInput d.text.utf8ByteSize]

end Segmentation

/-! ## Lexemes as they are written -/

theorem isSymbol_iff {text : String} :
    IsSymbol text ↔ ∃ symbol : Symbol, text = symbol.spelling := by
  constructor
  · intro h
    simp only [IsSymbol, List.mem_cons, List.not_mem_nil, or_false] at h
    rcases h with rfl | rfl | rfl | rfl | rfl | rfl | rfl
    · exact ⟨.operator .eq, rfl⟩
    · exact ⟨.operator .add, rfl⟩
    · exact ⟨.operator .sub, rfl⟩
    · exact ⟨.operator .mul, rfl⟩
    · exact ⟨.operator .div, rfl⟩
    · exact ⟨.leftParen, rfl⟩
    · exact ⟨.rightParen, rfl⟩
  · rintro ⟨symbol, rfl⟩
    rcases symbol with (_ | _ | _ | _ | _) | _ | _ <;>
      simp [IsSymbol, Symbol.spelling, Operator.symbol]

theorem IsNumber.writes {text : String} (h : IsNumber text) :
    (Token.Kind.number (Int64.ofNat (Decimal.value text.toList))).Writes text.toList := by
  obtain ⟨hne, hdigits, hbound⟩ := h
  refine ⟨fun hnil => hne (String.toList_eq_nil_iff.1 hnil), hdigits, by omega, rfl⟩

theorem IsNumber.toInt_ofNat_value {text : String} (h : IsNumber text) :
    (Int64.ofNat (Decimal.value text.toList)).toInt = Decimal.value text.toList := by
  have hbound := h.2.2
  exact Int64.toInt_ofNat_of_lt (by omega)

namespace Piece

theorem kind_of_isNumber {p : Piece} (h : IsNumber p.lexeme) :
    p.kind = .number (Int64.ofNat (Decimal.value p.lexeme.toList)) := by
  have hall : p.lexeme.toList.all Char.isDigit = true := List.all_eq_true.2 h.2.1
  rw [kind, if_pos hall]

theorem kind_of_isSymbol {p : Piece} (h : IsSymbol p.lexeme) : p.kind = .punctuator := by
  obtain ⟨symbol, hsymbol⟩ := isSymbol_iff.1 h
  obtain ⟨c, rest, hc, -, hdigit⟩ := exists_spelling_eq_cons symbol
  have hall : ¬ p.lexeme.toList.all Char.isDigit = true := by
    rw [hsymbol, hc, List.all_cons, hdigit]
    simp
  rw [kind, if_neg hall]

theorem kind_writes (p : Piece) : p.kind.Writes p.lexeme.toList := by
  rcases p.isLexeme with hsymbol | hnumber
  · obtain ⟨symbol, hspelling⟩ := isSymbol_iff.1 hsymbol
    rw [kind_of_isSymbol hsymbol]
    exact ⟨symbol, by rw [hspelling]⟩
  · rw [kind_of_isNumber hnumber]
    exact hnumber.writes

theorem isNumber_of_kind_ne {p : Piece} (h : p.kind ≠ .punctuator) : IsNumber p.lexeme := by
  rcases p.isLexeme with hsymbol | hnumber
  · exact absurd (kind_of_isSymbol hsymbol) h
  · exact hnumber

theorem utf8ByteSize_lexeme (p : Piece) : p.lexeme.utf8ByteSize = p.lexeme.toList.length :=
  utf8ByteSize_eq_length p.kind_writes.utf8Size

end Piece

theorem IsGap.utf8ByteSize_eq {gap : String} (h : IsGap gap.toList) :
    gap.utf8ByteSize = gap.toList.length :=
  utf8ByteSize_eq_length fun c hc => utf8Size_of_mem_blanks (h c hc)

/-- A lexeme of a kind makes a piece of the kind. -/
theorem Token.Kind.Writes.exists_piece {kind : Token.Kind} {text : List Char}
    (h : kind.Writes text) {gap : String} (hgap : IsGap gap.toList) :
    ∃ p : Piece, p.lexeme.toList = text ∧ p.gap = gap ∧ p.kind = kind := by
  cases kind with
  | punctuator =>
    obtain ⟨symbol, rfl⟩ := h
    have hsymbol : IsSymbol symbol.spelling := isSymbol_iff.2 ⟨symbol, rfl⟩
    exact ⟨⟨symbol.spelling, gap, .inl hsymbol, hgap⟩, rfl, rfl, Piece.kind_of_isSymbol hsymbol⟩
  | number value =>
    obtain ⟨hne, hdigits, hbound, rfl⟩ := h
    have hlist : (String.ofList text).toList = text := String.toList_ofList
    have hnumber : IsNumber (String.ofList text) := by
      refine ⟨fun hempty => hne ?_, by rwa [hlist], by rw [hlist]; omega⟩
      rw [← hlist, hempty]
      rfl
    refine ⟨⟨String.ofList text, gap, .inr hnumber, hgap⟩, hlist, rfl, ?_⟩
    rw [Piece.kind_of_isNumber hnumber, hlist]
  | eof => exact h.elim

/-! ## Segmentations and cuts -/

/-- Pieces after a margin are a way to cut their text. -/
theorem Piece.cut {pieces : List Piece} (h : Unextended pieces) {margin : String}
    (hmargin : IsGap margin.toList) (offset : Nat) :
    Cut offset (margin ++ textOf pieces).toList
      (tokensFrom (offset + margin.utf8ByteSize) pieces ++
        [.endOfInput (offset + (margin ++ textOf pieces).utf8ByteSize)]) := by
  induction pieces generalizing margin offset with
  | nil =>
    rw [textOf, String.append_empty, hmargin.utf8ByteSize_eq]
    exact .finish hmargin
  | cons p ps ih =>
    obtain ⟨hmax, hps⟩ := h
    have hrest := ih hps p.isGap (offset + margin.toList.length + p.lexeme.toList.length)
    have hcut := Cut.lexeme hmargin p.kind_writes
      (fun hkind => hmax (isNumber_of_kind_ne hkind)) hrest
    rw [← hmargin.utf8ByteSize_eq, ← p.utf8ByteSize_lexeme] at hcut
    have hend : offset + (margin ++ textOf (p :: ps)).utf8ByteSize =
        offset + margin.utf8ByteSize + p.lexeme.utf8ByteSize +
          (p.gap ++ textOf ps).utf8ByteSize := by
      rw [textOf]
      simp only [String.utf8ByteSize_append]
      omega
    have htext : (margin ++ textOf (p :: ps)).toList =
        margin.toList ++ p.lexeme.toList ++ (p.gap ++ textOf ps).toList := by
      rw [textOf]
      simp only [String.toList_append, List.append_assoc]
    rw [hend, htext, tokensFrom]
    exact hcut

theorem Segmentation.cut (d : Segmentation) : Cut 0 d.text.toList d.tokens := by
  have hcut := Piece.cut d.unextended d.isGap 0
  rwa [Nat.zero_add, Nat.zero_add] at hcut

/-- A text that is cut consists of the gaps and lexemes that it is cut into. -/
theorem Cut.exists_pieces {offset : Nat} {cs : List Char} {tokens : List Token}
    (h : Cut offset cs tokens) : ∃ margin pieces, IsGap margin.toList ∧ Piece.Unextended pieces ∧
      cs = (margin ++ Piece.textOf pieces).toList ∧
      tokens = Piece.tokensFrom (offset + margin.utf8ByteSize) pieces ++
        [.endOfInput (offset + (margin ++ Piece.textOf pieces).utf8ByteSize)] := by
  induction h with
  | @finish offset gap hgap =>
    have hlist : (String.ofList gap).toList = gap := String.toList_ofList
    have hmargin : IsGap (String.ofList gap).toList := by rwa [hlist]
    refine ⟨String.ofList gap, [], hmargin, trivial, ?_, ?_⟩
    · rw [Piece.textOf, String.append_empty, hlist]
    · rw [Piece.textOf, String.append_empty, hmargin.utf8ByteSize_eq, hlist]
      rfl
  | @lexeme offset gap text rest kind tokens hgap htext hmax hrest ih =>
    obtain ⟨after, pieces, hafter, hpieces, rfl, rfl⟩ := ih
    obtain ⟨p, rfl, rfl, rfl⟩ := htext.exists_piece hafter
    have hlist : (String.ofList gap).toList = gap := String.toList_ofList
    have hmargin : IsGap (String.ofList gap).toList := by rwa [hlist]
    have hsize : (String.ofList gap).utf8ByteSize = gap.length := by
      rw [hmargin.utf8ByteSize_eq, hlist]
    refine ⟨String.ofList gap, p :: pieces, hmargin, ⟨fun hnumber => hmax ?_, hpieces⟩, ?_, ?_⟩
    · rw [Piece.kind_of_isNumber hnumber]
      simp
    · rw [Piece.textOf]
      simp only [String.toList_append, hlist, List.append_assoc]
    · rw [Piece.textOf, Piece.tokensFrom, ← hsize, ← p.utf8ByteSize_lexeme]
      simp only [String.utf8ByteSize_append, List.cons_append, Nat.add_assoc]

theorem exists_segmentation_of_cut {source : String} {tokens : List Token}
    (h : Cut 0 source.toList tokens) : ∃ d : Segmentation, d.text = source ∧ d.tokens = tokens := by
  obtain ⟨margin, pieces, hmargin, hpieces, hsource, rfl⟩ := h.exists_pieces
  refine ⟨⟨margin, pieces, hmargin, hpieces⟩, (String.toList_inj.1 hsource).symm, ?_⟩
  rw [Nat.zero_add, Nat.zero_add]
  rfl

/-! ## One segmentation only -/

/-- Texts that are divided after the same number of bytes are divided into the same parts. -/
theorem append_inj_of_utf8ByteSize {u v p q : String} (h : u ++ v = p ++ q)
    (hsize : u.utf8ByteSize = p.utf8ByteSize) : u = p ∧ v = q := by
  obtain ⟨r, rfl, rfl⟩ := exists_append_of_utf8ByteSize_le h (Nat.le_of_eq hsize.symm)
  rw [String.utf8ByteSize_append] at hsize
  obtain rfl : r = "" := String.utf8ByteSize_eq_zero_iff.1 (by omega)
  simp

/-- Where the tokens of pieces stand, together with the text, gives the pieces back. -/
theorem Piece.eq_of_tokensFrom_eq {pieces pieces' : List Piece} {margin margin' : String}
    {offset : Nat} (htext : margin ++ textOf pieces = margin' ++ textOf pieces')
    (htokens : tokensFrom (offset + margin.utf8ByteSize) pieces =
      tokensFrom (offset + margin'.utf8ByteSize) pieces') :
    margin = margin' ∧ pieces = pieces' := by
  induction pieces generalizing margin margin' pieces' offset with
  | nil =>
    cases pieces' with
    | nil =>
      rw [textOf, String.append_empty, String.append_empty] at htext
      exact ⟨htext, rfl⟩
    | cons p' ps' => cases htokens
  | cons p ps ih =>
    cases pieces' with
    | nil => cases htokens
    | cons p' ps' =>
      rw [tokensFrom, tokensFrom] at htokens
      obtain ⟨hfirst, hrest⟩ := List.cons.inj htokens
      obtain ⟨-, hspan⟩ := Token.mk.inj hfirst
      obtain ⟨hstart, hlength⟩ := Span.mk.inj hspan
      obtain ⟨rfl, hafter⟩ := append_inj_of_utf8ByteSize htext (by omega)
      obtain ⟨hlexeme, hafter⟩ := append_inj_of_utf8ByteSize hafter hlength
      rw [hlength] at hrest
      obtain ⟨hgap, rfl⟩ := ih hafter hrest
      exact ⟨rfl, by rw [Piece.ext hlexeme hgap]⟩

theorem Segmentation.eq_of_text_eq {d d' : Segmentation} (h : d.text = d'.text) : d = d' := by
  have htokens : d.tokens = d'.tokens := by
    have hd := tokenize_eq_ok_iff.2 d.cut
    rw [h] at hd
    exact Except.ok.inj (hd.symm.trans (tokenize_eq_ok_iff.2 d'.cut))
  have hlexemes := List.append_inj_left' htokens rfl
  rw [← Nat.zero_add d.margin.utf8ByteSize, ← Nat.zero_add d'.margin.utf8ByteSize] at hlexemes
  obtain ⟨hmargin, hpieces⟩ := Piece.eq_of_tokensFrom_eq h hlexemes
  exact Segmentation.ext hmargin hpieces

/-! ## Spans and what lies between them -/

/-- The span of each token holds its lexeme. -/
theorem Piece.map_text?_tokensFrom {source before : String} {pieces : List Piece}
    (h : source = before ++ textOf pieces) :
    (tokensFrom before.utf8ByteSize pieces).map (Token.text? source) =
      pieces.map fun p => some p.lexeme := by
  induction pieces generalizing before with
  | nil => rfl
  | cons p ps ih =>
    have hfirst : source = before ++ p.lexeme ++ (p.gap ++ textOf ps) := by
      rw [h, textOf, String.append_assoc]
    have hrest : source = (before ++ p.lexeme ++ p.gap) ++ textOf ps := by
      rw [hfirst]
      simp only [String.append_assoc]
    have htext : (Span.mk before.utf8ByteSize p.lexeme.utf8ByteSize).text? source =
        some p.lexeme := by
      rw [hfirst]
      exact Span.text?_append_append rfl rfl
    have htail := ih hrest
    simp only [String.utf8ByteSize_append] at htail
    rw [tokensFrom, List.map_cons, List.map_cons, htail]
    exact congrArg (· :: _) htext

theorem Segmentation.map_text?_tokens (d : Segmentation) :
    d.tokens.map (Token.text? d.text) = (d.pieces.map fun p => some p.lexeme) ++ [some ""] := by
  have hend : (Token.endOfInput d.text.utf8ByteSize).text? d.text = some "" := by
    refine Span.text?_eq_some_iff.2 ⟨d.text, "", ?_, rfl, rfl⟩
    rw [String.append_empty, String.append_empty]
  have htext : d.text = d.margin ++ Piece.textOf d.pieces := rfl
  have hlexemes := Piece.map_text?_tokensFrom htext
  rw [tokens, List.map_append, hlexemes, List.map_singleton, hend]

/-- A token ends before the next one starts. -/
theorem Cut.pairwise_stop_le {offset : Nat} {cs : List Char} {tokens : List Token}
    (h : Cut offset cs tokens) : tokens.Pairwise fun t t' => t.span.stop ≤ t'.span.start := by
  induction h with
  | finish hgap => exact List.pairwise_singleton _ _
  | @lexeme offset gap text rest kind tokens hgap htext hmax hrest ih =>
    exact List.pairwise_cons.2 ⟨hrest.pairwise_start_lt.1, ih⟩

/-- A character that is no blank is part of a token. -/
theorem Cut.exists_span_of_not_blank {offset : Nat} {cs : List Char} {tokens : List Token}
    (h : Cut offset cs tokens) {x y : List Char} {c : Char} (hcs : cs = x ++ c :: y)
    (hc : c ∉ blanks) :
    ∃ t ∈ tokens, t.span.start ≤ offset + x.length ∧ offset + x.length < t.span.stop := by
  induction h generalizing x with
  | @finish offset gap hgap =>
    exact absurd (hgap c (by simp [hcs])) hc
  | @lexeme offset gap text rest kind tokens hgap htext hmax hrest ih =>
    have hafter {x' : List Char} (hx : x = gap ++ text ++ x') (hrest' : rest = x' ++ c :: y) :
        ∃ t ∈ (⟨kind, ⟨offset + gap.length, text.length⟩⟩ :: tokens : List Token),
          t.span.start ≤ offset + x.length ∧ offset + x.length < t.span.stop := by
      obtain ⟨t, ht, hstart, hstop⟩ := ih hrest'
      have hlength : offset + x.length = offset + gap.length + text.length + x'.length := by
        rw [hx, List.length_append, List.length_append]
        omega
      rw [hlength]
      exact ⟨t, List.mem_cons_of_mem _ ht, hstart, hstop⟩
    rcases List.append_eq_append_iff.1 hcs with ⟨x', hx, hrest'⟩ | ⟨y', hlexeme, hy⟩
    · exact hafter hx hrest'
    · rcases List.cons_eq_append_iff.1 hy with ⟨rfl, hrest'⟩ | ⟨y'', rfl, -⟩
      · have hx : x = gap ++ text ++ [] := by rw [hlexeme, List.append_nil, List.append_nil]
        exact hafter hx hrest'
      · -- the character is in the gap, where it cannot be, or in the lexeme after it
        have hget : (gap ++ text)[x.length]? = some c := by simp [hlexeme]
        have hgaple : gap.length ≤ x.length := by
          by_contra hlt
          rw [List.getElem?_append_left (by omega)] at hget
          exact hc (hgap c (List.mem_of_getElem? hget))
        have hlt : x.length < gap.length + text.length := by
          have hlength := congrArg List.length hlexeme
          simp only [List.length_append, List.length_cons] at hlength
          omega
        refine ⟨_, List.mem_cons_self, ?_, ?_⟩
        · show offset + gap.length ≤ offset + x.length
          omega
        · show offset + x.length < offset + gap.length + text.length
          omega

theorem Segmentation.exists_span_of_not_blank (d : Segmentation) {before after : String} {c : Char}
    (h : d.text = before ++ c.toString ++ after) (hc : c ∉ blanks) :
    ∃ t ∈ d.tokens, t.span.start ≤ before.utf8ByteSize ∧
      before.utf8ByteSize + c.utf8Size ≤ t.span.stop := by
  have hlist : d.text.toList = before.toList ++ c :: after.toList := by
    rw [h]
    simp
  have hsize : ∀ e ∈ before.toList ++ c :: after.toList, e.utf8Size = 1 := by
    rw [← hlist]
    exact d.cut.utf8Size
  have hbefore : before.utf8ByteSize = before.toList.length :=
    utf8ByteSize_eq_length fun e he => hsize e (by simp [he])
  obtain ⟨t, ht, hstart, hstop⟩ := d.cut.exists_span_of_not_blank hlist hc
  rw [hbefore, hsize c (by simp)]
  rw [Nat.zero_add] at hstart hstop
  exact ⟨t, ht, hstart, hstop⟩

/-- The lexer is exact and loses nothing. It accepts exactly the texts that are gaps and lexemes in
turn, which a text is in one way only, and gives a token for each lexeme, followed by the end of the
input. The span of a token holds its lexeme and a number has the value of its digits; the spans
follow one another without overlapping, and every character outside of them is a blank. -/
theorem tokenize_exact (source : String) :
    (∀ tokens, tokenize source = .ok tokens ↔
      ∃ d : Segmentation, d.text = source ∧ d.tokens = tokens) ∧
    (∀ d d' : Segmentation, d.text = source → d'.text = source → d = d') ∧
    ∀ d : Segmentation, d.text = source →
      d.tokens.map (Token.text? source) = (d.pieces.map fun p => some p.lexeme) ++ [some ""] ∧
      (∀ p ∈ d.pieces, ∀ v, p.kind = .number v → v.toInt = Decimal.value p.lexeme.toList) ∧
      (d.tokens.Pairwise fun t t' =>
        t.span.start < t'.span.start ∧ t.span.stop ≤ t'.span.start) ∧
      ∀ before c after, source = before ++ c.toString ++ after → c ∉ blanks →
        ∃ t ∈ d.tokens, t.span.start ≤ before.utf8ByteSize ∧
          before.utf8ByteSize + c.utf8Size ≤ t.span.stop := by
  refine ⟨fun tokens => ⟨fun h => ?_, ?_⟩, fun d d' hd hd' => ?_, ?_⟩
  · exact exists_segmentation_of_cut (tokenize_eq_ok_iff.1 h)
  · rintro ⟨d, rfl, rfl⟩
    exact tokenize_eq_ok_iff.2 d.cut
  · exact Segmentation.eq_of_text_eq (hd.trans hd'.symm)
  · rintro d rfl
    refine ⟨d.map_text?_tokens, fun p _ v hv => ?_, ?_, fun before c after h hc => ?_⟩
    · have hnumber := p.isNumber_of_kind_ne (by simp [hv])
      rw [Piece.kind_of_isNumber hnumber] at hv
      obtain rfl := Token.Kind.number.inj hv
      exact hnumber.toInt_ofNat_value
    · exact d.cut.pairwise_start_lt.2.and d.cut.pairwise_stop_le
    · exact d.exists_span_of_not_blank h hc

end ExprCompiler
