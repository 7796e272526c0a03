import ExprCompiler.Proofs.FirstFault
import ExprCompiler.Proofs.InStep
import ExprCompiler.Proofs.Scannerless

/-!
# Blanks between tokens

Blanks may be put into a source text anywhere but inside a token. `tokenize` then cuts the text into
the same tokens, those after the blanks moved by as much (`Cut.insertGap`), and since parsing does
not depend on where tokens stand (`parse_moved`), the outcome of compilation is the same: the same
listing, or the same message at the place to which the token at fault has moved
(`compile_insert_blanks`).
-/

namespace ExprCompiler

/-! ## Tokens that stand elsewhere -/

/-- The token `t'` is in `source'` what `t` is in `source`, at a corresponding place. -/
structure Token.Moved (source source' : String) (place : Nat → Nat → Prop) (t t' : Token) :
    Prop where
  kind_eq : t'.kind = t.kind
  length_eq : t'.span.length = t.span.length
  text?_eq : t'.text? source' = t.text? source
  start : place t.span.start t'.span.start

/-- The same is wrong, at corresponding places. -/
inductive MovedFailure (place : Nat → Nat → Prop) : ParseFailure → ParseFailure → Prop where
  | fault {n n' : Nat} {cause : SyntaxCause} (h : place n n') :
      MovedFailure place (.fault ⟨n, cause⟩) (.fault ⟨n', cause⟩)
  | unreadable {span span' : Span} (h : place span.start span'.start) :
      MovedFailure place (.unreadable span) (.unreadable span')

section Moved

variable {source source' : String} {place : Nat → Nat → Prop}
  (hend : place source.utf8ByteSize source'.utf8ByteSize)

/-- Two parses of tokens that differ only in where they stand, and that run out together. -/
def relocation : Comparison where
  source := source
  source' := source'
  Failed := MovedFailure place
  Ended tail tail' := tail = [] ∧ tail' = []
  reported := by
    rintro _ _ ⟨rfl, rfl⟩
    exact ⟨_, _, rfl, rfl, .fault hend, .fault hend⟩

theorem Token.Moved.sameToken {t t' : Token} (h : t.Moved source source' place t') :
    (relocation hend).SameToken t t' where
  kind_eq := h.kind_eq
  spells?_eq symbol := by
    show t'.spells? source' symbol = t.spells? source symbol
    unfold Token.spells?
    rw [h.kind_eq, h.length_eq, h.text?_eq]
  describe?_eq := by
    show Token.describe? source' (some t') = Token.describe? source (some t)
    rw [Token.describe?, Token.describe?, h.kind_eq, h.text?_eq]
  unreadable := .unreadable h.start
  fault _ := .fault h.start

include hend

/-- Tokens that differ only in where they stand are parsed alike. -/
theorem parse_moved {tokens tokens' : List Token}
    (h : List.Forall₂ (Token.Moved source source' place) tokens tokens') :
    InStep (MovedFailure place) Eq (parse source tokens) (parse source' tokens') := by
  have halike : (relocation hend).GoOnAlike tokens tokens' := by
    induction h with
    | nil => exact .ends ⟨rfl, rfl⟩
    | cons htoken hrest ih => exact .cons (htoken.sameToken hend) ih
  rcases Comparison.parse_inStep halike with hparse | ⟨tree, _, _, ⟨rfl, rfl⟩, hone, hother⟩
  · exact hparse
  · have hone : parse source tokens = finish source tree [] := hone
    have hother : parse source' tokens' = finish source' tree [] := hother
    rw [hone, hother]
    exact .error (.fault hend)

end Moved

/-! ## Moved offsets -/

/-- Where a byte goes when `width` bytes are put in front of the byte at `split`. -/
def shiftedAt (split width n : Nat) : Nat := if n < split then n else n + width

def Token.shiftedAt (split width : Nat) (token : Token) : Token :=
  ⟨token.kind, ⟨ExprCompiler.shiftedAt split width token.span.start, token.span.length⟩⟩

/-- The place `split` is not strictly inside the token. -/
def Token.Spares (split : Nat) (token : Token) : Prop :=
  ¬ (token.span.start < split ∧ split < token.span.stop)

theorem shiftedAt_of_lt {split width n : Nat} (h : n < split) : shiftedAt split width n = n :=
  if_pos h

theorem shiftedAt_of_le {split width n : Nat} (h : split ≤ n) :
    shiftedAt split width n = n + width :=
  if_neg (by omega)

/-- What starts behind the division moves with its start. -/
theorem shiftedAt_add {split offset : Nat} (h : split ≤ offset) (width n : Nat) :
    shiftedAt split width (offset + n) = offset + width + n := by
  rw [shiftedAt_of_le (by omega)]
  omega

theorem Token.shiftedAt_endOfInput (split width size : Nat) :
    (endOfInput size).shiftedAt split width =
      endOfInput (ExprCompiler.shiftedAt split width size) := rfl

/-! ## The cuts -/

/-- A text that starts later is cut into the same lexemes. -/
theorem Cut.shift {offset split : Nat} {cs : List Char} {tokens : List Token}
    (h : Cut offset cs tokens) (hsplit : split ≤ offset) (width : Nat) :
    Cut (offset + width) cs (tokens.map (Token.shiftedAt split width)) := by
  induction h with
  | @finish offset gap hgap =>
    rw [List.map_singleton, Token.shiftedAt_endOfInput, shiftedAt_add hsplit]
    exact .finish hgap
  | @lexeme offset gap text rest kind tokens hgap htext hmax hrest ih =>
    have htail := ih (by omega)
    rw [show offset + gap.length + text.length + width =
      offset + width + gap.length + text.length by omega] at htail
    rw [List.map_cons, Token.shiftedAt, shiftedAt_add hsplit]
    exact .lexeme hgap htext hmax htail

theorem head_not_digit_insert {x y w : List Char} (hw : IsGap w)
    (h : ∀ c ∈ (x ++ y).head?, c.isDigit = false) :
    ∀ c ∈ (x ++ (w ++ y)).head?, c.isDigit = false := by
  cases x with
  | cons d x => exact h
  | nil =>
    cases w with
    | nil => exact h
    | cons d w => exact hw.head_not_digit

/-- Where a text can be divided without cutting a token in two: in the gap before the first lexeme,
or behind the lexeme. -/
theorem exists_of_spares {gap text rest x y : List Char} {kind : Token.Kind} {offset : Nat}
    (heq : gap ++ text ++ rest = x ++ y)
    (hspares : Token.Spares (offset + x.length) ⟨kind, ⟨offset + gap.length, text.length⟩⟩) :
    (∃ tail, gap = x ++ tail ∧ y = tail ++ text ++ rest) ∨
      ∃ x', x = gap ++ text ++ x' ∧ rest = x' ++ y := by
  rw [List.append_assoc] at heq
  rcases List.append_eq_append_iff.1 heq with ⟨u, rfl, hu⟩ | ⟨tail, hgap, hy⟩
  · rcases List.append_eq_append_iff.1 hu with ⟨x', rfl, hrest⟩ | ⟨v, rfl, hy⟩
    · exact .inr ⟨x', by simp, hrest⟩
    · -- `u` is the part of the lexeme before the division, so it is nothing or all of it
      simp only [Token.Spares, Span.stop, List.length_append] at hspares
      cases u with
      | nil => exact .inl ⟨[], by simp, by simpa using hy⟩
      | cons c u =>
        have hv : v = [] := by
          apply List.eq_nil_of_length_eq_zero
          simp only [List.length_cons] at hspares
          omega
        subst hv
        exact .inr ⟨[], by simp, by simpa using hy.symm⟩
  · exact .inl ⟨tail, hgap, by rw [hy, List.append_assoc]⟩

/-- Blanks between two tokens leave the tokens as they are and move those that come later. -/
theorem Cut.insertGap {offset : Nat} {x y w : List Char} {tokens : List Token}
    (h : Cut offset (x ++ y) tokens)
    (hspares : ∀ token ∈ tokens, token.Spares (offset + x.length)) (hw : IsGap w) :
    Cut offset (x ++ (w ++ y)) (tokens.map (Token.shiftedAt (offset + x.length) w.length)) := by
  generalize hcs : x ++ y = cs at h
  induction h generalizing x with
  | @finish offset gap hgap =>
    subst hcs
    obtain ⟨hx, hy⟩ := isGap_append.1 hgap
    have hend : shiftedAt (offset + x.length) w.length (offset + (x ++ y).length) =
        offset + (x ++ (w ++ y)).length := by
      rw [shiftedAt_of_le (by simp)]
      simp only [List.length_append]
      omega
    rw [List.map_singleton, Token.shiftedAt_endOfInput, hend]
    exact .finish (isGap_append.2 ⟨hx, isGap_append.2 ⟨hw, hy⟩⟩)
  | @lexeme offset gap text rest kind tokens hgap htext hmax hrest ih =>
    rcases exists_of_spares hcs.symm (hspares _ List.mem_cons_self) with
      ⟨tail, rfl, rfl⟩ | ⟨x', rfl, rfl⟩
    · -- the blanks make the first gap longer, and everything after it moves
      obtain ⟨hx, htail⟩ := isGap_append.1 hgap
      have hgap' : IsGap (x ++ (w ++ tail)) := isGap_append.2 ⟨hx, isGap_append.2 ⟨hw, htail⟩⟩
      have hbefore : offset + x.length ≤ offset + (x ++ tail).length + text.length := by
        simp only [List.length_append]
        omega
      have hmoved := hrest.shift hbefore w.length
      have hlength : offset + (x ++ tail).length + w.length =
          offset + (x ++ (w ++ tail)).length := by
        simp only [List.length_append]
        omega
      rw [show offset + (x ++ tail).length + text.length + w.length =
        offset + (x ++ (w ++ tail)).length + text.length by omega] at hmoved
      have hcut := Cut.lexeme hgap' htext hmax hmoved
      rw [List.map_cons, Token.shiftedAt, shiftedAt_of_le (by simp), hlength]
      simpa only [List.append_assoc] using hcut
    · -- the first token stands before the blanks
      obtain ⟨c, text', rfl, -⟩ := htext.exists_eq_cons
      have hplace : offset + (gap ++ (c :: text') ++ x').length =
          offset + gap.length + (c :: text').length + x'.length := by
        simp only [List.length_append]
        omega
      rw [hplace] at hspares ⊢
      have htail := ih (fun token htoken => hspares token (by simp [htoken])) rfl
      have hcut := Cut.lexeme hgap htext
        (fun hkind => head_not_digit_insert hw (hmax hkind)) htail
      have hfirst : offset + gap.length <
          offset + gap.length + (c :: text').length + x'.length := by
        simp only [List.length_cons]
        omega
      rw [List.map_cons, Token.shiftedAt, shiftedAt_of_lt hfirst]
      simpa only [List.append_assoc] using hcut

/-! ## The texts of the tokens -/

/-- A token keeps its text when something is put in between tokens. -/
theorem Token.text?_shiftedAt {a b w text : String} {token : Token}
    (h : token.text? (a ++ b) = some text) (hspares : token.Spares a.utf8ByteSize) :
    (token.shiftedAt a.utf8ByteSize w.utf8ByteSize).text? (a ++ w ++ b) = some text := by
  obtain ⟨before, after, hsource, hstart, hlength⟩ := Span.text?_eq_some_iff.1 h
  refine Span.text?_eq_some_iff.2 ?_
  by_cases hlt : token.span.start < a.utf8ByteSize
  · have hstop : (before ++ text).utf8ByteSize ≤ a.utf8ByteSize := by
      rw [String.utf8ByteSize_append, hstart, hlength]
      simp only [Spares, Span.stop] at hspares
      omega
    obtain ⟨r, ha, -⟩ := exists_append_of_utf8ByteSize_le hsource hstop
    refine ⟨before, r ++ w ++ b, ?_, ?_, hlength⟩
    · rw [ha]
      simp only [String.append_assoc]
    · rw [hstart]
      exact (ExprCompiler.shiftedAt_of_lt hlt).symm
  · rw [String.append_assoc] at hsource
    have hle : a.utf8ByteSize ≤ before.utf8ByteSize := by omega
    obtain ⟨r, hbefore, hb⟩ := exists_append_of_utf8ByteSize_le hsource.symm hle
    refine ⟨a ++ w ++ r, after, ?_, ?_, hlength⟩
    · rw [hb]
      simp only [String.append_assoc]
    · have hsize := congrArg String.utf8ByteSize hbefore
      simp only [String.utf8ByteSize_append] at hsize ⊢
      rw [Token.shiftedAt, ExprCompiler.shiftedAt_of_le (by omega)]
      show _ = token.span.start + w.utf8ByteSize
      omega

/-! ## Compilation -/

section Insert

variable {a b w : String} {tokens : List Token}

theorem tokenize_insert (htokens : tokenize (a ++ b) = .ok tokens)
    (hspares : ∀ token ∈ tokens, token.Spares a.utf8ByteSize) (hw : ∀ c ∈ w.toList, c ∈ blanks) :
    tokenize (a ++ w ++ b) =
      .ok (tokens.map (Token.shiftedAt a.utf8ByteSize w.utf8ByteSize)) := by
  have hcut := tokenize_eq_ok_iff.1 htokens
  rw [String.toList_append] at hcut
  have ha : a.utf8ByteSize = 0 + a.toList.length := by
    rw [Nat.zero_add]
    exact utf8ByteSize_eq_length fun c hc => hcut.utf8Size c (by simp [hc])
  have hwsize : w.utf8ByteSize = w.toList.length :=
    utf8ByteSize_eq_length fun c hc => utf8Size_of_mem_blanks (hw c hc)
  rw [ha] at hspares ⊢
  rw [hwsize, tokenize_eq_ok_iff, String.toList_append, String.toList_append, List.append_assoc]
  exact hcut.insertGap hspares hw

/-- Where a byte offset goes when `w` is put between `a` and `b`; both offsets are places of the
texts, which a caret can point at. -/
def InsertedPlace (a b w : String) (n n' : Nat) : Prop :=
  n' = shiftedAt a.utf8ByteSize w.utf8ByteSize n ∧
    (Position.atMost (a ++ b) n).offset = n ∧ (Position.atMost (a ++ w ++ b) n').offset = n'

theorem insertedPlace_end (a b w : String) :
    InsertedPlace a b w (a ++ b).utf8ByteSize (a ++ w ++ b).utf8ByteSize := by
  refine ⟨?_, by rw [Position.atMost_utf8ByteSize], by rw [Position.atMost_utf8ByteSize]⟩
  rw [shiftedAt_of_le (by simp)]
  simp only [String.utf8ByteSize_append]
  omega

theorem moved_insert (htokens : tokenize (a ++ b) = .ok tokens)
    (hspares : ∀ token ∈ tokens, token.Spares a.utf8ByteSize)
    (htokens' : tokenize (a ++ w ++ b) =
      .ok (tokens.map (Token.shiftedAt a.utf8ByteSize w.utf8ByteSize))) :
    List.Forall₂ (Token.Moved (a ++ b) (a ++ w ++ b) (InsertedPlace a b w)) tokens
      (tokens.map (Token.shiftedAt a.utf8ByteSize w.utf8ByteSize)) := by
  rw [List.forall₂_map_right_iff, List.forall₂_same]
  intro token htoken
  obtain ⟨text, htext, -⟩ := exists_text?_of_tokenize htokens token htoken
  refine ⟨rfl, rfl, ?_, rfl, atMost_start_of_tokenize htokens htoken,
    atMost_start_of_tokenize htokens' (List.mem_map_of_mem htoken)⟩
  rw [htext]
  exact Token.text?_shiftedAt htext (hspares token htoken)

/-- Blanks that are not put inside a token change nothing but the place of a syntax error, which
moves with the token at fault. -/
theorem compile_insert_blanks (htokens : tokenize (a ++ b) = .ok tokens)
    (hsplit : ∀ token ∈ tokens,
      ¬ (token.span.start < a.utf8ByteSize ∧ a.utf8ByteSize < token.span.stop))
    (hw : ∀ c ∈ w.toList, c ∈ blanks) :
    (∀ asm, compile (a ++ w ++ b) = .ok asm ↔ compile (a ++ b) = .ok asm) ∧
    ∀ d, compile (a ++ b) = .error (.refused d) → d.phase = .syntactic ∧
      ∃ d', compile (a ++ w ++ b) = .error (.refused d') ∧ d'.phase = .syntactic ∧
        d'.detail = d.detail ∧
        d'.position.offset =
          if d.position.offset < a.utf8ByteSize then d.position.offset
          else d.position.offset + w.utf8ByteSize := by
  have htokens' := tokenize_insert htokens hsplit hw
  have hparse := parse_moved (insertedPlace_end a b w)
    (moved_insert htokens hsplit htokens')
  rw [compile_of_tokenize htokens, compile_of_tokenize htokens']
  generalize parse (a ++ b) tokens = x at hparse
  generalize parse (a ++ w ++ b) (tokens.map _) = x' at hparse
  cases hparse with
  | ok h =>
    subst h
    exact ⟨fun asm => Iff.rfl, nofun⟩
  | error hfailed =>
    refine ⟨fun asm => iff_of_false nofun nofun, ?_⟩
    cases hfailed with
    | unreadable h => exact nofun
    | @fault n n' cause h =>
      obtain ⟨hplace, hn, hn'⟩ := h
      intro d hd
      cases hd
      refine ⟨rfl, _, rfl, rfl, rfl, ?_⟩
      show (Position.atMost (a ++ w ++ b) n').offset =
        shiftedAt a.utf8ByteSize w.utf8ByteSize (Position.atMost (a ++ b) n).offset
      rw [hn, hn', hplace]

set_option maxRecDepth 4000 in
/-- In `(1 3` the second number is at fault, and blanks before it move the place of the error. -/
theorem compile_insert_blanks_before_fault :
    let tokens : List Token := [⟨.punctuator, ⟨0, 1⟩⟩, ⟨.number 1, ⟨1, 1⟩⟩, ⟨.number 3, ⟨3, 1⟩⟩,
      .endOfInput 4]
    tokenize ("(1 " ++ "3") = .ok tokens ∧
      (∀ token ∈ tokens, ¬ (token.span.start < 3 ∧ 3 < token.span.stop)) ∧
      ∃ d, compile ("(1 " ++ "\t\x0b" ++ "3") = .error (.refused d) ∧
        d.detail = "expected \")\", but got \"3\"" ∧ d.position.offset = 5 := by
  intro tokens
  have htokens : tokenize ("(1 " ++ "3") = .ok tokens := by cbv
  have hparse : parse ("(1 " ++ "3") tokens = .error (.fault ⟨3, .unclosed "3"⟩) := by cbv
  have hcompile : compile ("(1 " ++ "3") =
      .error (.refused (.ofSyntaxFault ("(1 " ++ "3") ⟨3, .unclosed "3"⟩)) := by
    rw [compile_of_tokenize htokens, hparse]
    rfl
  have hsplit : ∀ token ∈ tokens, ¬ (token.span.start < 3 ∧ 3 < token.span.stop) := by decide
  have hblank : ∀ c ∈ "\t\x0b".toList, c ∈ blanks := by simp [blanks]
  obtain ⟨-, d, hd, -, hdetail, hoffset⟩ :=
    (compile_insert_blanks htokens hsplit hblank).2 _ hcompile
  exact ⟨htokens, hsplit, d, hd, hdetail, hoffset⟩

end Insert

end ExprCompiler
