import ExprCompiler.Compile
import ExprCompiler.Proofs.Cursor
import ExprCompiler.Proofs.Refusal
import ExprCompiler.Proofs.Scannerless

/-!
# Nothing panics

The functions `tokenize`, `parse`, `caret` and `depth`, carried out with words and slices, never ask
for a number that is no word or a part of the text that is none. A compilation gives what the
compiler gives, the listing or the diagnostic with its caret, on every text (`panic_free`). The same
holds of the parser on tokens that were not made from the text, as long as each of them lies in it.
The ends of the input are exempt, because no parser looks at their text.

A tree that was accepted is not too high, so its height can be counted (`Checked.height_eq`). A text
has at most one more token than bytes, so these can be counted too (`Cut.length_le`).
-/

namespace ExprCompiler

namespace Checked

variable {ε : Type}

/-- Goes on with a fault that was found, but not after a panic. -/
def recover {δ α : Type} (x : Checked ε α) (f : ε → Checked δ α) : Checked δ α :=
  match x with
  | .ok a => .ok a
  | .error (.fault fault) => f fault
  | .error .panic => .error .panic

/-- Refuses a text at a byte offset, with a caret in the text. -/
def refuseAt {α : Type} (phase : Phase) (source : String) (offset : Nat) (detail : String) :
    Checked Diagnostic α := do
  let position ← caret source offset
  .error (.fault ⟨phase, source, position, detail⟩)

def height (limit : Nat) : Expr → Checked ε Nat
  | .literal _ => return 1
  | .binary _ lhs rhs => do
    let left ← height limit lhs
    let right ← height limit rhs
    add limit 1 (max left right)

/-- The tree of hand-made tokens. A recursion deeper than that of all the parentheses that may be
open counts as a panic too. -/
def ofTokens (limit : Nat) (source : String) (tokens : List Token) : Checked Diagnostic Expr :=
  (Stream.parse ⟨limit, source, tokens⟩ fun _ => .error .panic).recover fun fault =>
    refuseAt .syntactic source fault.offset fault.cause.message

/-- The listing of a text. The height of the tree is counted for the log. -/
def compile (limit : Nat) (source : String) : Checked Diagnostic String := do
  let tokens ← (tokenize limit source).recover fun fault =>
    refuseAt .lexical source fault.offset fault.cause.message
  let e ← ofTokens limit source tokens
  let _ ← height limit e
  return Asm.listing e.code

/-! ## Agreement -/

variable {limit : Nat} {source : String}

theorem refuseAt_eq {α : Type} (phase : Phase) (source : String) (offset : Nat) (detail : String) :
    (refuseAt phase source offset detail : Checked Diagnostic α) =
      .error (.fault (.pointAt phase source offset detail)) := by
  rw [refuseAt, caret_eq]
  rfl

theorem height_eq {e : Expr} (h : e.height ≤ limit) :
    (height limit e : Checked ε Nat) = .ok e.height := by
  induction e with
  | literal value => rfl
  | binary op lhs rhs ihl ihr =>
    rw [Expr.height_binary] at h
    rw [height, ihl (by omega), ok_bind, ihr (by omega), ok_bind, add_of_le h]
    rfl

/-- Tokens are parsed without a panic unless one of them cannot be read. -/
theorem ofTokens_eq {tokens : List Token} (hsize : source.utf8ByteSize ≤ limit)
    (hlength : tokens.length ≤ limit) (hlimit : maxHeight < limit) :
    ofTokens limit source tokens =
      match parse source tokens with
      | .ok e => .ok e
      | .error (.fault fault) => .error (.fault (.ofSyntaxFault source fault))
      | .error (.unreadable _) => .error .panic := by
  have hfits : Stream.Fits ⟨limit, source, tokens⟩ := ⟨hsize, hlength, hlimit⟩
  have hagrees := Stream.parse_agrees hfits fun _ => .error .panic
  unfold ofTokens
  generalize parse source tokens = parsed at hagrees ⊢
  generalize Stream.parse _ _ = checked at hagrees ⊢
  cases hagrees with
  | ok h =>
    rw [h]
    rfl
  | fault fault => exact refuseAt_eq .syntactic source fault.offset fault.cause.message
  | unreadable span => rfl

end Checked

theorem Cut.length_le {offset : Nat} {cs : List Char} {tokens : List Token}
    (h : Cut offset cs tokens) : tokens.length ≤ cs.length + 1 := by
  induction h with
  | finish hgap => simp
  | @lexeme offset gap text rest kind tokens hgap htext hmax hrest ih =>
    obtain ⟨c, text', rfl, -⟩ := htext.exists_eq_cons
    simp only [List.length_append, List.length_cons]
    omega

theorem length_le_of_tokenize {source : String} {tokens : List Token}
    (h : tokenize source = .ok tokens) : tokens.length ≤ source.utf8ByteSize + 1 := by
  have hcut := tokenize_eq_ok_iff.1 h
  rw [utf8ByteSize_eq_length hcut.utf8Size]
  exact hcut.length_le

/-- Tokens that lie in the text are parsed or refused without a panic. -/
theorem ofTokens_panic_free {limit : Nat} {source : String} {tokens : List Token}
    (hsize : source.utf8ByteSize ≤ limit) (hlength : tokens.length ≤ limit)
    (hlimit : maxHeight < limit) (hread : ∀ t ∈ tokens, t.Readable source) :
    (∃ e, Expr.ofTokens source tokens = .ok e ∧ Checked.ofTokens limit source tokens = .ok e) ∨
      ∃ d, d.phase = .syntactic ∧ Expr.ofTokens source tokens = .error (.refused d) ∧
        Checked.ofTokens limit source tokens = .error (.fault d) := by
  rw [Checked.ofTokens_eq hsize hlength hlimit]
  unfold Expr.ofTokens
  rcases parse_of_readable hread with ⟨e, he⟩ | ⟨fault, hfault⟩
  · rw [he]
    exact .inl ⟨e, rfl, rfl⟩
  · rw [hfault]
    exact .inr ⟨.ofSyntaxFault source fault, rfl, rfl, rfl⟩

theorem compile_panic_free {limit : Nat} {source : String} (hsize : source.utf8ByteSize < limit)
    (hlimit : maxHeight < limit) :
    (∃ asm, compile source = .ok asm ∧ Checked.compile limit source = .ok asm) ∨
      ∃ d, compile source = .error (.refused d) ∧
        Checked.compile limit source = .error (.fault d) := by
  unfold Checked.compile
  rw [Checked.tokenize_eq (by omega), compile_eq]
  unfold Expr.ofSource
  cases htokens : tokenize source with
  | error fault =>
    refine .inr ⟨.ofLexicalFault source fault, rfl, ?_⟩
    show (Checked.refuseAt .lexical source fault.offset fault.cause.message >>= _) = _
    rw [Checked.refuseAt_eq]
    rfl
  | ok tokens =>
    have hlength := length_le_of_tokenize htokens
    have hread := readable_of_tokenize htokens
    show (∃ asm, (Expr.ofTokens source tokens).map _ = _ ∧
      (Checked.ofTokens limit source tokens >>= _) = _) ∨
      ∃ d, (Expr.ofTokens source tokens).map _ = _ ∧
        (Checked.ofTokens limit source tokens >>= _) = _
    rcases ofTokens_panic_free (by omega) (by omega) hlimit hread with
      ⟨e, he, hchecked⟩ | ⟨d, -, hd, hchecked⟩
    · have hheight := height_le_of_parse htokens (Expr.ofTokens_eq_ok_iff.1 he)
      refine .inl ⟨Asm.listing e.code, ?_, ?_⟩
      · rw [he]
        rfl
      · rw [hchecked, Checked.ok_bind, Checked.height_eq (by omega)]
        rfl
    · rw [hd, hchecked]
      exact .inr ⟨d, rfl, rfl⟩

/-- No text makes a compilation panic, nor do tokens that lie in a text make the parser panic,
whatever the ends of the input among them look like. All that is asked is that the bytes of the text
and the tokens can be counted, and the heights of trees. -/
theorem panic_free (limit : Nat) (source : String) (hsize : source.utf8ByteSize < limit)
    (hlimit : 4096 < limit) :
    ((∃ asm, compile source = .ok asm ∧ Checked.compile limit source = .ok asm) ∨
      ∃ d, compile source = .error (.refused d) ∧
        Checked.compile limit source = .error (.fault d)) ∧
    ∀ tokens : List Token, tokens.length ≤ limit →
      (∀ t ∈ tokens, t.kind ≠ .eof → t.span.LiesIn source) →
      (∃ e, Expr.ofTokens source tokens = .ok e ∧ Checked.ofTokens limit source tokens = .ok e) ∨
        ∃ d, d.phase = .syntactic ∧ Expr.ofTokens source tokens = .error (.refused d) ∧
          Checked.ofTokens limit source tokens = .error (.fault d) := by
  refine ⟨compile_panic_free hsize hlimit, fun tokens hlength hinside => ?_⟩
  have hread : ∀ t ∈ tokens, t.Readable source := fun t ht => by
    by_cases hkind : t.kind = .eof
    · exact .inl hkind
    · exact .inr (hinside t ht hkind)
  exact ofTokens_panic_free (by omega) hlength hlimit hread

/-- Words of 64 bits: a text with a character of more than one byte, and tokens among which an end
of the input lies nowhere, its bytes being past all counting. -/
theorem panic_free_word64 :
    let limit := 2 ^ 64 - 1
    let source := "(é)"
    let tokens : List Token := [⟨.punctuator, ⟨0, 1⟩⟩, ⟨.number 7, ⟨1, 2⟩⟩, ⟨.punctuator, ⟨3, 1⟩⟩,
      ⟨.eof, ⟨2, 2 ^ 64⟩⟩, ⟨.punctuator, ⟨0, 4⟩⟩]
    (source.utf8ByteSize < limit ∧ 4096 < limit ∧ tokens.length ≤ limit ∧
      ∀ t ∈ tokens, t.kind ≠ .eof → t.span.LiesIn source) ∧
    ((∃ asm, compile source = .ok asm ∧ Checked.compile limit source = .ok asm) ∨
      ∃ d, compile source = .error (.refused d) ∧
        Checked.compile limit source = .error (.fault d)) ∧
    ((∃ e, Expr.ofTokens source tokens = .ok e ∧ Checked.ofTokens limit source tokens = .ok e) ∨
      ∃ d, d.phase = .syntactic ∧ Expr.ofTokens source tokens = .error (.refused d) ∧
        Checked.ofTokens limit source tokens = .error (.fault d)) := by
  intro limit source tokens
  have hsize : source.utf8ByteSize < limit := by decide
  have hlimit : 4096 < limit := by decide
  have hlength : tokens.length ≤ limit := by decide
  have hinside : ∀ t ∈ tokens, t.kind ≠ .eof → t.span.LiesIn source := by decide
  have hfree := panic_free limit source hsize hlimit
  exact ⟨⟨hsize, hlimit, hlength, hinside⟩, hfree.1, hfree.2 tokens hlength hinside⟩

end ExprCompiler
