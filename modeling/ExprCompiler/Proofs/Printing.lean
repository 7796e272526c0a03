import ExprCompiler.Proofs.Assembly
import ExprCompiler.Proofs.Scannerless

/-!
# Printing expressions

A tree is printed with as few parentheses as possible. An operand that is an operator node is put in
parentheses if its operator binds looser than the operator it belongs to; a right operand also if
both bind alike, since operators that bind alike group to the left. `parse_print` says that `parse`
reads the text as the tree it was printed from.

`Operator.precedence` is a table of its own. That it agrees with the levels of the grammar is what
the proof has to find out: the text of a tree is a phrase of the level of its root
(`Expr.printedAt_level`), and an operand without parentheses is on a level where the grammar
takes it.
-/

namespace ExprCompiler

/-- How tightly an operator binds its operands. -/
def Operator.precedence : Operator → Nat
  | .eq => 0
  | .add | .sub => 1
  | .mul | .div => 2

namespace Expr

/-- The operator of a tree that is not a literal. -/
def operator? : Expr → Option Operator
  | .literal _ => none
  | .binary op _ _ => some op

def literals : Expr → List Int64
  | .literal value => [value]
  | .binary _ lhs rhs => lhs.literals ++ rhs.literals

/-- A text in parentheses if they are needed. -/
def enclose (needed : Bool) (text : String) : String :=
  if needed then "(" ++ text ++ ")" else text

/-- A tree as a source text, without parentheses that are not needed. -/
def print : Expr → String
  | .literal value => Decimal.text value.toInt
  | .binary op lhs rhs =>
    enclose (lhs.operator?.any fun inner => inner.precedence < op.precedence) lhs.print ++
      op.symbol ++
      enclose (rhs.operator?.any fun inner => inner.precedence ≤ op.precedence) rhs.print

end Expr

/-! ## Levels -/

theorem Level.exists_tighter {L : Level} (h : L ≠ .primary) : ∃ L', L.tighter? = some L' := by
  cases L with
  | primary => exact absurd rfl h
  | _ => exact ⟨_, rfl⟩

theorem Level.tightness_le_primary (L : Level) : L.tightness ≤ Level.primary.tightness := by
  cases L <;> decide

theorem Level.eq_of_tightness_eq {L L' : Level} (h : L.tightness = L'.tightness) : L = L' := by
  revert h
  cases L <;> cases L' <;> decide

/-- An expression of a level is one of every looser level. -/
theorem Phrase.loosen {α : Type} {lex : Lexicon α} {L L' : Level} {w : List α} {s : Surface}
    (h : Phrase lex L' w s) (hle : L.tightness ≤ L'.tightness) : Phrase lex L w s := by
  by_cases heq : L.tightness = L'.tightness
  · rw [Level.eq_of_tightness_eq heq]
    exact h
  · have hne : L ≠ .primary := by
      rintro rfl
      have := L'.tightness_le_primary
      omega
    obtain ⟨M, hM⟩ := Level.exists_tighter hne
    have htight := Level.tightness_of_tighter hM
    exact .tighter hM (loosen h (by omega))
termination_by L'.tightness - L.tightness

theorem Operator.tightness_level (op : Operator) : op.level.tightness = op.precedence := by
  cases op <;> rfl

theorem Operator.mem_operators_level (op : Operator) : op ∈ op.level.operators := by
  cases op <;> decide

theorem Operator.level_ne_primary (op : Operator) : op.level ≠ .primary := by
  cases op <;> decide

namespace Expr

/-- The level of the grammar that a tree is printed on. -/
def level : Expr → Level
  | .literal _ => .primary
  | .binary op _ _ => op.level

/-- A tree that needs no parentheses beside an operator is on a level that the operator takes. -/
theorem le_tightness_level {e : Expr} {bound : Nat} (hbound : bound ≤ Level.primary.tightness)
    (h : ∀ inner ∈ e.operator?, bound ≤ inner.precedence) : bound ≤ e.level.tightness := by
  cases e with
  | literal value => exact hbound
  | binary op lhs rhs =>
    rw [level, op.tightness_level]
    exact h op rfl

/-! ## Printed texts are phrases -/

/-- A literal that is not negative is printed as its digits. -/
theorem number_print {value : Int64} (h : 0 ≤ value) :
    textLexicon.number value (literal value).print.toList := by
  have hnonneg : 0 ≤ value.toInt := Int64.le_iff_toInt_le.1 h
  have htext : (literal value).print.toList = Nat.toDigits 10 value.toInt.toNat := by
    rw [print, Decimal.text, Int.repr_eq_if, if_pos hnonneg, Nat.toList_repr]
  have hvalue : Decimal.value (Nat.toDigits 10 value.toInt.toNat) = value.toInt.toNat := by
    rw [Decimal.value, Nat.ofDigitChars_ten_toDigits]
  have hlt := value.toInt_lt
  refine ⟨[], Nat.toDigits 10 value.toInt.toNat, htext, isGap_nil, Nat.toDigits_ne_nil,
    fun c hc => Asm.isDigit_of_mem_toDigits hc, ?_, ?_⟩
  · rw [hvalue]
    omega
  · rw [hvalue, ← Int64.ofInt_eq_ofNat, Int.toNat_of_nonneg hnonneg, Int64.ofInt_toInt]

/-- `text` is an expression of level `L` with the tree `e`. -/
def PrintedAt (L : Level) (text : String) (e : Expr) : Prop :=
  ∃ s, Phrase textLexicon L text.toList s ∧ s.tree = e

theorem PrintedAt.enclose {e : Expr} {text : String} {L L' : Level} (h : PrintedAt L' text e)
    {needed : Bool} (hneeded : needed = false → L.tightness ≤ L'.tightness) :
    PrintedAt L (enclose needed text) e := by
  obtain ⟨s, hs, htree⟩ := h
  cases needed with
  | false => exact ⟨s, hs.loosen (hneeded rfl), htree⟩
  | true =>
    have hparen : Phrase textLexicon .primary (['('] ++ text.toList ++ [')']) (.paren s) :=
      .paren ⟨[], rfl, isGap_nil⟩ (hs.loosen (Nat.zero_le _)) ⟨[], rfl, isGap_nil⟩
    refine ⟨.paren s, ?_, htree⟩
    have htext : (Expr.enclose true text).toList = ['('] ++ text.toList ++ [')'] := by
      simp [Expr.enclose]
    rw [htext]
    exact hparen.loosen L.tightness_le_primary

/-- A tree is printed as an expression of the level of its operator. -/
theorem printedAt_level {e : Expr} (h : ∀ v ∈ e.literals, 0 ≤ v) :
    PrintedAt e.level e.print e := by
  induction e with
  | literal value => exact ⟨.number value, .number (number_print (h value (by simp [literals]))), rfl⟩
  | binary op lhs rhs ihl ihr =>
    obtain ⟨L, hL⟩ := Level.exists_tighter op.level_ne_primary
    have htight := Level.tightness_of_tighter hL
    have hbound := L.tightness_le_primary
    rw [op.tightness_level] at htight
    have hleft : PrintedAt op.level
        (enclose (lhs.operator?.any fun inner => inner.precedence < op.precedence) lhs.print)
        lhs := by
      refine (ihl fun v hv => h v (by simp [literals, hv])).enclose fun hneeded => ?_
      rw [op.tightness_level]
      refine le_tightness_level (by omega) fun inner hinner => ?_
      rw [Option.mem_def.1 hinner] at hneeded
      simpa using hneeded
    have hright : PrintedAt L
        (enclose (rhs.operator?.any fun inner => inner.precedence ≤ op.precedence) rhs.print)
        rhs := by
      refine (ihr fun v hv => h v (by simp [literals, hv])).enclose fun hneeded => ?_
      refine le_tightness_level hbound fun inner hinner => ?_
      rw [Option.mem_def.1 hinner] at hneeded
      have hlt : op.precedence < inner.precedence := by simpa using hneeded
      omega
    obtain ⟨l, hl, rfl⟩ := hleft
    obtain ⟨r, hr, rfl⟩ := hright
    refine ⟨.binary op l r, ?_, rfl⟩
    rw [print, String.toList_append, String.toList_append]
    exact .binary hL op.mem_operators_level hl ⟨[], rfl, isGap_nil⟩ hr

end Expr

/-- A tree without negative literals that is within the limits is read back from its text, as the
very same tree. -/
theorem parse_print {e : Expr} (hliterals : ∀ v ∈ e.literals, 0 ≤ v) (hheight : e.height ≤ 4096)
    (hnested : NestedWithin '(' ')' 256 e.print.toList) :
    ∃ tokens, tokenize e.print = .ok tokens ∧ parse e.print tokens = .ok e := by
  obtain ⟨s, hs, rfl⟩ := Expr.printedAt_level hliterals
  have hderives : Derives s.tree.print.toList s :=
    ⟨s.tree.print.toList, [], by simp, isGap_nil, hs.loosen (Nat.zero_le _)⟩
  refine (exists_parse_iff_derives s.tree).2 ⟨s, hderives, rfl, ?_, hheight⟩
  exact (hderives.nestedWithin_iff 256).1 hnested

/-- Parentheses stay around a right operand that binds alike and around a looser left operand; the
other operands go without. -/
theorem parse_print_mixed :
    let e : Expr := .binary .sub (.literal 1) (.binary .sub
      (.binary .mul (.binary .add (.literal 2) (.literal 3)) (.literal 4)) (.literal 5))
    e.print = "1-((2+3)*4-5)" ∧
      ∃ tokens, tokenize e.print = .ok tokens ∧ parse e.print tokens = .ok e := by
  intro e
  have hprint : e.print = "1-((2+3)*4-5)" := by decide
  refine ⟨hprint, parse_print (by simp [e, Expr.literals]) (by simp [e]) ?_⟩
  intro p hp
  have hcount := hp.sublist.count_le '('
  rw [hprint] at hcount
  exact Nat.le_trans (Nat.le_trans hcount (by decide)) (Nat.le_add_right 256 _)

end ExprCompiler
