import ExprCompiler.Compile
import ExprCompiler.Proofs.Printing

/-!
# Putting source texts together

Expressions in parentheses, signed or joined by an operator, make a larger expression. What
`generate_assembly` makes of the larger text is decided by its parts: it has the tree that the trees
of the parts make, and its code is theirs one after the other, as long as there is room for one more
pair of parentheses around each part and for one more node above it. Otherwise it is refused for its
size (`compile_of_parts`).

The parts need not be compiled again to see this. A text that is compiled is an expression of the
grammar over characters, and that grammar can be composed; the limits are read off the expression.
-/

namespace ExprCompiler

open Asm

/-! ## The outcome of a text that is an expression -/

section Outcome

variable {source : String}

/-- The text is refused for its size. -/
def RefusedTooDeep {α : Type} (result : Except CompileError α) : Prop :=
  ∃ d, result = .error (.refused d) ∧ d.phase = .syntactic ∧
    d.detail = "expression nested too deeply"

/-- The text is compiled from the tree `e` if `fits` holds, and refused for its size otherwise. -/
def CompiledIf (fits : Prop) (source : String) (e : Expr) : Prop :=
  (fits → Expr.ofSource source = .ok e ∧ compile source = .ok (listing e.code)) ∧
    (¬ fits → RefusedTooDeep (compile source))

/-- A text that is an expression is compiled unless the expression is out of bounds. -/
theorem Derives.compiledIf {s : Surface} (h : Derives source.toList s) :
    CompiledIf (s.Within maxNesting) source s.tree := by
  obtain ⟨body, size, htokens, hphrase⟩ := h.exists_tokens
  have hread : ∀ t ∈ body, t.Readable source := fun t ht =>
    readable_of_tokenize htokens t (by simp [ht])
  have hparse := hphrase.settles_parse hread (e := .endOfInput size) rfl []
  constructor
  · intro hwithin
    rcases hparse with ⟨-, hok⟩ | ⟨hout, -⟩
    · refine ⟨Expr.ofSource_eq_ok_iff.2 ⟨_, htokens, hok⟩, ?_⟩
      rw [compile_of_tokenize htokens, hok]
      rfl
    · exact absurd hwithin hout
  · intro hout
    rcases hparse with ⟨hwithin, -⟩ | ⟨-, offset, hdeep⟩
    · exact absurd hwithin hout
    · refine ⟨.ofSyntaxFault source ⟨offset, .nestedTooDeeply⟩, ?_, rfl, rfl⟩
      rw [compile_of_tokenize htokens, hdeep]
      rfl

theorem CompiledIf.congr {fits fits' : Prop} {e : Expr} (h : CompiledIf fits source e)
    (hiff : fits ↔ fits') : CompiledIf fits' source e := by
  rwa [← propext hiff]

/-- A text that has a tree is an expression within the limits. -/
theorem exists_derives_of_ofSource {a : Expr} (h : Expr.ofSource source = .ok a) :
    ∃ s, Derives source.toList s ∧ s.tree = a ∧ s.Within maxNesting :=
  (exists_parse_iff_derives a).1 (Expr.ofSource_eq_ok_iff.1 h)

end Outcome

/-! ## Expressions made of expressions -/

/-- Blanks after an expression come before the parenthesis that closes it. -/
theorem Derives.paren {cs : List Char} {s : Surface} (h : Derives cs s) :
    Phrase textLexicon .primary ('(' :: cs ++ [')']) (.paren s) := by
  obtain ⟨body, gap, rfl, hgap, hs⟩ := h
  have hleft : textLexicon.symbol .leftParen ['('] := ⟨[], rfl, isGap_nil⟩
  have hright : textLexicon.symbol .rightParen (gap ++ [')']) := ⟨gap, rfl, hgap⟩
  have hphrase := Phrase.paren hleft hs hright
  simpa only [List.append_assoc, List.cons_append, List.nil_append] using hphrase

theorem Phrase.derives {L : Level} {cs : List Char} {s : Surface} (h : Phrase textLexicon L cs s) :
    Derives cs s :=
  ⟨cs, [], by simp, isGap_nil, h.loosen (Nat.zero_le _)⟩

section Parts

variable {s₁ s₂ : String} {l r : Surface}

theorem derives_enclosed (h : Derives s₁.toList l) :
    Derives ("(" ++ s₁ ++ ")").toList (.paren l) := by
  have htext : ("(" ++ s₁ ++ ")").toList = '(' :: s₁.toList ++ [')'] := by simp
  rw [htext]
  exact h.paren.derives

theorem derives_plus_enclosed (h : Derives s₁.toList l) :
    Derives ("+(" ++ s₁ ++ ")").toList (.plus (.paren l)) := by
  have htext : ("+(" ++ s₁ ++ ")").toList = ['+'] ++ ('(' :: s₁.toList ++ [')']) := by simp
  have hsign : textLexicon.symbol (.operator .add) ['+'] := ⟨[], rfl, isGap_nil⟩
  rw [htext]
  exact (Phrase.plus hsign h.paren).derives

theorem derives_minus_enclosed (h : Derives s₁.toList l) :
    Derives ("-(" ++ s₁ ++ ")").toList (.minus (.paren l)) := by
  have htext : ("-(" ++ s₁ ++ ")").toList = ['-'] ++ ('(' :: s₁.toList ++ [')']) := by simp
  have hsign : textLexicon.symbol (.operator .sub) ['-'] := ⟨[], rfl, isGap_nil⟩
  rw [htext]
  exact (Phrase.minus hsign h.paren).derives

/-- Parentheses let an operand of any shape stand on either side of any operator. -/
theorem derives_binary_enclosed (hl : Derives s₁.toList l) (hr : Derives s₂.toList r)
    (op : Operator) :
    Derives ("(" ++ s₁ ++ ")" ++ op.symbol ++ "(" ++ s₂ ++ ")").toList
      (.binary op (.paren l) (.paren r)) := by
  have htext : ("(" ++ s₁ ++ ")" ++ op.symbol ++ "(" ++ s₂ ++ ")").toList =
      ('(' :: s₁.toList ++ [')']) ++ op.symbol.toList ++ ('(' :: s₂.toList ++ [')']) := by simp
  obtain ⟨L, hL⟩ := Level.exists_tighter op.level_ne_primary
  have hoperator : textLexicon.symbol (.operator op) op.symbol.toList := ⟨[], rfl, isGap_nil⟩
  have hleft : Phrase textLexicon op.level _ _ := hl.paren.loosen op.level.tightness_le_primary
  have hright : Phrase textLexicon L _ _ := hr.paren.loosen L.tightness_le_primary
  rw [htext]
  exact (Phrase.binary hL op.mem_operators_level hleft hoperator hright).derives

end Parts

/-! ## The limits of the whole -/

/-- A part within the limits stays within them in parentheses exactly if there is room for one more
pair. -/
theorem Surface.within_paren {s : Surface} (h : s.Within maxNesting) :
    (Surface.paren s).Within maxNesting ↔ s.nesting ≤ 255 := by
  have hheight := h.2
  simp only [Within, nesting, tree, maxNesting] at hheight ⊢
  omega

theorem Surface.within_minus_paren (s : Surface) :
    (Surface.minus (.paren s)).Within maxNesting ↔ s.nesting ≤ 255 ∧ s.tree.height ≤ 4095 := by
  have hpos := s.tree.height_pos
  simp only [Within, nesting, tree, Expr.height_binary, Expr.height_literal, maxNesting, maxHeight]
  omega

theorem Surface.within_binary_paren (op : Operator) (l r : Surface) :
    (Surface.binary op (.paren l) (.paren r)).Within maxNesting ↔
      l.nesting ≤ 255 ∧ r.nesting ≤ 255 ∧ l.tree.height ≤ 4095 ∧ r.tree.height ≤ 4095 := by
  simp only [Within, nesting, tree, Expr.height_binary, maxNesting, maxHeight]
  omega

/-- A text made of smaller ones, each in parentheses, is compiled from the tree that the trees of
the parts make if there is room for one more pair of parentheses and one more node; otherwise it is
refused for its size. The code between the header and the epilogue is that of the parts, followed by
what depends on the operator alone. -/
theorem compile_of_parts {s₁ s₂ : String} {a₁ a₂ : Expr} (h₁ : Expr.ofSource s₁ = .ok a₁)
    (h₂ : Expr.ofSource s₂ = .ok a₂) (op : Operator) :
    CompiledIf
      (NestedWithin '(' ')' 255 s₁.toList ∧ NestedWithin '(' ')' 255 s₂.toList ∧
        a₁.height ≤ 4095 ∧ a₂.height ≤ 4095)
      ("(" ++ s₁ ++ ")" ++ op.symbol ++ "(" ++ s₂ ++ ")") (.binary op a₁ a₂) ∧
    (∃ body₁ body₂, compile s₁ = .ok (header ++ body₁ ++ lines epilogue) ∧
      compile s₂ = .ok (header ++ body₂ ++ lines epilogue) ∧
      listing (Expr.binary op a₁ a₂).code =
        header ++ (body₁ ++ body₂ ++ lines (applyCode op)) ++ lines epilogue) ∧
    CompiledIf (NestedWithin '(' ')' 255 s₁.toList) ("(" ++ s₁ ++ ")") a₁ ∧
    CompiledIf (NestedWithin '(' ')' 255 s₁.toList) ("+(" ++ s₁ ++ ")") a₁ ∧
    CompiledIf (NestedWithin '(' ')' 255 s₁.toList ∧ a₁.height ≤ 4095) ("-(" ++ s₁ ++ ")")
      (.binary .sub (.literal 0) a₁) := by
  obtain ⟨l, hl, rfl, hlwithin⟩ := exists_derives_of_ofSource h₁
  obtain ⟨r, hr, rfl, hrwithin⟩ := exists_derives_of_ofSource h₂
  have hopen : l.nesting ≤ 255 ↔ NestedWithin '(' ')' 255 s₁.toList :=
    (hl.nestedWithin_iff 255).symm
  have hopen' : r.nesting ≤ 255 ↔ NestedWithin '(' ')' 255 s₂.toList :=
    (hr.nestedWithin_iff 255).symm
  refine ⟨?_, ⟨lines l.tree.code, lines r.tree.code, ?_, ?_, ?_⟩, ?_, ?_, ?_⟩
  · rw [← hopen, ← hopen']
    exact (derives_binary_enclosed hl hr op).compiledIf.congr (Surface.within_binary_paren op l r)
  · exact (hl.compiledIf.1 hlwithin).2
  · exact (hr.compiledIf.1 hrwithin).2
  · rw [Expr.code_binary, listing, lines_append, lines_append]
  · rw [← hopen]
    exact (derives_enclosed hl).compiledIf.congr (Surface.within_paren hlwithin)
  · rw [← hopen]
    exact (derives_plus_enclosed hl).compiledIf.congr (Surface.within_paren hlwithin)
  · rw [← hopen]
    exact (derives_minus_enclosed hl).compiledIf.congr l.within_minus_paren

set_option maxRecDepth 8000 in
/-- Blanks around a part do not matter, and a minus sign in front of parentheses adds a node. -/
theorem compile_of_parts_quotient :
    Expr.ofSource "7/2" = .ok (.binary .div (.literal 7) (.literal 2)) ∧
      Expr.ofSource " 3\t" = .ok (.literal 3) ∧
      Expr.ofSource "(7/2)-( 3\t)" =
        .ok (.binary .sub (.binary .div (.literal 7) (.literal 2)) (.literal 3)) ∧
      Expr.ofSource "-(7/2)" =
        .ok (.binary .sub (.literal 0) (.binary .div (.literal 7) (.literal 2))) := by
  have htokens₁ : tokenize "7/2" = .ok [⟨.number 7, ⟨0, 1⟩⟩, ⟨.punctuator, ⟨1, 1⟩⟩,
      ⟨.number 2, ⟨2, 1⟩⟩, .endOfInput 3] := by cbv
  have htokens₂ : tokenize " 3\t" = .ok [⟨.number 3, ⟨1, 1⟩⟩, .endOfInput 3] := by cbv
  have h₁ : Expr.ofSource "7/2" = .ok (.binary .div (.literal 7) (.literal 2)) :=
    Expr.ofSource_eq_ok_iff.2 ⟨_, htokens₁, by cbv⟩
  have h₂ : Expr.ofSource " 3\t" = .ok (.literal 3) :=
    Expr.ofSource_eq_ok_iff.2 ⟨_, htokens₂, by cbv⟩
  have hopen {text : String} (h : '(' ∉ text.toList) : NestedWithin '(' ')' 255 text.toList :=
    nestedWithin_of_not_mem h 255
  obtain ⟨hbinary, -, -, -, hminus⟩ := compile_of_parts h₁ h₂ .sub
  refine ⟨h₁, h₂, ?_, ?_⟩
  · exact (hbinary.1 ⟨hopen (by decide), hopen (by decide), by decide, by decide⟩).1
  · exact (hminus.1 ⟨hopen (by decide), by decide⟩).1

end ExprCompiler
