import ExprCompiler.Proofs.Scannerless

/-!
# A tree in order is its tokens in order

Read from left to right, the operands and operators of a tree are those of the tokens from which
`parse` made it: none is lost, none comes twice, and none changes its place (`inOrder_of_parse`).
Parentheses and plus signs leave nothing behind, and a minus sign leaves the zero that is subtracted
from and the operator.

Which `+` and `-` are signs is decided here by the token before them alone, while the parser decides
it by the level at which it meets them. The two agree because an operand always ends with a number
or a closing parenthesis (`Surface.exists_last`), and what comes before an operand never does.
-/

namespace ExprCompiler

open Terminal

/-! ## Signs and operators -/

/-- The text of the terminal is that of an operator. -/
def Terminal.isOperator : Terminal → Bool
  | .punctuation text => text ∈ ["+", "-", "*", "/", "=="]
  | .number _ | .endOfInput => false

/-- An operand is due at the start, after an opening parenthesis and after an operator. -/
def operandDueAfter (previous : Option Terminal) : Bool :=
  previous.all fun x => x = .punctuation "(" || x.isOperator

/-- A terminal and the one before it. -/
structure Placed where
  /-- The terminal before this one, if it is not the first. -/
  previous : Option Terminal
  terminal : Terminal
deriving DecidableEq, Repr

namespace Placed

def isPlusSign (x : Placed) : Bool :=
  x.terminal = .punctuation "+" && operandDueAfter x.previous

def isMinusSign (x : Placed) : Bool :=
  x.terminal = .punctuation "-" && operandDueAfter x.previous

def isBinaryOperator (x : Placed) : Bool :=
  x.terminal.isOperator && !x.isPlusSign && !x.isMinusSign

/-- What a terminal contributes to the operands and operators of a tree. -/
def items (x : Placed) : List Terminal :=
  if x.terminal = .punctuation "(" ∨ x.terminal = .punctuation ")" ∨ x.isPlusSign then []
  else if x.isMinusSign then [.number 0, .punctuation "-"]
  else [x.terminal]

end Placed

/-- The terminals `w`, each with the one before it; `previous` comes before all of them. -/
def placed (previous : Option Terminal) : List Terminal → List Placed
  | [] => []
  | x :: w => ⟨previous, x⟩ :: placed (some x) w

namespace Expr

/-- The operands and operators of a tree from left to right. -/
def inOrder : Expr → List Terminal
  | .literal value => [.number value]
  | .binary op lhs rhs => lhs.inOrder ++ .punctuation op.symbol :: rhs.inOrder

/-- The number of operator nodes. -/
def nodeCount : Expr → Nat
  | .literal _ => 0
  | .binary _ lhs rhs => lhs.nodeCount + rhs.nodeCount + 1

end Expr

theorem placed_append (previous : Option Terminal) (u v : List Terminal) :
    placed previous (u ++ v) = placed previous u ++ placed (u.getLast?.or previous) v := by
  induction u generalizing previous with
  | nil => rfl
  | cons x u ih =>
    have hlast : u.getLast?.or (some x) = (x :: u).getLast?.or previous := by
      rw [List.getLast?_cons]
      cases u.getLast? <;> rfl
    rw [List.cons_append, placed, placed, ih, hlast, List.cons_append]

/-! ## What the terminals of an expression contribute -/

/-- An expression ends with a number or a closing parenthesis. -/
theorem Surface.exists_last (s : Surface) : ∃ x, s.terminals.getLast? = some x ∧
    ((∃ v, x = .number v) ∨ x = ofSymbol .rightParen) := by
  induction s with
  | number value => exact ⟨.number value, rfl, .inl ⟨value, rfl⟩⟩
  | paren inner ih =>
    refine ⟨ofSymbol .rightParen, ?_, .inr rfl⟩
    rw [terminals, ← List.cons_append, List.getLast?_concat]
  | plus operand ih | minus operand ih =>
    obtain ⟨x, hx, hends⟩ := ih
    refine ⟨x, ?_, hends⟩
    rw [terminals, List.getLast?_cons, hx]
    rfl
  | binary op lhs rhs _ ih =>
    obtain ⟨x, hx, hends⟩ := ih
    refine ⟨x, ?_, hends⟩
    rw [terminals, List.getLast?_append, List.getLast?_cons, hx]
    rfl

/-- After an expression no operand is due, so a `+` or `-` there is an operator. -/
theorem items_operator_after (s : Surface) (previous : Option Terminal) (op : Operator) :
    Placed.items ⟨s.terminals.getLast?.or previous, ofSymbol (.operator op)⟩ =
      [ofSymbol (.operator op)] := by
  obtain ⟨x, hx, hends⟩ := s.exists_last
  have hdue : operandDueAfter (some x) = false := by
    rcases hends with ⟨v, rfl⟩ | rfl
    · rfl
    · rfl
  have hplus : Placed.isPlusSign ⟨some x, ofSymbol (.operator op)⟩ = false := by
    rw [Placed.isPlusSign, hdue, Bool.and_false]
  have hminus : Placed.isMinusSign ⟨some x, ofSymbol (.operator op)⟩ = false := by
    rw [Placed.isMinusSign, hdue, Bool.and_false]
  have hparen : ofSymbol (.operator op) ≠ .punctuation "(" ∧
      ofSymbol (.operator op) ≠ .punctuation ")" := by
    cases op <;> decide
  rw [hx, Option.some_or, Placed.items, hplus, hminus]
  simp [hparen]

/-- What the terminals of an expression contribute is its tree in order. The induction is over the
places where an operand is due: these are where the operands of an expression stand. -/
theorem Surface.flatMap_items_terminals (s : Surface) {previous : Option Terminal}
    (hdue : operandDueAfter previous) :
    (placed previous s.terminals).flatMap Placed.items = s.tree.inOrder := by
  induction s generalizing previous with
  | number value => rfl
  | paren inner ih =>
    have hopen : Placed.items ⟨previous, ofSymbol .leftParen⟩ = [] := rfl
    have hclose (before : Option Terminal) :
        Placed.items ⟨before, ofSymbol .rightParen⟩ = [] := rfl
    rw [terminals, placed, placed_append, List.flatMap_cons, List.flatMap_append, hopen, ih rfl,
      placed, placed, List.flatMap_cons, hclose]
    simp [tree]
  | plus operand ih =>
    have hsign : Placed.items ⟨previous, ofSymbol (.operator .add)⟩ = [] := by
      have : Placed.isPlusSign ⟨previous, ofSymbol (.operator .add)⟩ = true := hdue
      simp [Placed.items, this]
    rw [terminals, placed, List.flatMap_cons, hsign, ih rfl]
    rfl
  | minus operand ih =>
    have hsign : Placed.items ⟨previous, ofSymbol (.operator .sub)⟩ =
        [.number 0, ofSymbol (.operator .sub)] := by
      have : Placed.isMinusSign ⟨previous, ofSymbol (.operator .sub)⟩ = true := hdue
      have hplus : Placed.isPlusSign ⟨previous, ofSymbol (.operator .sub)⟩ = false := rfl
      rw [Placed.items, this, hplus]
      rfl
    rw [terminals, placed, List.flatMap_cons, hsign, ih rfl]
    rfl
  | binary op lhs rhs ihl ihr =>
    have hafter : operandDueAfter (some (ofSymbol (.operator op))) := by
      cases op <;> decide
    rw [terminals, placed_append, placed, List.flatMap_append, List.flatMap_cons, ihl hdue,
      items_operator_after, ihr hafter]
    rfl

/-! ## Counting operators -/

theorem Expr.countP_isOperator_inOrder (e : Expr) :
    e.inOrder.countP Terminal.isOperator = e.nodeCount := by
  induction e with
  | literal value => rfl
  | binary op lhs rhs ihl ihr =>
    have hop : Terminal.isOperator (.punctuation op.symbol) = true := by
      cases op <;> decide
    rw [inOrder, nodeCount, List.countP_append, List.countP_cons, ihl, ihr, if_pos hop]
    omega

/-- A terminal contributes an operator if it is one or a minus sign. -/
theorem Placed.countP_isOperator_items (x : Placed) :
    x.items.countP Terminal.isOperator =
      (if x.isBinaryOperator then 1 else 0) + if x.isMinusSign then 1 else 0 := by
  obtain ⟨previous, terminal⟩ := x
  unfold items
  split
  · rename_i hsilent
    rcases hsilent with rfl | rfl | hplus
    · rfl
    · rfl
    · have hadd : terminal = .punctuation "+" := by simp_all [isPlusSign]
      have hminus : isMinusSign ⟨previous, terminal⟩ = false := by simp [isMinusSign, hadd]
      simp [isBinaryOperator, hplus, hminus]
  · rename_i hloud
    have hplus : isPlusSign ⟨previous, terminal⟩ = false := by simp_all
    split
    · rename_i hminus
      simp [isBinaryOperator, hminus]
      decide
    · rename_i hminus
      simp [isBinaryOperator, hplus, hminus, List.countP_singleton]

theorem countP_isOperator_flatMap_items (xs : List Placed) :
    (xs.flatMap Placed.items).countP Terminal.isOperator =
      xs.countP Placed.isBinaryOperator + xs.countP Placed.isMinusSign := by
  induction xs with
  | nil => rfl
  | cons x xs ih =>
    rw [List.flatMap_cons, List.countP_append, ih, x.countP_isOperator_items, List.countP_cons,
      List.countP_cons]
    omega

/-! ## Parsed texts -/

/-- The operands and operators of a parsed tree are those of the tokens, each as often as there and
in the same order. So every binary operator and every minus sign has a node of its own. -/
theorem inOrder_of_parse {source : String} {tokens : List Token} {a : Expr}
    (htokens : tokenize source = .ok tokens) (h : parse source tokens = .ok a) :
    let written := placed none ((tokens.filter (·.kind ≠ .eof)).map (Token.terminal source))
    a.inOrder = written.flatMap Placed.items ∧
      a.nodeCount = written.countP Placed.isBinaryOperator + written.countP Placed.isMinusSign := by
  intro written
  obtain ⟨body, size, rfl, -⟩ := (tokenize_eq_ok_iff.1 htokens).eq_append_endOfInput
  obtain ⟨s, hs, rfl, -⟩ := (parse_of_tokenize htokens a).1 h
  have hwritten : written = placed none s.terminals := by
    show placed none _ = _
    rw [filter_kind_of_tokenize htokens, hs.eq_terminals]
  have hitems : written.flatMap Placed.items = s.tree.inOrder := by
    rw [hwritten]
    exact s.flatMap_items_terminals rfl
  refine ⟨hitems.symm, ?_⟩
  rw [← Expr.countP_isOperator_inOrder, ← hitems, countP_isOperator_flatMap_items]

set_option maxRecDepth 4000 in
/-- In `-1-(+2)` the first `-` and the `+` are signs, and the second `-` is an operator. -/
theorem inOrder_of_parse_signs :
    let body : List Token := [⟨.punctuator, ⟨0, 1⟩⟩, ⟨.number 1, ⟨1, 1⟩⟩, ⟨.punctuator, ⟨2, 1⟩⟩,
      ⟨.punctuator, ⟨3, 1⟩⟩, ⟨.punctuator, ⟨4, 1⟩⟩, ⟨.number 2, ⟨5, 1⟩⟩, ⟨.punctuator, ⟨6, 1⟩⟩]
    let tokens := body ++ [.endOfInput 7]
    let a : Expr := .binary .sub (.binary .sub (.literal 0) (.literal 1)) (.literal 2)
    let written := placed none ((tokens.filter (·.kind ≠ .eof)).map (Token.terminal "-1-(+2)"))
    (tokenize "-1-(+2)" = .ok tokens ∧ parse "-1-(+2)" tokens = .ok a) ∧
      a.inOrder = written.flatMap Placed.items ∧
        a.nodeCount =
          written.countP Placed.isBinaryOperator + written.countP Placed.isMinusSign := by
  intro body tokens a written
  let s : Surface := .binary .sub (.minus (.number 1)) (.paren (.plus (.number 2)))
  have hone : Phrase lexicon .additive _ (.minus (.number 1)) :=
    (Phrase.of_unary (.minus rfl (.number rfl))).2.1
  have htwo : Phrase lexicon .equality _ (.plus (.number 2)) :=
    (Phrase.of_unary (.plus rfl (.number rfl))).2.2
  have hs : Phrase lexicon .equality (body.map (Token.terminal "-1-(+2)")) s := by
    have hparen := (Phrase.of_unary (.tighter rfl (.paren rfl htwo rfl))).1
    have hs : Phrase lexicon .equality _ s := .tighter rfl (.binary rfl (by decide) hone rfl hparen)
    have hwritten : body.map (Token.terminal "-1-(+2)") = s.terminals := by cbv
    rwa [hwritten, ← hs.eq_terminals]
  have htokens : tokenize "-1-(+2)" = .ok tokens := by cbv
  have hparse : parse "-1-(+2)" tokens = .ok a :=
    (parse_of_tokenize htokens a).2 ⟨s, hs, rfl, by decide, by decide⟩
  exact ⟨⟨htokens, hparse⟩, inOrder_of_parse htokens hparse⟩

end ExprCompiler
