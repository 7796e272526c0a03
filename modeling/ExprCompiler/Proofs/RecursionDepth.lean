import ExprCompiler.Compile
import ExprCompiler.Proofs.Cursor

/-!
# How deep the compiler recurses

The cursor's parser is bounded here on both sides: the recursion of `parse_expr` through parentheses
goes through a given number of levels, and the loop of a binary level goes a given number of rounds.
What stands below the last level and after the last round is left open. So written, the parser ends
on all tokens, whatever they are, and it does what the parsers do if the levels are one more than
the parentheses that may be open and the rounds are one more than the tokens
(`Stream.parseWithin_agrees`): what was left open is never reached.

The height of a tree and its code, `depth` and `emit_expr`, are computed by a recursion over the
tree. Bounded in the same way, they are the same on a tree that is no higher than the levels
(`Expr.recWithin_eq`), and no tree that the parser accepts is higher than `maxHeight`.
-/

namespace ExprCompiler

namespace Stream

/-! ## The parser, bounded -/

/-- Reads on after `lhs` for so many rounds, after which `cut` takes over. -/
def roundsWithin (s : Stream) (cut : Reader) (ops : List Operator) (operand : Reader) :
    Nat → Sized → Reader
  | 0, _, c => cut c
  | rounds + 1, lhs, c => s.round ops operand (s.roundsWithin cut ops operand rounds) lhs c

/-- The loop that goes as many rounds as there can be tokens, and one more. -/
def loopWithin (s : Stream) (cut : Reader) : Loop := fun ops operand =>
  s.roundsWithin cut ops operand (s.tokens.length + 1)

/-- The tree of all tokens, where at most so many expressions are being read at once. -/
def parseWithin (s : Stream) (cut : Reader) (levels : Nat) : Checked SyntaxFault Expr :=
  s.parseBy (s.loopWithin cut) cut levels

section Agreement

variable {s : Stream} {c : Cursor} {nesting : Nat} (hs : s.Fits) (cut : Reader)

include hs

/-- A loop uses up a token in every round but the last, so it ends before the rounds do. -/
theorem roundsWithin_agrees {p : Parser} {r : Reader} (hoperand : s.Tracks nesting p r)
    (ops : List Operator) {rounds : Nat} {lhs : Sized} (hlhs : lhs.height ≤ maxHeight)
    {tokens : List Token} (h : s.At nesting tokens c) (hrounds : tokens.length < rounds) :
    Agrees (s.SameReading nesting) (Parser.chainFrom s.source ops p lhs tokens)
      (s.roundsWithin cut ops r rounds lhs c) := by
  induction rounds generalizing lhs tokens c with
  | zero => exact absurd hrounds (Nat.not_lt_zero _)
  | succ rounds ih =>
    rw [roundsWithin]
    refine round_agrees hs hoperand ops hlhs h ?_
    -- a token has been used up, so one round fewer is enough for the rest
    intro tree after c' htree hafter hshorter
    exact ih htree hafter (Nat.lt_of_lt_of_le hshorter (Nat.le_of_lt_succ hrounds))

theorem loopWithin_tracks : s.LoopTracks (s.loopWithin cut) := by
  intro nesting p r hoperand ops lhs hlhs tokens c h
  have hlength : tokens.length ≤ s.tokens.length := by
    rw [← h.left_eq]
    exact Nat.sub_le _ _
  exact roundsWithin_agrees hs cut hoperand ops hlhs h (Nat.lt_succ_of_le hlength)

/-- One level more than parentheses may be open is enough, and the cut is out of reach. -/
theorem parseWithin_agrees {levels : Nat} (hlevels : maxNesting < levels) :
    Agrees Eq (ExprCompiler.parse s.source s.tokens) (s.parseWithin cut levels) :=
  parseBy_agrees hs (loopWithin_tracks hs cut) cut hlevels

end Agreement

end Stream

/-! ## The height of what is accepted -/

theorem Stream.Tracks.height_le {s : Stream} {nesting : Nat} {p : Parser} {r : Reader}
    (h : s.Tracks nesting p r) {tokens rest : List Token} {c : Cursor} (hat : s.At nesting tokens c)
    {tree : Sized} (hrun : p.run tokens = .ok (tree, rest)) : tree.height ≤ maxHeight := by
  obtain ⟨_, -, -, hheight, -⟩ := (h tokens c hat).exists_of_ok_left hrun
  exact hheight

/-- Some words can count everything. -/
theorem Stream.exists_fits (source : String) (tokens : List Token) :
    ∃ limit, Fits ⟨limit, source, tokens⟩ := by
  refine ⟨source.utf8ByteSize + tokens.length + maxHeight + 1, ?_⟩
  constructor <;> dsimp only <;> omega

/-- The limit on the height holds for all tokens, also for those that do not lie in the source. -/
theorem height_le_of_expression {source : String} {tokens rest : List Token} {tree : Sized}
    (h : (Parser.expression source maxNesting).run tokens = .ok (tree, rest)) :
    tree.height ≤ maxHeight := by
  obtain ⟨limit, hfits⟩ := Stream.exists_fits source tokens
  have htracks : Stream.Tracks ⟨limit, source, tokens⟩ 0 (Parser.expression source maxNesting) _ :=
    Stream.expressionBy_tracks hfits (Stream.chainFrom_tracks hfits) (fun _ => .error .panic)
      (Nat.lt_add_one maxNesting)
  have hstart : Stream.At ⟨limit, source, tokens⟩ 0 tokens ⟨0, 0⟩ := ⟨rfl, Nat.zero_le _, rfl⟩
  exact htracks.height_le hstart h

theorem height_le_of_parse_tokens {source : String} {tokens : List Token} {a : Expr}
    (h : parse source tokens = .ok a) : a.height ≤ maxHeight := by
  obtain ⟨⟨tree, rest⟩, hrun, hend⟩ := ParseFailure.bind_eq_ok_iff.1 h
  have hheight := height_le_of_expression hrun
  obtain ⟨used, s, -, -, rfl, -⟩ := Parser.atLevel_accepts maxNesting .equality _ _ _ hrun
  cases rest with
  | nil => cases hend
  | cons token rest =>
    dsimp only at hend
    split at hend
    · obtain rfl := Except.ok.inj hend
      exact hheight
    · exact absurd hend Parser.refuseToken_ne_ok

/-! ## Recursion over trees, bounded -/

namespace Expr

/-- A recursion over a tree through so many levels, below which `cut` takes over. -/
def recWithin {α : Type} (leaf : Int64 → α) (node : Operator → α → α → α) (cut : Expr → α) :
    Nat → Expr → α
  | 0, e => cut e
  | _ + 1, .literal value => leaf value
  | levels + 1, .binary op lhs rhs =>
    node op (recWithin leaf node cut levels lhs) (recWithin leaf node cut levels rhs)

/-- The height of a tree, by a recursion through so many levels. -/
def heightWithin (cut : Expr → Nat) : Nat → Expr → Nat :=
  recWithin (fun _ => 1) (fun _ lhs rhs => 1 + max lhs rhs) cut

/-- The code of a tree in front of other code, by a recursion through so many levels. -/
def emitWithin (cut : Expr → List Asm.Instruction → List Asm.Instruction) :
    Nat → Expr → List Asm.Instruction → List Asm.Instruction :=
  recWithin (fun value next => Asm.literalCode value ++ next)
    (fun op lhs rhs next => lhs (rhs (Asm.applyCode op ++ next))) cut

/-- On a tree that is not too high, a bounded recursion is the recursion. -/
theorem recWithin_eq {α : Type} (f : Expr → α) {leaf : Int64 → α} {node : Operator → α → α → α}
    (hleaf : ∀ value, f (.literal value) = leaf value)
    (hnode : ∀ op lhs rhs, f (.binary op lhs rhs) = node op (f lhs) (f rhs)) (cut : Expr → α)
    {levels : Nat} {e : Expr} (h : e.height ≤ levels) :
    recWithin leaf node cut levels e = f e := by
  induction e generalizing levels with
  | literal value =>
    rw [height_literal] at h
    obtain ⟨levels, rfl⟩ := Nat.exists_eq_add_of_le' h
    rw [recWithin, hleaf]
  | binary op lhs rhs ihl ihr =>
    rw [height_binary] at h
    obtain ⟨levels, rfl⟩ := Nat.exists_eq_add_of_le' (Nat.le_of_add_right_le h)
    rw [recWithin, hnode, ihl (by omega), ihr (by omega)]

theorem heightWithin_eq (cut : Expr → Nat) {levels : Nat} {e : Expr} (h : e.height ≤ levels) :
    heightWithin cut levels e = e.height :=
  recWithin_eq height (fun _ => rfl) (fun _ _ _ => rfl) cut h

theorem emitWithin_eq (cut : Expr → List Asm.Instruction → List Asm.Instruction) {levels : Nat}
    {e : Expr} (h : e.height ≤ levels) : emitWithin cut levels e = e.emit :=
  recWithin_eq emit (fun _ => rfl) (fun _ _ _ => rfl) cut h

end Expr

/-- On any tokens the parser comes to an end, with at most 257 expressions being read at once and a
round of a loop for at most each of the tokens and one more: bounded so, it does what the parser
does, whatever it was to do beyond the bounds. The height and the code of a tree that is accepted
are computed with at most 4096 levels of recursion. -/
theorem recursion_bounded (source : String) (tokens : List Token) :
    (∀ limit, source.utf8ByteSize ≤ limit → tokens.length ≤ limit → 4096 < limit →
      ∀ cut : Stream.Reader,
        Agrees Eq (parse source tokens) (Stream.parseWithin ⟨limit, source, tokens⟩ cut 257)) ∧
    ∀ a, Expr.ofTokens source tokens = .ok a →
      (∀ cut, Expr.heightWithin cut 4096 a = a.height) ∧
        ∀ cut, Expr.emitWithin cut 4096 a = a.emit := by
  refine ⟨?_, ?_⟩
  · intro limit hsize hlength hlimit cut
    have hfits : Stream.Fits ⟨limit, source, tokens⟩ := ⟨hsize, hlength, hlimit⟩
    exact Stream.parseWithin_agrees hfits cut (by decide)
  · intro a h
    have hheight : a.height ≤ 4096 := height_le_of_parse_tokens (Expr.ofTokens_eq_ok_iff.1 h)
    exact ⟨fun cut => Expr.heightWithin_eq cut hheight, fun cut => Expr.emitWithin_eq cut hheight⟩

theorem Agrees.eq_fault {α β : Type} {R : α → β → Prop} {fault : SyntaxFault}
    {x : Checked SyntaxFault β} (h : Agrees R (.error (.fault fault)) x) :
    x = .error (.fault fault) := by
  cases h with
  | fault fault => rfl

set_option maxRecDepth 8000 in
/-- Words of 64 bits: two parentheses that are never closed, and the tree of `-7`. -/
theorem recursion_bounded_word64 :
    let tokens : List Token :=
      [⟨.punctuator, ⟨0, 1⟩⟩, ⟨.punctuator, ⟨1, 1⟩⟩, ⟨.number 1, ⟨2, 1⟩⟩]
    let tree : Expr := .binary .sub (.literal 0) (.literal 7)
    (∀ cut, Stream.parseWithin ⟨2 ^ 64 - 1, "((1", tokens⟩ cut 257 =
      .error (.fault ⟨3, .unclosed "EOF"⟩)) ∧
    (∀ cut, Expr.heightWithin cut 4096 tree = 2) ∧
      ∀ cut, Expr.emitWithin cut 4096 tree = tree.emit := by
  intro tokens tree
  have hparse : parse "((1" tokens = .error (.fault ⟨3, .unclosed "EOF"⟩) := by cbv
  have htree : parse "-7" [⟨.punctuator, ⟨0, 1⟩⟩, ⟨.number 7, ⟨1, 1⟩⟩, .endOfInput 2] =
      .ok tree := by cbv
  have hbounded := recursion_bounded "((1" tokens
  refine ⟨fun cut => ?_, (recursion_bounded _ _).2 tree (Expr.ofTokens_eq_ok_iff.2 htree)⟩
  have hagrees := hbounded.1 (2 ^ 64 - 1) (by decide) (by decide) (by decide) cut
  rw [hparse] at hagrees
  exact hagrees.eq_fault

end ExprCompiler
