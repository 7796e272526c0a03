import ExprCompiler.Proofs.Checked
import ExprCompiler.Proofs.Parsing

/-!
# Parsing with a cursor

The parsers are repeated here as a machine carries them out. The tokens stay where they are, and a
cursor moves over them: it holds the index of the next token and the number of parentheses that are
open, both of them words. All arithmetic and every look at the source is checked. The procedures are
`equal`, `consume_op` (`operator`), `skip` (`close`) and `get_number` (`number`) of a token stream,
`join`, and from `parse_primary` to `parse_expr` those of the levels.

The loop of the binary levels is a parameter of theirs (`Loop`), so that what is proved of the
levels holds for any loop that does what the parsers' loop does (`LoopTracks`). Here it is
`chainFrom`, where a round that does not bring the cursor nearer to the end counts as a panic. The
recursion through parentheses goes through a given number of levels, and what stands below the last
of them is left open.

The cursor does what the parsers do with the tokens that remain from its index on
(`Stream.parse_agrees`), for any tokens whatsoever: it panics exactly where a parser meets a token
that it cannot read. The bounds are kept in step by `Tracks`, which says that a run gives back as
many open parentheses as it was given, and a tree that is not too high. What stands below the last
of `maxNesting + 1` levels is never reached, because the number of open parentheses counts the
levels.
-/

namespace ExprCompiler

open ParseFailure (answer)

/-- Where a parser stands. -/
structure Cursor where
  /-- The index of the next token. -/
  pos : Nat
  /-- The number of open parentheses. -/
  nesting : Nat
deriving DecidableEq, Repr

def Cursor.next (c : Cursor) : Cursor := { c with pos := c.pos + 1 }

/-- What a cursor moves over: tokens and their source, where numbers are at most `limit`. -/
structure Stream where
  limit : Nat
  source : String
  tokens : List Token

namespace Stream

/-- Reads a tree and moves the cursor past it. -/
abbrev Reader := Cursor → Checked SyntaxFault (Sized × Cursor)

/-- Reads on after a tree: the operands that some operators separate, each by a reader. -/
abbrev Loop := List Operator → Reader → Sized → Reader

def refuse {α : Type} (offset : Nat) (cause : SyntaxCause) : Checked SyntaxFault α :=
  .error (.fault ⟨offset, cause⟩)

/-! ## One token -/

def current (s : Stream) (c : Cursor) : Option Token := s.tokens[c.pos]?

def advance (s : Stream) (c : Cursor) : Checked SyntaxFault Cursor := do
  return { c with pos := ← Checked.add s.limit c.pos 1 }

/-- The byte offset of the next token, or of the end of the source if there is none. -/
def offset (s : Stream) (c : Cursor) : Nat :=
  match s.current c with
  | some token => token.span.start
  | none => s.source.utf8ByteSize

def text (s : Stream) (token : Token) : Checked SyntaxFault String := do
  let stop ← Checked.add s.limit token.span.start token.span.length
  Checked.slice s.source token.span.start stop

/-- How a message names the next token. The end of the input is named without a look at the
source. -/
def describe (s : Stream) (c : Cursor) : Checked SyntaxFault String :=
  match s.current c with
  | none => return Token.endName
  | some token => if token.kind = .eof then return Token.endName else s.text token

def refuseCurrent {α : Type} (s : Stream) (c : Cursor) (cause : String → SyntaxCause) :
    Checked SyntaxFault α := do
  let got ← s.describe c
  refuse (s.offset c) (cause got)

/-- Moves past the next token if it is the given symbol, and says whether it is. -/
def equal (s : Stream) (symbol : Symbol) (c : Cursor) : Checked SyntaxFault (Bool × Cursor) :=
  match s.current c with
  | none => return (false, c)
  | some token =>
    if token.kind = .punctuator ∧ token.span.length = symbol.spelling.utf8ByteSize then do
      if (← s.text token) == symbol.spelling then
        return (true, ← s.advance c)
      else
        return (false, c)
    else
      return (false, c)

/-- Moves past the next token if it is one of `ops`, and says which. -/
def operator (s : Stream) (ops : List Operator) (c : Cursor) :
    Checked SyntaxFault (Option Operator × Cursor) :=
  match ops with
  | [] => return (none, c)
  | op :: ops => do
    let (found, c) ← s.equal (.operator op) c
    if found then return (some op, c) else s.operator ops c

def close (s : Stream) (c : Cursor) : Checked SyntaxFault Cursor := do
  let (found, c) ← s.equal .rightParen c
  if found then return c else s.refuseCurrent c .unclosed

def number (s : Stream) : Reader := fun c =>
  match s.current c with
  | none => refuse s.source.utf8ByteSize .numberMissing
  | some token =>
    match token.kind with
    | .number value => return (.literal value, ← s.advance c)
    | _ => s.refuseCurrent c .expectedNumber

/-! ## Trees -/

def join (s : Stream) (op : Operator) (offset : Nat) (lhs rhs : Sized) :
    Checked SyntaxFault Sized := do
  let height ← Checked.add s.limit 1 (max lhs.height rhs.height)
  if height ≤ maxHeight then
    return ⟨.binary op lhs.expr rhs.expr, height⟩
  else
    refuse offset .nestedTooDeeply

/-- Reads on after the parenthesis that was opened at byte `offset`, and closes it. -/
def enclosed (s : Stream) (inner : Reader) (offset : Nat) : Reader := fun c => do
  let nesting ← Checked.add s.limit c.nesting 1
  if nesting ≤ maxNesting then
    let (tree, c) ← inner { c with nesting }
    let c ← s.close c
    return (tree, { c with nesting := ← Checked.sub c.nesting 1 })
  else
    refuse offset .nestedTooDeeply

def primary (s : Stream) (inner : Reader) : Reader := fun c => do
  let (found, after) ← s.equal .leftParen c
  if found then s.enclosed inner (s.offset c) after else s.number c

def unary (s : Stream) (inner : Reader) : Reader := fun c => do
  let (found, after) ← s.equal (.operator .add) c
  if found then
    s.primary inner after
  else
    let (found, after) ← s.equal (.operator .sub) c
    if found then
      let (tree, next) ← s.primary inner after
      return (← s.join .sub (s.offset c) (.literal 0) tree, next)
    else
      s.primary inner c

/-- The number of tokens from the cursor on. -/
def left (s : Stream) (c : Cursor) : Nat := s.tokens.length - c.pos

/-- A round of a loop: if one of `ops` follows `lhs`, the operand after it is joined, and `again`
reads on. -/
def round (s : Stream) (ops : List Operator) (operand : Reader) (again : Sized → Reader)
    (lhs : Sized) : Reader := fun c => do
  match ← s.operator ops c with
  | (none, c) => return (lhs, c)
  | (some op, after) =>
    let (rhs, next) ← operand after
    let tree ← s.join op (s.offset c) lhs rhs
    again tree next

def chainFrom (s : Stream) (ops : List Operator) (operand : Reader) (lhs : Sized) (c : Cursor) :
    Checked SyntaxFault (Sized × Cursor) :=
  s.round ops operand (fun tree next =>
    if s.left next < s.left c then s.chainFrom ops operand tree next else .error .panic) lhs c
termination_by s.left c

def chain (loop : Loop) (ops : List Operator) (operand : Reader) : Reader := fun c => do
  let (lhs, c) ← operand c
  loop ops operand lhs c

def multiplicative (s : Stream) (loop : Loop) (inner : Reader) : Reader :=
  chain loop [.mul, .div] (s.unary inner)

def additive (s : Stream) (loop : Loop) (inner : Reader) : Reader :=
  chain loop [.add, .sub] (s.multiplicative loop inner)

def equality (s : Stream) (loop : Loop) (inner : Reader) : Reader :=
  chain loop [.eq] (s.additive loop inner)

/-- Reads an expression through so many levels of parentheses, below which `cut` takes over. -/
def expressionBy (s : Stream) (loop : Loop) (cut : Reader) : Nat → Reader
  | 0 => cut
  | levels + 1 => s.equality loop (s.expressionBy loop cut levels)

/-- The tree of all tokens, by a recursion through so many levels. -/
def parseBy (s : Stream) (loop : Loop) (cut : Reader) (levels : Nat) :
    Checked SyntaxFault Expr := do
  let (tree, c) ← s.expressionBy loop cut levels ⟨0, 0⟩
  match s.current c with
  | none => refuse s.source.utf8ByteSize .endMissing
  | some token => if token.kind = .eof then return tree.expr else s.refuseCurrent c .unexpectedToken

def expression (s : Stream) (cut : Reader) : Nat → Reader := s.expressionBy s.chainFrom cut

/-- The tree of all tokens, by a recursion that is cut off below `maxNesting + 1` levels. -/
def parse (s : Stream) (cut : Reader) : Checked SyntaxFault Expr :=
  s.parseBy s.chainFrom cut (maxNesting + 1)

end Stream

/-! ## Agreement of two steps -/

/-- Both have related results, or both find the same fault, or one panics where the other cannot
read a token. -/
inductive Agrees {α β : Type} (R : α → β → Prop) :
    Except ParseFailure α → Checked SyntaxFault β → Prop where
  | ok {a : α} {b : β} (h : R a b) : Agrees R (.ok a) (.ok b)
  | fault (fault : SyntaxFault) : Agrees R (.error (.fault fault)) (.error (.fault fault))
  | unreadable (span : Span) : Agrees R (.error (.unreadable span)) (.error .panic)

theorem Agrees.bind {α α' β β' : Type} {R : α → α' → Prop} {S : β → β' → Prop}
    {x : Except ParseFailure α} {x' : Checked SyntaxFault α'} (h : Agrees R x x')
    {f : α → Except ParseFailure β} {f' : α' → Checked SyntaxFault β'}
    (hnext : ∀ a a', x = .ok a → R a a' → Agrees S (f a) (f' a')) :
    Agrees S (x >>= f) (x' >>= f') := by
  cases h with
  | ok h => exact hnext _ _ rfl h
  | fault fault => exact .fault fault
  | unreadable span => exact .unreadable span

/-- Where one succeeds, both do. -/
theorem Agrees.exists_of_ok_left {α β : Type} {R : α → β → Prop} {x : Except ParseFailure α}
    {x' : Checked SyntaxFault β} (h : Agrees R x x') {a : α} (ha : x = .ok a) :
    ∃ b, x' = .ok b ∧ R a b := by
  cases h with
  | ok hab =>
    obtain rfl := Except.ok.inj ha
    exact ⟨_, rfl, hab⟩
  | fault fault => cases ha
  | unreadable span => cases ha

theorem Agrees.exists_of_ok_right {α β : Type} {R : α → β → Prop} {x : Except ParseFailure α}
    {x' : Checked SyntaxFault β} (h : Agrees R x x') {b : β} (hb : x' = .ok b) :
    ∃ a, x = .ok a ∧ R a b := by
  cases h with
  | ok hab =>
    obtain rfl := Except.ok.inj hb
    exact ⟨_, rfl, hab⟩
  | fault fault => cases hb
  | unreadable span => cases hb

namespace Stream

/-- The source, the tokens and the heights of trees can be counted. -/
structure Fits (s : Stream) : Prop where
  size_le : s.source.utf8ByteSize ≤ s.limit
  length_le : s.tokens.length ≤ s.limit
  maxHeight_lt : maxHeight < s.limit

/-- The tokens `rest` remain where the cursor is, and so many parentheses are open there. -/
structure At (s : Stream) (nesting : Nat) (rest : List Token) (c : Cursor) : Prop where
  nesting_eq : c.nesting = nesting
  pos_le : c.pos ≤ s.tokens.length
  drop_eq : s.tokens.drop c.pos = rest

variable {s : Stream} {c : Cursor} {nesting : Nat} {token : Token} {rest : List Token}

theorem At.current_eq_none (h : s.At nesting [] c) : s.current c = none := by
  have hlength := List.drop_eq_nil_iff.1 h.drop_eq
  exact List.getElem?_eq_none hlength

theorem At.pos_lt (h : s.At nesting (token :: rest) c) : c.pos < s.tokens.length := by
  have hlength := congrArg List.length h.drop_eq
  rw [List.length_drop, List.length_cons] at hlength
  omega

theorem At.current_eq_some (h : s.At nesting (token :: rest) c) : s.current c = some token := by
  have hdrop := h.drop_eq
  rw [List.drop_eq_getElem_cons h.pos_lt] at hdrop
  exact (List.getElem?_eq_getElem h.pos_lt).trans (congrArg some (List.cons.inj hdrop).1)

theorem At.next (h : s.At nesting (token :: rest) c) : s.At nesting rest c.next := by
  have hdrop := h.drop_eq
  rw [List.drop_eq_getElem_cons h.pos_lt] at hdrop
  exact ⟨h.nesting_eq, h.pos_lt, (List.cons.inj hdrop).2⟩

theorem At.left_eq (h : s.At nesting rest c) : s.left c = rest.length := by
  rw [left, ← List.length_drop, h.drop_eq]

theorem At.offset_nil (h : s.At nesting [] c) : s.offset c = s.source.utf8ByteSize := by
  rw [offset, h.current_eq_none]

theorem At.offset_cons (h : s.At nesting (token :: rest) c) : s.offset c = token.span.start := by
  rw [offset, h.current_eq_some]

theorem Fits.maxNesting_lt (hs : s.Fits) : maxNesting < s.limit :=
  Nat.lt_trans (by decide) hs.maxHeight_lt

theorem literal_height_le (value : Int64) : (Sized.literal value).height ≤ maxHeight := by
  show 1 ≤ maxHeight
  decide

section Questions

variable (hs : s.Fits)

include hs

theorem At.advance_eq (h : s.At nesting (token :: rest) c) : s.advance c = .ok c.next := by
  have hlt := h.pos_lt
  have hle := hs.length_le
  unfold advance
  rw [Checked.add_of_le (by omega)]
  rfl

/-- The text of a token is cut out of the source without a panic exactly if it stands there. -/
theorem text_agrees (token : Token) :
    Agrees Eq (answer token (token.text? s.source)) (s.text token) := by
  unfold text Checked.add
  cases htext : token.text? s.source with
  | some t =>
    obtain ⟨before, after, hsource, hstart, hlength⟩ := Span.text?_eq_some_iff.1 htext
    have hsize := congrArg String.utf8ByteSize hsource
    rw [String.utf8ByteSize_append, String.utf8ByteSize_append] at hsize
    have hle := hs.size_le
    rw [if_pos (by omega), Checked.ok_bind, Checked.slice_add_of_text? htext]
    exact .ok rfl
  | none =>
    -- a span that lies nowhere may also end past the largest word
    split
    · rw [Checked.ok_bind, Checked.slice_add_of_text?_eq_none htext]
      exact .unreadable _
    · exact .unreadable _

theorem equal_agrees (symbol : Symbol) (h : s.At nesting (token :: rest) c) :
    Agrees (fun found x => x = (found, if found then c.next else c))
      (Parser.spells s.source symbol token) (s.equal symbol c) := by
  unfold Parser.spells Token.spells? equal
  rw [h.current_eq_some]
  dsimp only
  split
  · have hmap : answer token ((token.text? s.source).map (· == symbol.spelling)) = (do
        let t ← answer token (token.text? s.source)
        return t == symbol.spelling) := by
      cases token.text? s.source <;> rfl
    rw [hmap]
    refine (text_agrees hs token).bind ?_
    rintro t _ - rfl
    cases t == symbol.spelling with
    | true =>
      rw [if_pos rfl, h.advance_eq hs]
      exact .ok rfl
    | false => exact .ok rfl
  · exact .ok rfl

theorem operator_agrees (ops : List Operator) (h : s.At nesting (token :: rest) c) :
    Agrees (fun op? x => x = (op?, if op?.isSome then c.next else c))
      (Parser.operatorOf s.source ops token) (s.operator ops c) := by
  induction ops with
  | nil => exact .ok rfl
  | cons op ops ih =>
    rw [Parser.operatorOf_cons, operator]
    refine (equal_agrees hs (.operator op) h).bind ?_
    rintro found _ - rfl
    cases found with
    | true => exact .ok rfl
    | false => exact ih

theorem refuseCurrent_agrees {α β : Type} (R : α → β → Prop) (cause : String → SyntaxCause)
    (h : s.At nesting (token :: rest) c) :
    Agrees R (Parser.refuseToken s.source token cause) (s.refuseCurrent c cause) := by
  unfold Parser.refuseToken refuseCurrent describe Token.describe?
  rw [h.current_eq_some, h.offset_cons]
  dsimp only
  split
  · exact .fault _
  · refine (text_agrees hs token).bind ?_
    rintro got _ - rfl
    exact .fault _

theorem join_agrees (op : Operator) (offset : Nat) {lhs rhs : Sized}
    (hlhs : lhs.height ≤ maxHeight) (hrhs : rhs.height ≤ maxHeight) :
    Agrees (fun tree tree' => tree' = tree ∧ tree.height ≤ maxHeight)
      (lhs.join op offset rhs) (s.join op offset lhs rhs) := by
  have hlt := hs.maxHeight_lt
  unfold Sized.join join
  rw [Checked.add_of_le (by omega), Checked.ok_bind]
  dsimp only
  split
  · rename_i hle
    exact .ok ⟨rfl, hle⟩
  · exact .fault _

end Questions

/-! ## The levels -/

/-- The same tree was read, which is not too high, and the cursor is where the rest begins. -/
def SameReading (s : Stream) (nesting : Nat) (x : Sized × List Token) (x' : Sized × Cursor) :
    Prop :=
  x'.1 = x.1 ∧ x.1.height ≤ maxHeight ∧ s.At nesting x.2 x'.2

/-- Wherever `nesting` parentheses are open, the reader does what the parser does, and leaves as
many open. -/
def Tracks (s : Stream) (nesting : Nat) (p : Parser) (r : Reader) : Prop :=
  ∀ tokens c, s.At nesting tokens c → Agrees (s.SameReading nesting) (p.run tokens) (r c)

/-- The loop does what the parsers' loop does, wherever its operand does what theirs does. -/
def LoopTracks (s : Stream) (loop : Loop) : Prop :=
  ∀ {nesting : Nat} {p : Parser} {r : Reader}, s.Tracks nesting p r →
    ∀ (ops : List Operator) {lhs : Sized}, lhs.height ≤ maxHeight →
      ∀ {tokens : List Token} {c : Cursor}, s.At nesting tokens c →
        Agrees (s.SameReading nesting) (Parser.chainFrom s.source ops p lhs tokens)
          (loop ops r lhs c)

/-- What may be read inside a parenthesis where `nesting` are open: nothing if these are all that
may be open, and else what the reader reads one level further in. -/
def TracksInside (s : Stream) (nesting : Nat) (inner? : Option Parser) (r : Reader) : Prop :=
  match inner? with
  | none => nesting = maxNesting
  | some inner => nesting < maxNesting ∧ s.Tracks (nesting + 1) inner r

theorem equal_nil (symbol : Symbol) (h : s.At nesting [] c) :
    s.equal symbol c = .ok (false, c) := by
  rw [equal, h.current_eq_none]
  rfl

theorem operator_nil (ops : List Operator) (h : s.At nesting [] c) :
    s.operator ops c = .ok (none, c) := by
  induction ops with
  | nil => rfl
  | cons op ops ih =>
    rw [operator, equal_nil (.operator op) h]
    exact ih

section Levels

variable (hs : s.Fits) {inner? : Option Parser} {inner : Reader}

include hs

theorem close_agrees {tokens : List Token} (h : s.At nesting tokens c) :
    Agrees (s.At nesting) (Parser.close s.source tokens) (s.close c) := by
  cases tokens with
  | nil =>
    unfold close
    rw [equal_nil .rightParen h]
    show Agrees _ _ (s.refuseCurrent c .unclosed)
    unfold refuseCurrent describe
    rw [h.current_eq_none, h.offset_nil]
    exact .fault _
  | cons token rest =>
    refine (equal_agrees hs .rightParen h).bind ?_
    rintro found _ - rfl
    cases found with
    | true => exact .ok h.next
    | false => exact refuseCurrent_agrees hs _ _ h

theorem number_agrees (h : s.At nesting (token :: rest) c) :
    Agrees (s.SameReading nesting)
      (match token.kind with
        | .number value => return (.literal value, rest)
        | _ => Parser.refuseToken s.source token .expectedNumber)
      (s.number c) := by
  unfold number
  rw [h.current_eq_some]
  dsimp only
  cases token.kind with
  | number value =>
    rw [h.advance_eq hs]
    exact .ok ⟨rfl, literal_height_le value, h.next⟩
  | punctuator => exact refuseCurrent_agrees hs _ _ h
  | eof => exact refuseCurrent_agrees hs _ _ h

theorem enclosed_of_full (h : s.At maxNesting rest c) (offset : Nat) :
    s.enclosed inner offset c = refuse offset .nestedTooDeeply := by
  have hlimit := hs.maxNesting_lt
  unfold enclosed
  rw [h.nesting_eq, Checked.add_of_le (by omega), Checked.ok_bind, if_neg (by omega)]

/-- The parenthesis is counted while it is open and no longer. -/
theorem enclosed_agrees {p : Parser} (hroom : nesting < maxNesting)
    (hinner : s.Tracks (nesting + 1) p inner) (h : s.At nesting rest c) (offset : Nat) :
    Agrees (s.SameReading nesting)
      (do
        let (tree, rest) ← p.run rest
        let rest ← Parser.close s.source rest
        return (tree, rest))
      (s.enclosed inner offset c) := by
  have hlimit := hs.maxNesting_lt
  unfold enclosed
  rw [h.nesting_eq, Checked.add_of_le (by omega), Checked.ok_bind, if_pos (by omega)]
  refine (hinner rest { c with nesting := nesting + 1 } ⟨rfl, h.pos_le, h.drop_eq⟩).bind ?_
  rintro ⟨tree, after⟩ ⟨_, c'⟩ - ⟨rfl, hheight, hafter⟩
  refine (close_agrees hs hafter).bind ?_
  rintro left c'' - hleft
  rw [hleft.nesting_eq, Checked.sub_of_le (by omega)]
  exact .ok ⟨rfl, hheight, rfl, hleft.pos_le, hleft.drop_eq⟩

theorem primary_tracks (hinner : s.TracksInside nesting inner? inner) :
    s.Tracks nesting (Parser.primary s.source inner?) (s.primary inner) := by
  intro tokens c h
  cases tokens with
  | nil =>
    unfold primary
    rw [equal_nil .leftParen h]
    show Agrees _ _ (s.number c)
    unfold number
    rw [h.current_eq_none]
    exact .fault _
  | cons token rest =>
    refine (equal_agrees hs .leftParen h).bind ?_
    rintro found _ - rfl
    cases found with
    | false => exact number_agrees hs h
    | true =>
      show Agrees _ _ (s.enclosed inner (s.offset c) c.next)
      rw [h.offset_cons]
      cases inner? with
      | none =>
        obtain rfl : nesting = maxNesting := hinner
        rw [enclosed_of_full hs h.next]
        exact .fault _
      | some p => exact enclosed_agrees hs hinner.1 hinner.2 h.next token.span.start

theorem unary_tracks (hinner : s.TracksInside nesting inner? inner) :
    s.Tracks nesting (Parser.unary s.source inner?) (s.unary inner) := by
  have hprimary := primary_tracks hs hinner
  intro tokens c h
  cases tokens with
  | nil =>
    unfold unary
    rw [equal_nil (.operator .add) h]
    show Agrees _ _ (do let (found, c) ← s.equal (.operator .sub) c; _)
    rw [equal_nil (.operator .sub) h]
    exact hprimary [] c h
  | cons token rest =>
    refine (equal_agrees hs (.operator .add) h).bind ?_
    rintro found _ - rfl
    cases found with
    | true => exact hprimary rest c.next h.next
    | false =>
      refine (equal_agrees hs (.operator .sub) h).bind ?_
      rintro found _ - rfl
      cases found with
      | false => exact hprimary (token :: rest) c h
      | true =>
        refine (hprimary rest c.next h.next).bind ?_
        rintro ⟨tree, after⟩ ⟨_, c'⟩ - ⟨rfl, hheight, hafter⟩
        show Agrees _ _ (do let tree ← s.join .sub (s.offset c) (.literal 0) _; _)
        rw [h.offset_cons]
        refine (join_agrees hs .sub _ (literal_height_le 0) hheight).bind ?_
        rintro negated _ - ⟨rfl, hnegated⟩
        exact .ok ⟨rfl, hnegated, hafter⟩

/-- Both go the same round, after which fewer tokens are left. -/
theorem round_agrees {p : Parser} {r : Reader} (hoperand : s.Tracks nesting p r)
    (ops : List Operator) {lhs : Sized} (hlhs : lhs.height ≤ maxHeight) {tokens : List Token}
    (h : s.At nesting tokens c) {again : Sized → Reader}
    (hagain : ∀ {tree : Sized} {after : List Token} {c' : Cursor}, tree.height ≤ maxHeight →
      s.At nesting after c' → after.length < tokens.length →
        Agrees (s.SameReading nesting) (Parser.chainFrom s.source ops p tree after)
          (again tree c')) :
    Agrees (s.SameReading nesting) (Parser.chainFrom s.source ops p lhs tokens)
      (s.round ops r again lhs c) := by
  unfold round
  cases tokens with
  | nil =>
    rw [Parser.chainFrom_nil, operator_nil ops h]
    exact .ok ⟨rfl, hlhs, h⟩
  | cons token rest =>
    rw [Parser.chainFrom_cons]
    refine (operator_agrees hs ops h).bind ?_
    rintro op? _ - rfl
    cases op? with
    | none => exact .ok ⟨rfl, hlhs, h⟩
    | some op =>
      refine (hoperand rest c.next h.next).bind ?_
      rintro ⟨rhs, after⟩ ⟨_, c'⟩ hrun ⟨rfl, hrhs, hafter⟩
      rw [h.offset_cons]
      refine (join_agrees hs op _ hlhs hrhs).bind ?_
      rintro tree _ - ⟨rfl, htree⟩
      exact hagain htree hafter (Nat.lt_succ_of_lt (p.consumes hrun))

/-- Each round brings the cursor nearer to the end. -/
theorem chainFrom_tracks : s.LoopTracks s.chainFrom := by
  intro nesting p r hoperand ops lhs hlhs tokens c h
  induction hlength : tokens.length using Nat.strong_induction_on
    generalizing lhs tokens c with
  | _ length ih =>
    rw [chainFrom]
    refine round_agrees hs hoperand ops hlhs h ?_
    intro tree after c' htree hafter hshorter
    have hnearer : s.left c' < s.left c := by
      rw [h.left_eq, hafter.left_eq]
      exact hshorter
    rw [if_pos hnearer]
    exact ih after.length (hlength ▸ hshorter) htree hafter rfl

omit hs in
theorem chain_tracks {loop : Loop} (hloop : s.LoopTracks loop) {p : Parser} {r : Reader}
    (hoperand : s.Tracks nesting p r) (ops : List Operator) :
    s.Tracks nesting (Parser.chain s.source ops p) (chain loop ops r) := by
  intro tokens c h
  refine (hoperand tokens c h).bind ?_
  rintro ⟨lhs, after⟩ ⟨_, c'⟩ - ⟨rfl, hheight, hafter⟩
  exact hloop hoperand ops hheight hafter

variable {loop : Loop} (hloop : s.LoopTracks loop)

include hloop

theorem multiplicative_tracks (hinner : s.TracksInside nesting inner? inner) :
    s.Tracks nesting (Parser.multiplicative s.source inner?) (s.multiplicative loop inner) :=
  chain_tracks hloop (unary_tracks hs hinner) [.mul, .div]

theorem additive_tracks (hinner : s.TracksInside nesting inner? inner) :
    s.Tracks nesting (Parser.additive s.source inner?) (s.additive loop inner) :=
  chain_tracks hloop (multiplicative_tracks hs hloop hinner) [.add, .sub]

theorem equality_tracks (hinner : s.TracksInside nesting inner? inner) :
    s.Tracks nesting (Parser.equality s.source inner?) (s.equality loop inner) :=
  chain_tracks hloop (additive_tracks hs hloop hinner) [.eq]

/-- A parenthesis that may still be opened has a level of its own. -/
theorem tracksInside_expressionBy (cut : Reader) {room levels : Nat} (hlevels : room ≤ levels)
    (hnesting : nesting + room = maxNesting) :
    s.TracksInside nesting (Parser.enclosed? s.source room)
      (s.expressionBy loop cut levels) := by
  induction room generalizing nesting levels with
  | zero => exact hnesting
  | succ room ih =>
    cases levels with
    | zero => omega
    | succ levels =>
      -- one more is open and one fewer may be opened, so the sum stays what it is
      have hinside := @ih (nesting + 1) levels (by omega) (by omega)
      exact ⟨by omega, equality_tracks hs hloop hinside⟩

/-- One level more than parentheses may be open is enough. -/
theorem expressionBy_tracks (cut : Reader) {levels : Nat} (hlevels : maxNesting < levels) :
    s.Tracks 0 (Parser.expression s.source maxNesting) (s.expressionBy loop cut levels) := by
  cases levels with
  | zero => exact absurd hlevels (Nat.not_lt_zero _)
  | succ levels =>
    have hinside := tracksInside_expressionBy hs hloop cut (Nat.le_of_lt_succ hlevels)
      (Nat.zero_add maxNesting)
    exact equality_tracks hs hloop hinside

/-- The cursor and the parsers agree on all tokens, and the cut is out of reach. -/
theorem parseBy_agrees (cut : Reader) {levels : Nat} (hlevels : maxNesting < levels) :
    Agrees Eq (ExprCompiler.parse s.source s.tokens) (s.parseBy loop cut levels) := by
  have hstart : s.At 0 s.tokens ⟨0, 0⟩ := ⟨rfl, Nat.zero_le _, rfl⟩
  refine (expressionBy_tracks hs hloop cut hlevels s.tokens ⟨0, 0⟩ hstart).bind ?_
  rintro ⟨tree, after⟩ ⟨_, c⟩ - ⟨rfl, -, hafter⟩
  cases after with
  | nil =>
    show Agrees _ _ (match s.current c with | none => _ | some token => _)
    rw [hafter.current_eq_none]
    exact .fault _
  | cons token rest =>
    show Agrees _ _ (match s.current c with | none => _ | some token => _)
    rw [hafter.current_eq_some]
    dsimp only
    split
    · exact .ok rfl
    · exact refuseCurrent_agrees hs _ _ hafter

omit hloop in
theorem parse_agrees (cut : Reader) :
    Agrees Eq (ExprCompiler.parse s.source s.tokens) (s.parse cut) :=
  parseBy_agrees hs (chainFrom_tracks hs) cut (Nat.lt_add_one maxNesting)

end Levels

end Stream

end ExprCompiler
