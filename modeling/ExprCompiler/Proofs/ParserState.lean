import ExprCompiler.Proofs.Cursor

/-!
# What a parse does to the state

The state of a parse is its cursor: the index of the next token and the number of open parentheses.
A procedure of the cursor's parser that succeeds, from `parse_primary` to `parse_expr` and whatever
state it starts in, has moved the index forward, over tokens none of which is the end of the input,
and stands in front of a token that could not have continued what it read. It has closed as many
parentheses as it opened. The height that it carries along is the height of the tree
(`Stream.Advances`).

Nothing of this is proved a second time for the cursor. It does what the parsers do
(`Stream.atLevel_tracks`), and what they read is a phrase of the grammar
(`Parser.atLevel_accepts`); the state is read off the phrase and the tokens that remain.
-/

namespace ExprCompiler

open Terminal

/-- No expression contains the end of the input. -/
theorem Surface.ne_endOfInput_of_mem_terminals {s : Surface} :
    ∀ x ∈ s.terminals, x ≠ .endOfInput := by
  induction s with
  | number value =>
    intro x hx
    obtain rfl := List.mem_singleton.1 hx
    simp
  | paren inner ih =>
    intro x hx
    simp only [terminals, List.mem_cons, List.mem_append, List.not_mem_nil, or_false] at hx
    rcases hx with rfl | hx | rfl
    · exact ofSymbol_ne_endOfInput _
    · exact ih x hx
    · exact ofSymbol_ne_endOfInput _
  | plus operand ih | minus operand ih =>
    intro x hx
    rcases List.mem_cons.1 hx with rfl | hx
    · exact ofSymbol_ne_endOfInput _
    · exact ih x hx
  | binary op lhs rhs ihl ihr =>
    intro x hx
    simp only [terminals, List.mem_append, List.mem_cons] at hx
    rcases hx with hx | rfl | hx
    · exact ihl x hx
    · exact ofSymbol_ne_endOfInput _
    · exact ihr x hx

theorem Phrase.kind_ne_eof {source : String} {L : Level} {used : List Token} {s : Surface}
    (h : Phrase lexicon L (used.map (Token.terminal source)) s) :
    ∀ t ∈ used, t.kind ≠ .eof := by
  intro t ht heof
  have hmem : t.terminal source ∈ s.terminals := by
    rw [← h.eq_terminals]
    exact List.mem_map_of_mem ht
  exact s.ne_endOfInput_of_mem_terminals _ hmem (Token.terminal_eq_endOfInput_iff.2 heof)

namespace Stream

/-- The procedure of a level, where `inner` reads what stands in parentheses. -/
def atLevel (s : Stream) (inner : Reader) : Level → Reader
  | .equality => s.equality s.chainFrom inner
  | .additive => s.additive s.chainFrom inner
  | .multiplicative => s.multiplicative s.chainFrom inner
  | .unary => s.unary inner
  | .primary => s.primary inner

/-- A procedure of level `L` has read `tree` and moved the cursor from `c` to `c'`. -/
structure Advances (s : Stream) (L : Level) (c : Cursor) (tree : Sized) (c' : Cursor) : Prop where
  pos_lt : c.pos < c'.pos
  pos_le : c'.pos ≤ s.tokens.length
  /-- The end of the input is not passed. -/
  ne_eof : ∀ i token, c.pos ≤ i → i < c'.pos → s.tokens[i]? = some token → token.kind ≠ .eof
  nesting_eq : c'.nesting = c.nesting
  height_eq : tree.height = tree.expr.height
  height_le : tree.height ≤ 4096
  /-- The next token is no operator of the level or of a tighter one. -/
  stops : ∀ token, s.tokens[c'.pos]? = some token → ∀ op ∈ L.absorbed,
    ¬ (token.kind = .punctuator ∧ token.text? s.source = some op.symbol)

variable {s : Stream} {c c' : Cursor} {nesting : Nat}

theorem atLevel_tracks (hs : s.Fits) {inner? : Option Parser} {inner : Reader}
    (hinner : s.TracksInside nesting inner? inner) (L : Level) :
    s.Tracks nesting (Parser.atLevel s.source inner? L) (s.atLevel inner L) := by
  have hloop : s.LoopTracks s.chainFrom := chainFrom_tracks hs
  cases L with
  | equality => exact equality_tracks hs hloop hinner
  | additive => exact additive_tracks hs hloop hinner
  | multiplicative => exact multiplicative_tracks hs hloop hinner
  | unary => exact unary_tracks hs hinner
  | primary => exact primary_tracks hs hinner

/-- The tokens between two places of the cursor are those that were used up between them. -/
theorem At.mem_used {used rest : List Token} (h : s.At nesting (used ++ rest) c)
    (h' : s.At nesting rest c') {i : Nat} {token : Token} (hle : c.pos ≤ i) (hlt : i < c'.pos)
    (htoken : s.tokens[i]? = some token) : token ∈ used := by
  have hlength : used.length = c'.pos - c.pos := by
    have hleft := h.left_eq
    have hleft' := h'.left_eq
    have hpos := h.pos_le
    have hpos' := h'.pos_le
    rw [left, List.length_append] at hleft
    rw [left] at hleft'
    omega
  have hget : (used ++ rest)[i - c.pos]? = some token := by
    rw [← h.drop_eq, List.getElem?_drop, Nat.add_sub_cancel' hle]
    exact htoken
  rw [List.getElem?_append_left (by omega)] at hget
  exact List.mem_of_getElem? hget

/-- What a parser reads says what has become of the state. -/
theorem At.advances {inner? : Option Parser} {L : Level} {tokens rest : List Token} {tree : Sized}
    (haccepts : (Parser.atLevel s.source inner? L).Accepts s.source L)
    (hrun : (Parser.atLevel s.source inner? L).run tokens = .ok (tree, rest))
    (hheight : tree.height ≤ maxHeight) (h : s.At c.nesting tokens c)
    (h' : s.At c.nesting rest c') : s.Advances L c tree c' := by
  have hshorter := (Parser.atLevel s.source inner? L).consumes hrun
  obtain ⟨used, surface, rfl, hphrase, rfl, hstops⟩ := haccepts _ _ _ hrun
  have hleft := h.left_eq
  have hleft' := h'.left_eq
  rw [left] at hleft hleft'
  refine
    { pos_lt := by omega
      pos_le := h'.pos_le
      ne_eof := ?_
      nesting_eq := h'.nesting_eq
      height_eq := rfl
      height_le := hheight
      stops := ?_ }
  · intro i token hle hlt htoken
    exact hphrase.kind_ne_eof token (h.mem_used h' hle hlt htoken)
  · rintro token htoken op hop ⟨hkind, htext⟩
    have hhead : token ∈ rest.head? := by
      rw [← h'.drop_eq, List.head?_drop]
      exact htoken
    refine hstops token hhead op hop ?_
    rw [Token.terminal_eq_ofSymbol_iff, Token.spells?_eq_some_true_iff]
    exact ⟨hkind, htext⟩

/-- Wherever it stands and however many parentheses are open, the cursor does what the parser does
that may open the others. As many levels are left as parentheses, so the cut is out of reach. -/
theorem atLevel_agrees (hs : s.Fits) (cut : Reader) (hpos : c.pos ≤ s.tokens.length)
    (hnesting : c.nesting ≤ maxNesting) (L : Level) :
    Agrees (s.SameReading c.nesting)
      ((Parser.atLevel s.source (Parser.enclosed? s.source (maxNesting - c.nesting)) L).run
        (s.tokens.drop c.pos))
      (s.atLevel (s.expression cut maxNesting) L c) := by
  have hsum : c.nesting + (maxNesting - c.nesting) = maxNesting := Nat.add_sub_cancel' hnesting
  have hinside := tracksInside_expressionBy hs (chainFrom_tracks hs) cut
    (Nat.sub_le maxNesting c.nesting) hsum
  exact atLevel_tracks hs hinside L _ c ⟨rfl, hpos, rfl⟩

theorem advances_of_atLevel (hs : s.Fits) (cut : Reader) (hpos : c.pos ≤ s.tokens.length)
    (hnesting : c.nesting ≤ maxNesting) (L : Level) {tree : Sized}
    (h : s.atLevel (s.expression cut maxNesting) L c = .ok (tree, c')) :
    s.Advances L c tree c' := by
  have hagrees := atLevel_agrees hs cut hpos hnesting L
  obtain ⟨⟨_, rest⟩, hrun, rfl, hheight, hrest⟩ := hagrees.exists_of_ok_right h
  exact At.advances (Parser.atLevel_accepts _ L) hrun hheight ⟨rfl, hpos, rfl⟩ hrest

end Stream

/-- The procedures of the parser keep its state in order. From any state with at most 256 open
parentheses, on any tokens whatsoever that can be counted, each of them does what the parser of its
level does, and if it succeeds, it has moved forward within the tokens, not over an end of the
input, with as many parentheses open as before; its tree has the height that it says, which is at
most 4096, and what comes next is no operator that it should have taken. -/
theorem parser_state_kept {s : Stream} (hs : s.Fits) (cut : Stream.Reader) {c : Cursor}
    (hpos : c.pos ≤ s.tokens.length) (hnesting : c.nesting ≤ 256) :
    (∀ tree c', s.expression cut 257 c = .ok (tree, c') → s.Advances .equality c tree c') ∧
    ∀ L : Level,
      Agrees (s.SameReading c.nesting)
        ((Parser.atLevel s.source (Parser.enclosed? s.source (256 - c.nesting)) L).run
          (s.tokens.drop c.pos))
        (s.atLevel (s.expression cut 256) L c) ∧
      ∀ tree c', s.atLevel (s.expression cut 256) L c = .ok (tree, c') →
        s.Advances L c tree c' := by
  refine ⟨?_, ?_⟩
  · intro tree c' h
    exact Stream.advances_of_atLevel hs cut hpos hnesting .equality h
  · intro L
    refine ⟨Stream.atLevel_agrees hs cut hpos hnesting L, ?_⟩
    intro tree c' h
    exact Stream.advances_of_atLevel hs cut hpos hnesting L h

set_option maxRecDepth 4000 in
/-- With 255 parentheses open, `-(3)` opens the last one that may be open and closes it again. The
reading of a product stops in front of the plus sign. -/
theorem parser_state_kept_at_last_parenthesis :
    let tokens : List Token := [⟨.punctuator, ⟨0, 1⟩⟩, ⟨.punctuator, ⟨1, 1⟩⟩, ⟨.punctuator, ⟨2, 1⟩⟩,
      ⟨.number 3, ⟨3, 1⟩⟩, ⟨.punctuator, ⟨4, 1⟩⟩, ⟨.punctuator, ⟨5, 1⟩⟩, ⟨.number 1, ⟨6, 1⟩⟩]
    let s : Stream := ⟨2 ^ 64 - 1, "(-(3)+1", tokens⟩
    let negated : Sized := ⟨.binary .sub (.literal 0) (.literal 3), 2⟩
    s.Fits ∧ ∀ cut : Stream.Reader,
      s.atLevel (s.expression cut 256) .multiplicative ⟨1, 255⟩ = .ok (negated, ⟨5, 255⟩) ∧
        s.Advances .multiplicative ⟨1, 255⟩ negated ⟨5, 255⟩ := by
  intro tokens s negated
  have hfits : s.Fits := ⟨by decide, by decide, by decide⟩
  have hparse : (Parser.atLevel "(-(3)+1" (Parser.enclosed? "(-(3)+1" (256 - 255))
      .multiplicative).run (tokens.drop 1) = .ok (negated, tokens.drop 5) := by cbv
  refine ⟨hfits, fun cut => ?_⟩
  obtain ⟨hagrees, hadvances⟩ :=
    (parser_state_kept hfits cut (c := ⟨1, 255⟩) (by decide) (by decide)).2 .multiplicative
  have hread : s.atLevel (s.expression cut 256) .multiplicative ⟨1, 255⟩ =
      .ok (negated, ⟨5, 255⟩) := by
    obtain ⟨⟨_, ⟨pos, nesting⟩⟩, hfound, rfl, -, hrest⟩ := hagrees.exists_of_ok_left hparse
    have hleft : 7 - pos = 2 := hrest.left_eq
    obtain rfl : pos = 5 := by omega
    obtain rfl : nesting = 255 := hrest.nesting_eq
    exact hfound
  exact ⟨hread, hadvances _ _ hread⟩

end ExprCompiler
