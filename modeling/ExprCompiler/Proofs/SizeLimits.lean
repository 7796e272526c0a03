import ExprCompiler.Proofs.Composition
import ExprCompiler.Proofs.Excess
import ExprCompiler.Proofs.FirstFault

/-!
# Expressions that are refused for their size

A text that is an expression is refused by `parse` exactly if the expression goes beyond the limits,
and it is refused at the excess that is noticed first (`ofTokens_refused_at_first_excess`).

That parts within the limits are read is known from `Phrase.reads`. What is added here is where the
parser gives up if a part is out of bounds: `Phrase.refusesExcess` goes through the grammar as
`Phrase.reads` does, and keeps the first excess of the part that has been given to each level.
-/

namespace ExprCompiler

open Terminal
open ParseFailure (refuse)
open ExprCompiler.Parser

/-! ## Refusals at the first excess -/

/-- The result is a refusal at the first excess of `s`, whose tokens are `used`. -/
def RefusedAtExcess {α : Type} (room : Nat) (s : Surface) (used : List Token)
    (result : Except ParseFailure α) : Prop :=
  ∃ k j token, used[k]? = some token ∧ FirstExcess room maxHeight s k j ∧
    result = refuse token.span.start .nestedTooDeeply

/-- The first node that is too high is one too high, since its operands have been built. -/
theorem Expr.justExceeds_of_lt {op : Operator} {lhs rhs : Expr} {limit : Nat}
    (hl : lhs.height ≤ limit) (hr : rhs.height ≤ limit)
    (hheight : ¬ 1 + max lhs.height rhs.height ≤ limit) :
    (binary op lhs rhs).JustExceeds limit := by
  refine ⟨?_, hl, hr⟩
  rw [height_binary]
  omega

namespace RefusedAtExcess

variable {α : Type} {room : Nat} {s l r : Surface} {result : Except ParseFailure α}

theorem bind {β : Type} {used : List Token} (h : RefusedAtExcess room s used result)
    (f : α → Except ParseFailure β) : RefusedAtExcess room s used (result >>= f) := by
  obtain ⟨k, j, token, htoken, hfirst, rfl⟩ := h
  exact ⟨k, j, token, htoken, hfirst, rfl⟩

theorem paren {inside : List Token} (h : RefusedAtExcess room s inside result) (o c : Token) :
    RefusedAtExcess (room + 1) (.paren s) (o :: inside ++ [c]) result := by
  obtain ⟨k, j, token, htoken, hfirst, hresult⟩ := h
  refine ⟨1 + k, 1 + j, token, ?_, hfirst.paren, hresult⟩
  have hk : k < inside.length := (List.getElem?_eq_some_iff.1 htoken).1
  rw [Nat.add_comm, List.cons_append, List.getElem?_cons_succ, List.getElem?_append_left hk, htoken]

theorem plus {used : List Token} (h : RefusedAtExcess room s used result) (sign : Token) :
    RefusedAtExcess room (.plus s) (sign :: used) result := by
  obtain ⟨k, j, token, htoken, hfirst, hresult⟩ := h
  refine ⟨1 + k, 1 + j, token, ?_, hfirst.plus, hresult⟩
  rw [Nat.add_comm, List.getElem?_cons_succ, htoken]

theorem minus {used : List Token} (h : RefusedAtExcess room s used result) (sign : Token) :
    RefusedAtExcess room (.minus s) (sign :: used) result := by
  obtain ⟨k, j, token, htoken, hfirst, hresult⟩ := h
  refine ⟨1 + k, 1 + j, token, ?_, hfirst.minus, hresult⟩
  rw [Nat.add_comm, List.getElem?_cons_succ, htoken]

/-- The operand is within the limits, so the sign is where they are exceeded. -/
theorem sign (hs : s.Within room) (hout : ¬ (Surface.minus s).Within room) (sign : Token)
    (used : List Token) : RefusedAtExcess room (.minus s) (sign :: used)
      ((Sized.literal 0).join .sub sign.span.start (.ofExpr s.tree)) := by
  have hheight : ¬ 1 + max 1 s.tree.height ≤ maxHeight := fun h => hout ⟨hs.1, h⟩
  have hnode : (Surface.minus s).tree.JustExceeds maxHeight :=
    Expr.justExceeds_of_lt (Nat.le_trans s.tree.height_pos hs.2) hs.2 hheight
  exact ⟨0, s.width, sign, rfl, firstExcess_minus (fun k j => hs.not_exceeds) hnode,
    join_eq_refuse hheight⟩

theorem left {used : List Token} (h : RefusedAtExcess room l used result) (op : Operator)
    (r : Surface) (after : List Token) :
    RefusedAtExcess room (.binary op l r) (used ++ after) result := by
  obtain ⟨k, j, token, htoken, hfirst, hresult⟩ := h
  refine ⟨k, j, token, ?_, hfirst.left op r, hresult⟩
  have hk : k < used.length := (List.getElem?_eq_some_iff.1 htoken).1
  rw [List.getElem?_append_left hk, htoken]

variable {before : List Token} (hwidth : before.length = l.width) (hl : l.Within room)

include hwidth hl

theorem right {used : List Token} (h : RefusedAtExcess room r used result) (op : Operator)
    (o : Token) : RefusedAtExcess room (.binary op l r) (before ++ o :: used) result := by
  obtain ⟨k, j, token, htoken, hfirst, hresult⟩ := h
  refine ⟨l.width + 1 + k, l.width + 1 + j, token, ?_, ?_, hresult⟩
  · have hindex : before.length + 1 + k - before.length = k + 1 := by omega
    rw [← hwidth, List.getElem?_append_right (by omega), hindex, List.getElem?_cons_succ, htoken]
  · exact hfirst.right op fun k j => hl.not_exceeds

/-- Both operands are within the limits, so the operator is where they are exceeded. -/
theorem operator {op : Operator} (hr : r.Within room)
    (hout : ¬ (Surface.binary op l r).Within room) (o : Token) (after : List Token) :
    RefusedAtExcess room (.binary op l r) (before ++ o :: after)
      ((Sized.ofExpr l.tree).join op o.span.start (.ofExpr r.tree)) := by
  have hheight : ¬ 1 + max l.tree.height r.tree.height ≤ maxHeight := fun h =>
    hout (Surface.within_binary.2 ⟨hl, hr, h⟩)
  have hnode : (Surface.binary op l r).tree.JustExceeds maxHeight :=
    Expr.justExceeds_of_lt hl.2 hr.2 hheight
  refine ⟨l.width, l.width + r.width, o, ?_, ?_, join_eq_refuse hheight⟩
  · rw [← hwidth, List.getElem?_append_right (Nat.le_refl _), Nat.sub_self, List.getElem?_cons_zero]
  · exact firstExcess_binary (fun k j => hl.not_exceeds) (fun k j => hr.not_exceeds) hnode

end RefusedAtExcess

/-! ## The parser notices the first excess first -/

/-- Wherever the tokens `used` stand in front of a token that goes on with no tighter level, the
parser of level `L` refuses them at their first excess, if they have one. -/
def RefusesExcess (source : String) (L : Level) (s : Surface) (used : List Token) : Prop :=
  ∀ room rest, HeadReadable source rest → (∀ L', L.tighter? = some L' → Stops source L' rest) →
    ¬ s.Within room →
      RefusedAtExcess room s used ((atLevel source (enclosed? source room) L).run (used ++ rest))

section Refuses

variable {source : String} {L L' : Level} {s l r : Surface}

theorem RefusesExcess.stop {used : List Token} (h : RefusesExcess source L s used) {room : Nat}
    {rest : List Token} (hread : HeadReadable source rest) (hstops : Stops source L rest)
    (hout : ¬ s.Within room) :
    RefusedAtExcess room s used ((atLevel source (enclosed? source room) L).run (used ++ rest)) :=
  h room rest hread (fun _ hL => hstops.tighter hL) hout

theorem refusesExcess_number (value : Int64) (used : List Token) :
    RefusesExcess source .primary (.number value) used := by
  intro room rest _ _ hout
  exact absurd ⟨Nat.zero_le room, by simp [Surface.tree, maxHeight]⟩ hout

theorem RefusesExcess.paren {o c : Token} {inside : List Token}
    (hin : RefusesExcess source .equality s inside) (horead : o.Readable source)
    (ho : o.terminal source = ofSymbol .leftParen) (hcread : c.Readable source)
    (hc : c.terminal source = ofSymbol .rightParen) :
    RefusesExcess source .primary (.paren s) (o :: inside ++ [c]) := by
  intro room rest hrest _ hout
  cases room with
  | zero => exact ⟨0, 0, o, rfl, firstExcess_open, primary_none horead ho _⟩
  | succ room =>
    have hstops : Stops source .equality (c :: rest) := by
      rw [stops_cons_iff, hc]
      simp
    have hins : ¬ s.Within room := fun h => hout ⟨Nat.succ_le_succ h.1, h.2⟩
    have happend : o :: inside ++ [c] ++ rest = o :: (inside ++ c :: rest) := by simp
    rw [happend]
    show RefusedAtExcess _ _ _
      ((primary source (some (equality source (enclosed? source room)))).run _)
    rw [primary_some horead ho]
    have hinside := hin.stop (headReadable_cons_iff.2 hcread) hstops hins
    exact (hinside.bind _).paren o c

theorem RefusesExcess.plus {token : Token} {used : List Token}
    (h : RefusesExcess source .primary s used) (hread : token.Readable source)
    (ht : token.terminal source = ofSymbol (.operator .add)) :
    RefusesExcess source .unary (.plus s) (token :: used) := by
  intro room rest hrest _ hout
  show RefusedAtExcess room _ _ ((unary source _).run (token :: (used ++ rest)))
  rw [unary_plus hread ht]
  exact (h.stop hrest (stops_primary rest) hout).plus token

theorem RefusesExcess.minus {token : Token} {used : List Token}
    (h : RefusesExcess source .primary s used) (hreads : Reads source .primary s used)
    (hread : token.Readable source) (ht : token.terminal source = ofSymbol (.operator .sub)) :
    RefusesExcess source .unary (.minus s) (token :: used) := by
  intro room rest hrest _ hout
  show RefusedAtExcess room _ _ ((unary source _).run (token :: (used ++ rest)))
  rw [unary_minus hread ht]
  rcases hreads.stop room hrest (stops_primary rest) with ⟨hwithin, hok⟩ | ⟨hins, -⟩
  · have hprimary : (primary source (enclosed? source room)).run (used ++ rest) =
        .ok (.ofExpr s.tree, rest) := hok
    rw [hprimary]
    exact (RefusedAtExcess.sign hwithin hout token used).bind _
  · exact ((h.stop hrest (stops_primary rest) hins).bind _).minus token

theorem RefusesExcess.unsigned {used : List Token} (h : RefusesExcess source .primary s used)
    (hphrase : Phrase (tokenLexicon source) .primary used s) :
    RefusesExcess source .unary s used := by
  intro room rest hrest _ hout
  show RefusedAtExcess room _ _ ((unary source _).run (used ++ rest))
  rw [hphrase.unary_run]
  exact h.stop hrest (stops_primary rest) hout

theorem RefusesExcess.tighter {used : List Token} (h : RefusesExcess source L' s used)
    (hL : L.tighter? = some L') (hne : L ≠ .unary) : RefusesExcess source L s used := by
  intro room rest hrest hstops hout
  rw [atLevel_eq_chain source _ hL hne]
  exact (h.stop hrest (hstops L' hL) hout).bind _

theorem RefusesExcess.binary {o : Token} {op : Operator} {left right : List Token}
    (hl : RefusesExcess source L l left) (hreadsl : Reads source L l left)
    (hwidth : left.length = l.width) (hr : RefusesExcess source L' r right)
    (hreadsr : Reads source L' r right) (hL : L.tighter? = some L') (hop : op ∈ L.operators)
    (horead : o.Readable source) (ho : o.terminal source = ofSymbol (.operator op)) :
    RefusesExcess source L (.binary op l r) (left ++ o :: right) := by
  intro room rest hrest hstops hout
  have happend : left ++ o :: right ++ rest = left ++ o :: (right ++ rest) := by simp
  have hread : HeadReadable source (o :: (right ++ rest)) := headReadable_cons_iff.2 horead
  have hbefore (L'' : Level) (hL'' : L.tighter? = some L'') :
      Stops source L'' (o :: (right ++ rest)) :=
    Option.some.inj (hL.symm.trans hL'') ▸ stops_operator hL hop ho (right ++ rest)
  rw [happend]
  rcases hreadsl room (o :: (right ++ rest)) hread hbefore with ⟨hlwithin, hlok⟩ | ⟨hlout, -⟩
  · rw [hlok, resume_operator hL hop ho horead]
    rcases hreadsr.stop room hrest (hstops L' hL) with ⟨hrwithin, hrok⟩ | ⟨hrout, -⟩
    · rw [hrok]
      exact (RefusedAtExcess.operator hwidth hlwithin hrwithin hout o right).bind _
    · exact ((hr.stop hrest (hstops L' hL) hrout).bind _).right hwidth hlwithin op o
  · exact (hl room (o :: (right ++ rest)) hread hbefore hlout).left op r (o :: right)

theorem Phrase.length_eq {used : List Token} (h : Phrase (tokenLexicon source) L used s) :
    used.length = s.width := by
  unfold Surface.width
  induction h with
  | number hused =>
    obtain ⟨token, rfl, -⟩ := hused
    rfl
  | paren hleft hs hright ih =>
    obtain ⟨o, rfl, -⟩ := hleft
    obtain ⟨c, rfl, -⟩ := hright
    simp [Surface.terminals, ih]
  | plus hsign hs ih | minus hsign hs ih =>
    obtain ⟨token, rfl, -⟩ := hsign
    simp [Surface.terminals, ih]
  | tighter hL hs ih => exact ih
  | binary hL hop hl hoperator hr ihl ihr =>
    obtain ⟨o, rfl, -⟩ := hoperator
    simp [Surface.terminals, ihl, ihr]

theorem Phrase.refusesExcess {used : List Token} (h : Phrase (tokenLexicon source) L used s) :
    RefusesExcess source L s used := by
  induction h with
  | number hused => exact refusesExcess_number _ _
  | paren hleft hs hright ih =>
    obtain ⟨o, rfl, horead, ho⟩ := hleft
    obtain ⟨c, rfl, hcread, hc⟩ := hright
    exact ih.paren horead ho hcread hc
  | plus hsign hs ih =>
    obtain ⟨token, rfl, hread, ht⟩ := hsign
    exact ih.plus hread ht
  | minus hsign hs ih =>
    obtain ⟨token, rfl, hread, ht⟩ := hsign
    exact ih.minus hs.reads hread ht
  | @tighter L L' used s hL hs ih =>
    by_cases hne : L = .unary
    · subst hne
      obtain rfl : .primary = L' := Option.some.inj hL
      exact ih.unsigned hs
    · exact ih.tighter hL hne
  | binary hL hop hl hoperator hr ihl ihr =>
    obtain ⟨o, rfl, horead, ho⟩ := hoperator
    rw [List.append_assoc, List.singleton_append]
    exact ihl.binary hl.reads hl.length_eq ihr hr.reads hL hop horead ho

end Refuses

/-! ## Towers of parentheses -/

theorem nesting_tower (n : Nat) : (Surface.paren^[n] (.number 1)).nesting = n := by
  induction n with
  | zero => rfl
  | succ n ih => rw [Function.iterate_succ_apply', Surface.nesting, ih]

theorem firstExcess_tower (n limit : Nat) (s : Surface) :
    FirstExcess n limit (Surface.paren^[n + 1] s) n n := by
  induction n with
  | zero => exact firstExcess_open
  | succ n ih =>
    have hparen := ih.paren
    rwa [← Function.iterate_succ_apply' Surface.paren, Nat.add_comm 1 n] at hparen

theorem derives_tower (n : Nat) :
    Derives (List.replicate n '(' ++ '1' :: List.replicate n ')')
      (Surface.paren^[n] (.number 1)) := by
  induction n with
  | zero =>
    have hprint : (Expr.literal 1).print.toList = ['1'] := by cbv
    have hone : textLexicon.number 1 ['1'] := by
      rw [← hprint]
      exact Expr.number_print (by decide)
    exact (Phrase.number hone).derives
  | succ n ih =>
    rw [Function.iterate_succ_apply', List.replicate_succ, List.replicate_succ']
    have := ih.paren.derives
    simpa using this

/-! ## Whole texts -/

section Texts

variable {source : String} {body : List Token} {size : Nat} {s : Surface}

theorem Phrase.within_maxNesting_iff
    (hs : Phrase lexicon .equality (body.map (Token.terminal source)) s) :
    s.Within maxNesting ↔
      NestedWithin (ofSymbol .leftParen) (ofSymbol .rightParen) 256
        (body.map (Token.terminal source)) ∧ s.tree.height ≤ 4096 := by
  rw [hs.nestedWithin_iff lexicon_brackets]
  rfl

theorem Phrase.parse_refusedAtExcess (hs : Phrase (tokenLexicon source) .equality body s)
    (hout : ¬ s.Within maxNesting) :
    RefusedAtExcess maxNesting s body (parse source (body ++ [.endOfInput size])) := by
  have hread : HeadReadable source [.endOfInput size] := headReadable_cons_iff.2 (.inl rfl)
  have hrun := hs.refusesExcess.stop hread (stops_endOfInput rfl .equality []) hout
  exact hrun.bind _

/-- An expression is refused for its size exactly if more than 256 parentheses are open somewhere in
it or its tree is higher than 4096. It is then refused at the parenthesis or operator whose excess
comes first when the text is read from left to right. -/
theorem ofTokens_refused_at_first_excess
    (htokens : tokenize source = .ok (body ++ [.endOfInput size]))
    (hs : Phrase lexicon .equality (body.map (Token.terminal source)) s) :
    (RefusedTooDeep (Expr.ofTokens source (body ++ [.endOfInput size])) ↔
      ¬ NestedWithin (ofSymbol .leftParen) (ofSymbol .rightParen) 256
        (body.map (Token.terminal source)) ∨ 4096 < s.tree.height) ∧
    ∀ d, Expr.ofTokens source (body ++ [.endOfInput size]) = .error (.refused d) →
      d.detail = "expression nested too deeply" →
        ∃ k j token, FirstExcess 256 4096 s k j ∧ body[k]? = some token ∧
          d.position.offset = token.span.start := by
  have hread : ∀ t ∈ body, t.Readable source := fun t ht =>
    readable_of_tokenize htokens t (by simp [ht])
  rw [← Nat.not_le, ← not_and_or, ← hs.within_maxNesting_iff]
  by_cases hbounds : s.Within maxNesting
  · have hok : Expr.ofTokens source (body ++ [.endOfInput size]) = .ok s.tree :=
      Expr.ofTokens_eq_ok_iff.2 ((parse_of_tokenize htokens s.tree).2 ⟨s, hs, rfl, hbounds⟩)
    rw [hok]
    refine ⟨⟨?_, fun h => absurd hbounds h⟩, ?_⟩
    · rintro ⟨d, h, -⟩
      cases h
    · intro d h
      cases h
  · obtain ⟨k, j, token, htoken, hfirst, hparse⟩ :=
      (hs.tokens rfl hread).parse_refusedAtExcess hbounds
    have hrefused : Expr.ofTokens source (body ++ [.endOfInput size]) = .error
        (.refused (.ofSyntaxFault source ⟨token.span.start, .nestedTooDeeply⟩)) := by
      rw [Expr.ofTokens, hparse]
      rfl
    rw [hrefused]
    refine ⟨⟨fun _ => hbounds, fun _ => ⟨_, rfl, rfl, rfl⟩⟩, ?_⟩
    rintro d ⟨⟩ -
    have hmem : token ∈ body ++ [.endOfInput size] := by simp [List.mem_of_getElem? htoken]
    exact ⟨k, j, token, hfirst, htoken, atMost_start_of_tokenize htokens hmem⟩

/-- A tower of 257 parentheses is refused at the last of them, although nothing is wrong with it
otherwise. -/
theorem refused_at_top_of_tower :
    let source := String.ofList (List.replicate 257 '(' ++ '1' :: List.replicate 257 ')')
    let s := Surface.paren^[257] (.number 1)
    ∃ body size, tokenize source = .ok (body ++ [.endOfInput size]) ∧
      Phrase lexicon .equality (body.map (Token.terminal source)) s ∧
      ∃ d token, Expr.ofTokens source (body ++ [.endOfInput size]) = .error (.refused d) ∧
        d.detail = "expression nested too deeply" ∧ body[256]? = some token ∧
        d.position.offset = token.span.start := by
  intro source s
  have hderives : Derives source.toList s := by
    rw [String.toList_ofList]
    exact derives_tower 257
  obtain ⟨body, size, htokens, hs⟩ := hderives.exists_tokens
  obtain ⟨hiff, hplace⟩ := ofTokens_refused_at_first_excess htokens hs
  have hnested : ¬ NestedWithin (ofSymbol .leftParen) (ofSymbol .rightParen) 256
      (body.map (Token.terminal source)) := by
    rw [hs.nestedWithin_iff lexicon_brackets, nesting_tower]
    omega
  obtain ⟨d, hd, -, hdetail⟩ := hiff.2 (.inl hnested)
  obtain ⟨k, j, token, hfirst, htoken, hoffset⟩ := hplace d hd hdetail
  obtain ⟨rfl, -⟩ := (firstExcess_tower 256 4096 (.number 1)).unique hfirst
  exact ⟨body, size, htokens, hs, d, token, hd, hdetail, htoken, hoffset⟩

end Texts

end ExprCompiler
