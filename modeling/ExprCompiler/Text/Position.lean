/-!
# Places in a source text

A position is a place between two characters of a text, given both as a byte offset and as the
number of characters that stand before it. `Position.atMost` finds the last place of a text that is
not past a given byte offset, so every offset, even one inside a character or past the end, has a
place to point at. It is how the compiler's `caret` brings an offset back to a boundary; a boundary
of the text is found as it is (`Position.atMost_append`).
-/

namespace ExprCompiler

/-- A place between two characters of a text. -/
structure Position where
  /-- The number of bytes before the place, in the UTF-8 encoding. -/
  offset : Nat
  /-- The number of characters before the place. -/
  column : Nat
deriving DecidableEq, Repr

namespace Position

def origin : Position := ⟨0, 0⟩

/-- The place just after the character `c` that starts at a place. -/
def next (here : Position) (c : Char) : Position := ⟨here.offset + c.utf8Size, here.column + 1⟩

/-- Walks from a place over the characters `cs` that follow it, as long as `limit` is not passed. -/
def walk (limit : Nat) (here : Position) : List Char → Position
  | [] => here
  | c :: cs => if (here.next c).offset ≤ limit then walk limit (here.next c) cs else here

/-- The last place of `source` whose byte offset is at most `limit`. -/
def atMost (source : String) (limit : Nat) : Position :=
  walk limit origin source.toList

/-! ## Where a walk ends -/

/-- A walk stops at a place of the text: the characters walked over account for what it adds. -/
theorem walk_eq (limit : Nat) (here : Position) (cs : List Char) :
    ∃ passed left, cs = passed ++ left ∧
      (walk limit here cs).offset = here.offset + (String.ofList passed).utf8ByteSize ∧
        (walk limit here cs).column = here.column + passed.length := by
  induction cs generalizing here with
  | nil => exact ⟨[], [], by simp [walk]⟩
  | cons c cs ih =>
    rw [walk]
    split
    · obtain ⟨passed, left, rfl, hoffset, hcolumn⟩ := ih (here.next c)
      refine ⟨c :: passed, left, rfl, ?_, ?_⟩
      · rw [hoffset, String.ofList_cons, String.utf8ByteSize_append]
        simp [next, Nat.add_assoc]
      · rw [hcolumn]
        simp only [next, List.length_cons]
        omega
    · exact ⟨[], c :: cs, by simp⟩

theorem walk_offset_le {limit : Nat} {here : Position} (h : here.offset ≤ limit) (cs : List Char) :
    (walk limit here cs).offset ≤ limit := by
  induction cs generalizing here with
  | nil => exact h
  | cons c cs ih =>
    rw [walk]
    split
    · rename_i hnext
      exact ih hnext
    · exact h

/-- A walk passes every place that is within the limit. -/
theorem le_walk_offset {limit : Nat} {here : Position} {passed : List Char}
    (h : here.offset + (String.ofList passed).utf8ByteSize ≤ limit) (left : List Char) :
    here.offset + (String.ofList passed).utf8ByteSize ≤
      (walk limit here (passed ++ left)).offset := by
  induction passed generalizing here with
  | nil =>
    obtain ⟨_, _, _, hoffset, _⟩ := walk_eq limit here ([] ++ left)
    rw [hoffset]
    simp
  | cons c passed ih =>
    have hnext : here.offset + (String.ofList (c :: passed)).utf8ByteSize =
        (here.next c).offset + (String.ofList passed).utf8ByteSize := by
      rw [String.ofList_cons, String.utf8ByteSize_append]
      simp [next, Nat.add_assoc]
    rw [hnext] at h ⊢
    rw [List.cons_append, walk, if_pos (by omega)]
    exact ih h

/-- A walk that can reach the limit stops there. -/
theorem walk_append {limit : Nat} {here : Position} {passed : List Char}
    (h : here.offset + (String.ofList passed).utf8ByteSize = limit) (left : List Char) :
    walk limit here (passed ++ left) = ⟨limit, here.column + passed.length⟩ := by
  induction passed generalizing here with
  | nil =>
    obtain rfl : here.offset = limit := by simpa using h
    cases left with
    | nil => rfl
    | cons c left =>
      have hsize := c.utf8Size_pos
      rw [List.nil_append, walk, if_neg (by simp only [next]; omega)]
      rfl
  | cons c passed ih =>
    have hnext : (here.next c).offset + (String.ofList passed).utf8ByteSize = limit := by
      rw [String.ofList_cons, String.utf8ByteSize_append, ← Nat.add_assoc] at h
      simpa [next] using h
    rw [List.cons_append, walk, if_pos (by omega), ih hnext]
    simp only [next, List.length_cons, mk.injEq, true_and]
    omega

/-! ## The place within a limit -/

theorem atMost_offset_le (source : String) (limit : Nat) :
    (atMost source limit).offset ≤ limit :=
  walk_offset_le (Nat.zero_le limit) source.toList

/-- The place found is the last one within the limit. -/
theorem utf8ByteSize_le_atMost_offset {before after : String} {limit : Nat}
    (h : before.utf8ByteSize ≤ limit) :
    before.utf8ByteSize ≤ (atMost (before ++ after) limit).offset := by
  have hwalk := @le_walk_offset limit origin before.toList (by simpa [origin] using h) after.toList
  simpa [atMost, origin] using hwalk

/-- The place found divides the text, and is counted both ways. -/
theorem exists_atMost_eq (source : String) (limit : Nat) :
    ∃ before after, source = before ++ after ∧
      atMost source limit = ⟨before.utf8ByteSize, before.length⟩ := by
  obtain ⟨passed, left, hsource, hoffset, hcolumn⟩ := walk_eq limit origin source.toList
  refine ⟨String.ofList passed, String.ofList left, ?_, ?_⟩
  · apply String.toList_inj.1
    rw [hsource, String.toList_append, String.toList_ofList, String.toList_ofList]
  · have hzero : origin = ⟨0, 0⟩ := rfl
    rw [hzero, Nat.zero_add] at hoffset hcolumn
    rw [← String.length_toList, String.toList_ofList, ← hoffset, ← hcolumn]
    rfl

/-- A boundary of the text is found as it is. -/
theorem atMost_append (before after : String) :
    atMost (before ++ after) before.utf8ByteSize = ⟨before.utf8ByteSize, before.length⟩ := by
  have hreach : origin.offset + (String.ofList before.toList).utf8ByteSize =
      before.utf8ByteSize := by
    rw [String.ofList_toList]
    exact Nat.zero_add _
  rw [atMost, String.toList_append, walk_append hreach, String.length_toList]
  simp [origin]

theorem atMost_utf8ByteSize (source : String) :
    atMost source source.utf8ByteSize = ⟨source.utf8ByteSize, source.length⟩ := by
  have h := atMost_append source ""
  rwa [String.append_empty] at h

/-- Looking for the place that was found finds it again. -/
theorem atMost_atMost_offset (source : String) (limit : Nat) :
    atMost source (atMost source limit).offset = atMost source limit := by
  obtain ⟨before, after, rfl, hfound⟩ := exists_atMost_eq source limit
  rw [hfound]
  exact atMost_append before after

end Position

end ExprCompiler
