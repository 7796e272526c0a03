/-!
# Spans of a source text

A span names a stretch of a text by the byte offset where it starts and the number of bytes it
covers, both counted in the UTF-8 encoding. A span is only a pair of numbers: it may reach past the
end of a text or cut a character in two, and then it has no text there, and `token_text` panics.
`Span.text?_eq_some_iff` says which text a span has, in terms of what stands before and after it.
-/

namespace ExprCompiler

/-- A stretch of a text, in bytes of its UTF-8 encoding. -/
structure Span where
  /-- The byte offset of the first byte covered. -/
  start : Nat
  /-- The number of bytes covered. -/
  length : Nat
deriving DecidableEq, Repr

namespace Span

/-- The byte offset just past the last byte covered. -/
def stop (span : Span) : Nat := span.start + span.length

/-- A span lies in `source` if both its ends are character boundaries of `source`. -/
def LiesIn (span : Span) (source : String) : Prop :=
  String.Pos.Raw.IsValid source ⟨span.start⟩ ∧ String.Pos.Raw.IsValid source ⟨span.stop⟩

instance (span : Span) (source : String) : Decidable (span.LiesIn source) :=
  inferInstanceAs (Decidable (_ ∧ _))

/-- The part of `source` that a span covers, if the span lies in `source`. -/
def text? (source : String) (span : Span) : Option String :=
  if h : span.LiesIn source then
    some (source.extract (source.pos ⟨span.start⟩ h.1) (source.pos ⟨span.stop⟩ h.2))
  else
    none

/-! ## The text of a span -/

theorem isSome_text?_iff {source : String} {span : Span} :
    (span.text? source).isSome ↔ span.LiesIn source := by
  unfold text?
  split <;> simp_all

/-- The text of a span stands in the source with `span.start` bytes before it. -/
theorem exists_append_of_text?_eq_some {source : String} {span : Span} {t : String}
    (h : span.text? source = some t) : ∃ before after : String,
      source = before ++ t ++ after ∧
        before.utf8ByteSize = span.start ∧ t.utf8ByteSize = span.length := by
  have inside : span.LiesIn source := isSome_text?_iff.1 (by simp [h])
  obtain ⟨before, rest, hrest, hstart⟩ := String.Pos.Raw.isValid_iff_exists_append.1 inside.1
  obtain ⟨upto, after, hafter, hstop⟩ := String.Pos.Raw.isValid_iff_exists_append.1 inside.2
  have hlo : before.utf8ByteSize = span.start := congrArg (·.byteIdx) hstart.symm
  have hhi : upto.utf8ByteSize = span.stop := congrArg (·.byteIdx) hstop.symm
  have hle : span.start ≤ span.stop := Nat.le_add_right ..
  have hbefore : before.toByteArray = source.toByteArray.extract 0 span.start := by
    rw [hrest, String.toByteArray_append, ByteArray.extract_append_eq_left (by simp [hlo])]
  have hupto : upto.toByteArray = source.toByteArray.extract 0 span.stop := by
    rw [hafter, String.toByteArray_append, ByteArray.extract_append_eq_left (by simp [hhi])]
  have htext : t.toByteArray = source.toByteArray.extract span.start span.stop := by
    rw [text?, dif_pos inside] at h
    simp [← Option.some.inj h]
  have hjoin : upto = before ++ t := by
    apply String.toByteArray_inj.1
    rw [String.toByteArray_append, hbefore, htext, hupto,
      ByteArray.extract_eq_extract_append_extract span.start (Nat.zero_le _) hle]
  refine ⟨before, after, by rw [hafter, hjoin], hlo, ?_⟩
  have hsize := congrArg String.utf8ByteSize hjoin
  rw [String.utf8ByteSize_append, hhi, hlo, stop] at hsize
  omega

theorem text?_append_append {before t after : String} {span : Span}
    (hstart : before.utf8ByteSize = span.start) (hlength : t.utf8ByteSize = span.length) :
    span.text? (before ++ t ++ after) = some t := by
  have inside : span.LiesIn (before ++ t ++ after) := by
    refine ⟨String.Pos.Raw.isValid_iff_exists_append.2 ⟨before, t ++ after, ?_, ?_⟩,
      String.Pos.Raw.isValid_iff_exists_append.2 ⟨before ++ t, after, rfl, ?_⟩⟩
    · rw [String.append_assoc]
    · exact String.Pos.Raw.ext hstart.symm
    · apply String.Pos.Raw.ext
      simp [stop, hstart, hlength]
  rw [text?, dif_pos inside]
  congr 1
  apply String.toByteArray_inj.1
  simp only [String.toByteArray_extract, String.offset_pos, String.toByteArray_append]
  rw [ByteArray.append_assoc, stop, ← hstart, ← hlength, ← Nat.add_zero before.utf8ByteSize,
    Nat.add_assoc, Nat.zero_add, ByteArray.extract_append_size_add' (by simp),
    ByteArray.extract_append_eq_left (by simp)]

/-- A span has the text `t` exactly when `t` fills its bytes in the source. -/
theorem text?_eq_some_iff {source : String} {span : Span} {t : String} :
    span.text? source = some t ↔ ∃ before after : String,
      source = before ++ t ++ after ∧
        before.utf8ByteSize = span.start ∧ t.utf8ByteSize = span.length := by
  constructor
  · exact exists_append_of_text?_eq_some
  · rintro ⟨before, after, rfl, hstart, hlength⟩
    exact text?_append_append hstart hlength

end Span

end ExprCompiler
