import ExprCompiler.Proofs.Checked
import ExprCompiler.Proofs.LexicalFault
import ExprCompiler.Proofs.Segmentation

/-!
# Where the caret points

The caret of a diagnostic, which `caret` places, points at the last boundary of characters that is
neither past the offset it was asked for nor past the end of the text, and is set in by as many
spaces as there are characters before it. Pointing again at the place that was found finds it again.

A compilation finds faults only after text that the lexer has cut. That text is ASCII, so there
characters and bytes are counted alike, and the caret is set in by as many spaces as the offset
says (`caret_placed`).
-/

namespace ExprCompiler

namespace Position

theorem isGreatest_atMost_offset (source : String) (limit : Nat) :
    IsGreatest {n | String.Pos.Raw.IsValid source ⟨n⟩ ∧ n ≤ min limit source.utf8ByteSize}
      (atMost source limit).offset := by
  have hle := atMost_offset_le source limit
  constructor
  · obtain ⟨before, after, rfl, hfound⟩ := exists_atMost_eq source limit
    rw [hfound] at hle ⊢
    refine ⟨Checked.isValid_iff.2 ⟨before, after, rfl, rfl⟩, Nat.le_min.2 ⟨hle, ?_⟩⟩
    rw [String.utf8ByteSize_append]
    exact Nat.le_add_right _ _
  · rintro n ⟨hvalid, hn⟩
    obtain ⟨before, after, rfl, rfl⟩ := Checked.isValid_iff.1 hvalid
    exact utf8ByteSize_le_atMost_offset (Nat.le_min.1 hn).1

end Position

namespace Diagnostic

theorem pushn_eq_ofList_replicate (c : Char) (n : Nat) :
    "".pushn c n = String.ofList (List.replicate n c) := by
  apply String.toList_inj.1
  rw [String.toList_ofList]
  induction n with
  | zero => rfl
  | succ n ih =>
    rw [List.replicate_succ', ← ih]
    exact String.toList_push _

theorem render_eq (d : Diagnostic) :
    d.render = d.source ++ "\n" ++ String.ofList (List.replicate d.position.column ' ') ++ "^ " ++
      d.detail := by
  rw [render, pushn_eq_ofList_replicate]

/-- A diagnostic made again for the place it points at is the same. -/
theorem pointAt_position_offset (phase : Phase) (source : String) (offset : Nat)
    (detail : String) :
    pointAt phase source (pointAt phase source offset detail).position.offset detail =
      pointAt phase source offset detail := by
  unfold pointAt
  dsimp only
  rw [Position.atMost_atMost_offset]

end Diagnostic

/-! ## Faults of a compilation -/

section Fault

variable {source : String}

theorem toNat_lt_of_utf8Size {c : Char} (h : c.utf8Size = 1) : c.toNat < 128 := by
  have hle := UInt32.le_iff_toNat_le.1 (Char.utf8Size_eq_one_iff.1 h)
  exact Nat.lt_succ_of_le hle

/-- A compilation that fails does so with a diagnostic, and before its place the text is ASCII. -/
theorem exists_ascii_before_refusal {error : CompileError} (h : compile source = .error error) :
    ∃ d before after, error = .refused d ∧ d.source = source ∧ source = before ++ after ∧
      d.position = ⟨before.utf8ByteSize, before.length⟩ ∧ ∀ c ∈ before.toList, c.utf8Size = 1 := by
  cases htokens : tokenize source with
  | error fault =>
    rw [compile_of_fault htokens] at h
    obtain rfl := Except.error.inj h
    obtain ⟨before, after, rfl, hsize, hbefore⟩ := tokenize_before_fault htokens
    refine ⟨_, before, after, rfl, rfl, rfl, ?_, (tokenize_eq_ok_iff.1 hbefore).utf8Size⟩
    show Position.atMost (before ++ after) fault.offset = _
    rw [← hsize]
    exact Position.atMost_append before after
  | ok tokens =>
    have hascii := (tokenize_eq_ok_iff.1 htokens).utf8Size
    rw [compile_of_tokenize htokens] at h
    rcases parse_of_readable (readable_of_tokenize htokens) with ⟨a, ha⟩ | ⟨fault, hfault⟩
    · rw [ha] at h
      cases h
    · rw [hfault] at h
      obtain rfl := Except.error.inj h
      obtain ⟨before, after, rfl, hplace⟩ := Position.exists_atMost_eq source fault.offset
      refine ⟨_, before, after, rfl, rfl, rfl, hplace, fun c hc => hascii c ?_⟩
      rw [String.toList_append]
      exact List.mem_append_left _ hc

end Fault

/-- A diagnostic made for any text, offset and message points at the last boundary that is neither
past the offset nor past the end of the text; this is where the search from the offset backward
ends. It shows the text and below it the caret, after one space for each character before its place,
and the message. Made again for its own place, it is the same. If it is a compilation that fails,
the text before the place is ASCII, and there is one space for each byte. -/
theorem caret_placed :
    (∀ (phase : Phase) (source : String) (offset : Nat) (detail : String),
      let d := Diagnostic.pointAt phase source offset detail
      IsGreatest {n | String.Pos.Raw.IsValid source ⟨n⟩ ∧ n ≤ min offset source.utf8ByteSize}
        d.position.offset ∧
      (Checked.caret source offset : Checked Diagnostic Position) = .ok d.position ∧
      (∃ before after, source = before ++ after ∧ before.utf8ByteSize = d.position.offset ∧
        (CompileError.refused d).render =
          source ++ "\n" ++ String.ofList (List.replicate before.length ' ') ++ "^ " ++ detail) ∧
      Diagnostic.pointAt phase source d.position.offset detail = d) ∧
    ∀ (source : String) (error : CompileError), compile source = .error error →
      ∃ d before after, error = .refused d ∧ source = before ++ after ∧
        before.utf8ByteSize = d.position.offset ∧ (∀ c ∈ before.toList, c.toNat < 128) ∧
        error.render = source ++ "\n" ++ String.ofList (List.replicate d.position.offset ' ') ++
          "^ " ++ d.detail := by
  refine ⟨?_, ?_⟩
  · intro phase source offset detail d
    obtain ⟨before, after, hsource, hplace⟩ := Position.exists_atMost_eq source offset
    have hposition : d.position = ⟨before.utf8ByteSize, before.length⟩ := hplace
    refine ⟨Position.isGreatest_atMost_offset source offset, Checked.caret_eq source offset,
      ⟨before, after, hsource, ?_, ?_⟩, Diagnostic.pointAt_position_offset phase source offset _⟩
    · rw [hposition]
    · show d.render = _
      rw [d.render_eq, hposition]
      rfl
  · intro source error h
    obtain ⟨d, before, after, rfl, hsource, hsplit, hposition, hascii⟩ :=
      exists_ascii_before_refusal h
    have hlength : before.length = before.utf8ByteSize := by
      rw [utf8ByteSize_eq_length hascii, String.length_toList]
    refine ⟨d, before, after, rfl, hsplit, ?_, fun c hc => toNat_lt_of_utf8Size (hascii c hc), ?_⟩
    · rw [hposition]
    · show d.render = _
      rw [d.render_eq, hsource, hposition, hlength]

set_option maxRecDepth 4000 in
/-- A character of two bytes is refused where it starts, and blanks of all kinds count. -/
theorem caret_placed_after_line_break :
    ∃ d before after, compile "2\n é" = .error (.refused d) ∧ "2\n é" = before ++ after ∧
      before.utf8ByteSize = d.position.offset ∧ (∀ c ∈ before.toList, c.toNat < 128) ∧
      (CompileError.refused d).render = "2\n é" ++ "\n" ++
        String.ofList (List.replicate d.position.offset ' ') ++ "^ " ++ d.detail := by
  have htokens : tokenize "2\n é" = .error ⟨3, .invalidCharacter 'é'⟩ := by cbv
  have h := compile_of_fault htokens
  obtain ⟨d, before, after, hd, hplace⟩ := caret_placed.2 _ _ h
  exact ⟨d, before, after, by rw [h, hd], by rwa [hd] at hplace⟩

end ExprCompiler
