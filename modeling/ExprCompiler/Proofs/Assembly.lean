import ExprCompiler.Asm.Code
import Mathlib

/-!
# Reading assembly text

How an assembler reads a listing, the text that `generate_assembly` gives. A line break ends a line
and empty lines are passed over. The first three lines are fixed; every other line is set in by a
tab and is one instruction, its words separated by single spaces, with a comma after the first of
two operands. A line that is no instruction makes the whole text unreadable, and so does a constant
that the instruction has no room for.

The reader knows nothing of how instructions are printed. What is printed is read back as the same
instructions (`assemble_listing`).
-/

namespace ExprCompiler.Asm

def readNat? (digits : List Char) : Option Nat :=
  if digits ≠ [] ∧ digits.all Char.isDigit then some (Decimal.value digits) else none

/-- A decimal integer with or without a minus sign. -/
def readInt? : List Char → Option Int
  | '-' :: digits => (readNat? digits).map fun n : Nat => -(n : Int)
  | digits => (readNat? digits).map fun n : Nat => (n : Int)

/-- The register with the name `word`, followed by `mark`. -/
def readRegister? (mark word : String) : Option Register :=
  if word = "rax" ++ mark then some .rax
  else if word = "rdi" ++ mark then some .rdi
  else none

/-- What is pushed: a register, or a constant that fits into 32 bits. -/
def readPush? (word : String) : Option Instruction :=
  match readRegister? "" word with
  | some source => some (.push source)
  | none => do
    let n ← readInt? word.toList
    if -2 ^ 31 ≤ n ∧ n ≤ 2 ^ 31 - 1 then some (.pushConstant (Int32.ofInt n)) else none

def readLoad? (first second : String) : Option Instruction := do
  let target ← readRegister? "," first
  let n ← readInt? second.toList
  if -2 ^ 63 ≤ n ∧ n ≤ 2 ^ 63 - 1 then some (.load target (Int64.ofInt n)) else none

def readPair? (build : Register → Register → Instruction) (first second : String) :
    Option Instruction := do
  let lhs ← readRegister? "," first
  let rhs ← readRegister? "" second
  some (build lhs rhs)

def readWords? : List String → Option Instruction
  | ["push", operand] => readPush? operand
  | ["pop", operand] => (readRegister? "" operand).map .pop
  | ["mov", first, second] => readLoad? first second
  | ["add", first, second] => readPair? .add first second
  | ["sub", first, second] => readPair? .sub first second
  | ["imul", first, second] => readPair? .imul first second
  | ["cqo"] => some .cqo
  | ["idiv", operand] => (readRegister? "" operand).map .idiv
  | ["cmp", first, second] => readPair? .cmp first second
  | ["sete", "al"] => some .sete
  | ["movzb", "rax,", "al"] => some .movzb
  | ["ret"] => some .ret
  | _ => none

def readLine? : List Char → Option Instruction
  | '\t' :: text => readWords? ((text.splitOn ' ').map String.ofList)
  | _ => none

def readLines? (lines : List (List Char)) : Option (List Instruction) :=
  (lines.filter (· ≠ [])).mapM readLine?

def assemble (text : String) : Option (List Instruction) :=
  match (text.toList.splitOn '\n').map String.ofList with
  | ".intel_syntax noprefix" :: ".global main" :: "main:" :: rest =>
    readLines? (rest.map String.toList)
  | _ => none

/-! ## Printed integers -/

theorem isDigit_of_mem_toDigits {n : Nat} {c : Char} (h : c ∈ Nat.toDigits 10 n) : c.isDigit :=
  Nat.isDigit_of_mem_toDigits (by decide) (by decide) h

theorem readNat?_toDigits (n : Nat) : readNat? (Nat.toDigits 10 n) = some n := by
  have hdigits : (Nat.toDigits 10 n).all Char.isDigit = true :=
    List.all_eq_true.2 fun c hc => isDigit_of_mem_toDigits hc
  unfold readNat?
  rw [if_pos ⟨Nat.toDigits_ne_nil, hdigits⟩, Decimal.value, Nat.ofDigitChars_ten_toDigits]

theorem isDigit_or_eq_minus_of_mem_text {n : Int} {c : Char} (h : c ∈ (Decimal.text n).toList) :
    c.isDigit ∨ c = '-' := by
  have hdigit {k : Nat} (hc : c ∈ k.repr.toList) : c.isDigit := by
    rw [Nat.toList_repr] at hc
    exact isDigit_of_mem_toDigits hc
  rw [Decimal.text, Int.repr_eq_if] at h
  by_cases hn : 0 ≤ n
  · rw [if_pos hn] at h
    exact .inl (hdigit h)
  · rw [if_neg hn, String.toList_append] at h
    rcases List.mem_append.1 h with h | h
    · exact .inr (List.mem_singleton.1 h)
    · exact .inl (hdigit h)

/-- An integer is read as it is printed. -/
theorem readInt?_text (n : Int) : readInt? (Decimal.text n).toList = some n := by
  rw [Decimal.text, Int.repr_eq_if]
  by_cases hn : 0 ≤ n
  · rw [if_pos hn, Nat.toList_repr]
    obtain ⟨c, cs, hcs⟩ := List.exists_cons_of_ne_nil (@Nat.toDigits_ne_nil n.toNat 10)
    have hc : c.isDigit := by
      have hmem : c ∈ Nat.toDigits 10 n.toNat := by rw [hcs]; simp
      exact isDigit_of_mem_toDigits hmem
    have hread : readInt? (c :: cs) = (readNat? (c :: cs)).map fun n : Nat => (n : Int) := by
      rw [readInt?]
      rintro digits ⟨⟩
      exact absurd hc (by decide)
    rw [hcs, hread, ← hcs, readNat?_toDigits, Option.map_some, Int.toNat_of_nonneg hn]
  · rw [if_neg hn, String.toList_append, Nat.toList_repr]
    show readInt? ('-' :: Nat.toDigits 10 (-n).toNat) = _
    rw [readInt?, readNat?_toDigits, Option.map_some, Int.toNat_of_nonneg (by omega), Int.neg_neg]

theorem readRegister?_text (n : Int) : readRegister? "" (Decimal.text n) = none := by
  have hne {name : String} (hname : 'r' ∈ name.toList) : Decimal.text n ≠ name := by
    rintro heq
    rw [← heq] at hname
    rcases isDigit_or_eq_minus_of_mem_text hname with h | h
    · exact absurd h (by decide)
    · exact absurd h (by decide)
  unfold readRegister?
  rw [if_neg (hne (by decide)), if_neg (hne (by decide))]

/-! ## Printed instructions -/

theorem not_mem_text {n : Int} {c : Char} (hdigit : c.isDigit = false) (hminus : c ≠ '-') :
    c ∉ (Decimal.text n).toList := by
  intro h
  rcases isDigit_or_eq_minus_of_mem_text h with h | h
  · simp [hdigit] at h
  · exact hminus h

theorem readPush?_text (value : Int32) :
    readPush? (Decimal.text value.toInt) = some (.pushConstant value) := by
  have hlow := value.le_toInt
  have hhigh := value.toInt_lt
  unfold readPush?
  rw [readRegister?_text, readInt?_text]
  show (if _ then _ else _) = _
  rw [if_pos (by omega), Int32.ofInt_toInt]

theorem readLoad?_text (target : Register) (value : Int64) :
    readLoad? (target.name ++ ",") (Decimal.text value.toInt) = some (.load target value) := by
  have hlow := value.le_toInt
  have hhigh := value.toInt_lt
  have htarget : readRegister? "," (target.name ++ ",") = some target := by
    cases target <;> decide
  unfold readLoad?
  rw [htarget, readInt?_text]
  show (if _ then _ else _) = _
  rw [if_pos (by omega), Int64.ofInt_toInt]

/-- An instruction is read as it is printed. -/
theorem readLine?_text (i : Instruction) : readLine? ('\t' :: i.text.toList) = some i := by
  cases i with
  | pushConstant value =>
    have hwords : (Instruction.pushConstant value).text.toList.splitOn ' ' =
        ["push".toList, (Decimal.text value.toInt).toList] := by
      have htext : (Instruction.pushConstant value).text.toList =
          "push".toList ++ ' ' :: (Decimal.text value.toInt).toList := by
        simp [Instruction.text]
      rw [htext, List.splitOn_append_cons_self_of_not_mem (by decide),
        List.splitOn_eq_singleton (not_mem_text (by decide) (by decide))]
    rw [readLine?, hwords]
    simp only [List.map_cons, List.map_nil, String.ofList_toList]
    exact readPush?_text value
  | load target value =>
    have hwords : (Instruction.load target value).text.toList.splitOn ' ' =
        ["mov".toList, (target.name ++ ",").toList, (Decimal.text value.toInt).toList] := by
      have htext : (Instruction.load target value).text.toList = "mov".toList ++ ' ' ::
          ((target.name ++ ",").toList ++ ' ' :: (Decimal.text value.toInt).toList) := by
        cases target <;> simp [Instruction.text, Register.name]
      rw [htext, List.splitOn_append_cons_self_of_not_mem (by decide),
        List.splitOn_append_cons_self_of_not_mem (by cases target <;> decide),
        List.splitOn_eq_singleton (not_mem_text (by decide) (by decide))]
    rw [readLine?, hwords]
    simp only [List.map_cons, List.map_nil, String.ofList_toList]
    exact readLoad?_text target value
  | push r | pop r | idiv r => cases r <;> decide
  | add r r' | sub r r' | imul r r' | cmp r r' => cases r <;> cases r' <;> decide
  | cqo | sete | movzb | ret => decide

theorem newline_not_mem_text (i : Instruction) : '\n' ∉ i.text.toList := by
  cases i with
  | pushConstant value =>
    rw [Instruction.text, String.toList_append, List.mem_append, not_or]
    exact ⟨by decide, not_mem_text (by decide) (by decide)⟩
  | load target value =>
    rw [Instruction.text, String.toList_append, List.mem_append, not_or]
    exact ⟨by cases target <;> decide, not_mem_text (by decide) (by decide)⟩
  | push r | pop r | idiv r => cases r <;> decide
  | add r r' | sub r r' | imul r r' | cmp r r' => cases r <;> cases r' <;> decide
  | cqo | sete | movzb | ret => decide

/-! ## Printed listings -/

theorem splitOn_lines (code : List Instruction) :
    (lines code).toList.splitOn '\n' = code.map (fun i => '\t' :: i.text.toList) ++ [[]] := by
  induction code with
  | nil => rfl
  | cons i code ih =>
    have hline : (lines (i :: code)).toList =
        ('\t' :: i.text.toList) ++ '\n' :: (lines code).toList := by
      simp [lines, Instruction.line]
    have hnewline : '\n' ∉ '\t' :: i.text.toList := by
      simp [newline_not_mem_text]
    rw [hline, List.splitOn_append_cons_self_of_not_mem hnewline, ih]
    rfl

theorem readLines?_splitOn_lines (code : List Instruction) :
    readLines? ((lines code).toList.splitOn '\n') = some code := by
  rw [splitOn_lines]
  unfold readLines?
  induction code with
  | nil => rfl
  | cons i code ih =>
    rw [List.map_cons, List.cons_append, List.filter_cons_of_pos (by simp), List.mapM_cons,
      readLine?_text, ih]
    rfl

theorem assemble_header (text : String) :
    assemble (header ++ text) = readLines? (text.toList.splitOn '\n') := by
  have hheader : (header ++ text).toList = ".intel_syntax noprefix".toList ++ '\n' ::
      (".global main".toList ++ '\n' :: ("main:".toList ++ '\n' :: text.toList)) := by
    simp [header]
  unfold assemble
  rw [hheader, List.splitOn_append_cons_self_of_not_mem (by decide),
    List.splitOn_append_cons_self_of_not_mem (by decide),
    List.splitOn_append_cons_self_of_not_mem (by decide)]
  simp only [List.map_cons, List.map_map, String.ofList_toList]
  have hid : String.toList ∘ String.ofList = id := funext fun _ => String.toList_ofList
  rw [hid, List.map_id]

/-- A listing is read as the code it was made of. -/
theorem assemble_listing (code : List Instruction) :
    assemble (listing code) = some (code ++ epilogue) := by
  rw [listing, String.append_assoc, ← lines_append, assemble_header, readLines?_splitOn_lines]

end ExprCompiler.Asm
