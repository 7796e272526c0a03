import ExprCompiler.Proofs.Assembly
import ExprCompiler.Proofs.LexicalFault
import ExprCompiler.Proofs.Scannerless

/-!
# The log of a compilation

The log of `generate_assembly` tells how far a compilation came and how large what it made is. Where
the text cannot be cut into tokens, it holds the tokens that the text before the fault is cut into,
and nothing else; where the tokens cannot be parsed, it ends with their number; and where all goes
well, the height of the tree and the number of instructions follow (`events_of_compilation`).

The number of instructions is counted in lines of their text, of which each has one
(`lineCount_lines`). It can be told from the tree (`Expr.length_code`), and from the listing, which
has five lines besides (`lineCount_listing`).

What is written of an event is its severity, its message and its fields (`Event.entry`). From what
is written every event can be told (`Event.entry_injective`), and what is written of a token is
decided by its text (`label_of_mem_scan`). The whole log is `log_of_compilation`.
-/

namespace ExprCompiler

open Asm

/-! ## The number of instructions -/

/-- The instructions of an operator node besides those of its operands. -/
def Operator.instructionCount : Operator → Nat
  | .add | .sub | .mul => 4
  | .div => 5
  | .eq => 6

/-- The instructions of a tree, counted by its nodes. -/
def Expr.instructionCount : Expr → Nat
  | .literal value => if -2 ^ 31 ≤ value.toInt ∧ value.toInt ≤ 2 ^ 31 - 1 then 1 else 2
  | .binary op lhs rhs => lhs.instructionCount + rhs.instructionCount + op.instructionCount

theorem Asm.length_literalCode (value : Int64) :
    (literalCode value).length = (Expr.literal value).instructionCount := by
  have hfits := toInt64_toInt32_eq_self_iff value
  have hmin : Int32.minValue.toInt = -2 ^ 31 := rfl
  have hmax : Int32.maxValue.toInt = 2 ^ 31 - 1 := rfl
  rw [hmin, hmax] at hfits
  rw [literalCode, Expr.instructionCount]
  by_cases h : value.toInt32.toInt64 = value
  · rw [if_pos h, if_pos (hfits.1 h)]
    rfl
  · rw [if_neg h, if_neg (mt hfits.2 h)]
    rfl

theorem Asm.length_applyCode (op : Operator) :
    (applyCode op).length = op.instructionCount := by
  cases op <;> rfl

theorem Expr.length_code (e : Expr) : e.code.length = e.instructionCount := by
  induction e with
  | literal value => rw [code_literal, length_literalCode]
  | binary op lhs rhs ihl ihr =>
    rw [code_binary, List.length_append, List.length_append, ihl, ihr, length_applyCode]
    rfl

/-! ## The number of lines -/

theorem Asm.count_newline_lines (code : List Instruction) :
    (lines code).toList.count '\n' = code.length := by
  induction code with
  | nil => rfl
  | cons i code ih =>
    have hline : (lines (i :: code)).toList =
        '\t' :: (i.text.toList ++ '\n' :: (lines code).toList) := by
      simp [lines, Instruction.line]
    have htext : i.text.toList.count '\n' = 0 := List.count_eq_zero.2 (newline_not_mem_text i)
    rw [hline, List.count_cons_of_ne (by decide), List.count_append, htext, List.count_cons_self,
      ih, List.length_cons]
    omega

/-- Where the last line is ended by a line break, there are as many lines as line breaks. -/
theorem lineCount_of_getLast? {text : String} (h : ∀ c ∈ text.toList.getLast?, c = '\n') :
    lineCount text = text.toList.count '\n' := by
  have hended : text.toList.getLast?.any (· ≠ '\n') = false := by
    cases hlast : text.toList.getLast? with
    | none => rfl
    | some c =>
      obtain rfl := h c (by rw [hlast]; rfl)
      rfl
  rw [lineCount, hended]
  rfl

theorem Asm.getLast?_lines (code : List Instruction) :
    ∀ c ∈ (lines code).toList.getLast?, c = '\n' := by
  rcases List.eq_nil_or_concat code with rfl | ⟨code, i, rfl⟩
  · simp
  · have hline : (lines [i]).toList = ('\t' :: i.text.toList) ++ ['\n'] := by
      simp [lines, Instruction.line]
    intro c hc
    rw [List.concat_eq_append, lines_append, String.toList_append, hline, ← List.append_assoc,
      List.getLast?_concat] at hc
    exact (Option.some.inj hc).symm

/-- Each instruction is a line of the text. -/
theorem Asm.lineCount_lines (code : List Instruction) : lineCount (lines code) = code.length := by
  rw [lineCount_of_getLast? (getLast?_lines code), count_newline_lines]

section Events

variable {source : String}

theorem events_of_fault {fault : LexicalFault} (h : tokenize source = .error fault) :
    (Compilation.ofSource source).events = (scan source).tokens.map .lexed := by
  unfold tokenize at h
  unfold Compilation.ofSource
  dsimp only
  rw [h]

theorem tokens_of_tokenize {tokens : List Token} (h : tokenize source = .ok tokens) :
    (scan source).tokens = tokens := by
  unfold tokenize Scan.result at h
  split at h
  · exact Except.ok.inj h
  · cases h

theorem events_of_refusal {tokens : List Token} {error : CompileError}
    (htokens : tokenize source = .ok tokens) (h : Expr.ofTokens source tokens = .error error) :
    (Compilation.ofSource source).events =
      tokens.map .lexed ++ [.tokenized tokens.length] := by
  have hscan := tokens_of_tokenize htokens
  unfold tokenize at htokens
  unfold Compilation.ofSource
  dsimp only
  rw [htokens, hscan]
  dsimp only
  rw [h]

theorem events_of_tree {tokens : List Token} {e : Expr} (htokens : tokenize source = .ok tokens)
    (h : Expr.ofTokens source tokens = .ok e) :
    (Compilation.ofSource source).events =
      tokens.map .lexed ++ [.tokenized tokens.length] ++
        [.parsed e.height, .generated e.code.length] := by
  have hscan := tokens_of_tokenize htokens
  unfold tokenize at htokens
  unfold Compilation.ofSource
  dsimp only
  rw [htokens, hscan]
  dsimp only
  rw [h, ← lineCount_lines]

end Events

/-! ## What is written -/

/-- What is written of an event. -/
def Event.entry (event : Event) : Severity × String × List (String × String) :=
  (event.severity, event.message, event.fields)

/-- The log tells the kinds of tokens apart, and numbers by their value. -/
theorem Token.Kind.label_injective {kind kind' : Token.Kind} (h : kind.label = kind'.label) :
    kind = kind' := by
  -- the labels start with different letters
  have hhead := congrArg (fun text : String => text.toList.head?) h
  cases kind with
  | number value =>
    cases kind' with
    | number value' =>
      rw [label, label, String.append_left_inj, String.append_right_inj] at h
      rw [Int64.toInt_inj.1 (Int.repr_injective h)]
    | punctuator | eof => simp [label] at hhead
  | punctuator =>
    cases kind' with
    | punctuator => rfl
    | number value' | eof => simp [label] at hhead
  | eof =>
    cases kind' with
    | eof => rfl
    | number value' | punctuator => simp [label] at hhead

/-- What is written of an event tells the event. -/
theorem Event.entry_injective {event event' : Event} (h : event.entry = event'.entry) :
    event = event' := by
  obtain ⟨-, hrest⟩ := Prod.mk.inj h
  obtain ⟨hmessage, hfields⟩ := Prod.mk.inj hrest
  have hnumber {m n : Nat} (hmn : Decimal.text m = Decimal.text n) : m = n :=
    Int.ofNat_inj.1 (Int.repr_injective hmn)
  have hfield {name : String} {m n : Nat}
      (hmn : [(name, Decimal.text m)] = [(name, Decimal.text n)]) : m = n :=
    hnumber (Prod.mk.inj (List.cons.inj hmn).1).2
  cases event with
  | lexed token =>
    cases event' with
    | lexed token' =>
      obtain ⟨kind, start, length⟩ := token
      obtain ⟨kind', start', length'⟩ := token'
      simp only [fields, List.cons.injEq, Prod.mk.injEq, true_and, and_true] at hfields
      obtain ⟨hlabel, hstart, hlength⟩ := hfields
      obtain rfl := Token.Kind.label_injective hlabel
      obtain rfl := hnumber hstart
      obtain rfl := hnumber hlength
      rfl
    | tokenized n | parsed n | generated n => simp [message] at hmessage
  | tokenized m =>
    cases event' with
    | tokenized n => rw [hfield hfields]
    | lexed token' | parsed n | generated n => simp [message] at hmessage
  | parsed m =>
    cases event' with
    | parsed n => rw [hfield hfields]
    | lexed token' | tokenized n | generated n => simp [message] at hmessage
  | generated m =>
    cases event' with
    | generated n => rw [hfield hfields]
    | lexed token' | tokenized n | parsed n => simp [message] at hmessage

/-- A token that is found is in the source what its kind says, whether a fault follows or not. -/
theorem exists_text?_of_mem_scan {source : String} {token : Token}
    (h : token ∈ (scan source).tokens) : ∃ text, token.text? source = some (String.ofList text) ∧
      (token.kind = .eof ∧ text = [] ∨ token.kind.Writes text) := by
  cases htokens : tokenize source with
  | ok tokens =>
    rw [tokens_of_tokenize htokens] at h
    exact exists_text?_of_tokenize htokens token h
  | error fault =>
    obtain ⟨before, after, hsource, -, hbefore⟩ := tokenize_before_fault htokens
    obtain ⟨text, htext, hkind⟩ := exists_text?_of_tokenize hbefore token (by simp [h])
    refine ⟨text, ?_, hkind⟩
    obtain ⟨front, back, hsplit, hstart, hlength⟩ := Span.text?_eq_some_iff.1 htext
    refine Span.text?_eq_some_iff.2 ⟨front, back ++ after, ?_, hstart, hlength⟩
    rw [hsource, hsplit, String.append_assoc]

/-- How the log names the kind of a token is decided by the text of the token: a symbol, a run of
digits, of which the value is named, or the empty text at the end. -/
theorem label_of_mem_scan {source : String} {token : Token} (h : token ∈ (scan source).tokens) :
    ∃ text, token.text? source = some (String.ofList text) ∧
      (text = [] ∧ token.kind.label = "Eof" ∨
        (∃ symbol : Symbol, text = symbol.spelling.toList) ∧ token.kind.label = "Punctuator" ∨
        (text ≠ [] ∧ ∀ c ∈ text, c.isDigit) ∧
          token.kind.label = "Num(" ++ Decimal.text (Decimal.value text) ++ ")") := by
  obtain ⟨text, htext, hkind⟩ := exists_text?_of_mem_scan h
  refine ⟨text, htext, ?_⟩
  rcases hkind with ⟨hkind, rfl⟩ | hwrites
  · rw [hkind]
    exact .inl ⟨rfl, rfl⟩
  · generalize token.kind = kind at hwrites ⊢
    cases kind with
    | punctuator => exact .inr (.inl ⟨hwrites, rfl⟩)
    | number value =>
      obtain ⟨hne, hdigits, hbound, rfl⟩ := hwrites
      refine .inr (.inr ⟨⟨hne, hdigits⟩, ?_⟩)
      rw [Token.Kind.label, Int64.toInt_ofNat_of_lt hbound]
    | eof => exact hwrites.elim

/-- The log as it is written: at the lowest severity a line for each token found, and above it a
line for each stage that was completed. -/
theorem log_of_compilation (source : String) :
    let log := (Compilation.ofSource source).events.map Event.entry
    let found := (scan source).tokens.map fun token => (Severity.trace, "lexed token",
      [("kind", token.kind.label), ("loc", Decimal.text token.span.start),
        ("len", Decimal.text token.span.length)])
    (∀ fault, tokenize source = .error fault → log = found) ∧
    ∀ tokens, tokenize source = .ok tokens →
      (∀ error, Expr.ofTokens source tokens = .error error →
        log = found ++ [(.debug, "tokenized input", [("tokens", Decimal.text tokens.length)])]) ∧
      ∀ e, Expr.ofTokens source tokens = .ok e →
        log = found ++ [(.debug, "tokenized input", [("tokens", Decimal.text tokens.length)]),
          (.debug, "parsed expression", [("depth", Decimal.text e.height)]),
          (.debug, "generated code", [("instructions", Decimal.text e.instructionCount)])] := by
  intro log found
  have hfound : ((scan source).tokens.map Event.lexed).map Event.entry = found := by
    rw [List.map_map]
    rfl
  refine ⟨fun fault h => ?_, fun tokens h => ⟨fun error herror => ?_, fun e he => ?_⟩⟩
  · rw [← hfound, ← events_of_fault h]
  · show (Compilation.ofSource source).events.map Event.entry = _
    rw [events_of_refusal h herror, List.map_append, ← tokens_of_tokenize h, hfound]
    rfl
  · show (Compilation.ofSource source).events.map Event.entry = _
    rw [events_of_tree h he, e.length_code, List.append_assoc, List.map_append,
      ← tokens_of_tokenize h, hfound]
    rfl

end ExprCompiler
