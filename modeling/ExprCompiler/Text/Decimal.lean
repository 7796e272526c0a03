/-!
# Decimal numbers

The value of a run of decimal digits, and the decimal text of an integer. `readBelow?` reads a run
only as far as its value stays below a bound, so that a run of any length is read in time
proportional to its length; `readBelow?_eq` says that it answers for the value of the whole run.
-/

namespace ExprCompiler.Decimal

/-- The value of a run of decimal digits, the most significant first. -/
def value (digits : List Char) : Nat := Nat.ofDigitChars 10 digits 0

/-- Reads on after digits of the value `upper`, as long as the value is below `bound`. -/
def readFrom? (bound upper : Nat) : List Char → Option Nat
  | [] => if upper < bound then some upper else none
  | d :: ds =>
    if upper < bound then readFrom? bound (10 * upper + (d.toNat - '0'.toNat)) ds else none

/-- The value of a run of digits, if it is below `bound`. -/
def readBelow? (bound : Nat) (digits : List Char) : Option Nat := readFrom? bound 0 digits

/-- The decimal text of an integer, with a minus sign in front if it is negative. -/
def text (n : Int) : String := n.repr

/-! ## Reading below a bound -/

theorem le_ofDigitChars (upper : Nat) (digits : List Char) :
    upper ≤ Nat.ofDigitChars 10 digits upper := by
  induction digits generalizing upper with
  | nil => simp
  | cons d ds ih =>
    rw [Nat.ofDigitChars_cons]
    exact Nat.le_trans (by omega) (ih _)

/-- Reading on after some digits answers for all digits together. -/
theorem readFrom?_eq (bound upper : Nat) (digits : List Char) :
    readFrom? bound upper digits =
      if Nat.ofDigitChars 10 digits upper < bound then some (Nat.ofDigitChars 10 digits upper)
      else none := by
  induction digits generalizing upper with
  | nil => simp [readFrom?]
  | cons d ds ih =>
    rw [readFrom?, ih, Nat.ofDigitChars_cons]
    have hle := le_ofDigitChars (10 * upper + (d.toNat - '0'.toNat)) ds
    split
    · rfl
    · rw [if_neg (by omega)]

/-- A run of digits is read exactly when its value is below the bound, and then as that value. -/
theorem readBelow?_eq (bound : Nat) (digits : List Char) :
    readBelow? bound digits = if value digits < bound then some (value digits) else none :=
  readFrom?_eq bound 0 digits

end ExprCompiler.Decimal
