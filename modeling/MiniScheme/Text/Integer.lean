import MiniScheme.Text.Digit

/-!
# Integers as text

Integers are read from decimal digits of any script and written with the digits `0` to `9`. Both
directions refuse more than `maxDigits` digits.
-/

namespace MiniScheme.Text

/-- The largest number of decimal digits that is read or written. -/
def maxDigits : Nat := 4300

/-! ## Reading -/

/-- Splits a sign off: whether there is a minus sign, and the text after the sign. -/
def splitSign : List Char → Bool × List Char
  | '-' :: cs => (true, cs)
  | '+' :: cs => (false, cs)
  | cs => (false, cs)

/-- An optional sign and one or more decimal digits. -/
def isInteger (cs : List Char) : Bool :=
  let digits := (splitSign cs).2
  !digits.isEmpty && digits.all isDigit

/-- The number that digits stand for, most significant digit first. -/
def ofDigits (cs : List Char) : Nat :=
  cs.foldl (fun n c => 10 * n + (digitValue? c).getD 0) 0

/-- The integer that a sign and digits stand for, or nothing when the text has another form or too
many digits. Leading zeros count as digits, and the sign does not. -/
def toInteger? (cs : List Char) : Option Int :=
  let (negative, digits) := splitSign cs
  if isInteger cs ∧ digits.length ≤ maxDigits then
    some (if negative then -(ofDigits digits : Int) else ofDigits digits)
  else none

/-- Decimal digits, with single underscores allowed between them. -/
def isGrouped : List Char → Bool
  | [] => false
  | [c] => isDigit c
  | c :: '_' :: cs => isDigit c && isGrouped cs
  | c :: cs => isDigit c && isGrouped cs

/-- The integer that a sign and grouped digits stand for, or nothing when the text has another form
or too many digits. -/
def toGroupedInteger? (cs : List Char) : Option Int :=
  let (negative, digits) := splitSign cs
  if isGrouped digits then
    (toInteger? (digits.filter (· ≠ '_'))).map fun n => if negative then -n else n
  else none

/-! ## Writing -/

def tooManyDigits : Nat := Nat.pow 10 maxDigits

def isWritable (n : Int) : Bool := n.natAbs < tooManyDigits

def ofInteger (n : Int) : List Char :=
  let digits := Nat.toDigits 10 n.natAbs
  if n < 0 then '-' :: digits else digits

end MiniScheme.Text
