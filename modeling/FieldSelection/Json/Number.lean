import FieldSelection.Json.Ascii

/-!
# Numbers as they are written

A number keeps all its digits: `1.50`, `-0` and `1e+05` are three numbers that differ from
`1.5`, `0` and `100000`. Only the exponent has one written form, an `e` and a sign.
-/

namespace FieldSelection.Json

/-- A decimal digit. -/
abbrev Digit := Fin 10

/-- The byte that a digit is written as. -/
def Digit.toByte (d : Digit) : UInt8 := UInt8.ofNat (48 + d.val)

/-- The digit that a byte is. -/
def digit? (b : UInt8) : Option Digit :=
  if h : 48 ≤ b.toNat ∧ b.toNat < 58 then some ⟨b.toNat - 48, by omega⟩ else none

/-- One or more digits. -/
structure Digits where
  /-- The first digit. -/
  first : Digit
  /-- The digits after it. -/
  more : List Digit
  deriving DecidableEq, Repr

/-- The bytes that digits are written as. -/
def Digits.bytes (ds : Digits) : List UInt8 := (ds.first :: ds.more).map Digit.toByte

/-- A number in the digits that it was written with. -/
structure Number where
  /-- Whether there is a minus sign. -/
  negative : Bool
  /-- The digits before the point. -/
  whole : Digits
  /-- The digits after the point, if there is one. -/
  fraction : Option Digits
  /-- Whether the exponent has a minus sign, and its digits, if there is one. -/
  exponent : Option (Bool × Digits)
  /-- A whole part that starts with zero is zero alone. -/
  whole_canonical : whole.first = 0 → whole.more = []
  deriving DecidableEq, Repr

namespace Number

/-- The number as it is written. -/
def bytes (n : Number) : List UInt8 :=
  (if n.negative then [byte '-'] else []) ++ n.whole.bytes
    ++ (match n.fraction with
      | some ds => byte '.' :: ds.bytes
      | none => [])
    ++ (match n.exponent with
      | some (negative, ds) => byte 'e' :: byte (if negative then '-' else '+') :: ds.bytes
      | none => [])

/-- The value of the digits before the point, without the sign. -/
def magnitude (n : Number) : Nat :=
  (n.whole.first :: n.whole.more).foldl (fun acc d => 10 * acc + d.val) 0

/-- The integer that fits into 64 bits, with or without a sign, if the number is written
as one. A zero with a minus sign is not. -/
def machineInteger? (n : Number) : Option Int :=
  match n.fraction, n.exponent with
  | none, none =>
    if n.negative then
      if 0 < n.magnitude ∧ n.magnitude ≤ Nat.pow 2 63 then some (-(n.magnitude : Int)) else none
    else if n.magnitude < Nat.pow 2 64 then some n.magnitude else none
  | _, _ => none

end Number

end FieldSelection.Json
