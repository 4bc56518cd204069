import FieldSelection.Json.Lexeme

/-!
# Reading numbers

A number is read digit by digit and keeps them all. The fault in what is no number is
noticed at the byte that breaks it.
-/

namespace FieldSelection.Json

/-- The digits at the front of a text, and what follows them. -/
def digits : List UInt8 → List Digit × List UInt8
  | [] => ([], [])
  | b :: rest =>
    match digit? b with
    | none => ([], b :: rest)
    | some d =>
      let (ds, rest') := digits rest
      (d :: ds, rest')

/-- Reads one or more digits. The fault is noticed at the byte that should be one. -/
def digits1 (text : List UInt8) : Reading (Digits × List UInt8) :=
  match digits text with
  | (d :: ds, rest) => .ok (⟨d, ds⟩, rest)
  | ([], []) => brokenBefore .endOfValue []
  | ([], b :: rest) => brokenAt .invalidNumber (b :: rest)

/-- Reads the exponent of a number, if there is one. A missing sign counts as plus. -/
def exponent (text : List UInt8) : Reading (Option (Bool × Digits) × List UInt8) :=
  match text with
  | [] => .ok (none, [])
  | b :: rest =>
    if b == byte 'e' || b == byte 'E' then do
      let negative := startsWith (byte '-') rest
      let signed := negative || startsWith (byte '+') rest
      let (ds, rest) ← digits1 (if signed then rest.tail else rest)
      return (some (negative, ds), rest)
    else .ok (none, b :: rest)

/-- Reads the fraction of a number, if there is one. -/
def fraction (text : List UInt8) : Reading (Option Digits × List UInt8) :=
  match text with
  | [] => .ok (none, [])
  | b :: rest =>
    if b == byte '.' then do
      let (ds, rest) ← digits1 rest
      return (some ds, rest)
    else .ok (none, b :: rest)

/-- The digits before the point of a number, of which a leading zero is the only one. -/
structure Whole where
  /-- The digits. -/
  digits : Digits
  /-- After a leading zero there are no more. -/
  canonical : digits.first = 0 → digits.more = []

theorem Whole.canonical_single (d : Digit) : d = 0 → ([] : List Digit) = [] := fun _ => rfl

theorem Whole.canonical_of_ne_zero (d : Digit) (rest : List UInt8) (h : ¬ d.val = 0) :
    d = 0 → (Json.digits rest).1 = [] :=
  fun h' => absurd (congrArg Fin.val h') h

/-- Reads the digits before the point of a number. -/
def whole (text : List UInt8) : Reading (Whole × List UInt8) :=
  match text with
  | [] => brokenBefore .endOfValue []
  | b :: rest =>
    match digit? b with
    | none => brokenBefore .invalidNumber rest
    | some d =>
      if h : d.val = 0 then
        match rest.head?.bind digit? with
        | some _ => brokenAt .invalidNumber rest
        | none => .ok (⟨⟨d, []⟩, Whole.canonical_single d⟩, rest)
      else .ok (⟨⟨d, (digits rest).1⟩, Whole.canonical_of_ne_zero d rest h⟩, (digits rest).2)

/-- Reads a number. -/
def number (text : List UInt8) : Reading (Number × List UInt8) := do
  let negative := startsWith (byte '-') text
  let (w, rest) ← whole (if negative then text.tail else text)
  let (f, rest) ← fraction rest
  let (e, rest) ← exponent rest
  return (⟨negative, w.digits, f, e, w.canonical⟩, rest)

/-- Whether a value that starts with this byte is a number. -/
def startsNumber (b : UInt8) : Bool := b == byte '-' || (digit? b).isSome

/-- Reads the digits of a number that was given as a string, with nothing around them. -/
def numberOfText (text : String) : Reading Number :=
  match Text.bytes text with
  | [] => .error (.digits .endOfValue)
  | b :: rest =>
    if startsNumber b then
      match number (b :: rest) with
      | .ok (n, []) => .ok n
      | .ok (_, _ :: _) => .error (.digits .invalidNumber)
      | .error (.broken cause _) => .error (.digits cause)
      | .error fault => .error fault
    else .error (.digits .invalidNumber)

end FieldSelection.Json
