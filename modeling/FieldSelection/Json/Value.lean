import FieldSelection.Dictionary
import FieldSelection.Json.Quoted

/-!
# JSON values

A value is read as a whole. Its objects hold one entry a name, in ascending order.
`Value.compact` writes a value without blanks.
-/

namespace FieldSelection.Json

/-- A JSON value. -/
inductive Value where
  /-- The value `null`. -/
  | null
  /-- A truth value. -/
  | bool (value : Bool)
  /-- A number with all its digits. -/
  | number (value : Number)
  /-- A string. -/
  | string (text : String)
  /-- The values of an array. -/
  | array (items : List Value)
  /-- The entries of an object. -/
  | object (members : List (String × Value))

namespace Value

/-- The object of a list of entries, the later of which win. -/
def ofMembers (members : List (String × Value)) : Value :=
  .object (Dictionary.ofList members)

/-- The bytes of a value that has none inside; containers have theirs below. -/
def scalarBytes : Value → List UInt8
  | .null => ascii "null"
  | .bool true => ascii "true"
  | .bool false => ascii "false"
  | .number n => n.bytes
  | .string text => quoted text
  | .array _ => []
  | .object _ => []

mutual

/-- A value as text without blanks. -/
def compact : Value → List UInt8
  | .array items => byte '[' :: (compactItems true items ++ [byte ']'])
  | .object members => byte '\x7b' :: (compactMembers true members ++ [byte '\x7d'])
  | scalar => scalar.scalarBytes

/-- The items of an array, with a comma in front of all but the first. -/
def compactItems (first : Bool) : List Value → List UInt8
  | [] => []
  | item :: rest =>
    (if first then [] else [byte ',']) ++ item.compact ++ compactItems false rest

/-- The entries of an object, with a comma in front of all but the first. -/
def compactMembers (first : Bool) : List (String × Value) → List UInt8
  | [] => []
  | (name, value) :: rest =>
    (if first then [] else [byte ',']) ++ quoted name ++ byte ':' :: value.compact
      ++ compactMembers false rest

end

mutual

/-- Decides whether two values are equal. -/
def decEq : (a b : Value) → Decidable (a = b)
  | .null, .null => isTrue rfl
  | .bool a, .bool b =>
    if h : a = b then isTrue (h ▸ rfl) else isFalse fun e => h (by injection e)
  | .number a, .number b =>
    if h : a = b then isTrue (h ▸ rfl) else isFalse fun e => h (by injection e)
  | .string a, .string b =>
    if h : a = b then isTrue (h ▸ rfl) else isFalse fun e => h (by injection e)
  | .array a, .array b =>
    match decEqItems a b with
    | isTrue h => isTrue (h ▸ rfl)
    | isFalse h => isFalse fun e => h (by injection e)
  | .object a, .object b =>
    match decEqMembers a b with
    | isTrue h => isTrue (h ▸ rfl)
    | isFalse h => isFalse fun e => h (by injection e)
  | .null, .bool _ | .null, .number _ | .null, .string _ | .null, .array _ | .null, .object _
  | .bool _, .null | .bool _, .number _ | .bool _, .string _ | .bool _, .array _
  | .bool _, .object _
  | .number _, .null | .number _, .bool _ | .number _, .string _ | .number _, .array _
  | .number _, .object _
  | .string _, .null | .string _, .bool _ | .string _, .number _ | .string _, .array _
  | .string _, .object _
  | .array _, .null | .array _, .bool _ | .array _, .number _ | .array _, .string _
  | .array _, .object _
  | .object _, .null | .object _, .bool _ | .object _, .number _ | .object _, .string _
  | .object _, .array _ => isFalse nofun

/-- Decides whether two lists of values are equal. -/
def decEqItems : (a b : List Value) → Decidable (a = b)
  | [], [] => isTrue rfl
  | [], _ :: _ => isFalse nofun
  | _ :: _, [] => isFalse nofun
  | a :: as, b :: bs =>
    match decEq a b, decEqItems as bs with
    | isTrue h, isTrue h' => isTrue (h ▸ h' ▸ rfl)
    | isFalse h, _ => isFalse fun e => h (by injection e)
    | _, isFalse h => isFalse fun e => h (by injection e)

/-- Decides whether two lists of entries are equal. -/
def decEqMembers : (a b : List (String × Value)) → Decidable (a = b)
  | [], [] => isTrue rfl
  | [], _ :: _ => isFalse nofun
  | _ :: _, [] => isFalse nofun
  | (m, a) :: as, (n, b) :: bs =>
    if h : m = n then
      match decEq a b, decEqMembers as bs with
      | isTrue h', isTrue h'' => isTrue (h ▸ h' ▸ h'' ▸ rfl)
      | isFalse h', _ => isFalse fun e => h' (by injection e with e _; injection e)
      | _, isFalse h' => isFalse fun e => h' (by injection e)
    else isFalse fun e => h (by injection e with e _; injection e)

end

instance : DecidableEq Value := decEq

end Value

end FieldSelection.Json
