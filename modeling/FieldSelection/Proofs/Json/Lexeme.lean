import FieldSelection.Json.Lexeme.Scalar
import FieldSelection.Proofs.Filtering.Projection

/-!
# What is written is read

Each value without values inside is read back from the bytes that it is written as, whatever
follows. Only a number has to be told from what follows: it goes on as long as there are digits,
and a point or the letter of an exponent would go on as well.
-/

namespace FieldSelection.Json

/-! ## Strings -/

/-- Inside of quotes this byte is read as it is. -/
def StandsForItself (b : UInt8) : Prop := b ≠ byte '"' ∧ b ≠ byte '\\' ∧ ¬ b < 0x20

theorem standsForItself_of_toNat {b : UInt8} (h : 0x20 ≤ b.toNat) (hquote : b.toNat ≠ 0x22)
    (hescape : b.toNat ≠ 0x5C) : StandsForItself b := by
  refine ⟨?_, ?_, ?_⟩
  · rintro rfl
    exact hquote rfl
  · rintro rfl
    exact hescape rfl
  · rw [UInt8.lt_iff_toNat_lt]
    exact Nat.not_lt.mpr h

/-- A character that is not escaped is written in bytes that stand for themselves: past ASCII
they all have the highest bit. -/
theorem standsForItself_utf8EncodeChar {c : Char} (hctrl : 0x20 ≤ c.toNat) (hquote : c ≠ '"')
    (hescape : c ≠ '\\') : ∀ b ∈ String.utf8EncodeChar c, StandsForItself b := by
  have hhigh : ∀ n : Nat, 0x80 ≤ n → n < 0x100 → StandsForItself (UInt8.ofNat n) := by
    intro n hlow hlt
    have htoNat : (UInt8.ofNat n).toNat = n := by
      rw [UInt8.toNat_ofNat']
      exact Nat.mod_eq_of_lt hlt
    exact standsForItself_of_toNat (by omega) (by omega) (by omega)
  have hquote : c.toNat ≠ 0x22 := fun h => hquote (Char.toNat_inj.mp h)
  have hescape : c.toNat ≠ 0x5C := fun h => hescape (Char.toNat_inj.mp h)
  intro b hb
  rw [String.utf8EncodeChar] at hb
  simp only [Char.toNat_val] at hb
  split at hb
  · rw [List.mem_singleton.mp hb]
    have htoNat : (UInt8.ofNat c.toNat).toNat = c.toNat := by
      rw [UInt8.toNat_ofNat']
      exact Nat.mod_eq_of_lt (by omega)
    exact standsForItself_of_toNat (by omega) (by omega) (by omega)
  · have hmem : ∃ n : Nat, b = UInt8.ofNat n ∧ 0x80 ≤ n ∧ n < 0x100 := by
      split at hb
      · simp only [List.mem_cons, List.not_mem_nil, or_false] at hb
        rcases hb with rfl | rfl <;> exact ⟨_, rfl, by omega, by omega⟩
      · split at hb <;> simp only [List.mem_cons, List.not_mem_nil, or_false] at hb
        · rcases hb with rfl | rfl | rfl <;> exact ⟨_, rfl, by omega, by omega⟩
        · rcases hb with rfl | rfl | rfl | rfl <;> exact ⟨_, rfl, by omega, by omega⟩
    obtain ⟨n, rfl, hlow, hlt⟩ := hmem
    exact hhigh n hlow hlt

variable {content rest more : List UInt8}

theorem stringBytes_plain (bs : List UInt8) (hbs : ∀ b ∈ bs, StandsForItself b)
    (h : stringBytes .plain more = .ok (content, rest)) :
    stringBytes .plain (bs ++ more) = .ok (bs ++ content, rest) := by
  induction bs with
  | nil => exact h
  | cons b bs ih =>
      obtain ⟨hquote, hescape, hctrl⟩ := hbs b List.mem_cons_self
      have hmore := ih fun b hb => hbs b (List.mem_cons_of_mem _ hb)
      rw [List.cons_append, stringBytes]
      simp [hquote, hescape, hctrl, hmore, bind, Except.bind, pure, Except.pure]

/-- An escape of one letter stands for the character that it escapes. -/
theorem stringBytes_letter {c letter : Char} (hletter : escapeLetter? c = some letter)
    (h : stringBytes .plain more = .ok (content, rest)) :
    stringBytes .plain (byte '\\' :: byte letter :: more) =
      .ok (String.utf8EncodeChar c ++ content, rest) := by
  have hback : escaped? (byte letter) = some c ∧ (byte letter == byte 'u') = false := by
    rw [escapeLetter?] at hletter
    repeat' split at hletter
    all_goals first
      | (subst c; cases hletter; exact ⟨rfl, rfl⟩)
      | exact absurd hletter (by simp)
  rw [stringBytes, if_neg (by decide), if_pos (by decide), stringBytes, hback.2]
  simp [hback.1, h, bind, Except.bind, pure, Except.pure]

theorem hexNumber?_control : ∀ n < 0x20,
    hexNumber? [byte '0', byte '0', hexByte (n / 16), hexByte (n % 16)] = some n := by
  decide

/-- An escape of four digits stands for the character of that number. -/
theorem stringBytes_control {c : Char} (hctrl : c.toNat < 0x20)
    (h : stringBytes .plain more = .ok (content, rest)) :
    stringBytes .plain
        (ascii "\\u00" ++ [hexByte (c.toNat / 16), hexByte (c.toNat % 16)] ++ more) =
      .ok (String.utf8EncodeChar c ++ content, rest) := by
  have hhex := hexNumber?_control c.toNat hctrl
  have hlow : isLowSurrogate c.toNat = false := by simp [isLowSurrogate]; omega
  have hhigh : isHighSurrogate c.toNat = false := by simp [isHighSurrogate]; omega
  show stringBytes .plain (byte '\\' :: byte 'u' :: byte '0' :: byte '0' ::
    hexByte (c.toNat / 16) :: hexByte (c.toNat % 16) :: more) = _
  rw [stringBytes, if_neg (by decide), if_pos (by decide), stringBytes, if_pos (by decide)]
  simp [stringBytes, hhex, hlow, hhigh, h, bind, Except.bind, pure, Except.pure]

theorem stringBytes_quotedChar (c : Char) (h : stringBytes .plain more = .ok (content, rest)) :
    stringBytes .plain (quotedChar c ++ more) = .ok (String.utf8EncodeChar c ++ content, rest) := by
  rw [quotedChar]
  cases hletter : escapeLetter? c with
  | some letter => exact stringBytes_letter hletter h
  | none =>
      simp only
      split
      · exact stringBytes_control ‹_› h
      · -- quotes and backslashes have a letter, so it is neither
        refine stringBytes_plain _ (standsForItself_utf8EncodeChar (by omega) ?_ ?_) h
        · rintro rfl
          exact absurd hletter (by decide)
        · rintro rfl
          exact absurd hletter (by decide)

/-- **A string is read back from its quoted form.** -/
theorem string_quoted (text : String) (rest : List UInt8) :
    string (text.toList.flatMap quotedChar ++ byte '"' :: rest) = .ok (text, rest) := by
  have hcontent : ∀ cs : List Char,
      stringBytes .plain (cs.flatMap quotedChar ++ byte '"' :: rest) =
        .ok (cs.flatMap String.utf8EncodeChar, rest) := by
    intro cs
    induction cs with
    | nil => rfl
    | cons c cs ih =>
        rw [List.flatMap_cons, List.flatMap_cons, List.append_assoc]
        exact stringBytes_quotedChar c ih
  have hbytes : stringBytes .plain (text.toList.flatMap quotedChar ++ byte '"' :: rest) =
      .ok (Text.bytes text, rest) := hcontent text.toList
  rw [string, hbytes]
  simp [bind, Except.bind, Text.ofBytes?_bytes, pure, Except.pure]

/-! ## Numbers -/

/-- The digits before these bytes do not go on. -/
def EndsDigits (rest : List UInt8) : Prop := ∀ b ∈ rest.head?, digit? b = none

/-- The number before these bytes does not go on. -/
def EndsNumber (rest : List UInt8) : Prop :=
  ∀ b ∈ rest.head?, digit? b = none ∧ b ≠ byte '.' ∧ b ≠ byte 'e' ∧ b ≠ byte 'E'

theorem EndsNumber.endsDigits (h : EndsNumber rest) : EndsDigits rest := fun b hb => (h b hb).1

theorem endsNumber_nil : EndsNumber [] := by simp [EndsNumber]

theorem digit?_toByte : ∀ d : Digit, digit? d.toByte = some d := by decide

theorem digits_append (ds : List Digit) (h : EndsDigits rest) :
    digits (ds.map Digit.toByte ++ rest) = (ds, rest) := by
  induction ds with
  | nil =>
      cases rest with
      | nil => rfl
      | cons b rest =>
          rw [List.map_nil, List.nil_append, digits, h b rfl]
  | cons d ds ih => rw [List.map_cons, List.cons_append, digits, digit?_toByte, ih]

theorem digits1_append (ds : Digits) (h : EndsDigits rest) :
    digits1 (ds.bytes ++ rest) = .ok (ds, rest) := by
  rw [digits1, Digits.bytes, digits_append _ h]

/-- The fraction of a number as it is written. -/
def fractionBytes : Option Digits → List UInt8
  | some ds => byte '.' :: ds.bytes
  | none => []

/-- The exponent of a number as it is written. -/
def exponentBytes : Option (Bool × Digits) → List UInt8
  | some (negative, ds) => byte 'e' :: byte (if negative then '-' else '+') :: ds.bytes
  | none => []

theorem exponent_append (e : Option (Bool × Digits)) (h : EndsNumber rest) :
    exponent (exponentBytes e ++ rest) = .ok (e, rest) := by
  cases e with
  | none =>
      cases rest with
      | nil => rfl
      | cons b rest =>
          obtain ⟨-, -, he, hE⟩ := h b rfl
          rw [exponentBytes, List.nil_append, exponent, if_neg (by simp [he, hE])]
  | some e =>
      obtain ⟨negative, ds⟩ := e
      have hdigits := digits1_append ds h.endsDigits
      rw [exponentBytes, List.cons_append, exponent, if_pos (by decide)]
      cases negative with
      | true =>
          have hminus : startsWith (byte '-') (byte '-' :: (ds.bytes ++ rest)) = true := rfl
          simp [hminus, hdigits, bind, Except.bind, pure, Except.pure]
      | false =>
          have hminus : startsWith (byte '-') (byte '+' :: (ds.bytes ++ rest)) = false := rfl
          have hplus : startsWith (byte '+') (byte '+' :: (ds.bytes ++ rest)) = true := rfl
          simp [hminus, hplus, hdigits, bind, Except.bind, pure, Except.pure]

/-- What follows a fraction neither goes on with it nor begins one. -/
theorem ends_exponent (e : Option (Bool × Digits)) (h : EndsNumber rest) :
    ∀ b ∈ (exponentBytes e ++ rest).head?, digit? b = none ∧ b ≠ byte '.' := by
  cases e with
  | none => exact fun b hb => ⟨(h b hb).1, (h b hb).2.1⟩
  | some e =>
      rintro b ⟨⟩
      exact ⟨by decide, by decide⟩

theorem fraction_append (f : Option Digits)
    (h : ∀ b ∈ rest.head?, digit? b = none ∧ b ≠ byte '.') :
    fraction (fractionBytes f ++ rest) = .ok (f, rest) := by
  cases f with
  | none =>
      cases rest with
      | nil => rfl
      | cons b rest =>
          rw [fractionBytes, List.nil_append, fraction, if_neg (by simp [(h b rfl).2])]
  | some ds =>
      rw [fractionBytes, List.cons_append, fraction, if_pos (by decide),
        digits1_append ds fun b hb => (h b hb).1]
      rfl

theorem endsDigits_fraction (f : Option Digits) (h : EndsDigits rest) :
    EndsDigits (fractionBytes f ++ rest) := by
  cases f with
  | none => exact h
  | some ds =>
      rintro b ⟨⟩
      decide

theorem whole_append (w : Whole) (h : EndsDigits rest) :
    whole (w.digits.bytes ++ rest) = .ok (w, rest) := by
  obtain ⟨⟨first, more⟩, hcanonical⟩ := w
  have hhead : rest.head?.bind digit? = none := by
    cases rest with
    | nil => rfl
    | cons b rest => exact h b rfl
  have hdigits := digits_append more h
  show whole (first.toByte :: (more.map Digit.toByte ++ rest)) = _
  rw [whole]
  split
  · rename_i hnone
    exact absurd ((digit?_toByte first).symm.trans hnone) (by simp)
  · rename_i d hd
    obtain rfl : first = d := Option.some.inj ((digit?_toByte first).symm.trans hd)
    by_cases hzero : first.val = 0
    · -- no digit comes behind a leading zero, neither in the number nor in what follows
      obtain rfl : more = [] := hcanonical (Fin.ext hzero)
      rw [dif_pos hzero]
      simp only [List.map_nil, List.nil_append, hhead]
    · rw [dif_neg hzero]
      simp only [hdigits]

/-- **A number is read back from its digits**, if what follows does not go on with it. -/
theorem number_bytes (n : Number) (h : EndsNumber rest) :
    number (n.bytes ++ rest) = .ok (n, rest) := by
  obtain ⟨negative, w, f, e, hcanonical⟩ := n
  have hwhole := whole_append ⟨w, hcanonical⟩
    (endsDigits_fraction f fun b hb => (ends_exponent e h b hb).1)
  have hfraction := fraction_append f (ends_exponent e h)
  have hexponent := exponent_append e h
  have hbytes : (⟨negative, w, f, e, hcanonical⟩ : Number).bytes ++ rest =
      (if negative then [byte '-'] else []) ++
        (w.bytes ++ (fractionBytes f ++ (exponentBytes e ++ rest))) := by
    cases f <;> cases e <;> simp [Number.bytes, fractionBytes, exponentBytes]
  have hdigit : startsWith (byte '-')
      (w.bytes ++ (fractionBytes f ++ (exponentBytes e ++ rest))) = false := by
    have hfirst : ∀ d : Digit, (some d.toByte == some (byte '-')) = false := by decide
    exact hfirst w.first
  rw [hbytes, number]
  cases negative with
  | true =>
      simp [startsWith, hwhole, hfraction, hexponent, bind, Except.bind, pure, Except.pure]
  | false =>
      simp [hdigit, hwhole, hfraction, hexponent, bind, Except.bind, pure, Except.pure]

/-! ## Scalars -/

theorem literal_append (word rest : List UInt8) : literal word (word ++ rest) = .ok rest := by
  induction word with
  | nil => cases rest <;> rfl
  | cons b word ih => rw [List.cons_append, literal, if_pos (by simp), ih]

/-- The first byte of a number tells that it is one. -/
theorem number_first (n : Number) :
    ∃ b bs, n.bytes = b :: bs ∧ (b = byte '-' ∨ ∃ d : Digit, b = d.toByte) := by
  obtain ⟨negative, w, f, e, hcanonical⟩ := n
  cases negative with
  | true => exact ⟨_, _, rfl, Or.inl rfl⟩
  | false => exact ⟨_, _, rfl, Or.inr ⟨w.first, rfl⟩⟩

/-- The bytes that tell a reader what a value is, if it is no number. -/
def marks : List UInt8 :=
  [byte 'n', byte 't', byte 'f', byte '"', byte '[', byte '\x7b', byte ']']

theorem number_not_marked {b : UInt8} (h : b = byte '-' ∨ ∃ d : Digit, b = d.toByte) :
    b ∉ marks ∧ isBlank b = false ∧ startsNumber b = true := by
  have hdigit : ∀ d : Digit, d.toByte ∉ marks ∧ isBlank d.toByte = false ∧
      startsNumber d.toByte = true := by decide
  rcases h with rfl | ⟨d, rfl⟩
  · decide
  · exact hdigit d

/-- **A scalar is read back from what is written for it.** -/
theorem scalar_scalarBytes {v : Value} (hv : v.isScalar = true) (h : EndsNumber rest) :
    scalar (v.scalarBytes ++ rest) = .ok (v, rest) := by
  cases v with
  | array | object => exact absurd hv (by simp [Value.isScalar])
  | null =>
      show scalar (byte 'n' :: (ascii "ull" ++ rest)) = _
      rw [scalar, if_pos (by decide), literal_append]
      rfl
  | bool b =>
      cases b with
      | true =>
          show scalar (byte 't' :: (ascii "rue" ++ rest)) = _
          rw [scalar, if_neg (by decide), if_pos (by decide), literal_append]
          rfl
      | false =>
          show scalar (byte 'f' :: (ascii "alse" ++ rest)) = _
          rw [scalar, if_neg (by decide), if_neg (by decide), if_pos (by decide), literal_append]
          rfl
  | string text =>
      have htext : (Value.string text).scalarBytes ++ rest =
          byte '"' :: (text.toList.flatMap quotedChar ++ byte '"' :: rest) := by
        simp [Value.scalarBytes, quoted]
      rw [htext, scalar, if_neg (by decide), if_neg (by decide), if_neg (by decide),
        if_pos (by decide), string_quoted]
      rfl
  | number n =>
      obtain ⟨b, bs, hbytes, hfirst⟩ := number_first n
      obtain ⟨hmarks, -, hnumber⟩ := number_not_marked hfirst
      have hread := number_bytes n h
      rw [hbytes, List.cons_append] at hread
      simp only [marks, List.mem_cons, List.not_mem_nil, or_false, not_or] at hmarks
      show scalar (n.bytes ++ rest) = _
      rw [hbytes, List.cons_append, scalar]
      simp [hmarks, hnumber, hread, Except.map]

/-- What is written for a scalar begins with no blank, and like no container. -/
theorem scalarBytes_first {v : Value} (hv : v.isScalar = true) :
    ∃ b bs, v.scalarBytes = b :: bs ∧ isBlank b = false ∧
      b ≠ byte '[' ∧ b ≠ byte '\x7b' ∧ b ≠ byte ']' := by
  cases v with
  | array | object => exact absurd hv (by simp [Value.isScalar])
  | null | string => exact ⟨_, _, rfl, by decide⟩
  | bool b => cases b <;> exact ⟨_, _, rfl, by decide⟩
  | number n =>
      obtain ⟨b, bs, hbytes, hfirst⟩ := number_first n
      obtain ⟨hmarks, hblank, -⟩ := number_not_marked hfirst
      simp only [marks, List.mem_cons, List.not_mem_nil, or_false, not_or] at hmarks
      exact ⟨b, bs, hbytes, hblank, hmarks.2.2.2.2.1, hmarks.2.2.2.2.2.1, hmarks.2.2.2.2.2.2⟩

end FieldSelection.Json
