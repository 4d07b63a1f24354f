import AsmKit.Proofs.Pieces
import AsmKit.Proofs.Stage
import AsmKit.Text.Number
import Mathlib.Algebra.Ring.Nat
import Mathlib.Data.Nat.Digits.Defs

/-
  Numbers read back as they were written. Digits are read from the left and a numeral is its last
  digit behind the numeral of the rest, so that reading a numeral to its end comes to the number it
  spells (`readDigits_toDigits`), in every base and with its digits in either case. Words, signed
  integers and bytes follow. Digits that nobody wrote out, with zeros in front or too many for a
  word, are read as the number they denote or refused as too large (`readDigits_of_digits`).
-/

namespace AsmKit

open Number

/-! ## Digits -/

theorem Number.readDigits_append {base limit value : Nat} {front back : Bytes} :
    readDigits base limit value (front ++ back) =
      readDigits base limit value front >>= fun n => readDigits base limit n back := by
  induction front generalizing value with
  | nil => rfl
  | cons b front ih =>
    simp only [List.cons_append, readDigits]
    split
    · rfl
    · split
      · rfl
      · split
        · rfl
        · exact ih

/-- What holds of all digits holds of those in a numeral. -/
theorem Number.forall_mem_toDigits {base : Nat} {P : Char → Prop} (hbase : 1 < base)
    (h : ∀ d < base, P (Nat.digitChar d)) (n : Nat) : ∀ c ∈ Nat.toDigits base n, P c := by
  induction n using Nat.strongRecOn with
  | ind n ih =>
    intro c hc
    rcases Nat.lt_or_ge n base with hn | hn
    · rw [Nat.toDigits_of_lt_base hn, List.mem_singleton] at hc
      rw [hc]
      exact h n hn
    · rw [Nat.toDigits_of_base_le hbase hn, List.mem_append, List.mem_singleton] at hc
      obtain hc | hc := hc
      · exact ih (n / base) (Nat.div_lt_self (by omega) hbase) c hc
      · rw [hc]
        exact h (n % base) (Nat.mod_lt n (by omega))

section Spelling

variable {base limit : Nat} {spell : Char → UInt8}

theorem Number.readDigits_digit {value d : Nat} (hd : d < base)
    (hspell : Ascii.digitValue? (spell (Nat.digitChar d)) = some d) (h : value * base + d ≤ limit) :
    readDigits base limit value [spell (Nat.digitChar d)] = .ok (value * base + d) := by
  unfold readDigits
  rw [hspell]
  dsimp only
  rw [if_neg (by omega), if_neg (by omega)]
  rfl

/-- The last digit stands behind the numeral of the rest, so it is read last. -/
theorem Number.readDigits_toDigits (hbase : 1 < base)
    (hspell : ∀ d < base, Ascii.digitValue? (spell (Nat.digitChar d)) = some d) {n : Nat}
    (h : n ≤ limit) : readDigits base limit 0 ((Nat.toDigits base n).map spell) = .ok n := by
  induction n using Nat.strongRecOn with
  | ind n ih =>
    rcases Nat.lt_or_ge n base with hn | hn
    · rw [Nat.toDigits_of_lt_base hn, List.map_singleton,
        readDigits_digit hn (hspell n hn) (by omega)]
      simp
    · have hrest := ih (n / base) (Nat.div_lt_self (by omega) hbase)
        (Nat.le_trans (Nat.div_le_self n base) h)
      have hmod : n % base < base := Nat.mod_lt n (by omega)
      have hlast : n / base * base + n % base = n := Nat.div_add_mod' n base
      rw [Nat.toDigits_of_base_le hbase hn, List.map_append, readDigits_append, hrest]
      show readDigits base limit (n / base) [spell (Nat.digitChar (n % base))] = _
      rw [readDigits_digit hmod (hspell _ hmod) (by omega), hlast]

theorem Number.readDigits_zeros (hbase : 0 < base) (k : Nat) (s : Bytes) :
    readDigits base limit 0 (List.replicate k 0x30 ++ s) = readDigits base limit 0 s := by
  induction k with
  | zero => rfl
  | succ k ih =>
    rw [List.replicate_succ, List.cons_append, readDigits]
    show (if base ≤ 0 then _ else if limit < 0 * base + 0 then _
      else readDigits base limit (0 * base + 0) (List.replicate k 0x30 ++ s)) = _
    rw [if_neg (by omega), if_neg (by omega), Nat.zero_mul, Nat.add_zero, ih]

theorem Number.readNat_zeroFill (spell : Char → UInt8) (hbase : 1 < base)
    (hspell : ∀ d < base, Ascii.digitValue? (spell (Nat.digitChar d)) = some d) (width : Nat)
    {n : Nat} (h : n ≤ limit) :
    readNat base limit (Bytes.zeroFill width ((Nat.toDigits base n).map spell)) = .ok n := by
  have hne : Bytes.zeroFill width ((Nat.toDigits base n).map spell) ≠ [] := by
    intro hnil
    exact Nat.toDigits_ne_nil (List.map_eq_nil_iff.mp (List.append_eq_nil_iff.mp hnil).2)
  unfold readNat
  rw [if_neg (by simpa using hne), Bytes.zeroFill, readDigits_zeros (by omega)]
  exact readDigits_toDigits hbase hspell h

end Spelling

namespace Ascii

theorem digitValue?_digitChar : ∀ d < 16, digitValue? (Nat.digitChar d).toUInt8 = some d := by
  decide

theorem digitValue?_upperDigitChar :
    ∀ d < 16, digitValue? (Nat.digitChar d).toUpper.toUInt8 = some d := by
  decide

end Ascii

namespace Bytes

theorem decimal_ne_nil (n : Nat) : decimal n ≠ [] := by
  intro h
  unfold decimal at h
  exact Nat.toDigits_ne_nil (List.map_eq_nil_iff.mp h)

theorem isDigit_of_mem_decimal {n : Nat} {b : UInt8} (h : b ∈ decimal n) :
    Ascii.isDigit b = true := by
  obtain ⟨c, hc, rfl⟩ := List.mem_map.mp h
  exact forall_mem_toDigits (P := fun c => Ascii.isDigit c.toUInt8 = true) (by decide) (by decide) n
    c hc

theorem length_decimal_le {n k : Nat} (hk : 0 < k) (h : n < 10 ^ k) : (decimal n).length ≤ k := by
  unfold decimal
  rw [List.length_map]
  exact (Nat.length_toDigits_le_iff (by decide) hk).mpr h

end Bytes

theorem Number.readNat_decimal {limit n : Nat} (h : n ≤ limit) :
    readNat 10 limit (Bytes.decimal n) = .ok n := by
  unfold readNat
  rw [if_neg (by simpa using Bytes.decimal_ne_nil n)]
  exact readDigits_toDigits (by decide) (fun d hd => Ascii.digitValue?_digitChar d (by omega)) h

/-! ## Words, integers and bytes -/

namespace Bytes

theorem readWord_decimal (w : UInt32) : readWord 10 (decimal w.toNat) = .ok w := by
  have hlt := w.toNat_lt
  unfold readWord
  rw [readNat_decimal (by omega)]
  simp

/-- A sign is not a digit. -/
theorem readInt_decimal {n : Nat} (h : n < 2 ^ 63) : readInt (decimal n) = .ok (n : Int) := by
  have hread : readNat 10 0xFFFFFFFFFFFFFFFF (decimal n) = .ok n := readNat_decimal (by omega)
  rcases hs : decimal n with _ | ⟨b, rest⟩
  · exact absurd hs (decimal_ne_nil n)
  · have hb : Ascii.isDigit b = true := isDigit_of_mem_decimal (by rw [hs]; exact List.mem_cons_self ..)
    have hplus : b ≠ 0x2B := by
      rintro rfl
      exact absurd hb (by decide)
    have hminus : b ≠ 0x2D := by
      rintro rfl
      exact absurd hb (by decide)
    rw [hs] at hread
    unfold readInt
    split
    next negative digits hsplit =>
    have hsame : negative = false ∧ digits = b :: rest := by
      split at hsplit
      · next heq => exact absurd (List.cons.inj heq).1 hplus
      · next heq => exact absurd (List.cons.inj heq).1 hminus
      · cases hsplit
        exact ⟨rfl, rfl⟩
    rw [hsame.1, hsame.2, hread]
    dsimp only
    rw [if_neg (by decide), if_neg (by omega)]

theorem readInt_negative {n : Nat} (h : n + 1 ≤ 2 ^ 63) :
    readInt (0x2D :: decimal (n + 1)) = .ok (Int.negSucc n) := by
  have hread : readNat 10 0xFFFFFFFFFFFFFFFF (decimal (n + 1)) = .ok (n + 1) := readNat_decimal (by omega)
  unfold readInt
  split
  next negative digits hsplit =>
  cases hsplit
  rw [hread]
  dsimp only
  rw [if_pos rfl, if_neg (by omega)]
  rfl

theorem readInt64_signed (i : Int64) : readInt64 (signed i.toInt) = .ok i := by
  have hlow := i.le_toInt
  have hhigh := i.toInt_lt
  have hread : readInt (signed i.toInt) = .ok i.toInt := by
    rcases hi : i.toInt with n | n
    · rw [hi, Int.ofNat_eq_natCast] at hhigh
      exact readInt_decimal (by omega)
    · exact readInt_negative (by omega)
  unfold readInt64
  rw [hread]
  simp

theorem readNat_upperHex (width : Nat) {limit n : Nat} (h : n ≤ limit) :
    readNat 16 limit (upperHex width n) = .ok n :=
  readNat_zeroFill (fun c => c.toUpper.toUInt8) (by decide) Ascii.digitValue?_upperDigitChar width h

theorem readNat_hex (width : Nat) {limit n : Nat} (h : n ≤ limit) :
    readNat 16 limit (hex width n) = .ok n :=
  readNat_zeroFill Char.toUInt8 (by decide) Ascii.digitValue?_digitChar width h

theorem readWord_upperHex (width : Nat) (w : UInt32) :
    readWord 16 (upperHex width w.toNat) = .ok w := by
  have hlt := w.toNat_lt
  unfold readWord
  rw [readNat_upperHex width (by omega)]
  simp

theorem readHexByte_hex (b : UInt8) : readHexByte (hex 2 b.toNat) = .ok b := by
  have hlt := b.toNat_lt
  unfold readHexByte
  rw [readNat_hex 2 (by omega)]
  simp

theorem readHexByte_upperHex (b : UInt8) : readHexByte (upperHex 2 b.toNat) = .ok b := by
  have hlt := b.toNat_lt
  unfold readHexByte
  rw [readNat_upperHex 2 (by omega)]
  simp

end Bytes

/-! ## The numbers that digits denote -/

/-- What a digit counts, and 0 if it is none. -/
def Ascii.digit (b : UInt8) : Nat := (digitValue? b).getD 0

namespace Number

/-- The number that digits denote in a base, the first digit counting most. -/
def value (base : Nat) (digits : Bytes) : Nat :=
  Nat.ofDigits base (digits.map Ascii.digit).reverse

theorem value_cons (base : Nat) (b : UInt8) (digits : Bytes) :
    value base (b :: digits) = Ascii.digit b * base ^ digits.length + value base digits := by
  unfold value
  rw [List.map_cons, List.reverse_cons, Nat.ofDigits_append, Nat.ofDigits_singleton,
    List.length_reverse, List.length_map, Nat.add_comm, Nat.mul_comm]

/-- Digits of the base are read to their number, unless it goes past the limit. -/
theorem readDigits_of_digits {base limit : Nat} (hbase : 0 < base) {digits : Bytes}
    (h : ∀ b ∈ digits, ∃ d < base, Ascii.digitValue? b = some d) {start : Nat} (hstart : start ≤ limit) :
    readDigits base limit start digits =
      if start * base ^ digits.length + value base digits ≤ limit then
        .ok (start * base ^ digits.length + value base digits)
      else .error .outOfRange := by
  induction digits generalizing start with
  | nil =>
    have hnil : start * base ^ ([] : Bytes).length + value base [] = start := by simp [value]
    rw [hnil, if_pos hstart]
    rfl
  | cons b digits ih =>
    obtain ⟨⟨d, hd, hb⟩, hdigits⟩ := List.forall_mem_cons.mp h
    have hvalue : start * base ^ (b :: digits).length + value base (b :: digits) =
        (start * base + d) * base ^ digits.length + value base digits := by
      rw [value_cons, Ascii.digit, hb, List.length_cons, Nat.pow_succ]
      simp only [Option.getD_some]
      ring
    rw [readDigits, hb, hvalue]
    dsimp only
    rw [if_neg (by omega)]
    split
    · next hpast =>
      -- more digits only add to the number
      have hgrows : start * base + d ≤ (start * base + d) * base ^ digits.length :=
        Nat.le_mul_of_pos_right _ (Nat.pow_pos hbase)
      rw [if_neg (by omega)]
    · exact ih hdigits (by omega)

/-- Digits as they are written, decimal ones as they are and hexadecimal ones behind `0x`. -/
inductive Spelled : Bytes → Nat → Bytes → Prop
  | decimal {digits : Bytes} (hne : digits ≠ []) (h : ∀ b ∈ digits, Ascii.isDigit b = true) :
    Spelled digits 10 digits
  | hexadecimal {digits : Bytes} (hne : digits ≠ []) (h : ∀ b ∈ digits, Ascii.isHexDigit b = true) :
    Spelled (text "0x" ++ digits) 16 digits

theorem digitValue?_of_isDigit : ∀ b, Ascii.isDigit b = true →
    ∃ d < 10, Ascii.digitValue? b = some d := by
  apply forall_byte
  decide +kernel

theorem digitValue?_of_isHexDigit : ∀ b, Ascii.isHexDigit b = true →
    ∃ d < 16, Ascii.digitValue? b = some d := by
  apply forall_byte
  decide +kernel

theorem spelled_decimal_iff {s : Bytes} : (∃ digits, Spelled s 10 digits) ↔ s.isDecimal = true := by
  unfold Bytes.isDecimal
  constructor
  · rintro ⟨digits, h⟩
    cases h with
    | decimal hne h => simpa [hne] using h
  · intro h
    obtain ⟨hne, hdigits⟩ := Bool.and_eq_true_iff.mp h
    exact ⟨s, .decimal (by simpa using hne) (List.all_eq_true.mp hdigits)⟩

theorem spelled_hexadecimal_iff {s : Bytes} :
    (∃ digits, Spelled s 16 digits) ↔ s.isHexadecimal = true := by
  constructor
  · rintro ⟨digits, h⟩
    cases h with
    | hexadecimal hne h =>
      show (!digits.isEmpty && digits.all Ascii.isHexDigit) = true
      simpa [hne] using h
  · intro h
    unfold Bytes.isHexadecimal at h
    split at h
    · next digits =>
      obtain ⟨hne, hdigits⟩ := Bool.and_eq_true_iff.mp h
      exact ⟨digits, .hexadecimal (by simpa using hne) (List.all_eq_true.mp hdigits)⟩
    · cases h

theorem exists_spelled_iff {s : Bytes} :
    (∃ base digits, Spelled s base digits) ↔ (s.isDecimal || s.isHexadecimal) = true := by
  rw [Bool.or_eq_true, ← spelled_decimal_iff, ← spelled_hexadecimal_iff]
  constructor
  · rintro ⟨base, digits, h⟩
    cases h with
    | decimal hne h => exact .inl ⟨_, .decimal hne h⟩
    | hexadecimal hne h => exact .inr ⟨_, .hexadecimal hne h⟩
  · rintro (h | h)
    · exact ⟨10, h⟩
    · exact ⟨16, h⟩

theorem readWord_of_digits {base : Nat} (hbase : 0 < base) {digits : Bytes} (hne : digits ≠ [])
    (h : ∀ b ∈ digits, ∃ d < base, Ascii.digitValue? b = some d) :
    digits.readWord base = if value base digits < 2 ^ 32 then
      .ok (UInt32.ofNat (value base digits)) else .error ⟨.natural, digits, .outOfRange⟩ := by
  have hread : readDigits base 0xFFFFFFFF 0 digits = _ := readDigits_of_digits hbase h (Nat.zero_le _)
  rw [Nat.zero_mul, Nat.zero_add] at hread
  unfold Bytes.readWord readNat
  rw [if_neg (by simpa using hne), hread]
  by_cases hvalue : value base digits < 2 ^ 32
  · rw [if_pos (by omega), if_pos hvalue]
  · rw [if_neg (by omega), if_neg hvalue]

/-- A spelled number is read as what its digits denote, and refused from 2³² on. -/
theorem Spelled.readNumeral {s digits : Bytes} {base : Nat} (h : Spelled s base digits) :
    s.readNumeral = if value base digits < 2 ^ 32 then
      .ok (UInt32.ofNat (value base digits)) else .error ⟨.natural, digits, .outOfRange⟩ := by
  cases h with
  | decimal hne h =>
    have hnumeral : s.numeral = (10, s) := by
      unfold Bytes.numeral
      split
      · next digits => exact absurd (h 0x78 (by simp)) (by decide)
      · rfl
    unfold Bytes.readNumeral
    rw [hnumeral]
    exact readWord_of_digits (by decide) hne fun b hb => digitValue?_of_isDigit b (h b hb)
  | hexadecimal hne h =>
    show digits.readWord 16 = _
    exact readWord_of_digits (by decide) hne fun b hb => digitValue?_of_isHexDigit b (h b hb)

end Number

end AsmKit
