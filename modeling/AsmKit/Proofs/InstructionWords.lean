import AsmKit.Machine.Encoding
import Mathlib.Data.Nat.Bitwise

/-
  The four bytes of an instruction word and its fields. Any four bytes are the word of their fields
  (`Fields.word_fieldsOf`). The other way round a word is cut to the instruction's length, and what
  is cut off counts as zero: `Fields.cut` says in numbers what is left, and `Fields.fieldsOf_cut`
  that this is what the bytes hold.
-/

namespace AsmKit

/-! ## Bytes of two nibbles -/

theorem exists_nibble {a : UInt8} (h : a < 16) : ∃ n : Fin 16, a = UInt8.ofNat n :=
  ⟨⟨a.toNat, UInt8.lt_iff_toNat_lt.mp h⟩, (UInt8.ofNat_toNat).symm⟩

theorem nibble_and {a : UInt8} (h : a < 16) : a &&& 0xF = a := by
  obtain ⟨n, rfl⟩ := exists_nibble h
  revert n
  decide +kernel

theorem nibbles_of_byte {a b : UInt8} (ha : a < 16) (hb : b < 16) :
    ((a &&& 0xF) <<< 4 ||| b) >>> 4 = a ∧ ((a &&& 0xF) <<< 4 ||| b) &&& 0xF = b := by
  obtain ⟨m, rfl⟩ := exists_nibble ha
  obtain ⟨n, rfl⟩ := exists_nibble hb
  revert m n
  decide +kernel

theorem byte_of_nibbles (b : UInt8) : (b >>> 4 &&& 0xF) <<< 4 ||| (b &&& 0xF) = b := by
  have h : ∀ n : Fin 256,
      (UInt8.ofNat n >>> 4 &&& 0xF) <<< 4 ||| (UInt8.ofNat n &&& 0xF) = UInt8.ofNat n := by
    decide +kernel
  have hb := h ⟨b.toNat, b.toNat_lt⟩
  rwa [UInt8.ofNat_toNat] at hb

theorem low_nibble_lt (b : UInt8) : b &&& 0xF < 16 := by
  rw [UInt8.lt_iff_toNat_lt, UInt8.toNat_and]
  exact Nat.and_lt_two_pow _ (n := 4) (by decide)

/-! ## Twelve-bit numbers -/

namespace Decoded

/-- A nibble in front of a byte. -/
theorem toNat_join {high : UInt8} (h : high < 16) (low : UInt8) :
    (high.toUInt32 <<< 8 ||| low.toUInt32).toNat = 256 * high.toNat + low.toNat := by
  have hhigh : high.toNat < 16 := UInt8.lt_iff_toNat_lt.mp h
  have hlow : low.toNat < 2 ^ 8 := low.toNat_lt
  have hshift : (high.toUInt32 <<< 8).toNat = high.toNat <<< 8 := by
    rw [UInt32.toNat_shiftLeft, UInt8.toNat_toUInt32]
    show high.toNat <<< 8 % 2 ^ 32 = _
    rw [Nat.shiftLeft_eq]
    omega
  rw [UInt32.toNat_or, hshift, UInt8.toNat_toUInt32, ← Nat.shiftLeft_add_eq_or_of_lt hlow,
    Nat.shiftLeft_eq]
  omega

theorem toNat_high {v : UInt32} (h : v.toNat < 4096) : (v >>> 8).toUInt8.toNat = v.toNat / 256 := by
  rw [UInt32.toNat_toUInt8, UInt32.toNat_shiftRight]
  show v.toNat >>> 8 % 256 = _
  rw [Nat.shiftRight_eq_div_pow]
  omega

theorem toInt_signExtend {v : UInt32} (h : v.toNat < 4096) :
    (signExtend v).toInt = if v.toNat ≤ 2047 then (v.toNat : Int) else v.toNat - 4096 := by
  have hv : v.toInt32.toInt = v.toNat := by
    rw [← Int32.toInt_toBitVec, UInt32.toBitVec_toInt32, BitVec.toInt_eq_toNat_cond,
      UInt32.toNat_toBitVec]
    split <;> omega
  unfold signExtend
  by_cases hle : v.toNat ≤ 2047
  · rw [if_pos hle, if_neg (fun hlt => absurd (UInt32.lt_iff_toNat_lt.mp hlt) (Nat.not_lt.mpr hle)), hv]
  · rw [if_neg hle, if_pos (UInt32.lt_iff_toNat_lt.mpr (Nat.lt_of_not_le hle)), Int32.toInt_sub, hv]
    show ((v.toNat : Int) - 4096).bmod (2 ^ 32) = _
    exact Int.bmod_eq_of_le (by omega) (by omega)

/-- The twelve bits of a number in range are extended to the number. -/
theorem signExtend_of_mod {v : UInt32} {k : Int} (hv : (v.toNat : Int) = k % 4096)
    (hlow : -2048 ≤ k) (hhigh : k ≤ 2047) : signExtend v = Int32.ofInt k := by
  have hk : (signExtend v).toInt = k := by
    rw [toInt_signExtend (by omega)]
    split <;> omega
  rw [← hk, Int32.ofInt_toInt]

/-- The twelve bits of a displacement are its remainder modulo 4096. -/
theorem toNat_bits (d : Int32) : ((d.toUInt32 &&& 0xFFF).toNat : Int) = d.toInt % 4096 := by
  have hmask : (d.toUInt32 &&& 0xFFF).toNat = d.toUInt32.toNat % 4096 := by
    rw [UInt32.toNat_and]
    exact Nat.and_two_pow_sub_one_eq_mod _ 12
  have hd : d.toInt = if 2 * d.toUInt32.toNat < 2 ^ 32 then (d.toUInt32.toNat : Int)
      else d.toUInt32.toNat - 2 ^ 32 := by
    rw [← Int32.toInt_toBitVec, BitVec.toInt_eq_toNat_cond]
    rfl
  rw [hmask, hd]
  split <;> omega

theorem bits_lt (d : Int32) : (d.toUInt32 &&& 0xFFF).toNat < 4096 := by
  have hbits := toNat_bits d
  omega

theorem bits_signExtend {v : UInt32} (h : v.toNat < 4096) : (signExtend v).toUInt32 &&& 0xFFF = v := by
  have hbits := toNat_bits (signExtend v)
  rw [toInt_signExtend h] at hbits
  apply UInt32.toNat_inj.mp
  split at hbits <;> omega

end Decoded

/-! ## Words -/

namespace Fields

/-- Registers have four bits and the displacement has twelve. -/
structure InRange (f : Fields) : Prop where
  a : f.a < 16
  b : f.b < 16
  c : f.c < 16
  low : -2048 ≤ f.displacement
  high : f.displacement ≤ 2047

/-- What the first `n` bytes of the word hold: two registers in the second byte, the third one and
the upper third of the displacement in the next, and the rest of the displacement in the last. -/
def cut (n : Nat) (f : Fields) : Fields where
  opcode := f.opcode
  a := if 2 ≤ n then f.a else 0
  b := if 2 ≤ n then f.b else 0
  c := if 3 ≤ n then f.c else 0
  displacement :=
    if 4 ≤ n then f.displacement
    else if 3 ≤ n then Int32.ofInt (256 * (f.displacement.toInt / 256))
    else 0

variable {f : Fields}

/-- The third byte of a word taken apart, and its displacement in front of any last byte. -/
theorem InRange.third_byte (h : f.InRange) (last : UInt8) :
    let bits := f.displacement.toUInt32 &&& 0xFFF
    let byte := (f.c &&& 0xF) <<< 4 ||| (bits >>> 8).toUInt8
    byte >>> 4 = f.c ∧
      ((byte &&& 0xF).toUInt32 <<< 8 ||| last.toUInt32).toNat =
        256 * (bits.toNat / 256) + last.toNat := by
  intro bits byte
  have hhigh := Decoded.toNat_high (Decoded.bits_lt f.displacement)
  have hnibble : (bits >>> 8).toUInt8 < 16 := by
    have hlt := Decoded.bits_lt f.displacement
    rw [UInt8.lt_iff_toNat_lt, hhigh]
    show _ < 16
    omega
  obtain ⟨hleft, hright⟩ := nibbles_of_byte h.c hnibble
  refine ⟨hleft, ?_⟩
  rw [hright, Decoded.toNat_join hnibble, hhigh]

/-- There are four bytes and no more. -/
theorem cut_min (n : Nat) : f.cut (min n 4) = f.cut n := by
  unfold cut
  simp only [Nat.le_min, Nat.reduceLeDiff, and_true]

theorem fieldsOf_cut (h : f.InRange) {n : Nat} (hn : 1 ≤ n) :
    Decoded.fieldsOf (f.word.take n) = f.cut n := by
  have hbits := Decoded.toNat_bits f.displacement
  have hlow : -2048 ≤ f.displacement.toInt := Int32.le_iff_toInt_le.mp h.low
  have hhigh : f.displacement.toInt ≤ 2047 := Int32.le_iff_toInt_le.mp h.high
  have hnone : (0 : UInt8) >>> 4 = 0 ∧ (0 : UInt8) &&& 0xF = 0 := by decide
  have hzero :
      Decoded.signExtend (((0 : UInt8) &&& 0xF).toUInt32 <<< 8 ||| (0 : UInt8).toUInt32) = 0 := by
    decide
  obtain ⟨ha, hb⟩ := nibbles_of_byte h.a ((nibble_and h.b).symm ▸ h.b)
  replace hb := hb.trans (nibble_and h.b)
  unfold Decoded.fieldsOf cut
  match n with
  | 1 => exact Fields.mk.injEq .. |>.mpr ⟨rfl, hnone.1, hnone.2, hnone.1, hzero⟩
  | 2 => exact Fields.mk.injEq .. |>.mpr ⟨rfl, ha, hb, hnone.1, hzero⟩
  | 3 =>
    obtain ⟨hc, hd⟩ := h.third_byte 0
    refine Fields.mk.injEq .. |>.mpr ⟨rfl, ha, hb, hc, Decoded.signExtend_of_mod ?_ ?_ ?_⟩
    · refine (congrArg Nat.cast hd).trans ?_
      show ((256 * (_ / 256) + 0 : Nat) : Int) = _
      omega
    · omega
    · omega
  | n + 4 =>
    obtain ⟨hc, hd⟩ := h.third_byte (f.displacement.toUInt32 &&& 0xFFF).toUInt8
    refine Fields.mk.injEq .. |>.mpr ⟨rfl, ha, hb, hc, ?_⟩
    rw [if_pos (by omega), ← Int32.ofInt_toInt f.displacement]
    refine Decoded.signExtend_of_mod ?_ hlow hhigh
    rw [UInt32.toNat_toUInt8] at hd
    refine (congrArg Nat.cast hd).trans ?_
    omega

/-- Any four bytes are the word of the fields they hold. -/
theorem word_fieldsOf (b₀ b₁ b₂ b₃ : UInt8) :
    (Decoded.fieldsOf [b₀, b₁, b₂, b₃]).word = [b₀, b₁, b₂, b₃] := by
  let v := (b₂ &&& 0xF).toUInt32 <<< 8 ||| b₃.toUInt32
  have hv : v.toNat = 256 * (b₂ &&& 0xF).toNat + b₃.toNat := Decoded.toNat_join (low_nibble_lt b₂) b₃
  have hnibble : (b₂ &&& 0xF).toNat < 16 := UInt8.lt_iff_toNat_lt.mp (low_nibble_lt b₂)
  have hbyte := b₃.toNat_lt
  have hhigh : (v >>> 8).toUInt8 = b₂ &&& 0xF := by
    apply UInt8.toNat_inj.mp
    rw [Decoded.toNat_high (by omega)]
    omega
  have hlow : v.toUInt8 = b₃ := by
    apply UInt8.toNat_inj.mp
    rw [UInt32.toNat_toUInt8]
    omega
  have hbits : (Decoded.signExtend v).toUInt32 &&& 0xFFF = v := Decoded.bits_signExtend (by omega)
  show [b₀, (b₁ >>> 4 &&& 0xF) <<< 4 ||| (b₁ &&& 0xF &&& 0xF),
    (b₂ >>> 4 &&& 0xF) <<< 4 ||| (((Decoded.signExtend v).toUInt32 &&& 0xFFF) >>> 8).toUInt8,
    ((Decoded.signExtend v).toUInt32 &&& 0xFFF).toUInt8] = _
  rw [hbits, hhigh, hlow, nibble_and (low_nibble_lt b₁), byte_of_nibbles, byte_of_nibbles]

theorem take_word_fieldsOf : ∀ word : Bytes, word.length ≤ 4 →
    (Decoded.fieldsOf word).word.take word.length = word
  | [], _ => rfl
  | [b₀], _ => congrArg (List.take 1) (word_fieldsOf b₀ 0 0 0)
  | [b₀, b₁], _ => congrArg (List.take 2) (word_fieldsOf b₀ b₁ 0 0)
  | [b₀, b₁, b₂], _ => congrArg (List.take 3) (word_fieldsOf b₀ b₁ b₂ 0)
  | [b₀, b₁, b₂, b₃], _ => congrArg (List.take 4) (word_fieldsOf b₀ b₁ b₂ b₃)
  | _ :: _ :: _ :: _ :: _ :: _, h => by
    simp only [List.length_cons] at h
    omega

end Fields

end AsmKit
