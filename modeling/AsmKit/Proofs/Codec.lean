import AsmKit.Proofs.Decoding
import Mathlib.Algebra.Ring.Nat

/-
  Instructions and their bytes, both ways. What decoding accepts is `Decoded.Faithful`, and its code
  is the front of the bytes it was read from (`Decoded.ReadFrom.code_eq`); so an instruction has one
  encoding, and of the bytes behind it only their number matters, once that wraps. What encoding is
  given comes back up to what the instruction has no room for (`Decoded.ofBytes_encode`).
-/

namespace AsmKit

namespace Instruction

theorem opcode_of_ofOpcode? {byte : UInt8} {i : Instruction} (h : ofOpcode? byte = some i) :
    i ∈ all ∧ (byte = i.opcode ∨ byte = i.indirect) := by
  refine ⟨List.mem_of_find?_eq_some h, ?_⟩
  have hbyte := List.find?_some h
  rcases Bool.or_eq_true_iff.mp hbyte with e | e
  · exact .inl (beq_iff_eq.mp e).symm
  · exact .inr (beq_iff_eq.mp e).symm

theorem hasLiteral_iff : ∀ i ∈ all, i.hasLiteral = true ↔ i.size = 8 := by
  decide +kernel

end Instruction

namespace Decoded

variable {code : Bytes} {d : Decoded} {i : Instruction} {f : Fields}

theorem ofWord_literalOf : ∀ bytes : Bytes, 4 ≤ bytes.length →
    Bytes.ofWord (literalOf bytes) = bytes.take 4
  | b₃ :: b₂ :: b₁ :: b₀ :: _, _ => Bytes.ofWord_word b₃ b₂ b₁ b₀

/-- What decoding looks at. -/
structure ReadFrom (code : Bytes) (d : Decoded) : Prop where
  opcode : ∃ byte tail, code = byte :: tail ∧ Instruction.ofOpcode? byte = some d.instruction
  room : d.instruction.size.toNat ≤ code.length % 2 ^ 32
  fields : d.fields = fieldsOf (code.take d.instruction.wordLength)
  literal : d.literal =
    if d.instruction.hasLiteral then literalOf (code.drop Instruction.wordSize) else 0

theorem readFrom_of_ofBytes (h : ofBytes code = .ok d) : ReadFrom code d := by
  unfold ofBytes read at h
  split at h
  · cases h
  · next byte tail =>
    split at h
    · cases h
    · next i hi =>
      split at h
      · cases h
      · next hroom =>
        cases h
        refine ⟨⟨byte, tail, rfl, hi⟩, ?_, rfl, rfl⟩
        rw [UInt32.not_lt, UInt32.le_iff_toNat_le, UInt32.toNat_ofNat'] at hroom
        exact hroom

theorem ReadFrom.length (h : ReadFrom code d) : d.instruction.size.toNat ≤ code.length :=
  h.room.trans (Nat.mod_le ..)

/-- The bytes of the word are the word of the fields read from them. -/
theorem ReadFrom.word (h : ReadFrom code d) :
    d.fields.word.take d.instruction.wordLength = code.take d.instruction.wordLength := by
  have hlength : (code.take d.instruction.wordLength).length = d.instruction.wordLength := by
    have hle : d.instruction.wordLength ≤ d.instruction.size.toNat := Nat.min_le_left _ _
    rw [List.length_take]
    exact Nat.min_eq_left (hle.trans h.length)
  have hword := Fields.take_word_fieldsOf (code.take d.instruction.wordLength)
    (hlength.trans_le d.instruction.wordLength_le)
  rwa [hlength, ← h.fields] at hword

theorem ReadFrom.faithful (h : ReadFrom code d) : d.Faithful := by
  obtain ⟨byte, tail, rfl, hbyte⟩ := h.opcode
  obtain ⟨hmem, hopcode⟩ := Instruction.opcode_of_ofOpcode? hbyte
  have hfirst : d.fields.opcode = byte := by
    obtain ⟨n, hn⟩ := Nat.exists_eq_succ_of_ne_zero (Instruction.wordLength_pos _ hmem)
    rw [h.fields, hn]
    rfl
  refine ⟨hmem, hfirst ▸ hopcode, ?_, fun hl => ?_⟩
  · rw [h.word, ← h.fields]
  · rw [h.literal, if_neg (Bool.eq_false_iff.mp hl)]

/-- Encoding what was read gives the bytes it was read from. -/
theorem ReadFrom.code_eq (h : ReadFrom code d) : d.code = code.take d.instruction.size.toNat := by
  have hmem := h.faithful.mem
  obtain ⟨-, hsize, hfour⟩ := Instruction.shape_of_mem_all _ hmem
  show d.fields.word.take _ ++ (if d.instruction.hasLiteral then _ else _) = _
  rw [h.word]
  by_cases hl : d.instruction.hasLiteral
  · rw [if_pos hl] at hsize ⊢
    have hbehind : 4 ≤ (code.drop Instruction.wordSize).length := by
      have hlength := h.length
      rw [← hsize, hfour hl] at hlength
      rw [List.length_drop, Instruction.wordSize]
      omega
    rw [h.literal, if_pos hl, ofWord_literalOf _ hbehind, ← hsize, List.take_add, hfour hl]
    rfl
  · rw [if_neg hl] at hsize ⊢
    rw [List.append_nil, ← hsize, Nat.add_zero]

/-- What an instruction has no room for is lost, and the rest comes back. -/
theorem ofBytes_encode (hi : i ∈ Instruction.all) (ho : f.opcode = i.opcode ∨ f.opcode = i.indirect)
    (hf : f.InRange) (literal : UInt32) :
    ofBytes (i.encode f literal) = .ok ⟨i, f.cut i.wordLength, if i.hasLiteral then literal else 0⟩ := by
  have hpos : 1 ≤ i.wordLength := Nat.one_le_iff_ne_zero.mpr (Instruction.wordLength_pos i hi)
  have hcut := Fields.fieldsOf_cut hf hpos
  -- the fields that are left have the same bytes
  have hword : (f.cut i.wordLength).word.take i.wordLength = f.word.take i.wordLength := by
    have htake := Fields.take_word_fieldsOf (f.word.take i.wordLength)
      ((i.length_take_word f).trans_le i.wordLength_le)
    rwa [i.length_take_word f, hcut] at htake
  have hfaithful : Faithful ⟨i, f.cut i.wordLength, if i.hasLiteral then literal else 0⟩ := by
    refine ⟨hi, ho, ?_, fun hl => if_neg (Bool.eq_false_iff.mp hl)⟩
    dsimp only
    rw [hword, hcut]
  have hcode : Decoded.code ⟨i, f.cut i.wordLength, if i.hasLiteral then literal else 0⟩ =
      i.encode f literal := by
    unfold Decoded.code Instruction.encode
    dsimp only
    rw [hword]
    by_cases hl : i.hasLiteral
    · rw [if_pos hl, if_pos hl, if_pos hl]
    · rw [if_neg hl, if_neg hl]
  rw [← hcode]
  exact hfaithful.ofBytes_code

end Decoded

/-- What is decoded is encoded to the bytes it came from. With more bytes behind them it is decoded
again as long as their number, in 32 bits, leaves room for it, and only then. What is encoded is
decoded to itself, less the fields and the literal that the instruction has no room for. -/
theorem codec_is_exact (code : Bytes) :
    (∀ d : Decoded, Decoded.ofBytes code = .ok d →
      d.instruction.size.toNat ≤ code.length ∧
      d.instruction.encode d.fields d.literal = code.take d.instruction.size.toNat ∧
      ∀ more : Bytes, Decoded.ofBytes (code ++ more) = .ok d ↔
        d.instruction.size.toNat ≤ (code ++ more).length % 2 ^ 32) ∧
    ∀ i ∈ Instruction.all, ∀ f : Fields, f.opcode = i.opcode ∨ f.opcode = i.indirect → f.InRange →
      ∀ literal : UInt32, Decoded.ofBytes (i.encode f literal) =
        .ok ⟨i, f.cut i.size.toNat, if i.size = 8 then literal else 0⟩ := by
  refine ⟨fun d h => ?_, fun i hi f ho hf literal => ?_⟩
  · have hread := Decoded.readFrom_of_ofBytes h
    refine ⟨hread.length, hread.code_eq, fun more => ⟨fun hmore => ?_, fun hroom => ?_⟩⟩
    · exact (Decoded.readFrom_of_ofBytes hmore).room
    · have hcode : code ++ more = d.code ++ (code.drop d.instruction.size.toNat ++ more) := by
        rw [hread.code_eq, ← List.append_assoc, List.take_append_drop]
      rw [hcode] at hroom ⊢
      exact hread.faithful.ofBytes_append hroom
  · rw [Decoded.ofBytes_encode hi ho hf literal, Instruction.wordLength, Instruction.wordSize,
      Fields.cut_min]
    simp only [Instruction.hasLiteral_iff i hi]

namespace Instruction

def load : Instruction := ⟨text "ld", .ld, .load, 0x91, 0x92, 8⟩

def add : Instruction := ⟨text "add", .add, .twoRegisters, 0x50, 0x50, 3⟩

end Instruction

/-- A whole word with its literal is read in front of anything up to 2³² bytes; three bytes of a
displacement of -300 leave -512 of it. -/
theorem codec_is_exact_negative :
    (∀ more : Bytes, more.length < 2 ^ 32 - 9 →
      Decoded.ofBytes ([0x92, 0x12, 0x3F, 0xFF, 0xDE, 0xAD, 0xBE, 0xEF, 0x77] ++ more) =
        .ok ⟨.load, ⟨0x92, 1, 2, 3, -1⟩, 0xDEADBEEF⟩) ∧
    Instruction.load.encode ⟨0x92, 1, 2, 3, -1⟩ 0xDEADBEEF =
      [0x92, 0x12, 0x3F, 0xFF, 0xDE, 0xAD, 0xBE, 0xEF] ∧
    Decoded.ofBytes (Instruction.add.encode ⟨0x50, 1, 15, 2, -300⟩ 7) =
      .ok ⟨.add, ⟨0x50, 1, 15, 2, -512⟩, 0⟩ := by
  obtain ⟨hread, hwritten⟩ :=
    codec_is_exact [0x92, 0x12, 0x3F, 0xFF, 0xDE, 0xAD, 0xBE, 0xEF, 0x77]
  have hload : Decoded.ofBytes [0x92, 0x12, 0x3F, 0xFF, 0xDE, 0xAD, 0xBE, 0xEF, 0x77] =
      .ok ⟨.load, ⟨0x92, 1, 2, 3, -1⟩, 0xDEADBEEF⟩ := eq_ok_of_toOption (by decide +kernel)
  obtain ⟨-, hcode, hmore⟩ := hread _ hload
  have hadd := hwritten Instruction.add (by decide +kernel) ⟨0x50, 1, 15, 2, -300⟩ (.inl rfl)
    ⟨by decide, by decide, by decide, by decide, by decide⟩ 7
  have hcut : Fields.cut 3 ⟨0x50, 1, 15, 2, -300⟩ = ⟨0x50, 1, 15, 2, -512⟩ := by decide
  refine ⟨fun more hshort => (hmore more).mpr ?_, hcode, hcut ▸ hadd⟩
  have hsize : Instruction.load.size.toNat = 8 := rfl
  rw [List.length_append, hsize]
  simp only [List.length_cons, List.length_nil]
  omega

/-- An instruction with 2³² - 1 bytes behind it is taken to be cut off. -/
theorem oversized_code_is_cut_off : ∃ (d : Decoded) (more : Bytes),
    Decoded.ofBytes [0] = .ok d ∧
    Decoded.ofBytes ([0] ++ more) = .error (.about .truncated (text "halt")) := by
  have hhalt : (Decoded.ofBytes [0]).toOption.isSome = true := by decide +kernel
  obtain ⟨d, hd⟩ := Option.isSome_iff_exists.mp hhalt
  obtain ⟨more, hmore⟩ := Bytes.exists_length (2 ^ 32 - 1)
  refine ⟨d, more, eq_ok_of_toOption hd, ?_⟩
  have hnone : UInt32.ofNat (0 :: more).length = 0 := by
    rw [List.length_cons, hmore]
    rfl
  have hcut : Decoded.read 0 (0 :: more) = .error (.about .truncated (text "halt")) := rfl
  rw [List.singleton_append, Decoded.ofBytes, hnone, hcut]

end AsmKit
