import AsmKit.Proofs.Emission
import AsmKit.Proofs.InstructionWords
import Mathlib.Algebra.Ring.Nat

/-
  Decoding undoes encoding. What a statement is encoded to is the code of a `Faithful` instruction
  (`Instruction.operands_faithful`): one whose fields and literal are all there in its bytes. Decoding
  gives it back from the front of any code that has its length (`Faithful.read_code`).
-/

namespace AsmKit

namespace Decoded

/-- The bytes of an instruction. -/
def code (d : Decoded) : Bytes := d.instruction.encode d.fields d.literal

/-- The first byte belongs to the instruction, and its bytes hold its fields and its literal. -/
structure Faithful (d : Decoded) : Prop where
  mem : d.instruction ∈ Instruction.all
  opcode : d.fields.opcode = d.instruction.opcode ∨ d.fields.opcode = d.instruction.indirect
  fields : fieldsOf (d.fields.word.take d.instruction.wordLength) = d.fields
  literal : d.instruction.hasLiteral = false → d.literal = 0

end Decoded

/-! ## The fields of statements -/

namespace Fields

/-- The displacements that statements come with: a stack grows and shrinks by one register. -/
def displacements : List Int32 := [0, 1, -1]

/-- Registers have four bits, and the displacement is one of a statement. -/
structure Narrow (f : Fields) : Prop where
  a : f.a < 16 := by dsimp only; decide
  b : f.b < 16 := by dsimp only; decide
  c : f.c < 16 := by dsimp only; decide
  displacement : f.displacement ∈ displacements := by dsimp only; decide

theorem inRange_of_mem_displacements :
    ∀ displacement ∈ displacements, -2048 ≤ displacement ∧ displacement ≤ 2047 :=
  List.forall_mem_cons.mpr ⟨by decide, List.forall_mem_cons.mpr ⟨by decide,
    List.forall_mem_singleton.mpr (by decide)⟩⟩

theorem Narrow.inRange {f : Fields} (h : f.Narrow) : f.InRange where
  a := h.a
  b := h.b
  c := h.c
  low := (inRange_of_mem_displacements _ h.displacement).1
  high := (inRange_of_mem_displacements _ h.displacement).2

theorem Narrow.fieldsOf_word {f : Fields} (h : f.Narrow) : Decoded.fieldsOf f.word = f :=
  fieldsOf_cut h.inRange (n := 4) (by omega)

/-- Bytes that are cut off count as zero. -/
theorem fieldsOf_take {word : Bytes} {n : Nat} (h : ∀ b ∈ word.drop n, b = 0) :
    Decoded.fieldsOf (word.take n) = Decoded.fieldsOf word := by
  have hbyte (k : Nat) : (word.take n).getD k 0 = word.getD k 0 := by
    rw [List.getD_eq_getElem?_getD, List.getD_eq_getElem?_getD]
    by_cases hk : k < n
    · rw [List.getElem?_take_of_lt hk]
    · rw [List.getElem?_eq_none (by rw [List.length_take]; omega)]
      rcases hw : word[k]? with _ | b
      · rfl
      · have hmem : b ∈ word.drop n := by
          refine List.mem_of_getElem? (i := k - n) ?_
          rw [List.getElem?_drop, show n + (k - n) = k by omega, hw]
        exact (h b hmem).symm
  unfold Decoded.fieldsOf
  simp only [hbyte]

end Fields

/-! ## Decoding -/

namespace Instruction

theorem ofOpcode?_of_mem_all : ∀ i ∈ all, ofOpcode? i.opcode = some i ∧ ofOpcode? i.indirect = some i := by
  decide +kernel

theorem wordLength_pos : ∀ i ∈ all, i.wordLength ≠ 0 := by
  decide +kernel

theorem wordLength_le (i : Instruction) : i.wordLength ≤ 4 :=
  Nat.min_le_right _ _

theorem length_take_word (i : Instruction) (f : Fields) :
    (f.word.take i.wordLength).length = i.wordLength := by
  rw [List.length_take]
  exact Nat.min_eq_left i.wordLength_le

end Instruction

namespace Decoded

theorem literalOf_ofWord (w : UInt32) (rest : Bytes) : literalOf (Bytes.ofWord w ++ rest) = w :=
  Bytes.word_ofWord w

variable {d : Decoded}

theorem Faithful.length_code (h : d.Faithful) : d.code.length = d.instruction.size.toNat :=
  Instruction.length_encode h.mem

theorem Faithful.code_ne_nil (h : d.Faithful) : d.code ≠ [] := by
  intro hnil
  have hlength := h.length_code
  rw [hnil] at hlength
  have hword := Instruction.wordLength_pos _ h.mem
  have hle : d.instruction.wordLength ≤ d.instruction.size.toNat := Nat.min_le_left _ _
  simp at hlength
  omega

/-- Reading gives back an instruction that there is room for, whatever stands behind it. -/
theorem Faithful.read_code (h : d.Faithful) {length : UInt32} (hroom : d.instruction.size ≤ length)
    (rest : Bytes) : read length (d.code ++ rest) = .ok d := by
  obtain ⟨i, f, literal⟩ := d
  have hword : f.word = f.opcode :: f.word.tail := rfl
  have hopcode : Instruction.ofOpcode? f.opcode = some i := by
    obtain ⟨hdirect, hindirect⟩ := Instruction.ofOpcode?_of_mem_all i h.mem
    rcases h.opcode with e | e
    · exact e ▸ hdirect
    · exact e ▸ hindirect
  obtain ⟨n, hn⟩ := Nat.exists_eq_succ_of_ne_zero (Instruction.wordLength_pos i h.mem)
  have hcode : code ⟨i, f, literal⟩ ++ rest =
      f.opcode :: (f.word.tail.take n ++ ((if i.hasLiteral then Bytes.ofWord literal else []) ++ rest)) := by
    show (f.word.take i.wordLength ++ _) ++ rest = _
    rw [hn, hword, List.take_succ_cons, List.append_assoc]
    rfl
  have hfields : (code ⟨i, f, literal⟩ ++ rest).take i.wordLength = f.word.take i.wordLength := by
    show ((f.word.take i.wordLength ++ _) ++ rest).take _ = _
    rw [List.append_assoc]
    exact List.take_left' (i.length_take_word f)
  have hliteral : (if i.hasLiteral then
      literalOf ((code ⟨i, f, literal⟩ ++ rest).drop Instruction.wordSize) else 0) = literal := by
    split
    · next hl =>
      have hfour : (f.word.take i.wordLength).length = Instruction.wordSize := by
        rw [(Instruction.shape_of_mem_all i h.mem).2.2 hl]
        rfl
      show literalOf (((f.word.take i.wordLength ++ if i.hasLiteral then _ else _) ++ rest).drop _) = _
      rw [if_pos hl, List.append_assoc, List.drop_left' hfour, literalOf_ofWord]
    · next hl => exact (h.literal (Bool.eq_false_iff.mpr hl)).symm
  unfold read
  split
  · next hnil =>
    rw [hcode] at hnil
    cases hnil
  · next byte tail hcons =>
    have hbyte : byte = f.opcode := by
      rw [hcode] at hcons
      exact (List.cons.inj hcons).1.symm
    rw [hbyte, hopcode]
    dsimp only
    rw [if_neg (UInt32.not_lt.mpr hroom), hfields, h.fields, hliteral]

theorem Faithful.ofBytes_append (h : d.Faithful) {rest : Bytes}
    (hroom : d.instruction.size.toNat ≤ (d.code ++ rest).length % 2 ^ 32) :
    ofBytes (d.code ++ rest) = .ok d := by
  refine h.read_code (UInt32.le_iff_toNat_le.mpr ?_) rest
  rwa [UInt32.toNat_ofNat']

theorem Faithful.ofBytes_code (h : d.Faithful) : ofBytes d.code = .ok d := by
  have hsize := d.instruction.size.toNat_lt
  rw [← List.append_nil d.code]
  refine h.ofBytes_append ?_
  rw [List.append_nil, h.length_code]
  omega

end Decoded

/-! ## Statements -/

theorem Register.address_lt : ∀ r ∈ Register.all, r.address < 16 := by
  decide +kernel

theorem Token.register_lt {t : Token} {r : UInt8} (h : t.register = .ok r) : r < 16 := by
  unfold register at h
  dsimp only at h
  split at h
  · next reg hreg =>
    cases h
    exact Register.address_lt reg (List.mem_of_find?_eq_some hreg)
  · cases h

namespace Operand

variable {symbols : SymbolTable} {t : Token} {o : Operand}

theorem register_of_jump (h : jump symbols t = .ok o) : o.register = 0 := by
  unfold jump at h
  split at h
  case h_7 => cases h
  all_goals
    obtain ⟨_, -, h⟩ := except_bind_eq_ok.mp h
    cases h
    rfl

theorem register_lt_of_bracket (h : bracket symbols t = .ok o) : o.register < 16 := by
  unfold bracket at h
  split at h
  · cases h
  · obtain ⟨r, hr, h⟩ := except_bind_eq_ok.mp h
    have hlt := Token.register_lt hr
    split at h
    · cases h
      exact hlt
    · split at h
      · obtain ⟨s, -, h⟩ := except_bind_eq_ok.mp h
        split at h
        · cases h
        · cases h
          exact hlt
      · obtain ⟨v, -, h⟩ := except_bind_eq_ok.mp h
        cases h
        exact hlt

theorem register_lt_of_data (h : data symbols t = .ok o) : o.register < 16 := by
  unfold data at h
  split at h
  case h_1 => exact register_lt_of_bracket h
  case h_6 | h_7 =>
    obtain ⟨r, hr, h⟩ := except_bind_eq_ok.mp h
    cases h
    exact Token.register_lt hr
  case h_10 => cases h
  all_goals
    obtain ⟨_, -, h⟩ := except_bind_eq_ok.mp h
    cases h
    exact (by decide : (0 : UInt8) < 16)

theorem opcode_or (o : Operand) (i : Instruction) : o.opcode i = i.opcode ∨ o.opcode i = i.indirect := by
  unfold opcode
  split
  · exact .inl rfl
  · exact .inr rfl

end Operand

/-- How many bytes of the instruction word instructions of a shape have. -/
def Shape.wordLength : Shape → Nat
  | .none => 1
  | .oneRegister | .controlRead | .controlWrite => 2
  | .twoRegisters => 3
  | .jump | .branch | .stack | .load | .store => 4

namespace Instruction

variable {symbols : SymbolTable} {i : Instruction} {arguments : List Token} {f : Fields}
  {operand? : Option Operand}

theorem wordLength_of_shape : ∀ i ∈ all, i.wordLength = i.shape.wordLength ∧
    i.hasLiteral = i.shape.hasOperand := by
  decide +kernel

/-- The fields that a statement fills are in the bytes that its instruction has. -/
theorem operands_narrow (h : operands symbols i arguments = .ok (f, operand?)) :
    f.Narrow ∧ (f.opcode = i.opcode ∨ f.opcode = i.indirect) ∧
      (∀ b ∈ f.word.drop i.shape.wordLength, b = 0) ∧
      (i.shape.hasOperand = false → operand? = none) := by
  have hzero : (0 : Int32).toUInt32 = 0 := rfl
  cases fills_of_operands h with
  | none hs =>
    rw [hs]
    exact ⟨{}, .inl rfl, by simp [Fields.word, Shape.wordLength, hzero], fun _ => rfl⟩
  | @jump target o hs ho =>
    rw [hs]
    refine ⟨{ a := ?_ }, o.opcode_or i, by simp [Fields.word, Shape.wordLength, hzero], nofun⟩
    dsimp only
    rw [Operand.register_of_jump ho]
    decide
  | @branch left c₁ right c₂ target b c o hs hb hc ho =>
    rw [hs]
    refine ⟨{ a := ?_, b := Token.register_lt hb, c := Token.register_lt hc }, o.opcode_or i,
      by simp [Fields.word, Shape.wordLength, hzero], nofun⟩
    dsimp only
    rw [Operand.register_of_jump ho]
    decide
  | push hs hm hr =>
    rw [hs]
    exact ⟨{ c := Token.register_lt hr }, .inl rfl, by simp [Fields.word, Shape.wordLength],
      fun _ => rfl⟩
  | pop hs hm hr =>
    rw [hs]
    exact ⟨{ a := Token.register_lt hr }, .inl rfl, by simp [Fields.word, Shape.wordLength],
      fun _ => rfl⟩
  | exchange hs hm hsource hdestination =>
    rw [hs]
    exact ⟨{ b := Token.register_lt hsource, c := Token.register_lt hdestination }, .inl rfl,
      by simp [Fields.word, Shape.wordLength, hzero], fun _ => rfl⟩
  | twoRegisters hs hm hsource hdestination =>
    have hd := Token.register_lt hdestination
    rw [hs]
    exact ⟨{ a := hd, b := hd, c := Token.register_lt hsource }, .inl rfl,
      by simp [Fields.word, Shape.wordLength, hzero], fun _ => rfl⟩
  | oneRegister hs hr =>
    have hlt := Token.register_lt hr
    rw [hs]
    exact ⟨{ a := hlt, b := hlt }, .inl rfl, by simp [Fields.word, Shape.wordLength, hzero],
      fun _ => rfl⟩
  | @load source c destination a o hs ha ho =>
    rw [hs]
    exact ⟨{ a := Token.register_lt ha, b := Operand.register_lt_of_data ho }, o.opcode_or i,
      by simp [Fields.word, Shape.wordLength, hzero], nofun⟩
  | @store source c destination r o hs hr ho =>
    rw [hs]
    exact ⟨{ a := Operand.register_lt_of_data ho, c := Token.register_lt hr }, o.opcode_or i,
      by simp [Fields.word, Shape.wordLength, hzero], nofun⟩
  | control hs hb ha =>
    rcases hs with hs | hs
    all_goals
      rw [hs]
      exact ⟨{ a := Token.register_lt ha, b := Token.register_lt hb }, .inl rfl,
        by simp [Fields.word, Shape.wordLength, hzero], fun _ => rfl⟩

theorem operands_faithful (hi : i ∈ all) (h : operands symbols i arguments = .ok (f, operand?)) :
    Decoded.Faithful ⟨i, f, (operand?.map Operand.value).getD 0⟩ := by
  obtain ⟨hnarrow, hopcode, hcut, hnone⟩ := operands_narrow h
  obtain ⟨hlength, hliteral⟩ := wordLength_of_shape i hi
  refine ⟨hi, hopcode, ?_, fun hl => ?_⟩
  · dsimp only
    rw [hlength, Fields.fieldsOf_take hcut, hnarrow.fieldsOf_word]
  · rw [hnone (hliteral ▸ hl)]
    rfl

/-- A statement that is accepted is encoded to the code of an instruction that decoding gives back. -/
theorem exists_decoded (hi : i ∈ all) (h : (i.emission symbols arguments).complaint? = none) :
    ∃ d : Decoded, d.Faithful ∧ d.instruction = i ∧ (i.emission symbols arguments).bytes = d.code := by
  obtain ⟨f, operand?, hcheck, hops⟩ := operands_of_emission h
  refine ⟨_, operands_faithful hi hops, rfl, ?_⟩
  rw [emission_of_operands hcheck hops]
  rfl

end Instruction

end AsmKit
