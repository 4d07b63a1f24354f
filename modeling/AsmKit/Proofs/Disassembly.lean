import AsmKit.Listing.Dump
import AsmKit.Proofs.Decoding
import AsmKit.Proofs.Literals
import Mathlib.Data.List.Forall2

/-
  Disassembly of instructions that stand one behind the other: it gives a row for each of them, where
  it stands (`rows_code`). If relocations reach only into the literals of rows that name them, then
  whatever they put there the rows stay the same but for these literals (`relinked_rows`).
-/

namespace AsmKit

/-! ## Statements of listings -/

namespace Instruction

theorem name_of_shape : ∀ i ∈ all,
    (i.shape = .stack → i.name = if i.mnemonic = .push then text "push" else text "pop") ∧
    (i.shape = .twoRegisters → i.mnemonic = .xchg → i.name = text "xchg") ∧
    (i.shape = .load → i.name = text "ld") ∧ (i.shape = .store → i.name = text "st") ∧
    (i.shape = .controlRead → i.name = text "csrrd") ∧
    (i.shape = .controlWrite → i.name = text "csrwr") := by
  decide +kernel

end Instruction

namespace Decoded

/-- The operands that a listing shows. -/
def operands (d : Decoded) : List Bytes :=
  let f := d.fields
  match d.instruction.shape with
  | .none => []
  | .jump => [d.target]
  | .branch => [general f.b, general f.c, d.target]
  | .stack => if d.instruction.mnemonic = .push then [general f.c] else [general f.a]
  | .twoRegisters =>
    if d.instruction.mnemonic = .xchg then [general f.b, general f.c] else [general f.c, general f.a]
  | .oneRegister => [general f.a]
  | .load => [d.place f.b, general f.a]
  | .store => [general f.c, d.place f.a]
  | .controlRead => [control f.b, general f.a]
  | .controlWrite => [general f.b, control f.a]

/-- A name and then the operands, if there are any. -/
def lineOf (name : Bytes) (operands : List Bytes) : Bytes :=
  if operands = [] then name else withOperands name operands

theorem statement_eq {d : Decoded} (h : d.instruction ∈ Instruction.all) :
    d.statement = lineOf d.instruction.name d.operands := by
  obtain ⟨hstack, htwo, hload, hstore, hread, hwrite⟩ := Instruction.name_of_shape _ h
  unfold statement operands lineOf
  rcases hshape : d.instruction.shape
  case none | jump | branch | oneRegister => rfl
  case stack =>
    have hname := hstack hshape
    dsimp only
    split
    · next hpush => rw [hname, if_pos hpush]; rfl
    · next hpush => rw [hname, if_neg hpush]; rfl
  case twoRegisters =>
    dsimp only
    split
    · next hxchg => rw [htwo hshape hxchg]; rfl
    · rfl
  case load => rw [hload hshape]; rfl
  case store => rw [hstore hshape]; rfl
  case controlRead => rw [hread hshape]; rfl
  case controlWrite => rw [hwrite hshape]; rfl

/-- The bytes of a listing's operands can be seen, spaces apart. -/
def IsVisible (s : Bytes) : Prop := ∀ b ∈ s, 0x20 ≤ b

instance (s : Bytes) : Decidable (IsVisible s) := List.decidableBAll _ s

theorem IsVisible.append {s t : Bytes} (hs : IsVisible s) (ht : IsVisible t) : IsVisible (s ++ t) :=
  fun b hb => (List.mem_append.mp hb).elim (hs b) (ht b)

theorem visible_of_isHexDigit : ∀ b : UInt8, Ascii.isHexDigit b = true → 0x20 ≤ b := by
  apply forall_byte
  decide +kernel

theorem isVisible_decimal (n : Nat) : IsVisible (Bytes.decimal n) := by
  intro b hb
  refine visible_of_isHexDigit b ?_
  unfold Ascii.isHexDigit
  rw [Bytes.isDigit_of_mem_decimal hb]
  rfl

theorem isVisible_prefixedHex (n : Nat) : IsVisible (Bytes.prefixedHex n) := by
  refine IsVisible.append ?_ fun b hb => visible_of_isHexDigit b (Bytes.isHexDigit_of_mem_hex hb)
  decide

theorem isVisible_spelling (kind : RegisterKind) (address : UInt8) :
    IsVisible (Register.spelling kind address) := by
  have hfixed : ∀ s ∈ [text "%sp", text "%pc", text "%status", text "%handler", text "%cause",
      text "%r", text "%csr"], IsVisible s := by
    decide
  unfold Register.spelling
  split
  · split
    · exact hfixed _ (by decide)
    · split
      · exact hfixed _ (by decide)
      · exact IsVisible.append (hfixed _ (by decide)) (isVisible_decimal _)
  · split
    · exact hfixed _ (by decide)
    · split
      · exact hfixed _ (by decide)
      · split
        · exact hfixed _ (by decide)
        · exact IsVisible.append (hfixed _ (by decide)) (isVisible_decimal _)

theorem isVisible_brackets {s : Bytes} (h : IsVisible s) (indirect : Bool) :
    IsVisible (if indirect then text "[" ++ s ++ text "]" else s) := by
  have hbrackets : IsVisible (text "[") ∧ IsVisible (text "]") := by
    decide
  split
  · exact (hbrackets.1.append h).append hbrackets.2
  · exact h

theorem isVisible_target (d : Decoded) : IsVisible d.target :=
  isVisible_brackets (isVisible_prefixedHex _) _

theorem isVisible_place (d : Decoded) (register : UInt8) : IsVisible (d.place register) := by
  refine isVisible_brackets (.append (.append (isVisible_spelling _ _) ?_) (isVisible_prefixedHex _)) _
  decide

theorem isVisible_operands (d : Decoded) : ∀ s ∈ d.operands, IsVisible s := by
  have hregister (kind : RegisterKind) (address : UInt8) := isVisible_spelling kind address
  have hplace := isVisible_place d
  have htarget := isVisible_target d
  unfold operands general control
  rcases d.instruction.shape
  case none => nofun
  case stack => dsimp only; split <;> simp [hregister]
  case twoRegisters => dsimp only; split <;> simp [hregister]
  all_goals simp [hregister, hplace, htarget]

/-- Behind its name a statement has nothing, or a space and what can be seen. -/
theorem exists_operands {d : Decoded} (h : d.instruction ∈ Instruction.all) :
    ∃ operands, d.statement = d.instruction.name ++ operands ∧
      (operands = [] ∨ ∃ rest, operands = Ascii.space :: rest) ∧ IsVisible operands := by
  rw [statement_eq h]
  unfold lineOf
  split
  · exact ⟨[], (List.append_nil _).symm, .inl rfl, nofun⟩
  · have hspaces : IsVisible (text " ") ∧ IsVisible (text ", ") := by
      decide
    refine ⟨text " " ++ Bytes.joinWith (text ", ") d.operands, List.append_assoc .., .inr ⟨_, rfl⟩, ?_⟩
    refine hspaces.1.append fun b hb => ?_
    rcases Bytes.mem_joinWith hb with hb | ⟨s, hs, hb⟩
    · exact hspaces.2 b hb
    · exact isVisible_operands d s hs b hb

/-! ## Literals -/

/-- The instruction with another literal. -/
def withLiteral (d : Decoded) (literal : UInt32) : Decoded := { d with literal }

theorem Faithful.withLiteral {d : Decoded} (h : d.Faithful) (hl : d.instruction.hasLiteral = true)
    (literal : UInt32) : (d.withLiteral literal).Faithful where
  mem := h.mem
  opcode := h.opcode
  fields := h.fields
  literal hnone := absurd (hl.symm.trans hnone) nofun

theorem Faithful.code_withLiteral {d : Decoded} (h : d.Faithful)
    (hl : d.instruction.hasLiteral = true) (literal : UInt32) :
    (d.withLiteral literal).code = d.code.take Instruction.wordSize ++ Bytes.ofWord literal := by
  have hword : d.instruction.wordLength = Instruction.wordSize :=
    (Instruction.shape_of_mem_all _ h.mem).2.2 hl
  unfold code Instruction.encode
  rw [if_pos hl]
  show List.take _ _ ++ (if d.instruction.hasLiteral then _ else _) = _
  rw [if_pos hl, List.take_left' (by rw [hword]; rfl)]
  rfl

end Decoded

namespace Disassembly

variable {relocations : List Relocation} {offset : Nat} {d : Decoded} {ds : List Decoded}

/-! ## Rows of instructions -/

/-- The row of an instruction. -/
def Row.ofInstruction (relocations : List Relocation) (offset : Nat) (d : Decoded) : Row where
  offset := UInt32.ofNat offset
  bytes := d.code
  instruction? := some d
  relocation? := relocationOf relocations (UInt32.ofNat offset) d.instruction

/-- The rows of instructions that stand one behind the other. -/
def rowsFrom (relocations : List Relocation) (offset : Nat) : List Decoded → List Row
  | [] => []
  | d :: ds => Row.ofInstruction relocations offset d ::
      rowsFrom relocations (offset + d.code.length) ds

/-- What is left of code that ends at the limit. -/
theorem limit_sub {limit : UInt32} {offset n : Nat} (h : offset + n = limit.toNat) :
    limit - UInt32.ofNat offset = UInt32.ofNat n := by
  rw [← UInt32.ofNat_toNat (x := limit), ← h, UInt32.ofNat_add, UInt32.add_comm, UInt32.add_sub_cancel]

theorem rowAt_code (relocations : List Relocation) {limit : UInt32} {offset : Nat} (h : d.Faithful)
    {rest : Bytes} (hend : offset + (d.code ++ rest).length = limit.toNat) :
    rowAt relocations limit (UInt32.ofNat offset) (d.code ++ rest) =
      Row.ofInstruction relocations offset d := by
  have hroom : d.instruction.size ≤ limit - UInt32.ofNat offset := by
    have hlimit := limit.toNat_lt
    have hsize := h.length_code
    rw [limit_sub hend, UInt32.le_iff_toNat_le, UInt32.toNat_ofNat', List.length_append]
    rw [List.length_append] at hend
    omega
  unfold rowAt
  rw [h.read_code hroom]
  dsimp only
  rw [List.take_left' h.length_code]
  rfl

theorem scan_skip (relocations : List Relocation) (limit : UInt32) (found : List Row) (offset : Nat)
    (front rest : Bytes) :
    scan relocations limit found (UInt32.ofNat offset) front.length (front ++ rest) =
      scan relocations limit found (UInt32.ofNat (offset + front.length)) 0 rest := by
  induction front generalizing offset with
  | nil => rfl
  | cons b front ih =>
    show scan relocations limit found (UInt32.ofNat offset + 1) front.length (front ++ rest) = _
    have hnext : UInt32.ofNat offset + 1 = UInt32.ofNat (offset + 1) := (UInt32.ofNat_add ..).symm
    rw [hnext, ih, List.length_cons, Nat.add_assoc, Nat.add_comm 1]

/-- A scan that is about to start a row goes on behind the bytes of that row. -/
theorem scan_row {limit : UInt32} {found : List Row} {front rest : Bytes} {row : Row}
    (hne : front ≠ []) (hend : offset + (front ++ rest).length = limit.toNat)
    (hrow : rowAt relocations limit (UInt32.ofNat offset) (front ++ rest) = row)
    (hbytes : row.bytes = front) :
    scan relocations limit found (UInt32.ofNat offset) 0 (front ++ rest) =
      scan relocations limit (row :: found) (UInt32.ofNat (offset + front.length)) 0 rest := by
  obtain ⟨b, tail, rfl⟩ := List.exists_cons_of_ne_nil hne
  have hskip := scan_skip relocations limit (row :: found) (offset + 1) tail rest
  have hnext : UInt32.ofNat offset + 1 = UInt32.ofNat (offset + 1) := (UInt32.ofNat_add ..).symm
  have hbefore : UInt32.ofNat offset < limit := by
    have hlimit := limit.toNat_lt
    rw [List.cons_append, List.length_cons] at hend
    rw [UInt32.lt_iff_toNat_lt, UInt32.toNat_ofNat']
    omega
  rw [List.cons_append, scan, if_pos hbefore, ← List.cons_append]
  dsimp only
  rw [hrow, hbytes, hnext, List.length_cons, Nat.add_sub_cancel, hskip, Nat.add_assoc,
    Nat.add_comm 1]

/-- A scan of instructions stays in step with them. -/
theorem scan_code {limit : UInt32} (h : ∀ d ∈ ds, d.Faithful) (found : List Row) (offset : Nat)
    (hend : offset + (ds.flatMap Decoded.code).length = limit.toNat) :
    scan relocations limit found (UInt32.ofNat offset) 0 (ds.flatMap Decoded.code) =
      found.reverse ++ rowsFrom relocations offset ds := by
  induction ds generalizing found offset with
  | nil =>
    unfold scan
    exact (List.append_nil _).symm
  | cons d ds ih =>
    obtain ⟨hd, hds⟩ := List.forall_mem_cons.mp h
    rw [List.flatMap_cons] at hend ⊢
    have hbehind : offset + d.code.length + (ds.flatMap Decoded.code).length = limit.toNat := by
      rw [← hend, List.length_append, Nat.add_assoc]
    rw [scan_row hd.code_ne_nil hend (rowAt_code relocations hd hend) rfl, ih hds _ _ hbehind,
      List.reverse_cons, List.append_assoc]
    rfl

theorem rows_code (h : ∀ d ∈ ds, d.Faithful) (hshort : (ds.flatMap Decoded.code).length < 2 ^ 32) :
    rows relocations (ds.flatMap Decoded.code) = rowsFrom relocations 0 ds := by
  refine scan_code h [] 0 ?_
  rw [UInt32.toNat_ofNat_of_lt' hshort, Nat.zero_add]

/-! ## Other literals -/

namespace Row

/-- The relocation has a byte in common with the row. -/
def IsReachedBy (row : Row) (r : Relocation) : Prop :=
  r.location.toNat < row.offset.toNat + row.bytes.length ∧ row.offset.toNat < r.location.toNat + 4

/-- Only the relocation that the row names reaches into it, and where its literal would be. -/
def Marked (relocations : List Relocation) (row : Row) : Prop :=
  ∀ r ∈ relocations, row.IsReachedBy r →
    row.relocation? = some r ∧ r.location.toNat = row.offset.toNat + Instruction.wordSize

/-- The row with another literal. -/
def withLiteral (row : Row) (literal : UInt32) : Row :=
  { row with
    bytes := row.bytes.take Instruction.wordSize ++ Bytes.ofWord literal
    instruction? := row.instruction?.map fun d => d.withLiteral literal }

/-- What linking may make of a row. One that names a relocation may have another literal. -/
def Relinked (row row' : Row) : Prop :=
  row' = row ∨ row.relocation?.isSome = true ∧ ∃ literal, row' = row.withLiteral literal

end Row

/-- The byte belongs to a relocation. -/
def Covered (relocations : List Relocation) (i : Nat) : Prop :=
  ∃ r ∈ relocations, r.location.toNat ≤ i ∧ i < r.location.toNat + 4

theorem exists_ofWord {s : Bytes} (h : s.length = 4) : ∃ w, s = Bytes.ofWord w := by
  match s, h with
  | [b₃, b₂, b₁, b₀], _ => exact ⟨Bytes.word b₃ b₂ b₁ b₀, (Bytes.ofWord_word b₃ b₂ b₁ b₀).symm⟩

/-- Bytes that differ from a row's only where relocations are decode to its instruction, with another
literal if it names one of them. -/
theorem relinked_row (h : d.Faithful) (hshort : offset < 2 ^ 32)
    (hmarked : (Row.ofInstruction relocations offset d).Marked relocations) {bytes : Bytes}
    (hlength : bytes.length = d.code.length)
    (hsame : ∀ i, ¬ Covered relocations (offset + i) → bytes[i]? = d.code[i]?) :
    ∃ d', d'.Faithful ∧ bytes = d'.code ∧
      (Row.ofInstruction relocations offset d).Relinked (Row.ofInstruction relocations offset d') := by
  have hoffset : (UInt32.ofNat offset).toNat = offset := by
    rw [UInt32.toNat_ofNat']
    omega
  -- a relocation with a byte of the row is the one the row names
  have hown (i : Nat) (hi : i < d.code.length) (hc : Covered relocations (offset + i)) :
      (Row.ofInstruction relocations offset d).relocation?.isSome = true ∧ 4 ≤ i := by
    obtain ⟨r, hr, hle, hlt⟩ := hc
    have hreach : (Row.ofInstruction relocations offset d).IsReachedBy r := by
      show r.location.toNat < (UInt32.ofNat offset).toNat + d.code.length ∧
        (UInt32.ofNat offset).toNat < r.location.toNat + 4
      omega
    obtain ⟨hnamed, hlocation⟩ := hmarked r hr hreach
    change r.location.toNat = (UInt32.ofNat offset).toNat + 4 at hlocation
    rw [hnamed]
    exact ⟨rfl, by omega⟩
  by_cases hcovered : ∃ i < d.code.length, Covered relocations (offset + i)
  · obtain ⟨i, hi, hc⟩ := hcovered
    obtain ⟨hnamed, hfour⟩ := hown i hi hc
    have hsize : d.code.length = d.instruction.size.toNat := h.length_code
    have hl : d.instruction.hasLiteral = true := by
      unfold Instruction.hasLiteral
      rw [decide_eq_true_eq, UInt32.lt_iff_toNat_lt]
      show 4 < _
      omega
    obtain ⟨-, hwhole, hword⟩ := Instruction.shape_of_mem_all _ h.mem
    rw [if_pos hl, hword hl] at hwhole
    have htake : bytes.take 4 = d.code.take 4 := by
      apply List.ext_getElem?
      intro k
      by_cases hk : k < 4
      · rw [List.getElem?_take_of_lt hk, List.getElem?_take_of_lt hk]
        exact hsame k fun hc => by
          have := (hown k (by omega) hc).2
          omega
      · rw [List.getElem?_eq_none (by rw [List.length_take]; omega),
          List.getElem?_eq_none (by rw [List.length_take]; omega)]
    obtain ⟨w, hw⟩ := exists_ofWord (s := bytes.drop 4) (by rw [List.length_drop]; omega)
    refine ⟨d.withLiteral w, h.withLiteral hl w, ?_, .inr ⟨hnamed, w, ?_⟩⟩
    · rw [h.code_withLiteral hl, ← hw]
      exact (List.take_append_drop 4 bytes).symm.trans (congrArg (· ++ _) htake)
    · unfold Row.withLiteral Row.ofInstruction
      rw [h.code_withLiteral hl]
      rfl
  · refine ⟨d, h, List.ext_getElem? fun i => ?_, .inl rfl⟩
    by_cases hi : i < d.code.length
    · exact hsame i fun hc => hcovered ⟨i, hi, hc⟩
    · rw [List.getElem?_eq_none (by omega), List.getElem?_eq_none (by omega)]

/-- Code that differs from instructions only where relocations are is disassembled to the same rows,
but for the literals of those that name them. -/
theorem relinked_rows (h : ∀ d ∈ ds, d.Faithful)
    (hshort : offset + (ds.flatMap Decoded.code).length ≤ 2 ^ 32)
    (hmarked : ∀ row ∈ rowsFrom relocations offset ds, row.Marked relocations) {code : Bytes}
    (hlength : code.length = (ds.flatMap Decoded.code).length)
    (hsame : ∀ i, ¬ Covered relocations (offset + i) → code[i]? = (ds.flatMap Decoded.code)[i]?) :
    ∃ ds', (∀ d ∈ ds', d.Faithful) ∧ code = ds'.flatMap Decoded.code ∧
      List.Forall₂ Row.Relinked (rowsFrom relocations offset ds) (rowsFrom relocations offset ds') := by
  induction ds generalizing offset code with
  | nil => exact ⟨[], List.forall_mem_nil _, List.eq_nil_of_length_eq_zero hlength, .nil⟩
  | cons d ds ih =>
    obtain ⟨hd, hds⟩ := List.forall_mem_cons.mp h
    obtain ⟨hrow, hrows⟩ := List.forall_mem_cons.mp hmarked
    rw [List.flatMap_cons, List.length_append] at hshort hlength
    have hpos : 0 < d.code.length := List.length_pos_of_ne_nil hd.code_ne_nil
    have htake : (code.take d.code.length).length = d.code.length := by
      rw [List.length_take]
      omega
    obtain ⟨d', hd', hbytes, hone⟩ := relinked_row hd (by omega) hrow htake (by
      intro i hi
      by_cases hlt : i < d.code.length
      · rw [List.getElem?_take_of_lt hlt, hsame i hi, List.flatMap_cons,
          List.getElem?_append_left hlt]
      · rw [List.getElem?_eq_none (by omega), List.getElem?_eq_none (by omega)])
    have hdrop : (code.drop d.code.length).length = (ds.flatMap Decoded.code).length := by
      rw [List.length_drop]
      omega
    have hbehind (i : Nat) (hi : ¬ Covered relocations (offset + d.code.length + i)) :
        (code.drop d.code.length)[i]? = (ds.flatMap Decoded.code)[i]? := by
      rw [Nat.add_assoc] at hi
      rw [List.getElem?_drop, hsame _ hi, List.flatMap_cons, List.getElem?_append_right (by omega),
        Nat.add_sub_cancel_left]
    obtain ⟨ds', hds', hcode, hrest⟩ := ih hds (by omega) hrows hdrop hbehind
    have hsize : d'.code.length = d.code.length := by rw [← hbytes, htake]
    refine ⟨d' :: ds', List.forall_mem_cons.mpr ⟨hd', hds'⟩, ?_, ?_⟩
    · rw [List.flatMap_cons, ← hbytes, ← hcode, List.take_append_drop]
    · unfold rowsFrom
      rw [hsize]
      exact .cons hone hrest

end Disassembly

end AsmKit
