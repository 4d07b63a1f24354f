import AsmKit.Proofs.Codec
import AsmKit.Proofs.Disassembly
import AsmKit.Proofs.ReadBack
import Mathlib.Algebra.Ring.Nat

/-
  Disassembly of any bytes. The rows go through the code without a gap, and each is the instruction
  that can be read where it starts or, if none can, one byte (`Disassembly.Sweeps`). The columns of a
  row are read back from its line (`Columns.ofLine?_line`), so that the lines tell the code.
-/

namespace AsmKit

theorem Instruction.name_start {i : Instruction} (h : i ∈ all) :
    (∃ b rest, i.name = b :: rest ∧ b ≠ Ascii.space ∧ b ≠ 0x2E) ∧ Decoded.IsVisible i.name := by
  have hnames : ∀ i ∈ all, (∃ b ∈ i.name.head?, b ≠ Ascii.space ∧ b ≠ 0x2E) ∧
      Decoded.IsVisible i.name := by
    decide +kernel
  obtain ⟨⟨b, hb, hstart⟩, hvisible⟩ := hnames i h
  obtain ⟨rest, hname⟩ := List.head?_eq_some_iff.mp hb
  exact ⟨⟨b, rest, hname, hstart⟩, hvisible⟩

/-- Code is at its end, starts with an instruction, or starts with a byte that none can be read at. -/
theorem Decoded.front_cases (code : Bytes) :
    code = [] ∨ (∃ d rest, code = d.code ++ rest ∧ ofBytes (d.code ++ rest) = .ok d) ∨
      ∃ b rest e, code = b :: rest ∧ ofBytes (b :: rest) = .error e := by
  rcases code with _ | ⟨b, rest⟩
  · exact .inl rfl
  · rcases hdecode : ofBytes (b :: rest) with e | d
    · exact .inr (.inr ⟨b, rest, e, rfl, hdecode⟩)
    · have hread := readFrom_of_ofBytes hdecode
      have hcode : b :: rest = d.code ++ (b :: rest).drop d.instruction.size.toNat := by
        rw [hread.code_eq, List.take_append_drop]
      exact .inr (.inl ⟨d, _, hcode, hcode ▸ hdecode⟩)

namespace Disassembly

variable {relocations : List Relocation} {offset : Nat} {code : Bytes} {found : List Row}

/-! ## Rows of any code -/

/-- The row of a byte at which no instruction can be read. -/
def Row.ofByte (offset : Nat) (b : UInt8) : Row where
  offset := UInt32.ofNat offset
  bytes := [b]
  instruction? := none
  relocation? := none

/-- The rows go through the code, of which the first byte has the given offset; each is what can be
read where it starts. -/
inductive Sweeps (relocations : List Relocation) : Nat → Bytes → List Row → Prop where
  | done (offset : Nat) : Sweeps relocations offset [] []
  | instruction {offset : Nat} {d : Decoded} {rest : Bytes} {found : List Row}
      (h : Decoded.ofBytes (d.code ++ rest) = .ok d)
      (next : Sweeps relocations (offset + d.code.length) rest found) :
      Sweeps relocations offset (d.code ++ rest) (Row.ofInstruction relocations offset d :: found)
  | byte {offset : Nat} {b : UInt8} {rest : Bytes} {found : List Row} {e : Error}
      (h : Decoded.ofBytes (b :: rest) = .error e)
      (next : Sweeps relocations (offset + 1) rest found) :
      Sweeps relocations offset (b :: rest) (Row.ofByte offset b :: found)

theorem rowAt_byte (relocations : List Relocation) {limit : UInt32} {offset : Nat} {b : UInt8}
    {rest : Bytes} {e : Error} (hend : offset + (b :: rest).length = limit.toNat)
    (h : Decoded.ofBytes (b :: rest) = .error e) :
    rowAt relocations limit (UInt32.ofNat offset) ([b] ++ rest) = Row.ofByte offset b := by
  have hread : Decoded.read (limit - UInt32.ofNat offset) (b :: rest) = .error e := by
    rw [limit_sub hend]
    exact h
  unfold rowAt
  rw [List.singleton_append, hread]
  rfl

/-- A scan takes row after row, and each leaves less of the code. -/
theorem sweeps_scan (relocations : List Relocation) {limit : UInt32} (found : List Row) (offset : Nat)
    (code : Bytes) (hend : offset + code.length = limit.toNat) :
    ∃ more, scan relocations limit found (UInt32.ofNat offset) 0 code = found.reverse ++ more ∧
      Sweeps relocations offset code more := by
  induction hlength : code.length using Nat.strong_induction_on generalizing found offset code with
  | _ length ih =>
  rcases Decoded.front_cases code with rfl | ⟨d, rest, rfl, hdecode⟩ | ⟨b, rest, e, rfl, he⟩
  · exact ⟨[], (List.append_nil _).symm, .done offset⟩
  · have hd := (Decoded.readFrom_of_ofBytes hdecode).faithful
    have hpos := List.length_pos_of_ne_nil hd.code_ne_nil
    have hrow := rowAt_code relocations hd hend
    rw [scan_row hd.code_ne_nil hend hrow rfl]
    rw [List.length_append] at hlength hend
    obtain ⟨more, hscan, hmore⟩ := ih rest.length (by omega)
      (Row.ofInstruction relocations offset d :: found) (offset + d.code.length) rest (by omega) rfl
    refine ⟨Row.ofInstruction relocations offset d :: more, ?_, .instruction hdecode hmore⟩
    rw [hscan, List.reverse_cons, List.append_assoc]
    rfl
  · have hrow := rowAt_byte relocations hend he
    rw [← List.singleton_append] at hend ⊢
    rw [scan_row (List.cons_ne_nil b []) hend hrow rfl, List.length_singleton]
    rw [List.length_cons] at hlength
    rw [List.length_append, List.length_singleton] at hend
    obtain ⟨more, hscan, hmore⟩ := ih rest.length (by omega)
      (Row.ofByte offset b :: found) (offset + 1) rest (by omega) rfl
    refine ⟨Row.ofByte offset b :: more, ?_, .byte he hmore⟩
    rw [hscan, List.reverse_cons, List.append_assoc]
    rfl

theorem sweeps_rows (relocations : List Relocation) {code : Bytes} (h : code.length < 2 ^ 32) :
    Sweeps relocations 0 code (rows relocations code) := by
  obtain ⟨more, hscan, hmore⟩ := sweeps_scan relocations [] 0 code
    (by rw [UInt32.toNat_ofNat_of_lt' h, Nat.zero_add])
  have hrows : rows relocations code = more := hscan
  rw [hrows]
  exact hmore

namespace Sweeps

theorem flatMap_bytes (h : Sweeps relocations offset code found) :
    found.flatMap Row.bytes = code := by
  induction h with
  | done => rfl
  | instruction _ _ ih => rw [List.flatMap_cons, ih]; rfl
  | byte _ _ ih => rw [List.flatMap_cons, ih]; rfl

theorem forall_mem {P : Row → Prop} (h : Sweeps relocations offset code found)
    (hinstruction : ∀ offset d, d.Faithful → P (Row.ofInstruction relocations offset d))
    (hbyte : ∀ offset b, P (Row.ofByte offset b)) : ∀ row ∈ found, P row := by
  induction h with
  | done => exact List.forall_mem_nil P
  | instruction hd _ ih =>
    exact List.forall_mem_cons.mpr ⟨hinstruction _ _ (Decoded.readFrom_of_ofBytes hd).faithful, ih⟩
  | byte _ _ ih => exact List.forall_mem_cons.mpr ⟨hbyte _ _, ih⟩

/-- From any row on the rows go through what the rows before it have left. -/
theorem behind {front back : List Row} (h : Sweeps relocations offset code (front ++ back)) :
    Sweeps relocations (offset + (front.flatMap Row.bytes).length)
      (code.drop (front.flatMap Row.bytes).length) back := by
  induction front generalizing offset code with
  | nil => exact h
  | cons row front ih =>
    rw [List.flatMap_cons, List.length_append, ← Nat.add_assoc, ← List.drop_drop]
    cases h with
    | instruction hd next =>
      change Sweeps relocations _ (List.drop _ (List.drop (Decoded.code _).length (_ ++ _))) back
      rw [List.drop_left]
      exact ih next
    | byte hb next => exact ih next

end Sweeps

/-! ## Bodies of rows -/

theorem mem_of_relocationOf {location : UInt32} {i : Instruction} {r : Relocation}
    (h : relocationOf relocations location i = some r) : r ∈ relocations := by
  have hat {l : UInt32} (hr : relocationAt relocations l = some r) : r ∈ relocations :=
    (List.mem_filter.mp (List.mem_of_getLast? hr)).1
  unfold relocationOf at h
  dsimp only at h
  split at h
  · rcases Option.or_eq_some_iff.mp h with h | ⟨-, h⟩
    · exact hat h
    · exact hat h
  · exact hat h

namespace Row

variable {row : Row} {d : Decoded}

/-- The row can be told from what stands in front of its body, and it is not the row of a byte. -/
theorem body_ofInstruction (hd : d.Faithful) :
    d.statement <+: (ofInstruction relocations offset d).body ∧
      ∃ b rest, (ofInstruction relocations offset d).body = b :: rest ∧
        b ≠ Ascii.space ∧ b ≠ 0x2E := by
  obtain ⟨⟨b, rest, hname, hstart⟩, -⟩ := Instruction.name_start hd.mem
  obtain ⟨operands, hstatement, -⟩ := Decoded.exists_operands hd.mem
  have hfront : d.statement <+: (ofInstruction relocations offset d).body := List.prefix_append _ _
  obtain ⟨comment, hbody⟩ := hfront
  refine ⟨⟨comment, hbody⟩, b, rest ++ operands ++ comment, ?_, hstart⟩
  rw [← hbody, hstatement, hname]
  rfl

theorem body_ofByte (offset : Nat) (b : UInt8) :
    (ofByte offset b).body = text ".byte " ++ text "0x" ++ Bytes.hex 2 b.toNat := by
  show text ".byte " ++ ((text "0x" ++ Bytes.hex 2 b.toNat) ++ []) = _
  rw [List.append_nil, List.append_assoc]

theorem newline_not_mem_hex {width n : Nat} : Ascii.newline ∉ Bytes.hex width n := by
  intro hmem
  exact absurd (Bytes.isHexDigit_of_mem_hex hmem) (by decide)

theorem newline_not_mem_body (hd : d.Faithful)
    (h : ∀ r ∈ relocations, Ascii.newline ∉ r.symbol) :
    Ascii.newline ∉ (ofInstruction relocations offset d).body := by
  have hvisible {s : Bytes} (hs : Decoded.IsVisible s) : Ascii.newline ∉ s := by
    intro hmem
    exact absurd (hs _ hmem) (by decide)
  obtain ⟨-, hname⟩ := Instruction.name_start hd.mem
  obtain ⟨operands, hstatement, -, hoperands⟩ := Decoded.exists_operands hd.mem
  have hstart : Ascii.newline ∉ d.statement := by
    rw [hstatement]
    exact hvisible (hname.append hoperands)
  unfold body ofInstruction
  dsimp only
  split
  · next r hr =>
    have hspelling : Ascii.newline ∉ r.type.spelling :=
      hvisible fun b hb => UInt8.le_of_lt ((ObjectText.isCell_spelling r.type).2 b hb).1
    have hsymbol := h r (mem_of_relocationOf hr)
    simp only [List.mem_append, not_or]
    exact ⟨hstart, ⟨⟨by decide, hspelling⟩, by decide⟩, hsymbol⟩
  · rw [List.append_nil]
    exact hstart

theorem newline_not_mem_line (h : Ascii.newline ∉ row.body) : Ascii.newline ∉ row.line := by
  have hbytes : Ascii.newline ∉ ObjectText.byteRow row.bytes :=
    fun hmem => (ObjectText.unbroken_byteRow row.bytes _ hmem).1 rfl
  unfold line
  simp only [List.mem_append, not_or]
  refine ⟨⟨⟨⟨⟨by decide, newline_not_mem_hex⟩, by decide⟩, hbytes⟩, ?_⟩, h⟩
  intro hmem
  exact absurd (List.mem_replicate.mp hmem).2 (by decide)

end Row

/-- The lines of a disassembly. -/
def lines (relocations : List Relocation) (code : Bytes) : List Bytes :=
  (rows relocations code).map Row.line

theorem print_eq_lines (relocations : List Relocation) (code : Bytes) :
    print relocations code = (lines relocations code).flatMap fun l => l ++ [Ascii.newline] := by
  unfold print lines
  rw [List.flatMap_map]

/-! ## Columns of lines -/

/-- The columns of a line: the offset, the bytes, and what they are. -/
structure Columns where
  offset : Nat
  bytes : Bytes
  body : Bytes
deriving DecidableEq, Repr

namespace Columns

/-- Text up to the first two spaces in a row. -/
def untilGap : Bytes → Bytes
  | a :: b :: rest => if a = Ascii.space ∧ b = Ascii.space then [] else a :: untilGap (b :: rest)
  | s => s

/-- Reads a line: two spaces, the digits of the offset up to a colon, the digits of the bytes up to a
gap, and behind the gap the body. -/
def ofLine? (line : Bytes) : Option Columns := do
  let digits := (line.drop 2).takeWhile (· != Lexeme.colon)
  let offset ← (Number.readNat 16 0xFFFFFFFF digits).toOption
  let rest := (line.dropWhile (· != Lexeme.colon)).drop 2
  let bytes ← (ObjectText.readBytes (untilGap rest).fields).toOption
  some ⟨offset, bytes, (rest.drop (untilGap rest).length).dropWhile (· == Ascii.space)⟩

/-- The line is that of a byte at which no instruction can be read. -/
def IsByte (c : Columns) : Prop := text ".byte " <+: c.body

instance (c : Columns) : Decidable c.IsByte := inferInstanceAs (Decidable (_ <+: _))

theorem untilGap_word {s : Bytes} (h : Ascii.space ∉ s) (rest : Bytes) :
    untilGap (s ++ rest) = s ++ untilGap rest := by
  induction s with
  | nil => rfl
  | cons a s ih =>
    have ha : a ≠ Ascii.space := fun heq => h (heq ▸ List.mem_cons_self)
    have hs := ih fun hmem => h (List.mem_cons_of_mem a hmem)
    rw [List.cons_append, List.cons_append, ← hs]
    cases s ++ rest with
    | nil => rfl
    | cons b more =>
      rw [untilGap, if_neg fun hspaces => ha hspaces.1]

theorem untilGap_gap (rest : Bytes) : untilGap (Ascii.space :: Ascii.space :: rest) = [] := by
  rw [untilGap, if_pos ⟨rfl, rfl⟩]

theorem joinWith_start (sep : Bytes) (b : UInt8) (s : Bytes) (more : List Bytes) :
    Bytes.joinWith sep ((b :: s) :: more) = b :: Bytes.joinWith sep (s :: more) := by
  cases more with
  | nil => rfl
  | cons next more => rfl

/-- The cells of a column have one space between them. -/
theorem untilGap_joinWith {cells : List Bytes} (h : ∀ cell ∈ cells, cell.IsCell) (rest : Bytes) :
    untilGap (Bytes.joinWith [Ascii.space] cells ++ Ascii.space :: Ascii.space :: rest) =
      Bytes.joinWith [Ascii.space] cells := by
  have hword {cell : Bytes} (hcell : cell.IsCell) : Ascii.space ∉ cell :=
    fun hmem => absurd (hcell.2 _ hmem).1 (by decide)
  induction cells with
  | nil => exact untilGap_gap rest
  | cons cell cells ih =>
    obtain ⟨hcell, hcells⟩ := List.forall_mem_cons.mp h
    cases cells with
    | nil => rw [Bytes.joinWith_singleton, untilGap_word (hword hcell), untilGap_gap, List.append_nil]
    | cons next more =>
      obtain ⟨hnext, -⟩ := List.forall_mem_cons.mp hcells
      have hrest := ih hcells
      -- behind the space the next cell starts, so that this is no gap
      obtain ⟨b, s, rfl⟩ := List.exists_cons_of_ne_nil hnext.1
      have hb : b ≠ Ascii.space := fun heq => hword hnext (heq ▸ List.mem_cons_self)
      rw [joinWith_start, List.cons_append] at hrest
      rw [Bytes.joinWith_cons_cons, List.append_assoc, untilGap_word (hword hcell), joinWith_start,
        List.cons_append, List.cons_append, untilGap, if_neg fun hspaces => hb hspaces.2, hrest]

/-- What the columns of a row should be. -/
def ofRow (row : Row) : Columns := ⟨row.offset.toNat, row.bytes, row.body⟩

theorem ofLine?_line {row : Row} {b : UInt8} {rest : Bytes} (hbody : row.body = b :: rest)
    (hb : b ≠ Ascii.space) : ofLine? row.line = some (ofRow row) := by
  have hoffset : Number.readNat 16 0xFFFFFFFF (Bytes.hex 4 row.offset.toNat) = .ok row.offset.toNat :=
    Bytes.readNat_hex 4 (Nat.le_of_lt_succ row.offset.toNat_lt)
  have hdigits : ∀ x ∈ Bytes.hex 4 row.offset.toNat, (x != Lexeme.colon) = true := by
    intro x hx
    rw [bne_iff_ne]
    rintro rfl
    exact absurd (Bytes.isHexDigit_of_mem_hex hx) (by decide)
  have hcells : ∀ cell ∈ ObjectText.byteCells row.bytes, cell.IsCell := by
    intro cell hcell
    obtain ⟨x, -, rfl⟩ := List.mem_map.mp hcell
    exact (Bytes.isCell_hex x).1
  -- the line, a column at a time
  obtain ⟨tail, htail⟩ : ∃ tail, tail = ObjectText.byteRow row.bytes ++
    (List.replicate (3 * (8 - row.bytes.length) + 2) Ascii.space ++ row.body) := ⟨_, rfl⟩
  have hline : row.line =
      Ascii.space :: Ascii.space :: (Bytes.hex 4 row.offset.toNat ++
        Lexeme.colon :: Ascii.space :: tail) := by
    unfold Row.line
    rw [htail]
    simp only [List.append_assoc]
    rfl
  have hfirst : (row.line.drop 2).takeWhile (· != Lexeme.colon) = Bytes.hex 4 row.offset.toNat := by
    rw [hline, List.drop_succ_cons, List.drop_succ_cons, List.drop_zero,
      List.takeWhile_append_of_pos hdigits,
      List.takeWhile_cons_of_neg (by decide), List.append_nil]
  have hrest : (row.line.dropWhile (· != Lexeme.colon)).drop 2 = tail := by
    rw [hline, List.dropWhile_cons_of_pos (by decide), List.dropWhile_cons_of_pos (by decide),
      List.dropWhile_append_of_pos hdigits, List.dropWhile_cons_of_neg (by decide)]
    rfl
  have hcolumn : untilGap tail = ObjectText.byteRow row.bytes := by
    rw [htail]
    exact untilGap_joinWith hcells
      (List.replicate (3 * (8 - row.bytes.length)) Ascii.space ++ row.body)
  have hlast : (tail.drop (ObjectText.byteRow row.bytes).length).dropWhile (· == Ascii.space) =
      row.body := by
    have hspaces : ∀ x ∈ List.replicate (3 * (8 - row.bytes.length) + 2) Ascii.space,
        (x == Ascii.space) = true :=
      fun x hx => beq_iff_eq.mpr (List.mem_replicate.mp hx).2
    rw [htail, List.drop_left, List.dropWhile_append_of_pos hspaces, hbody,
      List.dropWhile_cons_of_neg (by simpa using hb)]
  unfold ofLine?
  simp only [hfirst, hrest, hcolumn, hlast, hoffset, ObjectText.fields_byteRow,
    ObjectText.readBytes_cells]
  rfl

/-- The line shows what can be read at the start of the code: a byte if nothing can be. -/
structure Shows (c : Columns) (code : Bytes) : Prop where
  isByte_iff : c.IsByte ↔ ∃ e, Decoded.ofBytes code = .error e
  byte : c.IsByte → ∃ b, c.bytes = [b] ∧ c.body = text ".byte " ++ text "0x" ++ Bytes.hex 2 b.toNat
  instruction : ∀ d, Decoded.ofBytes code = .ok d → c.bytes = d.code ∧ d.statement <+: c.body

theorem shows_ofInstruction (relocations : List Relocation) (offset : Nat) {d : Decoded}
    {rest : Bytes} (hread : Decoded.ofBytes (d.code ++ rest) = .ok d) :
    (ofRow (Row.ofInstruction relocations offset d)).Shows (d.code ++ rest) := by
  have hd := (Decoded.readFrom_of_ofBytes hread).faithful
  obtain ⟨hstatement, b, tail, hbody, -, hdot⟩ :
    d.statement <+: (Row.ofInstruction relocations offset d).body ∧ _ := Row.body_ofInstruction hd
  have hnot : ¬ (ofRow (Row.ofInstruction relocations offset d)).IsByte := by
    rintro ⟨more, hmore⟩
    exact hdot (List.cons.inj (hbody.symm.trans hmore.symm)).1
  refine ⟨⟨fun h => absurd h hnot, ?_⟩, fun h => absurd h hnot, ?_⟩
  · rintro ⟨e, he⟩
    cases hread.symm.trans he
  · intro d' hd'
    cases hread.symm.trans hd'
    exact ⟨rfl, hstatement⟩

theorem shows_ofByte (offset : Nat) {b : UInt8} {rest : Bytes} {e : Error}
    (h : Decoded.ofBytes (b :: rest) = .error e) :
    (ofRow (Row.ofByte offset b)).Shows (b :: rest) := by
  have hbody := Row.body_ofByte offset b
  refine ⟨⟨fun _ => ⟨e, h⟩, fun _ => ?_⟩, fun _ => ⟨b, rfl, hbody⟩, fun d hd => ?_⟩
  · exact ⟨text "0x" ++ Bytes.hex 2 b.toNat, (List.append_assoc ..).symm.trans hbody.symm⟩
  · cases h.symm.trans hd

end Columns

namespace Sweeps

variable {row : Row} {back : List Row}

/-- Where a row starts its columns show what the code has there. -/
theorem shows_head (h : Sweeps relocations offset code (row :: back)) (hshort : offset < 2 ^ 32) :
    (Columns.ofRow row).offset = offset ∧ (Columns.ofRow row).Shows code := by
  have hoffset : (UInt32.ofNat offset).toNat = offset := UInt32.toNat_ofNat_of_lt' hshort
  cases h with
  | instruction hd next => exact ⟨hoffset, Columns.shows_ofInstruction relocations offset hd⟩
  | byte hb next => exact ⟨hoffset, Columns.shows_ofByte offset hb⟩

theorem ofLine?_line (h : Sweeps relocations offset code found) :
    ∀ row ∈ found, Columns.ofLine? row.line = some (Columns.ofRow row) := by
  refine h.forall_mem (fun offset d hd => ?_) fun offset b => ?_
  · obtain ⟨-, b, rest, hbody, hb, -⟩ :
      d.statement <+: (Row.ofInstruction relocations offset d).body ∧ _ := Row.body_ofInstruction hd
    exact Columns.ofLine?_line hbody hb
  · exact Columns.ofLine?_line (Row.body_ofByte offset b) (by decide)

theorem newline_not_mem_line (h : Sweeps relocations offset code found)
    (hsymbols : ∀ r ∈ relocations, Ascii.newline ∉ r.symbol) :
    ∀ row ∈ found, Ascii.newline ∉ row.line := by
  refine h.forall_mem (fun offset d hd => ?_) fun offset b => ?_
  · exact Row.newline_not_mem_line (Row.newline_not_mem_body hd hsymbols)
  · refine Row.newline_not_mem_line ?_
    rw [Row.body_ofByte, List.mem_append, not_or]
    exact ⟨by decide, Row.newline_not_mem_hex⟩

end Sweeps

end Disassembly

open Disassembly

/-- The lines of a disassembly show every byte of the code once and in order, each at its offset; a
line shows one byte alone where no instruction can be read, and nowhere else. -/
theorem disassembly_accounts_for_every_byte {code : Bytes} (h : code.length < 2 ^ 32)
    (relocations : List Relocation) :
    print relocations code = (lines relocations code).flatMap (fun l => l ++ [Ascii.newline]) ∧
    ((∀ r ∈ relocations, Ascii.newline ∉ r.symbol) →
      Lines.cut [] [] (print relocations code) = lines relocations code) ∧
    ∃ columns, (lines relocations code).map Columns.ofLine? = columns.map some ∧
      columns.flatMap Columns.bytes = code ∧
      ∀ front c back, columns = front ++ c :: back →
        c.offset = (front.flatMap Columns.bytes).length ∧ c.Shows (code.drop c.offset) := by
  have hprint := print_eq_lines relocations code
  have hsweeps := sweeps_rows relocations h
  refine ⟨hprint, fun hsymbols => ?_, (rows relocations code).map Columns.ofRow, ?_, ?_, ?_⟩
  · rw [hprint]
    exact Lines.cut_lines (List.forall_mem_map.mpr (hsweeps.newline_not_mem_line hsymbols)) []
  · unfold lines
    rw [List.map_map, List.map_map]
    exact List.map_congr_left hsweeps.ofLine?_line
  · rw [List.flatMap_map]
    exact hsweeps.flatMap_bytes
  · intro front c back hcolumns
    obtain ⟨before, after, hrows, rfl, hafter⟩ := List.map_eq_append_iff.mp hcolumns
    obtain ⟨row, rest, rfl, rfl, -⟩ := List.map_eq_cons_iff.mp hafter
    rw [hrows] at hsweeps
    have hcode := congrArg List.length hsweeps.flatMap_bytes
    rw [List.flatMap_append, List.length_append] at hcode
    have hhead := hsweeps.behind.shows_head (by omega)
    rw [Nat.zero_add] at hhead
    rw [List.flatMap_map, hhead.1]
    exact ⟨rfl, hhead.2⟩

namespace Disassembly

/-- A byte that starts no instruction, a call, and a jump of which most is missing. -/
def ragged : Bytes := [0xFF, 0x20, 0, 0, 0, 0, 0, 0, 0, 0x30, 0]

def raggedRelocations : List Relocation :=
  [{ symbol := text "puts", type := .symbol, location := 5, sectionName := text "text" }]

theorem ragged_code_is_accounted_for :
    ragged.length < 2 ^ 32 ∧
    Lines.cut [] [] (print raggedRelocations ragged) = lines raggedRelocations ragged ∧
    ∃ columns, (lines raggedRelocations ragged).map Columns.ofLine? = columns.map some ∧
      columns.flatMap Columns.bytes = ragged ∧
      ∀ front c back, columns = front ++ c :: back →
        c.offset = (front.flatMap Columns.bytes).length ∧ c.Shows (ragged.drop c.offset) := by
  have hshort : ragged.length < 2 ^ 32 := by decide
  obtain ⟨-, hcut, hcolumns⟩ := disassembly_accounts_for_every_byte hshort raggedRelocations
  exact ⟨hshort, hcut (by decide), hcolumns⟩

example : lines raggedRelocations ragged = [
    text "  0000: ff                       .byte 0xff",
    text "  0001: 20 00 00 00 00 00 00 00  call 0x0\t# SYMBOL puts",
    text "  0009: 30                       .byte 0x30",
    text "  000a: 00                       halt"] := by
  decide +kernel

end Disassembly

end AsmKit
