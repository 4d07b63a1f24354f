import AsmKit.Object.Reader
import AsmKit.Proofs.Fields
import AsmKit.Proofs.Numerals

/-
  The rows of an object's text, one at a time. A row is told by its cells alone: what is read from
  it (`readSymbol_cells`, `readRelocation_cells`, `readBytes_cells`) and that it is neither a heading
  nor the start of a section (`Reading.line_eq_row`).
-/

namespace AsmKit

/-! ## Cells -/

namespace Ascii

theorem cell_of_isWord : ∀ b : UInt8, isWord b = true → 0x20 < b ∧ b < 0x7F := by
  apply forall_byte
  decide +kernel

end Ascii

namespace Bytes

variable {s : Bytes}

theorem isCell_of_isIdentifier (h : s.isIdentifier = true) : s.IsCell := by
  refine ⟨?_, fun b hb => Ascii.cell_of_isWord b (isWord_of_isIdentifier h b hb)⟩
  rintro rfl
  cases h

theorem isCell_decimal (n : Nat) : (decimal n).IsCell := by
  refine ⟨decimal_ne_nil n, fun b hb => Ascii.cell_of_isWord b ?_⟩
  exact Ascii.isWord_of_isDigit (isDigit_of_mem_decimal hb)

theorem isCell_signed (i : Int) : (signed i).IsCell := by
  cases i with
  | ofNat n => exact isCell_decimal n
  | negSucc n =>
    refine ⟨List.cons_ne_nil _ _, fun b hb => ?_⟩
    obtain rfl | hb := List.mem_cons.mp hb
    · decide
    · exact (isCell_decimal (n + 1)).2 b hb

theorem isCell_hex (b : UInt8) : (hex 2 b.toNat).IsCell ∧ (hex 2 b.toNat).length = 2 := by
  have hall : ∀ n < 256, (hex 2 n).IsCell ∧ (hex 2 n).length = 2 := by
    decide +kernel
  exact hall b.toNat b.toNat_lt

end Bytes

namespace ObjectText

open Bytes

theorem isCell_flag (b : Bool) : (flag b).IsCell := by
  cases b
  · decide
  · decide

theorem isCell_spelling (t : RelocationType) : t.spelling.IsCell := by
  cases t
  · decide
  · decide
  · decide

/-! ## Lines and their cells -/

/-- The cells of a symbol that is written in an object. -/
def symbolCells (s : Symbol) : List Bytes :=
  [s.name, s.sectionName, decimal s.value.toNat, flag s.isGlobal, flag s.isExtern,
    signed s.number.toInt, signed s.size.toInt, flag s.isDefined]

/-- The cells of a relocation. -/
def relocationCells (r : Relocation) : List Bytes :=
  [r.symbol, r.type.spelling, decimal r.location.toNat, r.sectionName]

/-- The cells of a row of bytes. -/
def byteCells (bytes : Bytes) : List Bytes := bytes.map fun b => hex 2 b.toNat

/-- The cell of the file that a symbol came from, if there is one. -/
def fileCells (s : Symbol) : List Bytes := if s.file = [] then [] else [s.file]

/-- The names of a symbol are fields, so that its cells are found again in its line. -/
structure IsLegible (s : Symbol) : Prop where
  name : s.name.IsField
  sectionName : s.sectionName.IsField
  file : s.file = [] ∨ s.file.IsField

variable {s : Symbol} {r : Relocation} {bytes : Bytes}

theorem isField_of_mem_symbolCells (h : IsLegible s) : ∀ cell ∈ symbolCells s, cell.IsField := by
  simp only [symbolCells, List.forall_mem_cons]
  exact ⟨h.name, h.sectionName, (isCell_decimal _).isField, (isCell_flag _).isField,
    (isCell_flag _).isField, (isCell_signed _).isField, (isCell_signed _).isField,
    (isCell_flag _).isField, fun _ hcell => nomatch hcell⟩

theorem fields_file (h : IsLegible s) : fields s.file = fileCells s := by
  unfold fileCells
  split
  · next hnil =>
    rw [hnil]
    rfl
  · next hne => rw [(h.file.resolve_left hne).fields]

/-- The widths of the cells of a symbol, but for that of the file. -/
def symbolWidths : List Nat := [24, 24, 14, 9, 9, 7, 7, 8]

theorem symbolLine_eq (s : Symbol) :
    symbolLine s = dropSpaces (row (symbolWidths.zip (symbolCells s)) s.file) := rfl

theorem isField_of_mem_symbolRow (h : IsLegible s) :
    ∀ c ∈ symbolWidths.zip (symbolCells s), c.2.IsField :=
  fun c hc => isField_of_mem_symbolCells h c.2 (List.of_mem_zip hc).2

theorem fields_symbolLine (h : IsLegible s) :
    fields (symbolLine s) = symbolCells s ++ fileCells s := by
  rw [symbolLine_eq, fields_dropSpaces, fields_row (isField_of_mem_symbolRow h), fields_file h]
  rfl

/-- The cells of a relocation but for the last one, with their widths. -/
def relocationRowCells (r : Relocation) : List (Nat × Bytes) :=
  [(24, r.symbol), (16, r.type.spelling), (10, decimal r.location.toNat)]

theorem isField_of_mem_relocationRow (hsymbol : r.symbol.IsField) :
    ∀ c ∈ relocationRowCells r, c.2.IsField := by
  simp only [relocationRowCells, List.forall_mem_cons]
  exact ⟨hsymbol, (isCell_spelling _).isField, (isCell_decimal _).isField, fun _ hc => nomatch hc⟩

theorem fields_relocationLine (hsymbol : r.symbol.IsField) (hsection : r.sectionName.IsField) :
    fields (relocationLine r) = relocationCells r := by
  show fields (row (relocationRowCells r) r.sectionName) = _
  rw [fields_row (isField_of_mem_relocationRow hsymbol), hsection.fields]
  rfl

theorem isField_of_mem_byteCells : ∀ cell ∈ byteCells bytes, cell.IsField := by
  intro cell hcell
  obtain ⟨b, -, rfl⟩ := List.mem_map.mp hcell
  exact (isCell_hex b).1.isField

theorem fields_byteRow (bytes : Bytes) : fields (byteRow bytes) = byteCells bytes :=
  fields_joinWith isField_of_mem_byteCells

/-! ## Lines that stay whole -/

/-- Text without the bytes that end a line. -/
def Unbroken (s : Bytes) : Prop := ∀ b ∈ s, b ≠ Ascii.newline ∧ b ≠ Ascii.carriageReturn

instance (s : Bytes) : Decidable (Unbroken s) := List.decidableBAll _ s

theorem unbroken_of_isField {s : Bytes} (h : s.IsField) : Unbroken s := by
  intro b hb
  constructor
  · rintro rfl
    exact h.not_mem (by decide) (by decide) hb
  · rintro rfl
    exact h.not_mem (by decide) (by decide) hb

theorem unbroken_row {cells : List (Nat × Bytes)} {last : Bytes} (h : ∀ c ∈ cells, c.2.IsField)
    (hlast : Unbroken last) : Unbroken (row cells last) := by
  intro b hb
  obtain rfl | ⟨c, hc, hb⟩ | hb := mem_row hb
  · decide
  · exact unbroken_of_isField (h c hc) b hb
  · exact hlast b hb

theorem unbroken_symbolLine (h : IsLegible s) : Unbroken (symbolLine s) := by
  have hfile : Unbroken s.file := by
    obtain hnil | hfield := h.file
    · rw [hnil]
      decide
    · exact unbroken_of_isField hfield
  rw [symbolLine_eq]
  intro b hb
  exact unbroken_row (isField_of_mem_symbolRow h) hfile b (mem_of_mem_dropSpaces hb)

theorem unbroken_relocationLine (hsymbol : r.symbol.IsField) (hsection : r.sectionName.IsField) :
    Unbroken (relocationLine r) :=
  unbroken_row (isField_of_mem_relocationRow hsymbol) (unbroken_of_isField hsection)

theorem unbroken_byteRow (bytes : Bytes) : Unbroken (byteRow bytes) := by
  intro b hb
  obtain hspace | ⟨cell, hcell, hb⟩ := mem_joinWith hb
  · rw [List.mem_singleton.mp hspace]
    decide
  · exact unbroken_of_isField (isField_of_mem_byteCells cell hcell) b hb

/-! ## What cells are read as -/

theorem readFlag_flag (b : Bool) : readFlag (flag b) = .ok b := by
  cases b
  · rfl
  · rfl

theorem readSymbol_cells (s : Symbol) : readSymbol (symbolCells s ++ fileCells s) = .ok s := by
  have hfile : (fileCells s).headD [] = s.file := by
    unfold fileCells
    split
    · next hnil => exact hnil.symm
    · rfl
  have hcount : ¬ 1 < (fileCells s).length := by
    unfold fileCells
    split
    · decide
    · simp
  simp only [readSymbol, symbolCells, List.cons_append, List.nil_append, readWord_decimal,
    readInt64_signed, readFlag_flag, hcount, hfile, if_false]
  rfl

theorem ofSpelling?_spelling (t : RelocationType) :
    RelocationType.ofSpelling? t.spelling = some t := by
  cases t
  · decide
  · decide
  · decide

theorem readRelocation_cells (r : Relocation) : readRelocation (relocationCells r) = .ok r := by
  simp only [readRelocation, relocationCells, readWord_decimal, ofSpelling?_spelling]
  rfl

theorem readBytes_map {cell : UInt8 → Bytes} (h : ∀ b, (cell b).readHexByte = .ok b)
    (bytes : Bytes) : readBytes (bytes.map cell) = .ok bytes := by
  unfold readBytes
  induction bytes with
  | nil => rfl
  | cons b rest ih =>
    rw [List.map_cons, List.mapM_cons, ih, h]
    rfl

theorem readBytes_cells (bytes : Bytes) : readBytes (byteCells bytes) = .ok bytes :=
  readBytes_map readHexByte_hex bytes

/-! ## Lines that are rows -/

/-- The cells that the headings would be. -/
def headings : List (List Bytes) :=
  [symbolsHeader, sectionsHeader, relocationsHeader].map fields

theorem length_heading : ∀ cells ∈ headings, cells.length = 2 := by decide

/-- Cells of a row, which no heading has and no section starts with. -/
def IsRow (cells : List Bytes) : Prop :=
  cells ≠ [] ∧ cells.head? ≠ some (text "Section:") ∧ cells ∉ headings

theorem isRow_symbolCells (h : s.name ≠ text "Section:") : IsRow (symbolCells s ++ fileCells s) := by
  refine ⟨List.cons_ne_nil _ _, fun hhead => h (Option.some.inj hhead), fun hmem => ?_⟩
  have hlength := length_heading _ hmem
  rw [List.length_append, show (symbolCells s).length = 8 from rfl] at hlength
  omega

theorem isRow_relocationCells (h : r.symbol ≠ text "Section:") : IsRow (relocationCells r) := by
  refine ⟨List.cons_ne_nil _ _, fun hhead => h (Option.some.inj hhead), fun hmem => ?_⟩
  exact absurd (length_heading _ hmem) (show 4 ≠ 2 by decide)

theorem isRow_byteCells (h : bytes ≠ []) : IsRow (byteCells bytes) := by
  have hlength : ∀ cell ∈ byteCells bytes, cell.length = 2 := by
    intro cell hcell
    obtain ⟨b, -, rfl⟩ := List.mem_map.mp hcell
    exact (isCell_hex b).2
  refine ⟨fun hnil => h (List.map_eq_nil_iff.mp hnil), fun hhead => ?_, fun hmem => ?_⟩
  · have hlong := hlength _ (List.mem_of_mem_head? hhead)
    exact absurd hlong (by decide)
  · have hlong : ∀ cells ∈ headings, ∃ cell ∈ cells, cell.length ≠ 2 := by decide
    obtain ⟨cell, hcell, hne⟩ := hlong _ hmem
    exact hne (hlength cell hcell)

/-- A line that starts a section has the mark as its first field. -/
theorem fields_sectionMark {line : Bytes} (h : sectionMark.isPrefixOf line = true) :
    line.fields.head? = some (text "Section:") := by
  obtain ⟨rest, rfl⟩ := List.isPrefixOf_iff_prefix.mp h
  have hmark : sectionMark ++ rest = text "Section:" ++ Ascii.space :: rest := rfl
  have hfield : IsField (text "Section:") := by decide
  rw [hmark, hfield.fields_space]
  rfl

namespace Reading

variable {st : Reading} {line : Bytes}

theorem line_eq_row {cells : List Bytes} (hfields : line.fields = cells) (hcells : IsRow cells)
    (htitles : st.titlesAhead = false) :
    st.line line.trim = st.row line.trim ∧ line.trim.fields = cells := by
  subst hfields
  refine ⟨?_, fields_trim line⟩
  obtain ⟨hne, hmark, hheadings⟩ := hcells
  rw [← fields_trim] at hne hmark hheadings
  have hblank : line.trim.isEmpty = false := by
    rw [List.isEmpty_eq_false_iff]
    intro hnil
    rw [hnil] at hne
    exact hne rfl
  have hheading {heading : Bytes}
      (h : heading ∈ [symbolsHeader, sectionsHeader, relocationsHeader]) : line.trim ≠ heading := by
    intro heq
    rw [heq] at hheadings
    exact hheadings (List.mem_map_of_mem h)
  have hsection : ¬ sectionMark.isPrefixOf line.trim = true := fun h => hmark (fields_sectionMark h)
  unfold Reading.line
  rw [hblank, if_neg (by decide), if_neg (hheading (by decide)), if_neg (hheading (by decide)),
    if_neg (hheading (by decide)), if_neg hsection, htitles, if_neg (by decide)]

end Reading

end ObjectText

end AsmKit
