import AsmKit.Proofs.ObjectRows
import AsmKit.Proofs.Placement
import AsmKit.Proofs.Sorting

/-
  The text of an object, read line by line. `Reads r ls r'` says that lines take a reader from one
  state to another, whatever follows them. A table is read in the order it is written in, which is
  its own, so every entry goes to the end (`reads_symbols`, `reads_relocations`); a section is opened
  empty and gets its bytes row by row (`reads_section`).
-/

namespace AsmKit

/-! ## Lines -/

namespace Lines

theorem cut_line {l : Bytes} (h : Ascii.newline ∉ l) (line : Bytes) (found : List Bytes)
    (rest : Bytes) : cut line found (l ++ Ascii.newline :: rest) =
      cut [] ((line.reverse ++ l) :: found) rest := by
  induction l generalizing line with
  | nil =>
    simp only [List.nil_append, cut]
    rw [if_pos (by decide), List.append_nil]
  | cons b l ih =>
    have hb : (b == Ascii.newline) = false := by
      apply beq_false_of_ne
      rintro rfl
      exact h (List.mem_cons_self ..)
    simp only [List.cons_append, cut, hb]
    rw [if_neg (by decide), ih fun hl => h (List.mem_cons_of_mem b hl)]
    simp

theorem cut_lines {ls : List Bytes} (h : ∀ l ∈ ls, Ascii.newline ∉ l) (found : List Bytes) :
    cut [] found (ls.flatMap fun l => l ++ [Ascii.newline]) = found.reverse ++ ls := by
  induction ls generalizing found with
  | nil => simp [cut]
  | cons l ls ih =>
    have hrest := ih (fun l' hl' => h l' (List.mem_cons_of_mem l hl')) (l :: found)
    have hflat : (l :: ls).flatMap (fun l => l ++ [Ascii.newline]) =
        l ++ Ascii.newline :: ls.flatMap fun l => l ++ [Ascii.newline] := by
      simp
    rw [hflat, cut_line (h l (List.mem_cons_self ..)), List.reverse_nil, List.nil_append, hrest]
    simp

/-- A line that neither ends early nor loses its last byte. -/
def IsLine (l : Bytes) : Prop := Ascii.newline ∉ l ∧ l.getLast? ≠ some Ascii.carriageReturn

/-- Lines that are not too long are read as they were written. -/
theorem read_lines {limit : Nat} {ls : List Bytes} (h : ∀ l ∈ ls, IsLine l ∧ l.length < limit) :
    Lines.read limit (ls.flatMap fun l => l ++ [Ascii.newline]) = ⟨ls, false⟩ := by
  have hraw : cut [] [] (ls.flatMap fun l => l ++ [Ascii.newline]) = ls :=
    cut_lines (fun l hl => (h l hl).1.1) []
  have hshort : ls.takeWhile (fun l => l.length < limit) = ls :=
    List.takeWhile_eq_self_iff.mpr fun l hl => decide_eq_true (h l hl).2
  have hreturn (l : Bytes) (hl : l ∈ ls) : dropReturn l = l := by
    unfold dropReturn
    split
    · next hlast => exact absurd (eq_of_beq hlast) (h l hl).1.2
    · rfl
  have hover : (ls.any fun l => limit ≤ l.length) = false := by
    rw [List.any_eq_false]
    intro l hl
    have hlt := (h l hl).2
    simpa using hlt
  unfold Lines.read
  dsimp only
  rw [hraw, hshort, hover, List.map_congr_left hreturn, List.map_id']

end Lines

/-! ## Rows of bytes -/

namespace Bytes

theorem flatten_rows (s : Bytes) : s.rows.flatten = s := by
  fun_induction Bytes.rows s with
  | case1 s h =>
    rw [List.isEmpty_iff.mp h]
    rfl
  | case2 s h ih => rw [List.flatten_cons, ih, List.take_append_drop]

theorem of_mem_rows {s row : Bytes} (h : row ∈ s.rows) : row ≠ [] ∧ row.length ≤ 8 := by
  fun_induction Bytes.rows s with
  | case1 s hs => cases h
  | case2 s hs ih =>
    obtain rfl | h := List.mem_cons.mp h
    · refine ⟨fun hnil => hs ?_, List.length_take_le 8 s⟩
      obtain hzero | hnil := List.take_eq_nil_iff.mp hnil
      · cases hzero
      · rw [hnil]
        rfl
    · exact ih h

end Bytes

/-! ## Entries that go to the end -/

theorem Symbol.put_last {sym : Symbol} {l : List Symbol} (h : ∀ s ∈ l, s.name < sym.name) :
    sym.put l = l ++ [sym] := by
  induction l with
  | nil => rfl
  | cons s rest ih =>
    have hs := h s (List.mem_cons_self ..)
    have hne : s.name ≠ sym.name := by
      intro he
      rw [he] at hs
      exact List.lt_irrefl _ hs
    have hnot : ¬ sym.name < s.name := fun hlt => List.lt_irrefl _ (List.lt_trans hlt hs)
    unfold Symbol.put
    rw [if_neg hne, if_neg hnot, ih fun t ht => h t (List.mem_cons_of_mem s ht)]
    rfl

namespace Object

theorem modifySection_append (obj : Object) (name bytes more : Bytes) :
    (obj.modifySection name (·.append bytes)).modifySection name (·.append more) =
      obj.modifySection name (·.append (bytes ++ more)) := by
  unfold modifySection
  rw [List.map_map]
  congr 1
  refine List.map_congr_left fun s _ => ?_
  dsimp only [Function.comp]
  split
  · simp [Section.append]
  · rfl

theorem modifySection_append_nil (obj : Object) (name : Bytes) :
    obj.modifySection name (·.append []) = obj := by
  unfold modifySection
  have hsame : ∀ s ∈ obj.sections,
      (if s.name = name then { s.append [] with name } else s) = s := by
    intro s _
    split
    · next hname =>
      rw [← hname]
      simp [Section.append]
    · rfl
  rw [List.map_congr_left hsame, List.map_id']

theorem modifySection_last {obj : Object} {name : Bytes} (h : name ∉ obj.sectionNames)
    (f : Section → Section) :
    ({ obj with sections := obj.sections ++ [{ name }] } : Object).modifySection name f =
      { obj with sections := obj.sections ++ [{ f { name } with name }] } := by
  unfold modifySection
  have hsame : ∀ s ∈ obj.sections, (if s.name = name then { f s with name } else s) = s := by
    intro s hs
    rw [if_neg]
    intro hname
    exact h (hname ▸ List.mem_map_of_mem hs)
  dsimp only
  rw [List.map_append, List.map_congr_left hsame, List.map_id']
  simp

end Object

namespace ObjectText.Reading

variable {r r' r'' : Reading} {ls more : List Bytes}

/-! ## Reading lines -/

/-- Lines take a reader from one state to another. -/
def Reads (r : Reading) (ls : List Bytes) (r' : Reading) : Prop :=
  ∀ number rest, r.lines number (ls ++ rest) = r'.lines (number + ls.length) rest

theorem reads_nil (r : Reading) : Reads r [] r := fun _ _ => rfl

theorem Reads.cons {l : Bytes} (h : r.line l.trim = .ok r') (hrest : Reads r' ls r'') :
    Reads r (l :: ls) r'' := by
  intro number rest
  have hnumber : number + 1 + ls.length = number + (l :: ls).length := by
    rw [List.length_cons]
    omega
  rw [← hnumber, ← hrest, List.cons_append, lines, h]

theorem reads_line {l : Bytes} (h : r.line l.trim = .ok r') : Reads r [l] r' :=
  .cons h (reads_nil r')

theorem Reads.append (h : Reads r ls r') (h' : Reads r' more r'') : Reads r (ls ++ more) r'' := by
  intro number rest
  rw [List.append_assoc, h, h', List.length_append, Nat.add_assoc]

/-! ## Headings -/

theorem line_blank (r : Reading) : r.line (Bytes.trim []) = .ok r := rfl

theorem line_symbolsHeader (r : Reading) :
    r.line symbolsHeader.trim = .ok { r with part := .symbols, titlesAhead := true } := by
  have htrim : symbolsHeader.trim = symbolsHeader := by decide
  unfold Reading.line
  rw [htrim, if_neg (by decide), if_pos rfl]

theorem line_sectionsHeader (r : Reading) :
    r.line sectionsHeader.trim = .ok { r with part := .sections } := by
  have htrim : sectionsHeader.trim = sectionsHeader := by decide
  unfold Reading.line
  rw [htrim, if_neg (by decide), if_neg (by decide), if_pos rfl]

theorem line_relocationsHeader (r : Reading) :
    r.line relocationsHeader.trim = .ok { r with part := .relocations, titlesAhead := true } := by
  have htrim : relocationsHeader.trim = relocationsHeader := by decide
  unfold Reading.line
  rw [htrim, if_neg (by decide), if_neg (by decide), if_neg (by decide), if_pos rfl]

theorem line_titles {l : Bytes} (hl : l ∈ [symbolColumns, relocationColumns])
    (h : r.titlesAhead = true) : r.line l.trim = .ok { r with titlesAhead := false } := by
  have hplain : ∀ l ∈ [symbolColumns, relocationColumns], ¬ l.trim.isEmpty = true ∧
      l.trim ≠ symbolsHeader ∧ l.trim ≠ sectionsHeader ∧ l.trim ≠ relocationsHeader ∧
      ¬ sectionMark.isPrefixOf l.trim = true := by
    decide +kernel
  obtain ⟨hblank, hsymbols, hsections, hrelocations, hmark⟩ := hplain l hl
  unfold Reading.line
  rw [if_neg hblank, if_neg hsymbols, if_neg hsections, if_neg hrelocations, if_neg hmark, if_pos h]

theorem reads_symbolTitles (r : Reading) : Reads r [symbolsHeader, symbolColumns]
    { r with part := .symbols, titlesAhead := false } :=
  .cons (line_symbolsHeader r) (reads_line (line_titles (by decide) rfl))

theorem reads_sectionsHeader (r : Reading) :
    Reads r [[], sectionsHeader] { r with part := .sections } :=
  .cons (line_blank r) (reads_line (line_sectionsHeader r))

theorem reads_relocationTitles (r : Reading) : Reads r [relocationsHeader, relocationColumns]
    { r with part := .relocations, titlesAhead := false } :=
  .cons (line_relocationsHeader r) (reads_line (line_titles (by decide) rfl))

/-! ## Symbols -/

theorem line_symbol {s : Symbol} (hpart : r.part = .symbols) (htitles : r.titlesAhead = false)
    (h : IsLegible s) (hname : s.name ≠ text "Section:")
    (hnew : r.object.symbols.get? s.name = none) :
    r.line (symbolLine s).trim =
      .ok { r with object := { r.object with symbols := r.object.symbols.insert s } } := by
  obtain ⟨hline, hcells⟩ := line_eq_row (fields_symbolLine h) (isRow_symbolCells hname) htitles
  rw [hline]
  unfold Reading.row
  rw [hpart]
  dsimp only
  rw [hcells, readSymbol_cells]
  show (if (r.object.symbols.get? s.name).isSome then _ else _) = _
  rw [hnew]
  rfl

/-- Symbols that ascend behind those read already are added at the end. -/
theorem reads_symbols {syms : List Symbol} (hpart : r.part = .symbols)
    (htitles : r.titlesAhead = false)
    (hsyms : ∀ s ∈ syms, IsLegible s ∧ s.name ≠ text "Section:")
    (hasc : (r.object.symbols.entries ++ syms).Pairwise fun a b => a.name < b.name) :
    ∃ next, Reads r (syms.map symbolLine) { r with object := { r.object with
      symbols := ⟨r.object.symbols.entries ++ syms, next⟩ } } := by
  induction syms generalizing r with
  | nil =>
    refine ⟨r.object.symbols.next, ?_⟩
    rw [List.append_nil]
    exact reads_nil r
  | cons s syms ih =>
    have hbefore : ∀ t ∈ r.object.symbols.entries, t.name < s.name := by
      intro t ht
      exact (List.pairwise_append.mp hasc).2.2 t ht s (List.mem_cons_self ..)
    have hnew : r.object.symbols.get? s.name = none := by
      apply List.find?_eq_none.mpr
      intro t ht hname
      have hlt := hbefore t ht
      rw [eq_of_beq hname] at hlt
      exact List.lt_irrefl _ hlt
    have hentries : (r.object.symbols.insert s).entries = r.object.symbols.entries ++ [s] :=
      Symbol.put_last hbefore
    obtain ⟨hlegible, hname⟩ := hsyms s (List.mem_cons_self ..)
    have hline := line_symbol hpart htitles hlegible hname hnew
    obtain ⟨next, hrest⟩ := ih (r := { r with object := { r.object with
        symbols := r.object.symbols.insert s } }) hpart htitles
      (fun t ht => hsyms t (List.mem_cons_of_mem s ht)) (by
        show ((r.object.symbols.insert s).entries ++ syms).Pairwise _
        rw [hentries, List.append_assoc]
        exact hasc)
    refine ⟨next, .cons hline ?_⟩
    dsimp only at hrest
    rw [hentries, List.append_assoc] at hrest
    exact hrest

/-! ## Sections -/

theorem line_bytes {name bytes : Bytes} (hpart : r.part = .sections)
    (htitles : r.titlesAhead = false) (hcurrent : r.current = some name) (h : bytes ≠ []) :
    r.line (byteRow bytes).trim =
      .ok { r with object := r.object.modifySection name (·.append bytes) } := by
  obtain ⟨hline, hcells⟩ := line_eq_row (fields_byteRow bytes) (isRow_byteCells h) htitles
  rw [hline]
  unfold Reading.row
  rw [hpart]
  dsimp only
  rw [hcurrent]
  dsimp only
  rw [hcells, readBytes_cells]
  rfl

theorem reads_bytes {name : Bytes} {rows : List Bytes} (hpart : r.part = .sections)
    (htitles : r.titlesAhead = false) (hcurrent : r.current = some name)
    (hrows : ∀ row ∈ rows, row ≠ []) :
    Reads r (rows.map byteRow)
      { r with object := r.object.modifySection name (·.append rows.flatten) } := by
  induction rows generalizing r with
  | nil =>
    rw [List.flatten_nil, Object.modifySection_append_nil]
    exact reads_nil r
  | cons row rows ih =>
    have hline := line_bytes hpart htitles hcurrent (hrows row (List.mem_cons_self ..))
    have hrest := ih (r := { r with object := r.object.modifySection name (·.append row) }) hpart
      htitles hcurrent fun row' hrow' => hrows row' (List.mem_cons_of_mem row hrow')
    dsimp only at hrest
    rw [Object.modifySection_append] at hrest
    exact .cons hline hrest

/-- Text that can stand behind the mark of a section. -/
structure IsHeading (name : Bytes) : Prop where
  ne_nil : name ≠ []
  trimmed : name.IsTrimmed
  unbroken : Ascii.newline ∉ name

theorem isHeading_of_isField {name : Bytes} (h : name.IsField) : IsHeading name :=
  ⟨h.1, h.isTrimmed, fun hmem => (unbroken_of_isField h _ hmem).1 rfl⟩

theorem isTrimmed_sectionLine {name : Bytes} (h : IsHeading name) :
    (sectionMark ++ name).IsTrimmed := by
  have hpieces : Bytes.pieces (sectionMark ++ name) = sectionMark.pieces ++ name.pieces :=
    Bytes.pieces_space (text "Section:") name
  constructor
  · have hfirst : ∀ p ∈ sectionMark.pieces.head?, p.isBlank = false := by decide
    rw [hpieces, List.head?_append_of_ne_nil _ (by decide)]
    exact hfirst
  · rw [hpieces, List.getLast?_append_of_ne_nil _ (Bytes.pieces_ne_nil h.ne_nil)]
    exact h.trimmed.last

/-- A line that begins with the mark opens a section or fails. -/
theorem line_of_mark {l : Bytes} (h : sectionMark <+: l) (r : Reading) :
    r.line l = r.openSection (Bytes.trim (l.drop sectionMark.length)) := by
  obtain ⟨rest, rfl⟩ := h
  -- the colon of the mark is in no heading at its place
  have hcolon : (sectionMark ++ rest)[7]? = some 0x3A := by
    rw [List.getElem?_append_left (by decide)]
    decide
  have hheading {heading : Bytes} (h : heading[7]? ≠ some 0x3A) : sectionMark ++ rest ≠ heading := by
    intro heq
    rw [heq] at hcolon
    exact h hcolon
  have hblank : (sectionMark ++ rest).isEmpty = false := rfl
  have hmark : sectionMark.isPrefixOf (sectionMark ++ rest) = true :=
    List.isPrefixOf_iff_prefix.mpr ⟨rest, rfl⟩
  unfold Reading.line
  rw [hblank, if_neg (by decide), if_neg (hheading (by decide)), if_neg (hheading (by decide)),
    if_neg (hheading (by decide)), if_pos hmark]

theorem line_section {name : Bytes} (hpart : r.part = .sections) (hname : IsHeading name)
    (hnew : name ∉ r.object.sectionNames) :
    r.line (sectionMark ++ name).trim = .ok { r with
      object := { r.object with sections := r.object.sections ++ [{ name }] }
      current := some name } := by
  have hadd := Object.addSection_eq_ok_iff.mpr ⟨hnew, rfl⟩
  rw [(isTrimmed_sectionLine hname).trim_eq, line_of_mark (List.prefix_append _ _), List.drop_left,
    hname.trimmed.trim_eq]
  unfold openSection
  rw [hpart, if_neg (by decide), hadd]

theorem reads_section {s : Section} (hpart : r.part = .sections) (htitles : r.titlesAhead = false)
    (hname : IsHeading s.name) (hnew : s.name ∉ r.object.sectionNames) :
    Reads r (sectionLines s) { r with
      object := { r.object with sections := r.object.sections ++ [s.unplaced] }
      current := some s.name } := by
  have hrows : ∀ row ∈ s.code.rows, row ≠ [] := fun row hrow => (Bytes.of_mem_rows hrow).1
  have hread := reads_bytes (r := { r with
      object := { r.object with sections := r.object.sections ++ [{ name := s.name }] }
      current := some s.name }) hpart htitles rfl hrows
  rw [Bytes.flatten_rows, Object.modifySection_last hnew] at hread
  exact .cons (line_section hpart hname hnew) (hread.append (reads_line (line_blank _)))

theorem reads_sections {sections : List Section} (hpart : r.part = .sections)
    (htitles : r.titlesAhead = false) (hnames : ∀ s ∈ sections, IsHeading s.name)
    (hnodup : (r.object.sectionNames ++ sections.map Section.name).Nodup) :
    ∃ current, Reads r (sections.flatMap sectionLines) { r with
      object := { r.object with sections := r.object.sections ++ sections.map Section.unplaced }
      current } := by
  induction sections generalizing r with
  | nil =>
    refine ⟨r.current, ?_⟩
    rw [List.map_nil, List.append_nil]
    exact reads_nil r
  | cons s sections ih =>
    have hnew : s.name ∉ r.object.sectionNames := by
      intro hmem
      exact (List.nodup_append.mp hnodup).2.2 _ hmem _ (List.mem_cons_self ..) rfl
    have hfirst := reads_section hpart htitles (hnames s (List.mem_cons_self ..)) hnew
    obtain ⟨current, hrest⟩ := ih (r := { r with
        object := { r.object with sections := r.object.sections ++ [s.unplaced] }
        current := some s.name }) hpart htitles
      (fun t ht => hnames t (List.mem_cons_of_mem s ht)) (by
        unfold Object.sectionNames at hnodup ⊢
        rw [List.map_append, List.append_assoc]
        exact hnodup)
    refine ⟨current, ?_⟩
    dsimp only at hrest
    rw [List.append_assoc] at hrest
    exact hfirst.append hrest

/-! ## Relocations -/

theorem line_relocation {rel : Relocation} (hpart : r.part = .relocations)
    (htitles : r.titlesAhead = false) (hsymbol : rel.symbol.IsField)
    (hsection : rel.sectionName.IsField) (hname : rel.symbol ≠ text "Section:") :
    r.line (relocationLine rel).trim = .ok { r with object := r.object.addRelocation rel } := by
  obtain ⟨hline, hcells⟩ := line_eq_row (fields_relocationLine hsymbol hsection)
    (isRow_relocationCells hname) htitles
  rw [hline]
  unfold Reading.row
  rw [hpart]
  dsimp only
  rw [hcells, readRelocation_cells]
  rfl

/-- Relocations in order of their symbols are added at the end. -/
theorem reads_relocations {rels : List Relocation} (hpart : r.part = .relocations)
    (htitles : r.titlesAhead = false)
    (hnames : ∀ rel ∈ rels, (rel.symbol.IsField ∧ rel.sectionName.IsField) ∧
      rel.symbol ≠ text "Section:")
    (hsorted : (r.object.relocations.entries ++ rels).Pairwise fun a b => a.symbol ≤ b.symbol) :
    Reads r (rels.map relocationLine) { r with object := { r.object with
      relocations := ⟨r.object.relocations.entries ++ rels⟩ } } := by
  induction rels generalizing r with
  | nil =>
    rw [List.append_nil]
    exact reads_nil r
  | cons rel rels ih =>
    obtain ⟨⟨hsymbol, hsection⟩, hname⟩ := hnames rel (List.mem_cons_self ..)
    have hlast : r.object.relocations.add rel = ⟨r.object.relocations.entries ++ [rel]⟩ := by
      unfold RelocationTable.add
      rw [Ordered.insert_last fun old hold => ?_]
      exact decide_eq_true
        ((List.pairwise_append.mp hsorted).2.2 old hold rel (List.mem_cons_self ..))
    have hline := line_relocation hpart htitles hsymbol hsection hname
    unfold Object.addRelocation at hline
    rw [hlast] at hline
    have hrest := ih (r := { r with object := { r.object with
        relocations := ⟨r.object.relocations.entries ++ [rel]⟩ } }) hpart htitles
      (fun rel' hrel' => hnames rel' (List.mem_cons_of_mem rel hrel')) (by
        rw [List.append_assoc]
        exact hsorted)
    dsimp only at hrest
    rw [List.append_assoc] at hrest
    exact .cons hline hrest

end ObjectText.Reading

end AsmKit
