import AsmKit.Proofs.Reading
import AsmKit.Proofs.RoundTrip

/-
  Writing again what was read. Whatever text an object is read from, its names are fields, or stood
  behind the mark of a section, so its lines can be told apart when it is written (`legible_of_read`).
  One thing goes wrong: a row of a table whose first cell is the word in front of a section's name. A
  tab can stand behind that word in the text that is read, but in the text that is written it is a
  space, and then the row begins like a section, where none can be (`not_read_of_marked`).
-/

namespace AsmKit

open ObjectText

/-! ## Lines of a text -/

theorem Lines.newline_not_mem_cut {line : Bytes} {found : List Bytes} {s : Bytes}
    (hline : Ascii.newline ∉ line) (hfound : ∀ l ∈ found, Ascii.newline ∉ l) :
    ∀ l ∈ Lines.cut line found s, Ascii.newline ∉ l := by
  have hclosed : ∀ l ∈ line.reverse :: found, Ascii.newline ∉ l :=
    List.forall_mem_cons.mpr ⟨fun hmem => hline (List.mem_reverse.mp hmem), hfound⟩
  induction s generalizing line found with
  | nil =>
    intro l hl
    simp only [Lines.cut, List.mem_reverse] at hl
    split at hl
    · exact hfound l hl
    · exact hclosed l hl
  | cons b rest ih =>
    unfold Lines.cut
    split
    · refine ih List.not_mem_nil hclosed ?_
      exact List.forall_mem_cons.mpr ⟨List.not_mem_nil, hclosed⟩
    · next hb =>
      have hmore : Ascii.newline ∉ b :: line := by
        intro hmem
        obtain rfl | hmem := List.mem_cons.mp hmem
        · exact hb (by decide)
        · exact hline hmem
      refine ih hmore hfound ?_
      exact List.forall_mem_cons.mpr ⟨fun hmem => hmore (List.mem_reverse.mp hmem), hfound⟩

theorem Lines.newline_not_mem {limit : Nat} {s line : Bytes} (h : line ∈ (Lines.read limit s).lines) :
    Ascii.newline ∉ line := by
  obtain ⟨raw, hraw, rfl⟩ := List.mem_map.mp h
  have hcut := newline_not_mem_cut List.not_mem_nil (List.forall_mem_nil _) raw
    ((List.takeWhile_sublist _).mem hraw)
  unfold dropReturn
  split
  · exact fun hmem => hcut ((List.dropLast_sublist _).mem hmem)
  · exact hcut

/-! ## Names that are read -/

namespace ObjectText

theorem names_of_readSymbol {fields : List Bytes} {s : Symbol} (h : readSymbol fields = .ok s) :
    s.name ∈ fields ∧ s.sectionName ∈ fields ∧ (s.file = [] ∨ s.file ∈ fields) := by
  unfold readSymbol at h
  split at h
  next name sectionName value isGlobal isExtern number size isDefined files =>
    split at h
    · cases h
    · simp only [except_bind_eq_ok] at h
      obtain ⟨_, -, _, -, _, -, _, -, _, -, _, -, h⟩ := h
      cases h
      refine ⟨by simp, by simp, ?_⟩
      cases files with
      | nil => exact .inl rfl
      | cons file more => exact .inr (by simp)
  next => cases h

theorem names_of_readRelocation {fields : List Bytes} {r : Relocation}
    (h : readRelocation fields = .ok r) : r.symbol ∈ fields ∧ r.sectionName ∈ fields := by
  unfold readRelocation at h
  split at h
  next symbol type location sectionName =>
    split at h
    next t ht =>
      obtain ⟨_, -, h⟩ := except_bind_eq_ok.mp h
      cases h
      exact ⟨by simp, by simp⟩
    next => cases h
  next => cases h

/-- What stands behind the mark of a section is a name that can stand there again. -/
theorem isHeading_of_mark {line : Bytes} (hmark : sectionMark.isPrefixOf line.trim = true)
    (hline : Ascii.newline ∉ line) :
    Reading.IsHeading (Bytes.trim (line.trim.drop sectionMark.length)) := by
  obtain ⟨rest, hrest⟩ := List.isPrefixOf_iff_prefix.mp hmark
  have hdrop : line.trim.drop sectionMark.length = rest := by
    rw [← hrest, List.drop_left]
  rw [hdrop]
  refine ⟨fun hnil => ?_, Bytes.isTrimmed_trim rest, fun hmem => hline ?_⟩
  · -- with nothing but blanks behind the mark, the line would end in one
    have hblanks := Bytes.isBlank_of_trim_eq_nil hnil
    have hlast := (Bytes.isTrimmed_trim line).last
    have hpieces : Bytes.pieces (sectionMark ++ rest) = sectionMark.pieces ++ Bytes.pieces rest :=
      Bytes.pieces_space (text "Section:") rest
    rw [← hrest, hpieces, List.getLast?_append] at hlast
    cases hend : (Bytes.pieces rest).getLast? with
    | none =>
      rw [hend, Option.none_or] at hlast
      exact absurd (hlast (Piece.ofByte Ascii.space) (by decide)) (by decide)
    | some p =>
      have hp := hlast p (by rw [hend]; rfl)
      rw [hblanks p (List.mem_of_getLast? hend)] at hp
      cases hp
  · have hmem := Bytes.mem_of_mem_trim hmem
    rw [← hdrop] at hmem
    exact Bytes.mem_of_mem_trim (List.mem_of_mem_drop hmem)

end ObjectText

namespace Object

variable {obj obj' : Object} {line : Bytes}

theorem Adds.legible (h : Adds line obj obj') (hline : Ascii.newline ∉ line) (hobj : obj.Legible) :
    obj'.Legible := by
  cases h with
  | nothing => exact hobj
  | symbol hread hnew =>
    obtain ⟨hname, hsection, hfile⟩ := names_of_readSymbol hread
    refine ⟨fun s hs => ?_, hobj.sections, hobj.relocations⟩
    obtain rfl | hs := Symbol.mem_put hs
    · exact ⟨Bytes.isField_of_mem_fields hname, Bytes.isField_of_mem_fields hsection,
        hfile.imp_right Bytes.isField_of_mem_fields⟩
    · exact hobj.symbols s hs
  | opening hmark hname hnew =>
    refine ⟨hobj.symbols, fun s hs => ?_, hobj.relocations⟩
    obtain hs | hs := List.mem_append.mp hs
    · exact hobj.sections s hs
    · rw [List.mem_singleton.mp hs, hname]
      exact isHeading_of_mark hmark hline
  | bytes name code =>
    refine ⟨hobj.symbols, fun s hs => ?_, hobj.relocations⟩
    have hmem := List.mem_map_of_mem (f := Section.name) hs
    rw [show (obj.modifySection name (·.append code)).sections.map Section.name =
      obj.sections.map Section.name from sectionNames_modifySection obj name _] at hmem
    obtain ⟨old, hold, e⟩ := List.mem_map.mp hmem
    rw [← e]
    exact hobj.sections old hold
  | relocation hread =>
    obtain ⟨hsymbol, hsection⟩ := names_of_readRelocation hread
    refine ⟨hobj.symbols, hobj.sections, fun r hr => ?_⟩
    obtain hr | hr := List.mem_append.mp ((RelocationTable.add_perm _ _).mem_iff.mp hr)
    · exact hobj.relocations r hr
    · rw [List.mem_singleton.mp hr]
      exact ⟨Bytes.isField_of_mem_fields hsymbol, Bytes.isField_of_mem_fields hsection⟩

theorem legible_of_read {name s : Bytes} (h : Object.read name s = .ok obj) : obj.Legible := by
  refine read_induction h ⟨?_, ?_, ?_⟩ fun line hline _ _ hadds hobj =>
    hadds.legible (Lines.newline_not_mem hline) hobj
  · exact List.forall_mem_nil _
  · exact List.forall_mem_nil _
  · exact List.forall_mem_nil _

end Object

/-! ## Rows that begin like a section -/

namespace ObjectText

open Bytes

theorem prefix_trim_row {width : Nat} {cell : Bytes} {cells : List (Nat × Bytes)} {last : Bytes}
    (hcell : cell.IsField) (hcells : ∀ c ∈ cells, c.2.IsField) (hne : cells ≠ []) :
    cell ++ [Ascii.space] <+: (row ((width, cell) :: cells) last).trim := by
  let rest := cells.flatMap (fun c => c.2.padTo c.1 ++ [Ascii.space]) ++ last
  have hrow : row ((width, cell) :: cells) last = List.replicate 2 Ascii.space ++
      (cell ++ Ascii.space :: (List.replicate (width - cell.width) Ascii.space ++ rest)) := by
    rw [← padTo_append]
    unfold row
    rw [List.flatMap_cons, List.append_assoc, List.append_assoc]
    rfl
  have hrest : fields rest = cells.map Prod.snd ++ fields last := by
    rw [← fields_row hcells]
    exact (fields_spaces 2 rest).symm
  rw [hrow]
  refine prefix_trim hcell ?_ 2
  rw [fields_spaces, hrest]
  simp [hne]

theorem mark_symbolLine {s : Symbol} (h : IsLegible s) (hname : s.name = text "Section:") :
    sectionMark <+: (symbolLine s).trim := by
  have htrim : (symbolLine s).trim = (row (symbolWidths.zip (symbolCells s)) s.file).trim := by
    obtain ⟨n, hn⟩ := dropSpaces_append (row (symbolWidths.zip (symbolCells s)) s.file)
    rw [symbolLine_eq, ← trim_append_spaces _ n, hn]
  have hmark : sectionMark = s.name ++ [Ascii.space] := by
    rw [hname]
    rfl
  rw [htrim, hmark]
  exact prefix_trim_row h.name (fun c hc => isField_of_mem_symbolRow h c (List.mem_cons_of_mem _ hc))
    (List.cons_ne_nil _ _)

theorem mark_relocationLine {r : Relocation} (hsymbol : r.symbol.IsField)
    (hname : r.symbol = text "Section:") : sectionMark <+: (relocationLine r).trim := by
  have hmark : sectionMark = r.symbol ++ [Ascii.space] := by
    rw [hname]
    rfl
  rw [hmark]
  exact prefix_trim_row hsymbol
    (fun c hc => isField_of_mem_relocationRow hsymbol c (List.mem_cons_of_mem _ hc))
    (List.cons_ne_nil _ _)

namespace Reading

theorem line_marked {r : Reading} {l : Bytes} (hpart : r.part ≠ .sections) (h : sectionMark <+: l) :
    r.line l = .error .sectionOutside := by
  rw [line_of_mark h]
  unfold openSection
  rw [if_pos hpart]

/-- Lines that are read up to one that fails. -/
theorem lines_of_fails {r r' : Reading} {front : List Bytes} {l : Bytes} (h : Reads r front r')
    {cause : Error.Cause} (hfail : r'.line l.trim = .error cause) (number : Nat) (back : List Bytes) :
    ∃ e, r.lines number (front ++ l :: back) = .error e := by
  rw [h]
  unfold lines
  rw [hfail]
  exact ⟨_, rfl⟩

end Reading

/-- The first of those with a property. -/
theorem exists_first {α : Type} {P : α → Prop} [DecidablePred P] {xs : List α}
    (h : ¬ ∀ x ∈ xs, ¬ P x) :
    ∃ front x back, xs = front ++ x :: back ∧ P x ∧ ∀ y ∈ front, ¬ P y := by
  cases hfind : xs.find? P with
  | none => exact absurd (by simpa using List.find?_eq_none.mp hfind) h
  | some x =>
    obtain ⟨hx, front, back, rfl, hfront⟩ := List.find?_eq_some_iff_append.mp hfind
    exact ⟨front, x, back, rfl, by simpa using hx, fun y hy => by simpa using hfront y hy⟩

end ObjectText

namespace Object

variable {obj : Object}

theorem not_read_of_fails {front back : List Bytes} {l : Bytes} (hobj : obj.Legible)
    (hlines : ∀ l ∈ lines obj, l.length < lineLimit) {name : Bytes} {r : Reading}
    (hsplit : lines obj = front ++ l :: back) (hreads : Reading.Reads { object := { name } } front r)
    (hpart : r.part ≠ .sections) (hmark : sectionMark <+: l.trim) (obj' : Object) :
    Object.read name obj.print ≠ .ok obj' := by
  obtain ⟨e, he⟩ := Reading.lines_of_fails hreads (Reading.line_marked hpart hmark) 1 back
  rw [read_print_eq hobj hlines, hsplit, he]
  exact fun h => nomatch h

/-- A row that begins like a section is not read. -/
theorem not_read_of_marked (hregular : obj.Regular) (hobj : obj.Legible) (h : ¬ obj.Unmarked)
    (hlines : ∀ l ∈ lines obj, l.length < lineLimit) (name : Bytes) (obj' : Object) :
    Object.read name obj.print ≠ .ok obj' := by
  by_cases hsyms : ∀ s ∈ obj.symbols.entries, s.name ≠ text "Section:"
  · have hrels : ¬ ∀ r ∈ obj.relocations.entries, r.symbol ≠ text "Section:" :=
      fun hrels => h ⟨hsyms, hrels⟩
    obtain ⟨front, r, back, hentries, hr, hfront⟩ := exists_first hrels
    have hsorted := hregular.relocations
    have hall := hobj.relocations
    rw [hentries] at hsorted hall
    obtain ⟨next, current, hreads⟩ := reads_tables hregular hobj hsyms
      (fun t ht => ⟨hall t (List.mem_append_left _ ht), hfront t ht⟩)
      (List.pairwise_append.mp hsorted).1 name
    have hsplit : lines obj =
        (linesAbove obj ++ front.map relocationLine) ++ relocationLine r :: back.map relocationLine := by
      show linesAbove obj ++ obj.relocations.entries.map relocationLine = _
      rw [hentries, List.map_append, List.map_cons, List.append_assoc]
    refine not_read_of_fails hobj hlines hsplit hreads (fun e => nomatch e) ?_ obj'
    exact mark_relocationLine (hall r (by simp)).1 hr
  · obtain ⟨front, s, back, hentries, hs, hfront⟩ := exists_first hsyms
    have hasc : obj.symbols.entries.Pairwise fun a b => a.name < b.name := hregular.symbols
    have hall := hobj.symbols
    rw [hentries] at hasc hall
    obtain ⟨next, hreads⟩ := reads_symbolTable
      (fun t ht => ⟨hall t (List.mem_append_left _ ht), hfront t ht⟩)
      (List.pairwise_append.mp hasc).1 name
    have hsplit : lines obj = ([symbolsHeader, symbolColumns] ++ front.map symbolLine) ++
        symbolLine s :: (back.map symbolLine ++ [[], sectionsHeader] ++
          obj.sections.flatMap sectionLines ++ [relocationsHeader, relocationColumns] ++
          obj.relocations.entries.map relocationLine) := by
      unfold lines
      rw [hentries]
      simp
    refine not_read_of_fails hobj hlines hsplit hreads (fun e => nomatch e) ?_ obj'
    exact mark_symbolLine (hall s (by simp)) hs

end Object

/-! ## Reading again -/

/-- What is read from any text, written and read again is the same, and so is its text, unless a
symbol or the symbol of a relocation is called like the word in front of a section's name. Then the
text that is written is refused. -/
theorem rereading_keeps_unmarked {name s : Bytes} {obj : Object}
    (hread : Object.read name s = .ok obj)
    (hlines : ∀ l ∈ lines obj, l.length < lineLimit) :
    ((∃ obj', Object.read name obj.print = .ok obj') ↔ obj.Unmarked) ∧
      ∀ obj', Object.read name obj.print = .ok obj' →
        obj'.symbols.entries = obj.symbols.entries ∧ obj'.sections = obj.sections ∧
        obj'.relocations = obj.relocations ∧ obj'.print = obj.print := by
  have hregular := Object.read_regular hread
  have hlegible := Object.legible_of_read hread
  by_cases hmark : obj.Unmarked
  · obtain ⟨next, hagain⟩ := Object.read_print_of_legible hregular hlegible hmark hlines name
    refine ⟨iff_of_true ⟨_, hagain⟩ hmark, fun obj' h => ?_⟩
    rw [hagain] at h
    cases h
    exact ⟨rfl, rfl, rfl, Object.print_congr rfl rfl rfl⟩
  · have hrefused := Object.not_read_of_marked hregular hlegible hmark hlines name
    refine ⟨iff_of_false ?_ hmark, fun obj' h => absurd h (hrefused obj')⟩
    rintro ⟨obj', h⟩
    exact hrefused obj' h

/-- A text with symbols out of order, names that are no identifiers and a symbol from elsewhere. -/
def oddText : Bytes :=
  text "Symbols Table\ntitles\n\tz  data 7 1 0 3 -1 1 m.o\n é Section: 0 0 0 1 -1 1\n" ++
  text "Sections code\nSection:   a \t b \r\n01 02\nFF\nRelocations Table\ntitles\né SYMBOL 0 ?\n"

theorem rereading_keeps_unmarked_odd : ∃ obj obj',
    Object.read (text "m") oddText = .ok obj ∧ obj.Unmarked ∧
    (obj.symbols.size, obj.sections, obj.relocations.size) =
      (2, [{ name := text "a \t b", code := [1, 2, 255] }], 1) ∧
    Object.read (text "m") obj.print = .ok obj' ∧
    obj'.symbols.entries = obj.symbols.entries ∧ obj'.sections = obj.sections ∧
    obj'.relocations = obj.relocations ∧ obj'.print = obj.print := by
  have h : (Object.read (text "m") oddText).toOption.map (fun obj => decide (obj.Unmarked ∧
      (obj.symbols.size, obj.sections, obj.relocations.size) =
        (2, [{ name := text "a \t b", code := [1, 2, 255] }], 1) ∧
      ∀ l ∈ lines obj, l.length < lineLimit)) = some true := by
    decide +kernel
  obtain ⟨obj, hread, h⟩ := Option.map_eq_some_iff.mp h
  obtain ⟨hmark, hparts, hlines⟩ := of_decide_eq_true h
  have hread := eq_ok_of_toOption hread
  have hagain := rereading_keeps_unmarked hread hlines
  obtain ⟨obj', hobj'⟩ := hagain.1.mpr hmark
  exact ⟨obj, obj', hread, hmark, hparts, hobj', hagain.2 obj' hobj'⟩

/-- A text with a symbol that is called like the word in front of a section's name. -/
def markedSymbolText : Bytes := text "Symbols Table\ntitles\nSection:\tUND 0 0 0 0 -1 0\n"

/-- The text is read, but what is written of it is not. -/
theorem rereading_refuses_marked_symbol : ∃ obj,
    Object.read (text "a.o") markedSymbolText = .ok obj ∧
    (∀ l ∈ lines obj, l.length < lineLimit) ∧
    ¬ ∃ obj', Object.read (text "a.o") obj.print = .ok obj' := by
  have h : (Object.read (text "a.o") markedSymbolText).toOption.map (fun obj =>
      decide ((∀ l ∈ lines obj, l.length < lineLimit) ∧
        (Object.read (text "a.o") obj.print).toOption = none)) = some true := by
    decide +kernel
  obtain ⟨obj, hread, h⟩ := Option.map_eq_some_iff.mp h
  obtain ⟨hlines, hrefused⟩ := of_decide_eq_true h
  refine ⟨obj, eq_ok_of_toOption hread, hlines, ?_⟩
  rintro ⟨obj', hobj'⟩
  rw [hobj'] at hrefused
  cases hrefused

end AsmKit
