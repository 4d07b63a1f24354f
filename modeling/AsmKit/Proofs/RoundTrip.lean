import AsmKit.Proofs.Construction
import AsmKit.Proofs.ReadBack

/-
  Writing an object and reading it back. The reader goes through the parts in the order they are
  written in (`reads_tables`), so an object in order with legible names is read as it was, unless a row
  begins like a section (`Object.read_print_of_legible`), and what is written of it again is the same
  text. Assembled objects can be written: their names are names of the source, and no line gets too
  long (`length_lt_of_named`).
-/

namespace AsmKit

/-- Names in an object satisfy a condition, and no symbol comes from another object. -/
structure Object.Named (N : Bytes → Prop) (obj : Object) : Prop where
  symbols : ∀ s ∈ obj.symbols.entries, N s.name ∧ N s.sectionName ∧ s.file = []
  sections : ∀ s ∈ obj.sections, N s.name
  relocations : ∀ r ∈ obj.relocations.entries, N r.symbol ∧ N r.sectionName

theorem Object.Named.mono {N M : Bytes → Prop} {obj : Object} (h : obj.Named N)
    (hNM : ∀ n, N n → M n) : obj.Named M where
  symbols s hs :=
    have ⟨hname, hsection, hfile⟩ := h.symbols s hs
    ⟨hNM _ hname, hNM _ hsection, hfile⟩
  sections s hs := hNM _ (h.sections s hs)
  relocations r hr := ⟨hNM _ (h.relocations r hr).1, hNM _ (h.relocations r hr).2⟩

/-- The names in an object are such that they are found again in its lines. -/
structure Object.Legible (obj : Object) : Prop where
  symbols : ∀ s ∈ obj.symbols.entries, ObjectText.IsLegible s
  sections : ∀ s ∈ obj.sections, ObjectText.Reading.IsHeading s.name
  relocations : ∀ r ∈ obj.relocations.entries, r.symbol.IsField ∧ r.sectionName.IsField

/-- No row of an object begins like a section. -/
structure Object.Unmarked (obj : Object) : Prop where
  symbols : ∀ s ∈ obj.symbols.entries, s.name ≠ text "Section:"
  relocations : ∀ r ∈ obj.relocations.entries, r.symbol ≠ text "Section:"

instance (obj : Object) : Decidable obj.Unmarked :=
  decidable_of_iff ((∀ s ∈ obj.symbols.entries, s.name ≠ text "Section:") ∧
    ∀ r ∈ obj.relocations.entries, r.symbol ≠ text "Section:")
    ⟨fun h => ⟨h.1, h.2⟩, fun h => ⟨h.symbols, h.relocations⟩⟩

/-! ## Reading what was written -/

namespace ObjectText

open Reading

variable {obj : Object}

/-- The lines that every object has. -/
def fixedLines : List Bytes :=
  [symbolsHeader, symbolColumns, [], sectionsHeader, relocationsHeader, relocationColumns]

/-- What holds of each kind of line holds of all lines of an object. -/
theorem forall_mem_lines {L : Bytes → Prop} (hfixed : ∀ l ∈ fixedLines, L l)
    (hsymbols : ∀ s ∈ obj.symbols.entries, L (symbolLine s))
    (hsections : ∀ s ∈ obj.sections, L (sectionMark ++ s.name))
    (hbytes : ∀ bytes : Bytes, bytes.length ≤ 8 → L (byteRow bytes))
    (hrelocations : ∀ r ∈ obj.relocations.entries, L (relocationLine r)) :
    ∀ l ∈ lines obj, L l := by
  simp only [fixedLines, List.forall_mem_cons] at hfixed
  obtain ⟨hheader, hcolumns, hblank, hheader', hheader'', hcolumns', -⟩ := hfixed
  have hsection : ∀ s ∈ obj.sections, ∀ l ∈ sectionLines s, L l := by
    intro s hs
    simp only [sectionLines, List.forall_mem_cons, List.forall_mem_append, List.forall_mem_map,
      List.not_mem_nil, false_implies, implies_true, and_true]
    exact ⟨hsections s hs, fun bytes hrow => hbytes bytes (Bytes.of_mem_rows hrow).2, hblank⟩
  simp only [lines, List.forall_mem_append, List.forall_mem_cons, List.forall_mem_map,
    List.forall_mem_flatMap, List.not_mem_nil, false_implies, implies_true, and_true]
  exact ⟨⟨⟨⟨⟨⟨hheader, hcolumns⟩, hsymbols⟩, hblank, hheader'⟩, hsection⟩, hheader'', hcolumns'⟩,
    hrelocations⟩

theorem isLine_of_unbroken {l : Bytes} (h : Unbroken l) : Lines.IsLine l :=
  ⟨fun hmem => (h _ hmem).1 rfl, fun hlast => (h _ (List.mem_of_mem_getLast? hlast)).2 rfl⟩

/-- The end of a section's name is no carriage return, for it is not blank. -/
theorem isLine_of_isHeading {name : Bytes} (h : IsHeading name) :
    Lines.IsLine (sectionMark ++ name) := by
  refine ⟨fun hmem => ?_, fun hlast => ?_⟩
  · obtain hmem | hmem := List.mem_append.mp hmem
    · exact absurd hmem (by decide)
    · exact h.unbroken hmem
  · rw [List.getLast?_append_of_ne_nil _ h.ne_nil] at hlast
    obtain ⟨front, rfl⟩ := List.getLast?_eq_some_iff.mp hlast
    have hpiece := h.trimmed.last (Piece.ofByte Ascii.carriageReturn) (by
      rw [Bytes.pieces_append_ascii (by decide), Bytes.pieces_ascii (by decide)]
      exact List.getLast?_concat ..)
    exact absurd hpiece (by decide)

theorem isLine_lines (h : obj.Legible) : ∀ l ∈ lines obj, Lines.IsLine l := by
  have hfixed : ∀ l ∈ fixedLines, Unbroken l := by decide +kernel
  refine forall_mem_lines (fun l hl => isLine_of_unbroken (hfixed l hl)) (fun s hs => ?_)
    (fun s hs => isLine_of_isHeading (h.sections s hs))
    (fun bytes _ => isLine_of_unbroken (unbroken_byteRow bytes)) fun r hr => ?_
  · exact isLine_of_unbroken (unbroken_symbolLine (h.symbols s hs))
  · obtain ⟨hsymbol, hsection⟩ := h.relocations r hr
    exact isLine_of_unbroken (unbroken_relocationLine hsymbol hsection)

/-- The first lines of an object are read up to any of its symbols. -/
theorem reads_symbolTable {syms : List Symbol}
    (h : ∀ s ∈ syms, IsLegible s ∧ s.name ≠ text "Section:")
    (hasc : syms.Pairwise fun a b => a.name < b.name) (name : Bytes) :
    ∃ next, Reads { object := { name } } ([symbolsHeader, symbolColumns] ++ syms.map symbolLine)
      { object := { name, symbols := ⟨syms, next⟩ }, part := .symbols } := by
  obtain ⟨next, hsymbols⟩ := reads_symbols
    (r := { object := { name }, part := .symbols }) rfl rfl h hasc
  exact ⟨next, (reads_symbolTitles { object := { name } }).append hsymbols⟩

/-- The lines of an object before its relocations. -/
def linesAbove (obj : Object) : List Bytes :=
  [symbolsHeader, symbolColumns] ++ obj.symbols.entries.map symbolLine
    ++ [[], sectionsHeader] ++ obj.sections.flatMap sectionLines
    ++ [relocationsHeader, relocationColumns]

/-- An object in order is read up to any of its relocations with its parts as they were. -/
theorem reads_tables (hobj : obj.Regular) (h : obj.Legible)
    (hsyms : ∀ s ∈ obj.symbols.entries, s.name ≠ text "Section:") {rels : List Relocation}
    (hrels : ∀ r ∈ rels, (r.symbol.IsField ∧ r.sectionName.IsField) ∧ r.symbol ≠ text "Section:")
    (hsorted : rels.Pairwise fun a b => a.symbol ≤ b.symbol) (name : Bytes) :
    ∃ next current, Reads { object := { name } } (linesAbove obj ++ rels.map relocationLine) {
      object := { name, symbols := ⟨obj.symbols.entries, next⟩, sections := obj.sections,
                  relocations := ⟨rels⟩ }
      part := .relocations
      current } := by
  obtain ⟨next, hsymbols⟩ := reads_symbolTable (fun s hs => ⟨h.symbols s hs, hsyms s hs⟩)
    hobj.symbols name
  obtain ⟨current, hsections⟩ := reads_sections
    (r := { object := { name, symbols := ⟨obj.symbols.entries, next⟩ }, part := .sections }) rfl rfl
    h.sections hobj.sections
  have hunplaced : obj.sections.map Section.unplaced = obj.sections := by
    rw [List.map_congr_left hobj.unplaced, List.map_id']
  have hrelocations := reads_relocations
    (r := { object := { name, symbols := ⟨obj.symbols.entries, next⟩, sections := obj.sections }
            part := .relocations, current }) rfl rfl hrels hsorted
  dsimp only at hsections
  rw [List.nil_append, hunplaced] at hsections
  have htables := (hsymbols.append (reads_sectionsHeader _)).append hsections
  exact ⟨next, current, (htables.append (reads_relocationTitles _)).append hrelocations⟩

end ObjectText

namespace Object

variable {obj obj' : Object}

/-- The text of an object is made of its tables and the contents of its sections. -/
theorem print_congr (hsymbols : obj'.symbols.entries = obj.symbols.entries)
    (hsections : obj'.sections = obj.sections) (hrelocations : obj'.relocations = obj.relocations) :
    obj'.print = obj.print := by
  unfold print ObjectText.lines
  rw [hsymbols, hsections, hrelocations]

/-- The lines of a legible object are read as they were printed. -/
theorem read_print_eq (h : obj.Legible)
    (hlines : ∀ l ∈ ObjectText.lines obj, l.length < ObjectText.lineLimit) (name : Bytes) :
    Object.read name obj.print =
      (({ object := { name } : ObjectText.Reading }).lines 1 (ObjectText.lines obj)).map
        ObjectText.Reading.object := by
  have hsource : Lines.read ObjectText.lineLimit obj.print = ⟨ObjectText.lines obj, false⟩ :=
    Lines.read_lines fun l hl => ⟨ObjectText.isLine_lines h l hl, hlines l hl⟩
  unfold Object.read
  rw [hsource]
  dsimp only
  cases ({ object := { name } : ObjectText.Reading }).lines 1 (ObjectText.lines obj) with
  | error e => rfl
  | ok r => rfl

theorem read_print_of_legible (hobj : obj.Regular) (h : obj.Legible) (hmark : obj.Unmarked)
    (hlines : ∀ l ∈ ObjectText.lines obj, l.length < ObjectText.lineLimit) (name : Bytes) :
    ∃ next, Object.read name obj.print =
      .ok { obj with name, symbols := { obj.symbols with next } } := by
  obtain ⟨next, current, hreads⟩ := ObjectText.reads_tables hobj h hmark.symbols
    (fun r hr => ⟨h.relocations r hr, hmark.relocations r hr⟩) hobj.relocations name
  have hread := hreads 1 []
  rw [List.append_nil] at hread
  refine ⟨next, ?_⟩
  rw [read_print_eq h hlines]
  show Except.map _ (ObjectText.Reading.lines _ 1
    (ObjectText.linesAbove obj ++ obj.relocations.entries.map ObjectText.relocationLine)) = _
  rw [hread]
  rfl

theorem legible_of_named (h : obj.Named fun n => n.isIdentifier = true) : obj.Legible := by
  have hfield {n : Bytes} (hn : n.isIdentifier = true) : n.IsField :=
    (Bytes.isCell_of_isIdentifier hn).isField
  constructor
  · intro s hs
    obtain ⟨hname, hsection, hfile⟩ := h.symbols s hs
    exact ⟨hfield hname, hfield hsection, .inl hfile⟩
  · intro s hs
    exact ObjectText.Reading.isHeading_of_isField (hfield (h.sections s hs))
  · intro r hr
    obtain ⟨hsymbol, hsection⟩ := h.relocations r hr
    exact ⟨hfield hsymbol, hfield hsection⟩

theorem unmarked_of_named (h : obj.Named fun n => n.isIdentifier = true) : obj.Unmarked := by
  have hname {n : Bytes} (hn : n.isIdentifier = true) : n ≠ text "Section:" := by
    rintro rfl
    exact absurd hn (by decide)
  exact ⟨fun s hs => hname (h.symbols s hs).1, fun r hr => hname (h.relocations r hr).1⟩

theorem read_print (hobj : obj.Regular) (h : obj.Named fun n => n.isIdentifier = true)
    (hlines : ∀ l ∈ ObjectText.lines obj, l.length < ObjectText.lineLimit) (name : Bytes) :
    ∃ next, Object.read name obj.print =
      .ok { obj with name, symbols := { obj.symbols with next } } :=
  read_print_of_legible hobj (legible_of_named h) (unmarked_of_named h) hlines name

end Object

/-! ## Lengths of lines -/

namespace ObjectText

open Bytes

theorem length_padTo_le (s : Bytes) (n : Nat) : (s.padTo n).length ≤ n + s.length := by
  unfold padTo
  rw [List.length_append, List.length_replicate]
  omega

theorem length_row_le {cells : List (Nat × Bytes)} {k : Nat} (last : Bytes)
    (h : ∀ c ∈ cells, c.1 + c.2.length < k) :
    (row cells last).length ≤ 2 + cells.length * k + last.length := by
  have hcells : (cells.flatMap fun c => c.2.padTo c.1 ++ [Ascii.space]).length ≤
      cells.length * k := by
    induction cells with
    | nil => exact Nat.zero_le _
    | cons c cells ih =>
      have hc := h c (List.mem_cons_self ..)
      have hpad := length_padTo_le c.2 c.1
      have hrest := ih fun c' hc' => h c' (List.mem_cons_of_mem c hc')
      rw [List.flatMap_cons, List.length_append, List.length_append, List.length_singleton,
        List.length_cons, Nat.succ_mul]
      omega
  unfold row
  rw [List.length_append, List.length_append]
  exact Nat.add_le_add_right (Nat.add_le_add_left hcells 2) _

theorem length_byteRow_le (bytes : Bytes) : (byteRow bytes).length ≤ 3 * bytes.length := by
  unfold byteRow
  induction bytes with
  | nil => exact Nat.le_refl _
  | cons b rest ih =>
    have hb := (isCell_hex b).2
    cases rest with
    | nil => simp [joinWith, hb]
    | cons c rest =>
      rw [List.map_cons, List.map_cons, joinWith_cons_cons, List.length_append, List.length_cons, hb]
      rw [List.map_cons] at ih
      simp only [List.length_cons] at ih ⊢
      omega

theorem length_decimal_word (w : UInt32) : (decimal w.toNat).length ≤ 10 := by
  have hlt := w.toNat_lt
  exact length_decimal_le (by decide) (by omega)

theorem length_signed_le (i : Int64) : (signed i.toInt).length ≤ 20 := by
  have hlow := i.le_toInt
  have hhigh := i.toInt_lt
  rcases hi : i.toInt with n | n
  · rw [hi] at hhigh
    have hn : (n : Int) < 2 ^ 63 := hhigh
    have hdigits : (decimal n).length ≤ 19 := length_decimal_le (by decide) (by omega)
    exact Nat.le_trans hdigits (by decide)
  · have hdigits : (decimal (n + 1)).length ≤ 19 := length_decimal_le (by decide) (by omega)
    exact Nat.succ_le_succ hdigits

theorem length_flag (b : Bool) : (flag b).length = 1 := by
  cases b
  · rfl
  · rfl

theorem length_spelling_le (t : RelocationType) : t.spelling.length ≤ 15 := by
  cases t
  · decide
  · decide
  · decide

variable {obj : Object} {limit : Nat}

theorem length_symbolLine_le {s : Symbol} (hname : s.name.length < limit)
    (hsection : s.sectionName.length < limit) (hfile : s.file = []) :
    (symbolLine s).length ≤ 2 + 8 * (limit + 32) := by
  have hvalue := length_decimal_word s.value
  have hnumber := length_signed_le s.number
  have hsize := length_signed_le s.size
  unfold symbolLine symbolRow
  rw [hfile]
  refine Nat.le_trans (length_dropSpaces_le _) (length_row_le (k := limit + 32) [] ?_)
  simp only [List.forall_mem_cons, length_flag]
  exact ⟨by omega, by omega, by omega, by omega, by omega, by omega, by omega, by omega,
    fun _ hc => nomatch hc⟩

theorem length_relocationLine_le {r : Relocation} (hsymbol : r.symbol.length < limit)
    (hsection : r.sectionName.length < limit) :
    (relocationLine r).length ≤ 2 + 3 * (limit + 32) + limit := by
  have htype := length_spelling_le r.type
  have hlocation := length_decimal_word r.location
  have hrow : (relocationLine r).length ≤ 2 + 3 * (limit + 32) + r.sectionName.length := by
    refine length_row_le (k := limit + 32) r.sectionName ?_
    simp only [List.forall_mem_cons]
    exact ⟨by omega, by omega, by omega, fun _ hc => nomatch hc⟩
  omega

/-- An object with names of a source has no line that is too long. -/
theorem length_lt_of_named (h : obj.Named (IsName Assembler.lineLimit)) :
    ∀ l ∈ lines obj, l.length < lineLimit := by
  have hlimit : lineLimit = 16 * Assembler.lineLimit := rfl
  have hroom : 64 < Assembler.lineLimit := by decide
  rw [hlimit]
  refine forall_mem_lines (fun l hl => ?_) (fun s hs => ?_) (fun s hs => ?_) (fun bytes hbytes => ?_)
    fun r hr => ?_
  · have hfixed : ∀ l ∈ fixedLines, l.length ≤ 128 := by decide +kernel
    have hl := hfixed l hl
    omega
  · obtain ⟨hname, hsection, hfile⟩ := h.symbols s hs
    have hline := length_symbolLine_le hname.2 hsection.2 hfile
    omega
  · have hname := (h.sections s hs).2
    have hmark : sectionMark.length = 9 := by decide
    rw [List.length_append]
    omega
  · have hline := length_byteRow_le bytes
    omega
  · obtain ⟨hsymbol, hsection⟩ := h.relocations r hr
    have hline := length_relocationLine_le hsymbol.2 hsection.2
    omega

end ObjectText

/-! ## Assembled objects -/

/-- The names in an assembled object are names of its source, or stand for no section. -/
theorem Object.named_of_assemble {name source : Bytes} {obj : Object}
    (h : (Object.assemble name source).1 = .ok obj) :
    obj.Named (IsName Assembler.lineLimit) := by
  have hmakes := makes_of_assemble h
  have ha := assembled h
  have hsymbols := hmakes.symbols fun s hs => nomatch hs
  have hget {n : Bytes} {s : Symbol} (hs : obj.symbols.get? n = some s) :
      IsName Assembler.lineLimit n := by
    rw [← SymbolTable.name_of_get? hs]
    exact (hsymbols s (SymbolTable.mem_of_get? hs)).1
  have hsections : ∀ n ∈ obj.sectionNames, IsName Assembler.lineLimit n := by
    intro n hn
    obtain ⟨s, hs, -⟩ := ha.sound.sections n hn
    exact hget hs
  constructor
  · intro s hs
    obtain ⟨hname, hfile⟩ := hsymbols s hs
    refine ⟨hname, ?_, hfile⟩
    have hsound := ha.sound.symbols s.name s (ha.sound.ascending.get?_eq_some_iff.mpr ⟨hs, rfl⟩)
    rcases hdef : s.isDefined with _ | _
    · rw [(hsound.blank hdef).1]
      exact ⟨by decide, by decide⟩
    · exact hsections _ (hsound.home hdef)
  · intro s hs
    exact hsections s.name (List.mem_map_of_mem hs)
  · intro r hr
    obtain ⟨s, sym, hs, hsym, -⟩ := ha.filled r hr
    obtain ⟨hsym, -⟩ := SymbolTable.lookup_eq_ok_iff.mp hsym
    refine ⟨hget hsym, hsections _ ?_⟩
    rw [← findSection_isSome_iff, hs]
    rfl

/-! ## The round trip -/

/-- An object that is built with identifiers as names, with no symbol taken over from another object
and no line too long, is read back from its text with the same symbols, sections and relocations in
the same order, and the text of what is read is the same. Assembled objects are such objects. -/
theorem text_round_trip :
    (∀ obj : Object, obj.Built → obj.Named (fun n => n.isIdentifier = true) →
      (∀ l ∈ ObjectText.lines obj, l.length < ObjectText.lineLimit) → ∀ name, ∃ obj',
        Object.read name obj.print = .ok obj' ∧ obj'.name = name ∧
        obj'.symbols.entries = obj.symbols.entries ∧ obj'.sections = obj.sections ∧
        obj'.relocations = obj.relocations ∧ obj'.print = obj.print) ∧
    (∀ name source obj, (Object.assemble name source).1 = .ok obj →
      obj.Built ∧ obj.Named (fun n => n.isIdentifier = true) ∧
      ∀ l ∈ ObjectText.lines obj, l.length < ObjectText.lineLimit) := by
  refine ⟨fun obj hbuilt hnamed hlines name => ?_, fun name source obj hobj => ?_⟩
  · obtain ⟨next, hread⟩ := Object.read_print hbuilt.regular hnamed hlines name
    exact ⟨_, hread, rfl, rfl, rfl, rfl, Object.print_congr rfl rfl rfl⟩
  · have hnamed := Object.named_of_assemble hobj
    exact ⟨(Object.makes_of_assemble hobj).built, hnamed.mono fun _ hn => hn.1,
      ObjectText.length_lt_of_named hnamed⟩

/-- A symbol with the largest number there is and the smallest size. -/
def largest : Symbol :=
  ⟨text "z", text "Section", 4294967295, true, false, Int64.maxValue, Int64.minValue, true, []⟩

/-- A symbol with the smallest number and the largest size, named like the start of a heading. -/
def smallest : Symbol :=
  ⟨text "Symbols", undefinedSection, 0, false, true, Int64.minValue, Int64.maxValue, false, []⟩

/-- An object that no source describes, with entries that come in another order than they are kept
in. -/
def extremes : Object where
  name := text "m"
  symbols := (({} : SymbolTable).insert largest).insert smallest
  relocations := (({} : RelocationTable).add ⟨text "z", .none, 4294967295, text "Section"⟩).add
    ⟨text "Symbols", .symbolIndirect, 0, text "UND"⟩
  sections := [{ name := text "Section", code := [0, 1, 2, 3, 4, 127, 128, 254, 255] }]

theorem text_round_trip_extremes :
    (extremes.Built ∧ ∃ obj', Object.read (text "n") extremes.print = .ok obj' ∧
      obj'.symbols.entries = extremes.symbols.entries ∧ obj'.sections = extremes.sections ∧
      obj'.relocations = extremes.relocations ∧ obj'.print = extremes.print) ∧
    ∃ obj, (Object.assemble (text "a.o") everyForm).1 = .ok obj ∧ obj.relocations.size = 5 ∧
      ∃ obj', Object.read (text "b.o") obj.print = .ok obj' ∧ obj'.name = text "b.o" ∧
        obj'.sections = obj.sections ∧ obj'.relocations = obj.relocations := by
  refine ⟨?_, ?_⟩
  · have hbuilt : extremes.Built := by
      refine ⟨text "m", .head (.addSection (text "Section") rfl) (.head (.append (text "Section")
        [0, 1, 2, 3, 4, 127, 128, 254, 255]) ?_)⟩
      refine .head (.insertSymbol largest trivial) (.head (.insertSymbol smallest trivial) ?_)
      exact .head (.addRelocation ⟨text "z", .none, 4294967295, text "Section"⟩)
        (.head (.addRelocation ⟨text "Symbols", .symbolIndirect, 0, text "UND"⟩) .refl)
    have hnamed : extremes.Named fun n => n.isIdentifier = true :=
      ⟨by decide +kernel, by decide +kernel, by decide +kernel⟩
    obtain ⟨obj', hread, -, hparts⟩ :=
      text_round_trip.1 extremes hbuilt hnamed (by decide +kernel) (text "n")
    exact ⟨hbuilt, obj', hread, hparts⟩
  · have hsize : (Object.assemble (text "a.o") everyForm).1.toOption.map
        (fun obj => obj.relocations.size) = some 5 := by
      decide +kernel
    obtain ⟨obj, hobj, hsize⟩ := Option.map_eq_some_iff.mp hsize
    have hobj := eq_ok_of_toOption hobj
    obtain ⟨hbuilt, hnamed, hlines⟩ := text_round_trip.2 _ _ obj hobj
    obtain ⟨obj', hread, hname, -, hsections, hrelocations, -⟩ :=
      text_round_trip.1 obj hbuilt hnamed hlines (text "b.o")
    exact ⟨obj, hobj, hsize, obj', hread, hname, hsections, hrelocations⟩

end AsmKit
