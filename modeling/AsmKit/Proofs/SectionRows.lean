import AsmKit.Proofs.Fields
import AsmKit.Proofs.Reading

/-
  The bytes that a text gives its sections. The reader goes by what it has seen, and each of the
  four things it goes by can be told from the lines before: the part that the last heading begins, the
  section that the last mark opens, and whether column titles are due, which they are behind the
  heading of a table up to the next line that is neither a heading nor a mark (`Reading.Follows`). So
  the bytes of a section are those of the rows behind its mark, except that a row which comes where
  titles are due is taken for them.
-/

namespace AsmKit

namespace ObjectText

theorem readBytes_append {fields more : List Bytes} {bytes bytes' : Bytes}
    (h : readBytes fields = .ok bytes) (h' : readBytes more = .ok bytes') :
    readBytes (fields ++ more) = .ok (bytes ++ bytes') := by
  unfold readBytes at h h' ⊢
  rw [List.mapM_append, h, h']
  rfl

/-! ## Kinds of lines -/

/-- What a line of a text is, blanks around it apart. -/
inductive LineKind where
  | blank
  /-- The heading of a table, behind which column titles stand. -/
  | table (part : Part)
  | sections
  | mark (name : Bytes)
  | plain
deriving DecidableEq

def lineKind (l : Bytes) : LineKind :=
  if l.trim.isEmpty then .blank
  else if l.trim = symbolsHeader then .table .symbols
  else if l.trim = sectionsHeader then .sections
  else if l.trim = relocationsHeader then .table .relocations
  else if sectionMark.isPrefixOf l.trim then .mark (Bytes.trim (l.trim.drop sectionMark.length))
  else .plain

namespace LineKind

/-- The part that begins with a heading. -/
def part? : LineKind → Option Part
  | .table part => some part
  | .sections => some .sections
  | _ => none

/-- The section that a mark opens. -/
def mark? : LineKind → Option Bytes
  | .mark name => some name
  | _ => none

def isTable : LineKind → Bool
  | .table _ => true
  | _ => false

end LineKind

/-! ## What stands before a line -/

/-- The sections that are opened, in order. -/
def marks (ls : List Bytes) : List Bytes := ls.filterMap fun l => (lineKind l).mark?

/-- The part that the next line belongs to. -/
def partAfter (ls : List Bytes) : Part :=
  (ls.filterMap fun l => (lineKind l).part?).getLast?.getD .none

/-- The section that was opened last. -/
def openAfter (ls : List Bytes) : Option Bytes := (marks ls).getLast?

/-- There is the heading of a table with no plain line behind it. -/
def titlesDue (ls : List Bytes) : Bool :=
  (ls.reverse.takeWhile fun l => lineKind l ≠ .plain).any fun l => (lineKind l).isTable

/-- A line in the part of the sections that is neither heading nor mark, nor in the place of
titles. -/
def isByteRow (before : List Bytes) (l : Bytes) : Bool :=
  lineKind l = .plain && partAfter before = .sections && !titlesDue before

/-- The rows of bytes that stand in a section, in order. -/
def rowsOf (n : Bytes) (ls : List Bytes) : List Bytes :=
  (ls.zipIdx.filter fun x => isByteRow (ls.take x.2) x.1 && openAfter (ls.take x.2) = some n).map
    Prod.fst

section

variable (ls : List Bytes) (l : Bytes)

theorem marks_concat : marks (ls ++ [l]) = marks ls ++ (lineKind l).mark?.toList := by
  unfold marks
  rw [List.filterMap_append]
  rcases h : (lineKind l).mark? with _ | n <;> simp [h]

theorem partAfter_concat : partAfter (ls ++ [l]) = (lineKind l).part?.getD (partAfter ls) := by
  unfold partAfter
  rw [List.filterMap_append]
  rcases h : (lineKind l).part? with _ | part <;> simp [h]

theorem openAfter_concat : openAfter (ls ++ [l]) = (lineKind l).mark?.or (openAfter ls) := by
  unfold openAfter
  rw [marks_concat]
  rcases (lineKind l).mark? with _ | n <;> simp

theorem titlesDue_concat : titlesDue (ls ++ [l]) =
    (decide (lineKind l ≠ .plain) && ((lineKind l).isTable || titlesDue ls)) := by
  unfold titlesDue
  rw [List.reverse_append, List.reverse_singleton, List.singleton_append, List.takeWhile_cons]
  split
  · next h => simp [h]
  · next h => simp [h]

theorem mem_marks_of_openAfter {ls : List Bytes} {n : Bytes} {i : Nat}
    (h : openAfter (ls.take i) = some n) : n ∈ marks ls := by
  have hmem : n ∈ marks (ls.take i) := List.mem_of_getLast? h
  exact ((List.take_sublist i ls).filterMap _).subset hmem

theorem rowsOf_concat (n : Bytes) : rowsOf n (ls ++ [l]) =
    rowsOf n ls ++ if isByteRow ls l && openAfter ls = some n then [l] else [] := by
  unfold rowsOf
  rw [List.zipIdx_append, List.filter_append, List.map_append]
  congr 1
  · congr 1
    refine List.filter_congr fun x hx => ?_
    have hlt := List.snd_lt_of_mem_zipIdx hx
    rw [List.take_append_of_le_length (by omega)]
  · rw [List.zipIdx_singleton, Nat.zero_add, List.filter_singleton, List.take_left,
      Bool.cond_eq_ite]
    split
    · rfl
    · rfl

theorem rowsOf_eq_nil {n : Bytes} (h : n ∉ marks ls) : rowsOf n ls = [] := by
  unfold rowsOf
  rw [List.map_eq_nil_iff, List.filter_eq_nil_iff]
  intro x _ hx
  rw [Bool.and_eq_true, decide_eq_true_eq] at hx
  exact h (mem_marks_of_openAfter hx.2)

end

namespace Reading

/-! ## What a line does -/

/-- What a line does to the state of the reader, by its kind. -/
inductive Takes (l : Bytes) (r : Reading) : Reading → Prop
  | blank (h : lineKind l = .blank) : Takes l r r
  | table {part : Part} (h : lineKind l = .table part) :
      Takes l r { r with part, titlesAhead := true }
  | sections (h : lineKind l = .sections) : Takes l r { r with part := .sections }
  | mark {name : Bytes} (h : lineKind l = .mark name) (hnew : name ∉ r.object.sectionNames) :
      Takes l r { r with
        object := { r.object with sections := r.object.sections ++ [{ name }] }
        current := some name }
  | titles (h : lineKind l = .plain) (hdue : r.titlesAhead = true) :
      Takes l r { r with titlesAhead := false }
  | bytes {name code : Bytes} (h : lineKind l = .plain) (hdue : r.titlesAhead = false)
      (hpart : r.part = .sections) (hcurrent : r.current = some name)
      (hcode : readBytes l.fields = .ok code) :
      Takes l r { r with object := r.object.modifySection name (·.append code) }
  | row {object : Object} (h : lineKind l = .plain) (hdue : r.titlesAhead = false)
      (hpart : r.part ≠ .sections) (hsections : object.sections = r.object.sections) :
      Takes l r { r with object }

variable {r r' : Reading} {l : Bytes} {ls rest : List Bytes} {number : Nat}

theorem takes_of_row (h : lineKind l = .plain) (hdue : r.titlesAhead = false)
    (hrow : r.row l.trim = .ok r') : Takes l r r' := by
  unfold row at hrow
  split at hrow
  · next hpart =>
    obtain ⟨sym, -, hrow⟩ := except_bind_eq_ok.mp hrow
    split at hrow
    · cases hrow
    · cases hrow
      exact .row h hdue (by simp [hpart]) rfl
  · next hpart =>
    split at hrow
    · cases hrow
    · next name hcurrent =>
      obtain ⟨code, hcode, hrow⟩ := except_bind_eq_ok.mp hrow
      cases hrow
      rw [Bytes.fields_trim] at hcode
      exact .bytes h hdue hpart hcurrent hcode
  · next hpart =>
    obtain ⟨rel, -, hrow⟩ := except_bind_eq_ok.mp hrow
    cases hrow
    exact .row h hdue (by simp [hpart]) rfl
  · cases hrow

theorem takes_of_line (h : r.line l.trim = .ok r') : Takes l r r' := by
  unfold Reading.line at h
  split at h
  · next hblank =>
    cases h
    exact .blank (if_pos hblank)
  next hblank =>
  split at h
  · next hsymbols =>
    cases h
    refine .table ?_
    rw [lineKind, if_neg hblank, if_pos hsymbols]
  next hsymbols =>
  split at h
  · next hsections =>
    cases h
    refine .sections ?_
    rw [lineKind, if_neg hblank, if_neg hsymbols, if_pos hsections]
  next hsections =>
  split at h
  · next hrelocations =>
    cases h
    refine .table ?_
    rw [lineKind, if_neg hblank, if_neg hsymbols, if_neg hsections, if_pos hrelocations]
  next hrelocations =>
  split at h
  · next hmark =>
    unfold openSection at h
    split at h
    · cases h
    · split at h
      · cases h
      · next object hadd =>
        cases h
        obtain ⟨hnew, rfl⟩ := Object.addSection_eq_ok_iff.mp hadd
        refine .mark ?_ hnew
        rw [lineKind, if_neg hblank, if_neg hsymbols, if_neg hsections, if_neg hrelocations,
          if_pos hmark]
  next hmark =>
  have hplain : lineKind l = .plain := by
    rw [lineKind, if_neg hblank, if_neg hsymbols, if_neg hsections, if_neg hrelocations,
      if_neg hmark]
  split at h
  · next hdue =>
    cases h
    exact .titles hplain hdue
  · next hdue => exact takes_of_row hplain (Bool.eq_false_iff.mpr hdue) h

/-! ## What the lines have come to -/

/-- The state of the reader after some lines. -/
structure Follows (ls : List Bytes) (r : Reading) : Prop where
  part : r.part = partAfter ls
  current : r.current = openAfter ls
  titles : r.titlesAhead = titlesDue ls
  names : r.object.sectionNames = marks ls
  housed : ∀ i l, ls[i]? = some l → isByteRow (ls.take i) l = true →
    ∃ n, openAfter (ls.take i) = some n
  code : ∀ sec ∈ r.object.sections,
    readBytes ((rowsOf sec.name ls).flatMap Bytes.fields) = .ok sec.code

theorem follows_nil (name : Bytes) : Follows [] { object := { name } } where
  part := rfl
  current := rfl
  titles := rfl
  names := rfl
  housed _ _ h := by cases h
  code _ h := by cases h

/-- A line is housed if it has a section where it holds bytes. -/
theorem housed_concat (h : ∀ i l, ls[i]? = some l → isByteRow (ls.take i) l = true →
      ∃ n, openAfter (ls.take i) = some n)
    (hl : isByteRow ls l = true → ∃ n, openAfter ls = some n) :
    ∀ i k, (ls ++ [l])[i]? = some k → isByteRow ((ls ++ [l]).take i) k = true →
      ∃ n, openAfter ((ls ++ [l]).take i) = some n := by
  intro i k hk hrow
  rcases Nat.lt_or_ge i ls.length with hlt | hge
  · rw [List.getElem?_append_left hlt] at hk
    rw [List.take_append_of_le_length (Nat.le_of_lt hlt)] at hrow ⊢
    exact h i k hk hrow
  · rw [List.getElem?_append_right hge] at hk
    obtain ⟨hi, rfl⟩ := List.getElem?_eq_some_iff.mp hk
    obtain rfl : i = ls.length := by
      rw [List.length_singleton] at hi
      omega
    rw [List.take_left] at hrow ⊢
    exact hl (by simpa using hrow)

/-- A line that holds no bytes and opens no section leaves the sections as they are. -/
theorem Follows.quiet (h : Follows ls r) (hmark : (lineKind l).mark? = none)
    (hrow : isByteRow ls l = false) (hsections : r'.object.sections = r.object.sections)
    (hpart : r'.part = (lineKind l).part?.getD r.part) (hcurrent : r'.current = r.current)
    (htitles : r'.titlesAhead =
      (decide (lineKind l ≠ .plain) && ((lineKind l).isTable || r.titlesAhead))) :
    Follows (ls ++ [l]) r' := by
  constructor
  · rw [partAfter_concat, hpart, h.part]
  · rw [openAfter_concat, hmark, hcurrent, h.current, Option.none_or]
  · rw [titlesDue_concat, htitles, h.titles]
  · rw [marks_concat, hmark, Option.toList_none, List.append_nil, ← h.names]
    unfold Object.sectionNames
    rw [hsections]
  · refine housed_concat h.housed fun hbytes => ?_
    rw [hrow] at hbytes
    cases hbytes
  · rw [hsections]
    intro sec hsec
    rw [rowsOf_concat, hrow]
    simpa using h.code sec hsec

theorem Follows.line (h : Follows ls r) (hl : Takes l r r') : Follows (ls ++ [l]) r' := by
  cases hl with
  | blank hkind | table hkind | sections hkind =>
    exact h.quiet (by rw [hkind]; rfl) (by simp [isByteRow, hkind]) rfl (by rw [hkind]; rfl) rfl
      (by rw [hkind]; rfl)
  | titles hkind hdue =>
    exact h.quiet (by rw [hkind]; rfl) (by simp [isByteRow, hkind, ← h.titles, hdue]) rfl
      (by rw [hkind]; rfl) rfl (by rw [hkind]; rfl)
  | row hkind hdue hpart hsections =>
    exact h.quiet (by rw [hkind]; rfl) (by simp [isByteRow, ← h.part, hpart]) hsections
      (by rw [hkind]; rfl) rfl (by rw [hkind]; exact hdue)
  | @mark name hkind hnew =>
    have hmark : (lineKind l).mark? = some name := by rw [hkind]; rfl
    have hrow : isByteRow ls l = false := by simp [isByteRow, hkind]
    constructor
    · rw [partAfter_concat, hkind]
      exact h.part
    · rw [openAfter_concat, hmark]
      rfl
    · rw [titlesDue_concat, hkind]
      exact h.titles
    · rw [Object.sectionNames_opened, marks_concat, hmark, h.names]
      rfl
    · refine housed_concat h.housed fun hbytes => ?_
      rw [hrow] at hbytes
      cases hbytes
    · intro sec hsec
      rw [rowsOf_concat, hrow, Bool.false_and, if_neg Bool.false_ne_true, List.append_nil]
      rcases List.mem_append.mp hsec with hsec | hsec
      · exact h.code sec hsec
      · obtain rfl := List.mem_singleton.mp hsec
        rw [rowsOf_eq_nil ls (h.names ▸ hnew)]
        rfl
  | @bytes name code hkind hdue hpart hcurrent hcode =>
    have hrow : isByteRow ls l = true := by
      simp [isByteRow, hkind, ← h.part, hpart, ← h.titles, hdue]
    have hopen : openAfter ls = some name := h.current ▸ hcurrent
    constructor
    · rw [partAfter_concat, hkind]
      exact h.part
    · rw [openAfter_concat, hkind]
      exact h.current
    · rw [titlesDue_concat, hkind]
      exact hdue
    · rw [Object.sectionNames_modifySection, marks_concat, hkind, h.names]
      exact (List.append_nil _).symm
    · exact housed_concat h.housed fun _ => ⟨name, hopen⟩
    · intro sec hsec
      obtain ⟨sec₀, hsec₀, rfl⟩ := List.mem_map.mp hsec
      have hcode₀ := h.code sec₀ hsec₀
      split
      · next hname =>
        rw [rowsOf_concat, hrow, hopen, decide_eq_true rfl, Bool.and_self, if_pos rfl,
          List.flatMap_append, List.flatMap_singleton, ← hname]
        exact readBytes_append hcode₀ hcode
      · next hname =>
        have hother : ¬ some name = some sec₀.name := fun e => hname (Option.some.inj e).symm
        rw [rowsOf_concat, hopen, decide_eq_false hother, Bool.and_false, if_neg Bool.false_ne_true,
          List.append_nil]
        exact hcode₀

/-- And so after all lines. -/
theorem Follows.lines (h : Follows ls r) (hlines : r.lines number rest = .ok r') :
    Follows (ls ++ rest) r' := by
  induction rest generalizing ls r number with
  | nil =>
    cases hlines
    rw [List.append_nil]
    exact h
  | cons l rest ih =>
    unfold Reading.lines at hlines
    split at hlines
    · next r₁ hline =>
      rw [List.append_cons]
      exact ih (h.line (takes_of_line hline)) hlines
    · cases hlines

end Reading

end ObjectText

open ObjectText

/-- A text that is read gives the object the sections of its marks, and each section the bytes of
the rows that stand in it, all of them and no others. A row of bytes always stands in a section.
What counts as a row is every plain line in the part of the sections, unless it comes first behind
the heading of a table, marks and other headings apart, and so is taken for column titles. -/
theorem read_keeps_rows_but_titles {name s : Bytes} {obj : Object} (h : Object.read name s = .ok obj) :
    obj.sectionNames = marks (Lines.read lineLimit s).lines ∧
    (∀ i l, (Lines.read lineLimit s).lines[i]? = some l →
      isByteRow ((Lines.read lineLimit s).lines.take i) l = true →
      ∃ sec ∈ obj.sections, openAfter ((Lines.read lineLimit s).lines.take i) = some sec.name) ∧
    ∀ sec ∈ obj.sections,
      readBytes ((rowsOf sec.name (Lines.read lineLimit s).lines).flatMap Bytes.fields) =
        .ok sec.code := by
  unfold Object.read at h
  dsimp only at h
  split at h
  · cases h
  · next r hlines =>
    split at h
    · cases h
    · cases h
      have hfollows := (Reading.follows_nil name).lines hlines
      rw [List.nil_append] at hfollows
      refine ⟨hfollows.names, fun i l hl hrow => ?_, hfollows.code⟩
      obtain ⟨n, hn⟩ := hfollows.housed i l hl hrow
      have hmem := mem_marks_of_openAfter hn
      rw [← hfollows.names] at hmem
      obtain ⟨sec, hsec, rfl⟩ := List.mem_map.mp hmem
      exact ⟨sec, hsec, hn⟩

/-- A text that comes back to its sections behind a table without titles. -/
def sectionsResumed : Bytes :=
  text "Sections code\nSection: a\n01 02\nSection: b\n03\nSymbols Table\nSections code\n04\n05 06\n"

theorem read_keeps_rows_but_titles_sectionsResumed : ∃ obj,
    Object.read (text "a.o") sectionsResumed = .ok obj ∧ obj.sectionNames = [text "a", text "b"] ∧
    ∀ sec ∈ obj.sections, sec.code = if sec.name = text "a" then [1, 2] else [3, 5, 6] := by
  have hread : ((Object.read (text "a.o") sectionsResumed).toOption).isSome = true := by
    decide +kernel
  obtain ⟨obj, hobj⟩ := Option.isSome_iff_exists.mp hread
  have hobj := eq_ok_of_toOption hobj
  obtain ⟨hnames, -, hcode⟩ := read_keeps_rows_but_titles hobj
  have hmarks : marks (Lines.read lineLimit sectionsResumed).lines = [text "a", text "b"] := by
    decide +kernel
  have hrows : ∀ n ∈ [text "a", text "b"], (readBytes ((rowsOf n
      (Lines.read lineLimit sectionsResumed).lines).flatMap Bytes.fields)).toOption =
        some (if n = text "a" then [1, 2] else [3, 5, 6]) := by decide +kernel
  refine ⟨obj, hobj, hnames.trans hmarks, fun sec hsec => ?_⟩
  have hname : sec.name ∈ [text "a", text "b"] :=
    hmarks ▸ hnames ▸ List.mem_map_of_mem hsec
  have hbytes := hrows sec.name hname
  rw [hcode sec hsec] at hbytes
  exact Option.some.inj hbytes

/-- A heading without titles takes away the first row of the next part. -/
theorem read_drops_row_for_titles :
    (Object.read (text "a.o") (text "Symbols Table\nSections code\nSection: t\n00 11\n")).toOption =
      some { name := text "a.o", sections := [{ name := text "t" }] } ∧
    lineKind (text "00 11") = .plain ∧
    partAfter (["Symbols Table", "Sections code", "Section: t"].map text) = .sections ∧
    openAfter (["Symbols Table", "Sections code", "Section: t"].map text) = some (text "t") := by
  decide +kernel

end AsmKit
