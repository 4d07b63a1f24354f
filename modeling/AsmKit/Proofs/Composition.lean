import AsmKit.Proofs.Assembled

/-
  A section is what its lines make of it. `Layout.placed` gives every line of a source its place, the
  section its statement belongs to and the offset it has there. Sites and extents are read off the
  placed lines, and so are the bytes: pass two leaves in a section what the statements placed in it
  emit, one behind the other (`code_steps`). `Object.WrittenBy` puts this together.
-/

namespace AsmKit

/-- A line and where its statement stands. -/
structure PlacedLine where
  sectionName : Bytes
  offset : Nat
  line : SourceLine
deriving DecidableEq

namespace PlacedLine

/-- The sites of a line. -/
def sites (x : PlacedLine) : List Site :=
  x.line.statement.symbolOperands.map fun o =>
    ⟨x.sectionName, x.offset + o.offset, o.symbol, o.type⟩

/-- The number of bytes that a line takes. -/
def size (x : PlacedLine) : Nat := x.line.statement.size

/-- The bytes that a line adds to its section. -/
def bytes (symbols : SymbolTable) (x : PlacedLine) : Bytes := (x.line.statement.emission symbols).bytes

/-- The lines that stand in a section. -/
def within (n : Bytes) (xs : List PlacedLine) : List PlacedLine :=
  xs.filter fun x => x.sectionName == n

/-- The bytes that lines leave in a section. -/
def code (symbols : SymbolTable) (n : Bytes) (xs : List PlacedLine) : Bytes :=
  (within n xs).flatMap (bytes symbols)

/-- Lines one behind the other in a section. -/
def lay (n : Bytes) (offset : Nat) : List SourceLine → List PlacedLine
  | [] => []
  | l :: ls => ⟨n, offset, l⟩ :: lay n (offset + l.statement.size) ls

theorem within_cons_self {x : PlacedLine} {n : Bytes} (h : n = x.sectionName)
    (xs : List PlacedLine) : within n (x :: xs) = x :: within n xs := by
  simp [within, h]

theorem within_cons_ne {x : PlacedLine} {n : Bytes} (h : n ≠ x.sectionName)
    (xs : List PlacedLine) : within n (x :: xs) = within n xs := by
  simp [within, h.symm]

theorem mem_within {n : Bytes} {x : PlacedLine} {xs : List PlacedLine} :
    x ∈ within n xs ↔ x ∈ xs ∧ x.sectionName = n := by
  simp [within]

end PlacedLine

theorem Statement.size_of_opens {st : Statement} {name : Bytes} (h : st.opens? = some name) :
    st.size = 0 := by
  unfold opens? at h
  split at h
  · rfl
  · cases h

theorem Instruction.size_ne_zero : ∀ i ∈ Instruction.all, i.size.toNat ≠ 0 := by
  decide +kernel

/-- Where the layout expects no byte none is emitted, even if the statement is refused. -/
theorem Statement.bytes_of_size {st : Statement} (symbols : SymbolTable) (h : st.size = 0) :
    (st.emission symbols).bytes = [] := by
  match st with
  | .directive .words arguments =>
    show (Emission.words symbols arguments).bytes = []
    unfold Emission.words
    rcases hits : Token.listOf Directive.words.spelling TokenKind.isWordItem arguments with c | its
    · rfl
    · obtain rfl : its = Token.listed arguments := Token.listOf_eq_ok rfl hits
      have hlength : 4 * (Token.listed arguments).length = 0 := h
      have hnil : Token.listed arguments = [] := List.eq_nil_of_length_eq_zero (by omega)
      rw [hnil]
      rfl
  | .directive .skip arguments =>
    show (Emission.skip arguments).bytes = []
    unfold Emission.skip
    rcases hn : Emission.skipCount arguments with c | n
    · rfl
    · have hzero : n.toNat = 0 := by simpa [size, hn] using h
      show List.replicate n.toNat 0 = []
      rw [hzero]
      rfl
  | .instruction name arguments =>
    rcases hi : Instruction.find? name with _ | i
    · rw [emission_unknown hi]
    · have hzero : i.size.toNat = 0 := by simpa [size, hi] using h
      exact absurd hzero (Instruction.size_ne_zero i (List.mem_of_find?_eq_some hi))
  | .nothing | .stop | .directive .globals _ | .directive .externs _ | .directive .openSection _
  | .stray _ => rfl

/-- If the statement is an instruction, it is a known one with operands that it takes. -/
def Statement.Accepted (symbols : SymbolTable) (st : Statement) : Prop :=
  ∀ name arguments, st = .instruction name arguments →
    ∃ i, Instruction.find? name = some i ∧ (i.emission symbols arguments).complaint? = none

/-! ## Places -/

namespace Layout

variable {y : Layout} {l : SourceLine} {ls : List SourceLine}

/-- Where a line stands: behind what its section holds already. A line that opens a section stands in
that section. -/
def place (y : Layout) (l : SourceLine) : PlacedLine :=
  let n := l.statement.opens?.getD y.current
  ⟨n, y.extent n, l⟩

/-- The lines of a source, each where it stands. -/
def placed (y : Layout) : List SourceLine → List PlacedLine
  | [] => []
  | l :: ls => y.place l :: placed (y.step l) ls

theorem place_of_opens {n : Bytes} (h : l.statement.opens? = some n) :
    y.place l = ⟨n, y.extent n, l⟩ := by
  unfold place
  rw [h]
  rfl

theorem place_of_not_opens (h : l.statement.opens? = none) :
    y.place l = ⟨y.current, y.extent y.current, l⟩ := by
  unfold place
  rw [h]
  rfl

@[simp] theorem line_place (y : Layout) (l : SourceLine) : (y.place l).line = l := rfl

theorem current_step (y : Layout) (l : SourceLine) :
    (y.step l).current = (y.place l).sectionName := by
  rcases h : l.statement.opens? with _ | n
  · rw [step_of_not_opens h, place_of_not_opens h]
  · rw [step_current_of_opens h, place_of_opens h]

theorem extent_step (y : Layout) (l : SourceLine) (n : Bytes) :
    (y.step l).extent n =
      y.extent n + if n = (y.place l).sectionName then l.statement.size else 0 := by
  rcases h : l.statement.opens? with _ | m
  · rw [step_of_not_opens h, place_of_not_opens h]
    dsimp only
    split
    · rfl
    · rfl
  · rw [step_current_of_opens h, Statement.size_of_opens h]
    simp

theorem placed_append (y : Layout) (front back : List SourceLine) :
    y.placed (front ++ back) = y.placed front ++ (front.foldl step y).placed back := by
  induction front generalizing y with
  | nil => rfl
  | cons l ls ih =>
    show y.place l :: placed (y.step l) (ls ++ back) = _
    rw [ih]
    rfl

theorem lines_placed (y : Layout) (ls : List SourceLine) :
    (y.placed ls).map PlacedLine.line = ls := by
  induction ls generalizing y with
  | nil => rfl
  | cons l ls ih =>
    show l :: ((y.step l).placed ls).map PlacedLine.line = _
    rw [ih]

/-- The extent of a section is what its lines take. -/
theorem extent_after (y : Layout) (ls : List SourceLine) (n : Bytes) :
    (ls.foldl step y).extent n =
      y.extent n + ((PlacedLine.within n (y.placed ls)).map PlacedLine.size).sum := by
  induction ls generalizing y with
  | nil => rfl
  | cons l ls ih =>
    rw [List.foldl_cons, ih, extent_step]
    show _ = y.extent n + ((PlacedLine.within n (y.place l :: (y.step l).placed ls)).map _).sum
    split
    · next h =>
      rw [PlacedLine.within_cons_self h, List.map_cons, List.sum_cons, Nat.add_assoc]
      rfl
    · next h => rw [PlacedLine.within_cons_ne h, Nat.add_zero]

/-- The lines of a section stand one behind the other. -/
theorem within_placed (y : Layout) (ls : List SourceLine) (n : Bytes) :
    PlacedLine.within n (y.placed ls) =
      PlacedLine.lay n (y.extent n) ((PlacedLine.within n (y.placed ls)).map PlacedLine.line) := by
  induction ls generalizing y with
  | nil => rfl
  | cons l ls ih =>
    have hrest := ih (y.step l)
    rw [extent_step] at hrest
    unfold placed
    by_cases hn : n = (y.place l).sectionName
    · rw [if_pos hn] at hrest
      rw [PlacedLine.within_cons_self hn, List.map_cons, PlacedLine.lay, line_place, ← hrest, hn]
      rfl
    · rw [if_neg hn, Nat.add_zero] at hrest
      rw [PlacedLine.within_cons_ne hn]
      exact hrest

theorem sitesOfLine_eq (y : Layout) (l : SourceLine) : y.sitesOfLine l = (y.place l).sites := by
  rcases h : l.statement.opens? with _ | n
  · rw [place_of_not_opens h]
    rfl
  · unfold sitesOfLine PlacedLine.sites
    rw [line_place, Statement.symbolOperands_of_opens h]
    rfl

theorem sites_eq (y : Layout) (ls : List SourceLine) :
    y.sites ls = (y.placed ls).flatMap PlacedLine.sites := by
  induction ls generalizing y with
  | nil => rfl
  | cons l ls ih =>
    unfold sites placed
    rw [List.flatMap_cons, ih, sitesOfLine_eq]

end Layout

/-! ## Bytes -/

namespace SecondPass

variable {p q : Progress} {start : Object} {y : Layout} {sites : List Site}

/-- A line adds its bytes to the section it stands in and changes no other. -/
theorem code_line {number : Nat} {l : SourceLine} (hcurrent : p.sectionName = y.current)
    (hl : Runs (line number l) p () q) {n : Bytes} {s : Section}
    (hs : p.object.findSection n = some s) :
    ∃ s', q.object.findSection n = some s' ∧
      s'.code = s.code ++ PlacedLine.code p.object.symbols n [y.place l] := by
  have hcode : PlacedLine.code p.object.symbols n [y.place l] =
      if n = (y.place l).sectionName then (l.statement.emission p.object.symbols).bytes else [] := by
    unfold PlacedLine.code
    split
    · next h =>
      rw [PlacedLine.within_cons_self h]
      exact List.append_nil _
    · next h =>
      rw [PlacedLine.within_cons_ne h]
      rfl
  have hsilent (hsize : l.statement.size = 0) :
      PlacedLine.code p.object.symbols n [y.place l] = [] := by
    rw [hcode, Statement.bytes_of_size _ hsize, ite_self]
  cases runs_line hl with
  | opens hopens hfound hq =>
    rw [hq, hsilent (Statement.size_of_opens hopens), List.append_nil]
    exact ⟨s, hs, rfl⟩
  | emits hopens hopen hc hq =>
    rw [hq, hcode, Layout.place_of_not_opens hopens, ← hcurrent]
    dsimp only
    rw [Object.findSection_emit, hs]
    split
    · exact ⟨_, rfl, rfl⟩
    · exact ⟨s, rfl, (List.append_nil _).symm⟩
  | silent hopens hsize hops hq =>
    rw [hq, hsilent hsize, List.append_nil]
    exact ⟨s, hs, rfl⟩

/-- Lines add their bytes one behind the other. -/
theorem code_steps {number : Nat} {ls : List SourceLine} (h : Follows start y sites p)
    (hz : start.symbols.ZeroUnlessDefined) (hls : Runs (Pass.steps line number ls) p () q)
    {n : Bytes} {s : Section} (hs : p.object.findSection n = some s) :
    ∃ s', q.object.findSection n = some s' ∧
      s'.code = s.code ++ PlacedLine.code start.symbols n (y.placed ls) := by
  induction ls generalizing y p number sites s with
  | nil =>
    obtain ⟨-, rfl⟩ := runs_pure.mp hls
    exact ⟨s, hs, (List.append_nil _).symm⟩
  | cons l ls ih =>
    obtain ⟨_, r, hr, hq⟩ := runs_bind.mp hls
    obtain ⟨t, ht, hcode⟩ := code_line h.current hr hs
    obtain ⟨s', hs', hcode'⟩ := ih (h.line hz hr) hq ht
    refine ⟨s', hs', ?_⟩
    rw [hcode', hcode, h.symbols, List.append_assoc]
    congr 1
    unfold PlacedLine.code PlacedLine.within
    rw [← List.flatMap_append, ← List.filter_append]
    rfl

/-- Every instruction of lines that go through is known, and its statement is accepted. -/
theorem accepted_steps {number : Nat} {ls : List SourceLine} (h : Follows start y sites p)
    (hz : start.symbols.ZeroUnlessDefined) (hls : Runs (Pass.steps line number ls) p () q) :
    ∀ l ∈ ls, l.statement.Accepted start.symbols := by
  induction ls generalizing y p number sites with
  | nil => nofun
  | cons l ls ih =>
    obtain ⟨_, r, hr, hq⟩ := runs_bind.mp hls
    refine List.forall_mem_cons.mpr ⟨fun name arguments hl => ?_, ih (h.line hz hr) hq⟩
    unfold line at hr
    rw [hl] at hr
    obtain ⟨i, hi, -, hc, -⟩ := accepted_of_runs hr
    exact ⟨i, hi, h.symbols ▸ hc⟩

end SecondPass

/-- The object has what the statements of the lines emit, and they are all accepted. -/
structure Object.WrittenBy (xs : List PlacedLine) (obj : Object) : Prop where
  accepted : ∀ x ∈ xs, x.line.statement.Accepted obj.symbols
  code : ∀ s ∈ obj.sections, s.code = PlacedLine.code obj.symbols s.name xs
  relocations : obj.relocations.entries.Perm ((xs.flatMap PlacedLine.sites).map Site.relocation)

/-- Pass two writes the lines of the source. -/
theorem Object.Measured.writtenBy {y : Layout} {start : Object} {q : Progress} {number : Nat}
    {ls : List SourceLine} (hm : start.Measured y)
    (hls : Runs (Pass.steps SecondPass.line number ls) { object := start } () q) :
    q.object.WrittenBy (({} : Layout).placed ls) := by
  have hf := hm.follows.steps hm.zeroUnlessDefined hls
  constructor
  case accepted =>
    intro x hx
    have hline := List.mem_map_of_mem (f := PlacedLine.line) hx
    rw [Layout.lines_placed] at hline
    rw [hf.symbols]
    exact SecondPass.accepted_steps hm.follows hm.zeroUnlessDefined hls _ hline
  case code =>
    intro s hs
    have hnodup : q.object.sectionNames.Nodup := by
      rw [hf.sectionNames]
      exact hm.sound.nodup
    have hmem : s.name ∈ start.sectionNames := by
      rw [← hf.sectionNames]
      exact List.mem_map_of_mem hs
    obtain ⟨s₀, hs₀⟩ := exists_findSection hmem
    obtain ⟨s', hs', hcode⟩ := SecondPass.code_steps hm.follows hm.zeroUnlessDefined hls hs₀
    rw [(findSection_eq_some_iff hnodup).mpr ⟨hs, rfl⟩] at hs'
    cases hs'
    rw [hcode, hm.unwritten s₀ (mem_of_findSection hs₀), hf.symbols]
    rfl
  case relocations =>
    have hrelocations := hf.relocations
    rw [Layout.sites_eq, List.nil_append] at hrelocations
    exact hrelocations

/-- Assembling goes through the lines of the source twice: pass one ends by closing the last section,
and pass two starts on what it leaves. -/
theorem Object.assemble_steps {name source : Bytes} {obj : Object}
    (h : (Object.assemble name source).1 = .ok obj) :
    ∃ ls measured written, SourceLine.readAll 1 (sourceLines source) = .ok ls ∧
      Runs (Pass.steps FirstPass.line 1 ls) { object := { name } } () measured ∧
      Runs (Pass.steps SecondPass.line 1 ls) { object := { measured.object with
        symbols := measured.object.symbols.closeSection measured.sectionName measured.counter } } ()
        written ∧ written.object = obj := by
  obtain ⟨q₁, q₂, hfirst, hsecond, rfl⟩ := assemble_runs h
  simp only [FirstPass.run, FirstPass.closeSection, runs_bind, runs_modify] at hfirst
  obtain ⟨_, r', hlines, rfl⟩ := hfirst
  obtain ⟨ls, r, hls, hr, hr'⟩ := Pass.runs_eachLine hlines
  obtain ⟨_, q, hlines', hcheck⟩ := runs_bind.mp hsecond
  obtain ⟨rfl, -⟩ := SecondPass.runs_checkSizes.mp hcheck
  obtain ⟨ls', p, hls', hp, hlog⟩ := Pass.runs_eachLine hlines'
  rw [hls] at hls'
  cases hls'
  rw [hr'] at hp
  refine ⟨ls, r, p, hls, hr, hp, ?_⟩
  rw [hlog]

end AsmKit
