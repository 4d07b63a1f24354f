import AsmKit.Proofs.FirstPass

/-
  What pass one comes to. The symbols stay sound (`Object.Sound`), and the pass stands where the
  layout of the lines read so far ends (`Tracks`), which each line keeps true and so every run. A
  run that succeeds leaves an object that is measured by the layout of the whole source
  (`Object.Measured`).
-/

namespace AsmKit

/-- The symbols of an object fit together with each other and with its sections. -/
structure Object.Sound (obj : Object) : Prop where
  ascending : obj.symbols.Ascending
  nodup : obj.sectionNames.Nodup
  symbols : ∀ n s, obj.symbols.get? n = some s → s.Sound obj.sectionNames
  sections : ∀ n ∈ obj.sectionNames, ∃ s, obj.symbols.get? n = some s ∧ s.isSection = true

namespace FirstPass

variable {p q r : Progress}

/-! ## Soundness -/

/-- Statements belong to a section of the object, if to any. -/
def Opened (p : Progress) : Prop :=
  p.sectionName ≠ undefinedSection → p.sectionName ∈ p.object.sectionNames

theorem Declares.sectionNames (h : Declares p q) :
    q.object.sectionNames = p.object.sectionNames := by
  rw [h.frame]
  rfl

theorem Declares.opened (h : Declares p q) (ho : Opened p) : Opened q := by
  have hsection : q.sectionName = p.sectionName := by rw [h.frame]
  unfold Opened
  rw [h.sectionNames, hsection]
  exact ho

theorem Declares.sound (h : Declares p q) (ho : Opened p) (hs : p.object.Sound) :
    q.object.Sound := by
  constructor
  · exact h.symbols.ascending hs.ascending
  · rw [h.sectionNames]
    exact hs.nodup
  · rw [h.sectionNames]
    exact h.symbols.forall (Symbol.sound_blank _) (fun _ _ hd => hd.sound ho) hs.symbols
  · intro n hn
    rw [h.sectionNames] at hn
    obtain ⟨s, hget, hsec⟩ := hs.sections n hn
    obtain ⟨s', hget', hk⟩ := h.symbols.keeps n s hget
    exact ⟨s', hget', hk.isSection.trans hsec⟩

theorem isSection_closed (s : Symbol) (length : UInt32) :
    ({ s with size := Int64.ofNat length.toNat } : Symbol).isSection = true := by
  have hlt := length.toNat_lt
  unfold Symbol.isSection Symbol.noSize
  rw [bne_iff_ne]
  intro h
  have e := congrArg Int64.toInt h
  rw [Int64.toInt_ofNat_of_lt (by omega)] at e
  have : (-1 : Int64).toInt = -1 := by decide
  rw [this] at e
  omega

/-- Recording the length of the section that statements belong to. -/
theorem sound_closeSection (hs : p.object.Sound) (ho : Opened p) (length : UInt32) :
    { p.object with
      symbols := p.object.symbols.closeSection p.sectionName length : Object }.Sound := by
  constructor
  · exact hs.ascending.closeSection _ _
  · exact hs.nodup
  · intro n s hget
    rw [SymbolTable.get?_closeSection] at hget
    split at hget
    · next hn =>
      obtain ⟨s₀, hs₀, rfl⟩ := Option.map_eq_some_iff.mp hget
      have hsound := hs.symbols n s₀ hs₀
      refine ⟨hsound.exclusive, hsound.imported, hsound.blank, hsound.home, fun _ => ?_⟩
      obtain ⟨s₁, hs₁, hsec⟩ := hs.sections p.sectionName (ho hn.2)
      rw [← hn.1, hs₀] at hs₁
      cases hs₁
      exact hsound.ofSection hsec
    · exact hs.symbols n s hget
  · intro n hn
    obtain ⟨s, hget, hsec⟩ := hs.sections n hn
    dsimp only
    rw [SymbolTable.get?_closeSection]
    split
    · rw [hget]
      exact ⟨_, rfl, isSection_closed s length⟩
    · exact ⟨s, hget, hsec⟩

theorem sound_defineSection {obj : Object} (hs : obj.Sound) {name : Bytes} {t : SymbolTable}
    (ht : obj.symbols.defineSection name = .ok t) (hnew : name ∉ obj.sectionNames) :
    { obj with symbols := t, sections := obj.sections ++ [{ name }] : Object }.Sound := by
  obtain ⟨hnone, hasc, hget⟩ := SymbolTable.defineSection_eq_ok ht
  have hnames := obj.sectionNames_opened t name
  constructor
  · exact hasc hs.ascending
  · rw [hnames, ← List.concat_eq_append]
    exact hs.nodup.concat hnew
  · intro n s hn
    dsimp only at hn
    rw [hnames]
    rw [hget n] at hn
    split at hn
    · cases hn
      constructor
      · exact fun _ => rfl
      · intro h
        cases h
      · intro h
        cases h
      · exact fun _ => List.mem_append_right _ (List.mem_singleton_self name)
      · exact fun _ => ⟨List.mem_append_right _ (List.mem_singleton_self name), rfl, rfl, rfl⟩
    · exact (hs.symbols n s hn).mono fun _ h => List.mem_append_left _ h
  · intro n hn
    rw [hnames] at hn
    dsimp only
    rw [hget n]
    split
    · refine ⟨_, rfl, ?_⟩
      show ((0 : Int64) != Symbol.noSize) = true
      decide
    · next hne =>
      rcases List.mem_append.mp hn with hn | hn
      · exact hs.sections n hn
      · exact absurd (List.mem_singleton.mp hn) hne

/-- A new section is opened and the one before it closed. -/
theorem sound_openSection (hs : p.object.Sound) (ho : Opened p) {name : Bytes} {t : SymbolTable}
    (ht : p.object.symbols.defineSection name = .ok t) (hnew : name ∉ p.object.sectionNames)
    (length : UInt32) :
    { p.object with
      symbols := t.closeSection p.sectionName length
      sections := p.object.sections ++ [{ name }] : Object }.Sound := by
  refine sound_closeSection (p := { p with object := _ }) (sound_defineSection hs ht hnew) ?_ length
  intro hne
  rw [Object.sectionNames_opened]
  exact List.mem_append_left _ (ho hne)

/-! ## Measuring -/

/-- A section has its extent for its size, as far as 32 bits tell. -/
def IsMeasured (y : Layout) (s : Symbol) : Prop :=
  s.isSection = true → s.size = Int64.ofNat (UInt32.ofNat (y.extent s.name)).toNat

/-- A symbol that is defined is at most as far into its section as the section extends. -/
def IsWithin (y : Layout) (s : Symbol) : Prop :=
  s.isDefined = true → ∃ k ≤ y.extent s.sectionName, s.value = UInt32.ofNat k

theorem IsWithin.mono {y y' : Layout} {s : Symbol} (h : IsWithin y s)
    (hle : ∀ n, y.extent n ≤ y'.extent n) : IsWithin y' s := by
  intro hd
  obtain ⟨k, hk, hv⟩ := h hd
  exact ⟨k, Nat.le_trans hk (hle _), hv⟩

/-- Closing a section measures it, and so all sections if it was the last. -/
theorem isMeasured_closeSection {y : Layout} {t : SymbolTable}
    (h : ∀ n s, t.get? n = some s → (s.name = y.current → s.name = undefinedSection) →
      IsMeasured y s) (n : Bytes) (s : Symbol)
    (hs : (t.closeSection y.current (UInt32.ofNat (y.extent y.current))).get? n = some s) :
    IsMeasured y s := by
  have hn := SymbolTable.name_of_get? hs
  rw [SymbolTable.get?_closeSection] at hs
  split at hs
  · next hcur =>
    obtain ⟨s₀, -, rfl⟩ := Option.map_eq_some_iff.mp hs
    intro _
    rw [hn, hcur.1]
  · next hcur =>
    refine h n s hs fun hy => ?_
    apply Classical.byContradiction
    intro hund
    rw [hn] at hy hund
    exact hcur ⟨hy, hy ▸ hund⟩

theorem isWithin_closeSection {y : Layout} {t : SymbolTable}
    (h : ∀ n s, t.get? n = some s → IsWithin y s) {c : Bytes} {length : UInt32} (n : Bytes)
    (s : Symbol) (hs : (t.closeSection c length).get? n = some s) : IsWithin y s := by
  rw [SymbolTable.get?_closeSection] at hs
  split at hs
  · obtain ⟨s₀, hs₀, rfl⟩ := Option.map_eq_some_iff.mp hs
    have hw := h n s₀ hs₀
    exact hw
  · exact h n s hs

/-- The pass stands where the layout of the lines so far ends. The section that statements belong
to has no size yet, unless it is the one that nothing can be written to. -/
structure Tracks (y : Layout) (p : Progress) : Prop where
  sound : p.object.Sound
  opened : Opened p
  unwritten : ∀ s ∈ p.object.sections, s = { name := s.name }
  unrelocated : p.object.relocations = {}
  current : p.sectionName = y.current
  counter : p.counter = UInt32.ofNat (y.extent y.current)
  outside : ∀ n, n ∉ p.object.sectionNames ∨ n = undefinedSection → y.extent n = 0
  sizes : ∀ n s, p.object.symbols.get? n = some s →
    (s.name = y.current → s.name = undefinedSection) → IsMeasured y s
  values : ∀ n s, p.object.symbols.get? n = some s → IsWithin y s

theorem tracks_start (name : Bytes) : Tracks {} { object := { name } } where
  sound :=
    { ascending := SymbolTable.ascending_empty
      nodup := List.nodup_nil
      symbols := fun _ _ h => nomatch h
      sections := fun _ h => nomatch h }
  opened h := absurd rfl h
  unwritten _ h := nomatch h
  unrelocated := rfl
  current := rfl
  counter := rfl
  outside _ _ := rfl
  sizes _ _ h := nomatch h
  values _ _ h := nomatch h

theorem Tracks.declares {y : Layout} (h : Tracks y p) (hd : Declares p q) : Tracks y q := by
  have hsection : q.sectionName = p.sectionName := by rw [hd.frame]
  have hcounter : q.counter = p.counter := by rw [hd.frame]
  constructor
  · exact hd.sound h.opened h.sound
  · exact hd.opened h.opened
  · rw [hd.frame]
    exact h.unwritten
  · rw [hd.frame]
    exact h.unrelocated
  · exact hsection.trans h.current
  · exact hcounter.trans h.counter
  · rw [hd.sectionNames]
    exact h.outside
  · refine hd.symbols.forall (fun _ _ _ hsec => nomatch hsec) ?_ h.sizes
    intro s s' hdecl hm hne hsec
    rw [hdecl.name] at hne ⊢
    rw [hdecl.size]
    exact hm hne (hdecl.keeps.isSection ▸ hsec)
  · refine hd.symbols.forall (fun _ _ hdef => nomatch hdef) ?_ h.values
    intro s s' hdecl hw hdef
    -- what is defined newly is defined where the pass is, behind all of its section
    rcases hdecl.defined hdef with ⟨hdef₀, hsec, hval⟩ | ⟨hsec, hval⟩
    · rw [hsec, hval]
      exact hw hdef₀
    · rw [hsec, hval, h.counter, h.current]
      exact ⟨_, Nat.le_refl _, rfl⟩

theorem Tracks.advances {y : Layout} {l : SourceLine} (h : Tracks y p)
    (hopens : l.statement.opens? = none)
    (hsize : l.statement.size ≠ 0 → p.sectionName ≠ undefinedSection) (log : List Event) :
    Tracks (y.step l) { p with counter := p.counter + UInt32.ofNat l.statement.size, log } := by
  have same {n : Bytes} (hn : n ∉ p.object.sectionNames ∨ n = undefinedSection ∨ n ≠ y.current) :
      (y.step l).extent n = y.extent n := by
    rw [Layout.step_of_not_opens hopens]
    dsimp only
    split
    · next hcur =>
      have hzero : l.statement.size = 0 := by
        apply Classical.byContradiction
        intro hne
        have hsec := hsize hne
        have hmem := h.opened hsec
        rw [h.current, ← hcur] at hsec hmem
        rcases hn with hn | hn | hn
        · exact hn hmem
        · exact hsec hn
        · exact hn hcur
      rw [hzero, Nat.add_zero]
    · rfl
  have hcur : (y.step l).current = y.current := by rw [Layout.step_of_not_opens hopens]
  constructor
  · exact h.sound
  · exact h.opened
  · exact h.unwritten
  · exact h.unrelocated
  · exact h.current.trans hcur.symm
  · rw [hcur, Layout.step_of_not_opens hopens]
    dsimp only
    rw [if_pos rfl, h.counter, UInt32.ofNat_add]
  · intro n hn
    rw [same (by tauto)]
    exact h.outside n hn
  · intro n s hs hne hsec
    rw [hcur] at hne
    rw [same (by tauto)]
    exact h.sizes n s hs hne hsec
  · intro n s hs
    exact (h.values n s hs).mono (y.extent_le_step l)

theorem Tracks.opens {y : Layout} {l : SourceLine} {name : Bytes} {t : SymbolTable}
    (h : Tracks y p) (hopens : l.statement.opens? = some name)
    (ht : p.object.symbols.defineSection name = .ok t) (hnew : name ∉ p.object.sectionNames)
    (log : List Event) :
    Tracks (y.step l) { p with
      object := { p.object with
        symbols := t.closeSection p.sectionName p.counter
        sections := p.object.sections ++ [{ name }] }
      sectionName := name
      counter := 0
      log } := by
  obtain ⟨-, -, hget⟩ := SymbolTable.defineSection_eq_ok ht
  have hempty : y.extent name = 0 := h.outside name (.inl hnew)
  have hnames (symbols : SymbolTable) := p.object.sectionNames_opened symbols name
  rw [Layout.step_current_of_opens hopens]
  constructor
  case sound => exact sound_openSection h.sound h.opened ht hnew p.counter
  case opened =>
    intro _
    rw [hnames]
    exact List.mem_append_right _ (List.mem_singleton_self name)
  case unwritten =>
    intro s hs
    rcases List.mem_append.mp hs with hs | hs
    · exact h.unwritten s hs
    · rw [List.mem_singleton.mp hs]
  case unrelocated => exact h.unrelocated
  case current => rfl
  case counter =>
    rw [hempty]
    rfl
  case outside =>
    intro n hn
    rw [hnames] at hn
    refine h.outside n (hn.imp_left fun hn hmem => hn (List.mem_append_left _ hmem))
  case sizes =>
    -- the section left gets its size; the new one has none yet, and nothing in it
    intro n s hs _
    rw [h.current, h.counter] at hs
    show IsMeasured y s
    refine isMeasured_closeSection (fun n s hs hne => ?_) n s hs
    rw [hget n] at hs
    split at hs
    · cases hs
      intro _
      dsimp only
      rw [hempty]
      rfl
    · exact h.sizes n s hs hne
  case values =>
    refine isWithin_closeSection fun n s hs => ?_
    rw [hget n] at hs
    split at hs
    · cases hs
      exact fun _ => ⟨0, Nat.zero_le _, rfl⟩
    · exact h.values n s hs

theorem Tracks.line {y : Layout} {number : Nat} {l : SourceLine} (h : Tracks y p)
    (hl : Runs (line number l) p () q) : Tracks (y.step l) q := by
  obtain ⟨r, hd, hc, -⟩ := runs_line hl
  have hr := h.declares hd
  cases hc with
  | opens hopens ht hnew hq =>
    rw [hq]
    exact hr.opens hopens ht hnew q.log
  | advances hopens hsize hq =>
    rw [hq]
    exact hr.advances hopens hsize q.log

theorem Tracks.steps {y : Layout} {number : Nat} {ls : List SourceLine} (h : Tracks y p)
    (hls : Runs (Pass.steps FirstPass.line number ls) p () q) : Tracks (ls.foldl Layout.step y) q := by
  induction ls generalizing y p number with
  | nil =>
    obtain ⟨-, rfl⟩ := runs_pure.mp hls
    exact h
  | cons l ls ih =>
    obtain ⟨_, r, hr, hq⟩ := runs_bind.mp hls
    exact ih (h.line hr) hq

/-! ## Symbols are kept -/

theorem keeps_closeSection (hs : p.object.Sound) (ho : Opened p) (length : UInt32) :
    p.object.symbols.Keeps (p.object.symbols.closeSection p.sectionName length) := by
  intro n s hget
  rw [SymbolTable.get?_closeSection]
  split
  · next hn =>
    obtain ⟨s₁, hs₁, hsec⟩ := hs.sections p.sectionName (ho hn.2)
    rw [← hn.1, hget] at hs₁
    cases hs₁
    rw [hget]
    exact ⟨_, rfl, fun hd => ⟨hd, rfl, rfl⟩, (isSection_closed s length).trans hsec.symm⟩
  · exact ⟨s, hget, .refl s⟩

theorem Tracks.keeps_completes {y : Layout} {st : Statement} (h : Tracks y p)
    (hc : Completes st p q) : p.object.symbols.Keeps q.object.symbols := by
  cases hc with
  | @opens name t hopens ht hnew hq =>
    obtain ⟨hnone, -, hget⟩ := SymbolTable.defineSection_eq_ok ht
    rw [hq]
    intro n s hs
    obtain ⟨s', hs', hk⟩ := keeps_closeSection h.sound h.opened p.counter n s hs
    refine ⟨s', ?_, hk⟩
    have hne : n ≠ name := by
      intro e
      rw [← e, hs] at hnone
      cases hnone
    rw [← hs']
    dsimp only
    rw [SymbolTable.get?_closeSection, SymbolTable.get?_closeSection, hget n, if_neg hne]
  | advances hopens hsize hq =>
    rw [hq]
    exact .refl _

theorem Tracks.keeps_line {y : Layout} {number : Nat} {l : SourceLine} (h : Tracks y p)
    (hl : Runs (FirstPass.line number l) p () q) : p.object.symbols.Keeps q.object.symbols := by
  obtain ⟨r, hd, hc, -⟩ := runs_line hl
  exact hd.symbols.keeps.trans ((h.declares hd).keeps_completes hc)

/-- The symbol of a label is defined where the pass comes to its line. -/
theorem Tracks.label {y : Layout} {number : Nat} {l : SourceLine} {name : Bytes}
    (h : Tracks y p) (hl : Runs (FirstPass.line number l) p () q) (hname : l.label? = some name) :
    p.sectionName ≠ undefinedSection ∧ ∃ s, q.object.symbols.get? name = some s ∧
      s.isDefined = true ∧ s.sectionName = p.sectionName ∧ s.value = p.counter := by
  obtain ⟨r, hd, hc, hlabel⟩ := runs_line hl
  obtain ⟨hne, s, hs, hdef, hsection, hvalue⟩ := hlabel name hname
  obtain ⟨s', hs', hk⟩ := (h.declares hd).keeps_completes hc name s hs
  obtain ⟨hdef', hsection', hvalue'⟩ := hk.definition hdef
  refine ⟨hne, s', hs', hdef', ?_, ?_⟩
  · rw [hsection', hsection, hd.frame]
  · rw [hvalue', hvalue, hd.frame]

theorem Tracks.keeps_steps {y : Layout} {number : Nat} {ls : List SourceLine} (h : Tracks y p)
    (hls : Runs (Pass.steps FirstPass.line number ls) p () q) :
    p.object.symbols.Keeps q.object.symbols := by
  induction ls generalizing y p number with
  | nil =>
    obtain ⟨-, rfl⟩ := runs_pure.mp hls
    exact .refl _
  | cons l ls ih =>
    obtain ⟨_, r, hr, hq⟩ := runs_bind.mp hls
    exact (h.keeps_line hr).trans (ih (h.line hr) hq)

end FirstPass

/-! ## The measured object -/

/-- An object whose symbols have got the places and sizes that the layout of a source gives them,
and in which nothing is written yet. -/
structure Object.Measured (y : Layout) (obj : Object) : Prop where
  sound : obj.Sound
  unwritten : ∀ s ∈ obj.sections, s = { name := s.name }
  unrelocated : obj.relocations = {}
  sizes : ∀ n s, obj.symbols.get? n = some s → FirstPass.IsMeasured y s
  values : ∀ n s, obj.symbols.get? n = some s → FirstPass.IsWithin y s

namespace FirstPass

variable {p q : Progress}

theorem Tracks.measured {y : Layout} (h : Tracks y p) :
    { p.object with
      symbols := p.object.symbols.closeSection p.sectionName p.counter : Object }.Measured y := by
  constructor
  · exact sound_closeSection h.sound h.opened p.counter
  · exact h.unwritten
  · exact h.unrelocated
  · rw [h.current, h.counter]
    exact isMeasured_closeSection h.sizes
  · exact isWithin_closeSection h.values

/-- A run of pass one reads the source to its end, does every line of it and leaves an object that
is measured by its layout. -/
theorem runs_run {source : List Bytes} {name : Bytes}
    (h : Runs (run source) { object := { name } } () q) :
    ∃ ls r, SourceLine.readAll 1 source = .ok ls ∧
      Runs (Pass.steps line 1 ls) { object := { name } } () r ∧
      r.object.symbols.Keeps q.object.symbols ∧ q.object.Measured (Layout.after ls) := by
  simp only [run, closeSection, runs_bind, runs_modify] at h
  obtain ⟨_, r', hlines, rfl⟩ := h
  obtain ⟨ls, r, hls, hr, hr'⟩ := Pass.runs_eachLine hlines
  have ht : Tracks (Layout.after ls) r := (tracks_start name).steps hr
  rw [hr']
  exact ⟨ls, r, hls, hr, keeps_closeSection ht.sound ht.opened r.counter, ht.measured⟩

end FirstPass

end AsmKit
