import AsmKit.Proofs.Assembled

/-
  The symbol table while pass one goes through a source, and behind both passes. A line that
  succeeds keeps the table in order, and so does one that fails, since it has only declared symbols
  by then (`fails_line`); so the table is in order wherever the pass gets to (`Visits`). What is
  mentioned and never declared is an operand of the source (`MentionsOnly`), which pass two looks
  up; so nothing of the kind is left in an object that is assembled.
-/

namespace AsmKit

/-- Whatever comes of a stage, the state it leaves is related to the one it starts from. -/
theorem Observes.outcome {ε σ α : Type} {R : σ → σ → Prop} {E : ε → Prop}
    {m : ExceptT ε (StateM σ) α} (h : Observes R E m) {s t : σ} {result : Except ε α}
    (hm : AsmKit.outcome m s = (result, t)) : R s t := by
  rcases result with e | a
  · exact (h.fails s e t hm).1
  · exact h.runs s a t hm

namespace FirstPass

variable {p q : Progress} {e : Abort} {line : Nat} {arguments : List Token}

/-! ## Lines that fail -/

theorem fails_label {name : Bytes} (h : Fails (label line name) p e q) : q = p := by
  simp only [label, fails_bind, runs_needSection, runs_get, fails_get, false_or] at h
  obtain h | ⟨_, _, ⟨-, rfl⟩, _, _, ⟨rfl, rfl⟩, h | ⟨_, _, -, h⟩⟩ := h
  · exact fails_needSection h
  · exact fails_changeSymbols h
  · exact absurd h Pass.fails_record

/-- A section is refused before anything is done about it: what has no symbol is no section yet. -/
theorem fails_openSection (hs : p.object.Sound) (h : Fails (openSection line arguments) p e q) :
    q = p := by
  simp only [openSection, closeSection, fails_bind, Pass.runs_check, runs_changeSymbols,
    fails_modify, runs_modify, fails_get, runs_get, false_or] at h
  obtain h | ⟨name, p, ⟨-, rfl⟩, h | ⟨_, _, ⟨t, ht, rfl⟩, _, _, rfl, _, _, ⟨rfl, rfl⟩, h⟩⟩ := h
  · exact Pass.fails_check h
  · exact fails_changeSymbols h
  · obtain ⟨hnone, -, -⟩ := SymbolTable.defineSection_eq_ok ht
    have hnew : name ∉ p.object.sectionNames := by
      intro hmem
      obtain ⟨s, hget, -⟩ := hs.sections name hmem
      rw [hnone] at hget
      cases hget
    split at h
    · next hadd =>
      have hok := hadd.symm.trans (Object.addSection_eq_ok_iff.mpr ⟨hnew, rfl⟩)
      cases hok
    · simp only [fails_bind, fails_set, false_or] at h
      obtain ⟨_, _, -, h⟩ := h
      exact absurd h Pass.fails_record

theorem fails_words (h : Fails (words line arguments) p e q) : Declares p q := by
  simp only [words, advance, fails_bind, runs_needSection, Pass.runs_check, fails_modify,
    and_false, exists_false, or_false] at h
  obtain h | ⟨_, _, ⟨-, rfl⟩, h | ⟨items, p, ⟨-, rfl⟩, h⟩⟩ := h
  · rw [fails_needSection h]
    exact .refl p
  · rw [Pass.fails_check h]
    exact .refl _
  · refine ((steady_declares.observes_items fun t _ _ p => ?_).fails p e q h).1
    exact .single (SymbolTable.declares_mention _ t.word)

theorem fails_skip (h : Fails (skip line arguments) p e q) : q = p := by
  simp only [skip, advance, fails_bind, runs_needSection, fails_modify, and_false, exists_false,
    or_false] at h
  obtain h | ⟨_, _, ⟨-, rfl⟩, h⟩ := h
  · exact fails_needSection h
  · exact Pass.fails_check h

theorem fails_instruction {name : Bytes} (h : Fails (instruction line name) p e q) : q = p := by
  unfold instruction at h
  split at h
  · exact (fails_throw.mp h).2
  · simp only [advance, fails_bind, fails_modify, and_false, exists_false, or_false] at h
    exact fails_needSection h

theorem fails_statement {st : Statement} (hs : p.object.Sound)
    (h : Fails (statement line st) p e q) : Declares p q := by
  have of_eq : q = p → Declares p q := fun hq => hq ▸ .refl p
  match st with
  | .nothing | .stop => exact absurd h fails_pure
  | .directive .globals arguments => exact ((observes_globals line arguments).fails p e q h).1
  | .directive .externs arguments => exact ((observes_externs line arguments).fails p e q h).1
  | .directive .openSection arguments => exact of_eq (fails_openSection hs h)
  | .directive .words arguments => exact fails_words h
  | .directive .skip arguments => exact of_eq (fails_skip h)
  | .instruction name arguments => exact of_eq (fails_instruction h)
  | .stray word => exact of_eq (fails_throw.mp h).2

/-- What a line that fails has done by then: it has declared symbols, and nothing else. -/
theorem fails_line {number : Nat} {l : SourceLine} (hs : p.object.Sound) (ho : Opened p)
    (h : Fails (FirstPass.line number l) p e q) : Declares p q := by
  unfold FirstPass.line at h
  rcases hl : l.label? with _ | name
  · rw [hl] at h
    exact fails_statement hs h
  · rw [hl] at h
    obtain h | ⟨_, r, hr, h⟩ := fails_bind.mp h
    · rw [fails_label h]
      exact .refl p
    · obtain ⟨-, hd, -⟩ := runs_label hr
      exact hd.trans (fails_statement (hd.sound ho hs) h)

/-! ## What every line keeps -/

/-- The symbols fit together with the sections, and are numbered in turn. -/
structure Consistent (p : Progress) : Prop where
  sound : p.object.Sound
  opened : Opened p
  numbered : p.object.symbols.Numbered

theorem consistent_start (name : Bytes) : Consistent { object := { name } } :=
  ⟨(tracks_start name).sound, (tracks_start name).opened, SymbolTable.numbered_empty⟩

theorem Consistent.declares (h : Consistent p) (hd : Declares p q) : Consistent q :=
  ⟨hd.sound h.opened h.sound, hd.opened h.opened, hd.symbols.numbered h.numbered⟩

theorem Consistent.completes {st : Statement} (h : Consistent p) (hc : Completes st p q) :
    Consistent q := by
  cases hc with
  | @opens name t _ ht hnew hq =>
    rw [hq]
    refine ⟨sound_openSection h.sound h.opened ht hnew p.counter, fun _ => ?_,
      (h.numbered.defineSection ht).closeSection _ _⟩
    rw [Object.sectionNames_opened]
    exact List.mem_append_right _ (List.mem_singleton_self name)
  | advances _ _ hq =>
    rw [hq]
    exact ⟨h.sound, h.opened, h.numbered⟩

theorem steady_consistent : Steady fun p q => Consistent p → Consistent q where
  record _ _ h := ⟨h.sound, h.opened, h.numbered⟩
  trans _ _ _ hpq hqr h := hqr (hpq h)

theorem observes_line (number : Nat) (l : SourceLine) :
    Observes (fun p q => Consistent p → Consistent q) (fun _ => True)
      (FirstPass.line number l) := by
  refine ⟨fun p _ q hl h => ?_, fun p e q hl => ⟨fun h => ?_, trivial⟩⟩
  · obtain ⟨r, hd, hc, -⟩ := runs_line hl
    exact (h.declares hd).completes hc
  · exact h.declares (fails_line h.sound h.opened hl)

/-! ## What a run keeps -/

section

variable {R : Progress → Progress → Prop} {step : Nat → SourceLine → Pass Unit}

theorem Steady.observes_eachLine (hR : Steady R)
    (hstep : ∀ number l, Observes R (fun _ => True) (step number l)) (number : Nat)
    (source : List Bytes) : Observes R (fun _ => True) (Pass.eachLine step number source) := by
  induction source generalizing number with
  | nil => exact observes_pure hR.refl ()
  | cons raw rest ih =>
    unfold Pass.eachLine
    split
    · exact observes_throw hR.refl trivial
    · next l _ =>
      refine (hstep number l).bind hR.trans fun _ => ?_
      split
      · exact (observes_get hR.refl).bind hR.trans fun _ => hR.observes_record _
      · exact ih (number + 1)

theorem Steady.stateAt (hR : Steady R)
    (hstep : ∀ number l, Observes R (fun _ => True) (step number l)) {number n : Nat}
    {source : List Bytes} (h : Pass.stateAt step number p source n = some q) : R p q := by
  induction source generalizing number n p with
  | nil =>
    cases n with
    | zero =>
      cases h
      exact hR.refl q
    | succ n => cases h
  | cons raw rest ih =>
    cases n with
    | zero =>
      cases h
      exact hR.refl q
    | succ n =>
      unfold Pass.stateAt at h
      split at h
      · cases h
      · next l _ =>
        split at h
        · cases h
        · next r hr =>
          split at h
          · cases h
          · exact hR.trans _ _ _ ((hstep number l).outcome hr) (ih h)

end

/-- The states that pass one goes through on the way through a source: before any of its lines, when
it is done with the lines or fails on one, and at its end. -/
inductive Visits (name : Bytes) (source : List Bytes) (p : Progress) : Prop where
  | line {n : Nat} (h : Pass.stateAt FirstPass.line 1 { object := { name } } source n = some p)
  | lines {result : Except Abort Unit}
      (h : outcome (Pass.eachLine FirstPass.line 1 source) { object := { name } } = (result, p))
  | run {result : Except Abort Unit}
      (h : outcome (FirstPass.run source) { object := { name } } = (result, p))

theorem observes_run (source : List Bytes) :
    Observes (fun p q => Consistent p → Consistent q) (fun _ => True) (FirstPass.run source) := by
  refine .bind steady_consistent.trans (steady_consistent.observes_eachLine observes_line 1 source)
    fun _ => observes_modify fun p h => ?_
  exact ⟨sound_closeSection h.sound h.opened p.counter, h.opened, h.numbered.closeSection _ _⟩

theorem Visits.consistent {name : Bytes} {source : List Bytes} (h : Visits name source p) :
    Consistent p := by
  cases h with
  | line h => exact steady_consistent.stateAt observes_line h (consistent_start name)
  | lines h =>
    exact (steady_consistent.observes_eachLine observes_line 1 source).outcome h
      (consistent_start name)
  | run h => exact (observes_run source).outcome h (consistent_start name)

end FirstPass

/-! ## What is never declared -/

/-- A symbol may be referred to. -/
def Symbol.IsDeclared (s : Symbol) : Prop :=
  s.isDefined = true ∨ s.isExtern = true ∨ s.isGlobal = true

namespace SymbolTable

variable {t t' t'' : SymbolTable} {names : List Bytes} {name : Bytes}

/-- A name is in a table and nothing declares it. -/
def Undeclared (t : SymbolTable) (n : Bytes) : Prop := ∃ s, t.get? n = some s ∧ ¬ s.IsDeclared

/-- Whatever gets into a table and is not declared has one of some names. -/
def MentionsOnly (names : List Bytes) (t t' : SymbolTable) : Prop :=
  ∀ n, t'.Undeclared n → t.Undeclared n ∨ n ∈ names

theorem MentionsOnly.refl (t : SymbolTable) : MentionsOnly names t t := fun _ h => .inl h

theorem MentionsOnly.trans (h : MentionsOnly names t t') (h' : MentionsOnly names t' t'') :
    MentionsOnly names t t'' := by
  intro n hn
  obtain hn | hn := h' n hn
  · exact h n hn
  · exact .inr hn

theorem mentionsOnly_mention (t : SymbolTable) (h : name ∈ names) :
    MentionsOnly names t (t.mention name) := by
  intro n ⟨s, hs, hnot⟩
  rw [get?_mention] at hs
  split at hs
  · next hn => exact .inr (hn ▸ h)
  · exact .inl ⟨s, hs, hnot⟩

theorem mentionsOnly_modify {f : Symbol → Symbol} (hf : ∀ s, (f s).IsDeclared) :
    MentionsOnly names t ((t.mention name).modify name f) := by
  intro n ⟨s, hs, hnot⟩
  rw [get?_modify, get?_mention] at hs
  split at hs
  · cases hs
    exact absurd (hf _) hnot
  · exact .inl ⟨s, hs, hnot⟩

theorem mentionsOnly_global (h : t.declareGlobal name = .ok t') : MentionsOnly names t t' := by
  unfold declareGlobal at h
  split at h
  · cases h
  · cases h
    exact mentionsOnly_modify fun _ => .inr (.inr rfl)

theorem mentionsOnly_extern (h : t.declareExtern name = .ok t') : MentionsOnly names t t' := by
  unfold declareExtern at h
  split at h
  · cases h
  · split at h
    · cases h
    · cases h
      exact mentionsOnly_modify fun _ => .inr (.inl rfl)

theorem mentionsOnly_label {sectionName : Bytes} {address : UInt32}
    (h : t.defineLabel name sectionName address = .ok t') : MentionsOnly names t t' := by
  unfold defineLabel at h
  split at h
  · cases h
  · split at h
    · cases h
    · cases h
      exact mentionsOnly_modify fun _ => .inl rfl

theorem mentionsOnly_section (h : t.defineSection name = .ok t') : MentionsOnly names t t' := by
  obtain ⟨-, -, hget⟩ := defineSection_eq_ok h
  intro n ⟨s, hs, hnot⟩
  rw [hget n] at hs
  split at hs
  · cases hs
    exact absurd (.inl rfl) hnot
  · exact .inl ⟨s, hs, hnot⟩

theorem mentionsOnly_closeSection (t : SymbolTable) (name : Bytes) (length : UInt32) :
    MentionsOnly names t (t.closeSection name length) := by
  intro n ⟨s, hs, hnot⟩
  rw [get?_closeSection] at hs
  split at hs
  · obtain ⟨s₀, hs₀, rfl⟩ := Option.map_eq_some_iff.mp hs
    exact .inl ⟨s₀, hs₀, hnot⟩
  · exact .inl ⟨s, hs, hnot⟩

end SymbolTable

namespace FirstPass

open SymbolTable (MentionsOnly)

variable {p q : Progress} {names : List Bytes} {number : Nat}

theorem steady_mentionsOnly (names : List Bytes) :
    Steady fun p q => MentionsOnly names p.object.symbols q.object.symbols where
  record p _ := .refl p.object.symbols
  trans _ _ _ hpq hqr := hpq.trans hqr

theorem Completes.mentionsOnly {st : Statement} (h : Completes st p q) :
    MentionsOnly names p.object.symbols q.object.symbols := by
  cases h with
  | opens _ ht _ hq =>
    rw [hq]
    exact (SymbolTable.mentionsOnly_section ht).trans (SymbolTable.mentionsOnly_closeSection _ _ _)
  | advances _ _ hq =>
    rw [hq]
    exact .refl _

/-- A symbol in a list of words is an operand of the list. -/
theorem mem_symbolOperands_words {arguments : List Token} {t : Token}
    (ht : t ∈ Token.listed arguments) (hkind : t.kind = .symbol) :
    ∃ o ∈ (Statement.directive .words arguments).symbolOperands, o.symbol = t.word := by
  obtain ⟨n, hn⟩ := List.mem_iff_getElem?.mp ht
  exact ⟨⟨4 * n, t.word, .symbol⟩, Emission.mem_wordOperands.mpr ⟨n, t, hn, hkind, rfl⟩, rfl⟩

theorem mentionsOnly_statement {st : Statement} (hnames : ∀ o ∈ st.symbolOperands, o.symbol ∈ names)
    (h : Runs (statement number st) p () q) :
    MentionsOnly names p.object.symbols q.object.symbols := by
  have hsteady := steady_mentionsOnly names
  match st with
  | .nothing | .stop =>
    obtain ⟨-, rfl⟩ := runs_pure.mp h
    exact .refl _
  | .directive .globals arguments =>
    have hobserves : Observes _ _ (globals number arguments) :=
      hsteady.observes_names fun _ _ _ _ _ => SymbolTable.mentionsOnly_global
    exact hobserves.runs p () q h
  | .directive .externs arguments =>
    have hobserves : Observes _ _ (externs number arguments) :=
      hsteady.observes_names fun _ _ _ _ _ => SymbolTable.mentionsOnly_extern
    exact hobserves.runs p () q h
  | .directive .openSection arguments => exact (runs_openSection h).mentionsOnly
  | .directive .words arguments =>
    simp only [statement, words, advance, runs_bind, runs_needSection, Pass.runs_check,
      runs_modify] at h
    obtain ⟨_, _, ⟨-, rfl⟩, items, p, ⟨hitems, rfl⟩, _, r, hloop, rfl⟩ := h
    refine (hsteady.observes_items fun t ht hkind p => ?_).runs p () r hloop
    rw [Token.listOf_eq_ok rfl hitems] at ht
    obtain ⟨o, ho, hsymbol⟩ := mem_symbolOperands_words ht hkind
    exact SymbolTable.mentionsOnly_mention _ (hsymbol ▸ hnames o ho)
  | .directive .skip arguments => exact (runs_skip h).mentionsOnly
  | .instruction name arguments =>
    have hc : Completes (.instruction name arguments) p q := runs_instruction h
    exact hc.mentionsOnly
  | .stray word => exact absurd h runs_throw

theorem mentionsOnly_line {l : SourceLine}
    (hnames : ∀ o ∈ l.statement.symbolOperands, o.symbol ∈ names)
    (h : Runs (FirstPass.line number l) p () q) :
    MentionsOnly names p.object.symbols q.object.symbols := by
  unfold FirstPass.line at h
  rcases hl : l.label? with _ | name
  · rw [hl] at h
    exact mentionsOnly_statement hnames h
  · rw [hl] at h
    obtain ⟨_, r, hlabel, hst⟩ := runs_bind.mp h
    have hdefine := ((steady_mentionsOnly names).observes_label fun _ _ _ _ =>
      SymbolTable.mentionsOnly_label).runs p () r hlabel
    exact hdefine.trans (mentionsOnly_statement hnames hst)

theorem mentionsOnly_steps {ls : List SourceLine}
    (hnames : ∀ l ∈ ls, ∀ o ∈ l.statement.symbolOperands, o.symbol ∈ names)
    (h : Runs (Pass.steps FirstPass.line number ls) p () q) :
    MentionsOnly names p.object.symbols q.object.symbols := by
  induction ls generalizing p number with
  | nil =>
    obtain ⟨-, rfl⟩ := runs_pure.mp h
    exact .refl _
  | cons l ls ih =>
    obtain ⟨_, r, hr, hq⟩ := runs_bind.mp h
    have hl := mentionsOnly_line (hnames l List.mem_cons_self) hr
    exact hl.trans (ih (fun l hl => hnames l (List.mem_cons_of_mem _ hl)) hq)

theorem mentionsOnly_run {source : List Bytes} {ls : List SourceLine}
    (hls : SourceLine.readAll 1 source = .ok ls)
    (hnames : ∀ l ∈ ls, ∀ o ∈ l.statement.symbolOperands, o.symbol ∈ names)
    (h : Runs (FirstPass.run source) p () q) :
    MentionsOnly names p.object.symbols q.object.symbols := by
  simp only [FirstPass.run, closeSection, runs_bind, runs_modify] at h
  obtain ⟨_, r, hlines, rfl⟩ := h
  obtain ⟨ls', r', hls', hsteps, hlog⟩ := Pass.runs_eachLine hlines
  rw [hls] at hls'
  cases hls'
  have hr := mentionsOnly_steps hnames hsteps
  rw [hlog]
  exact hr.trans (SymbolTable.mentionsOnly_closeSection _ _ _)

end FirstPass

/-- Every symbol operand of some lines has a site. -/
theorem Layout.exists_site {ls : List SourceLine} {l : SourceLine} (hl : l ∈ ls)
    {o : SymbolOperand} (ho : o ∈ l.statement.symbolOperands) (y : Layout) :
    ∃ site ∈ y.sites ls, site.symbol = o.symbol := by
  induction ls generalizing y with
  | nil => cases hl
  | cons first ls ih =>
    unfold sites
    obtain rfl | hl := List.mem_cons.mp hl
    · exact ⟨_, List.mem_append_left _ (List.mem_map_of_mem ho), rfl⟩
    · obtain ⟨site, hsite, hsymbol⟩ := ih hl (y.step first)
      exact ⟨site, List.mem_append_right _ hsite, hsymbol⟩

/-- Every symbol of an assembled object is declared: pass two has looked up all that is only
mentioned. -/
theorem Object.isDeclared_of_assemble {name source : Bytes} {obj : Object}
    (h : (Object.assemble name source).1 = .ok obj) {n : Bytes} {s : Symbol}
    (hs : obj.symbols.get? n = some s) : s.IsDeclared := by
  obtain ⟨ls, q, p, hls, hfirst, -, hfollows, rfl, -⟩ := assemble_passes h
  have hnames : ∀ l ∈ ls, ∀ o ∈ l.statement.symbolOperands,
      o.symbol ∈ (({} : Layout).sites ls).map Site.symbol := by
    intro l hl o ho
    obtain ⟨site, hsite, hsymbol⟩ := Layout.exists_site hl ho {}
    exact List.mem_map.mpr ⟨site, hsite, hsymbol⟩
  apply Classical.byContradiction
  intro hnot
  have hundeclared : q.object.symbols.Undeclared n := ⟨s, hfollows.symbols ▸ hs, hnot⟩
  obtain ⟨_, hnone, -⟩ | hmem := FirstPass.mentionsOnly_run hls hnames hfirst n hundeclared
  · cases hnone
  · obtain ⟨site, hsite, rfl⟩ := List.mem_map.mp hmem
    obtain ⟨_, sym, -, hlookup, -⟩ := hfollows.filled site hsite
    obtain ⟨hget, hdeclared⟩ := SymbolTable.lookup_eq_ok_iff.mp hlookup
    rw [hs] at hget
    cases hget
    exact hnot hdeclared

/-! ## The invariant -/

/-- What holds of a symbol in an object with sections of the given names: it is a section when it
has a size. -/
structure Symbol.Fits (names : List Bytes) (s : Symbol) : Prop where
  exclusive : ¬ (s.isGlobal = true ∧ s.isExtern = true)
  imported : s.isExtern = true → s.isDefined = false
  absent : s.isDefined = false → s.sectionName = undefinedSection ∧ s.value = 0
  home : s.isDefined = true → s.sectionName ∈ names
  sized : s.size ≠ -1 ↔ s.name ∈ names
  start : s.size ≠ -1 → s.sectionName = s.name ∧ s.value = 0

/-- The symbols of an object fit it, every section is among them, and they are numbered from zero,
each number being given once. -/
structure Object.Tabled (obj : Object) : Prop where
  fits : ∀ s ∈ obj.symbols.entries, s.Fits obj.sectionNames
  sections : ∀ n ∈ obj.sectionNames, ∃ s ∈ obj.symbols.entries, s.name = n
  numbers : (obj.symbols.entries.map Symbol.number).Perm
    ((List.range obj.symbols.entries.length).map Int64.ofNat)

theorem Object.Sound.fits {obj : Object} (h : obj.Sound) {s : Symbol}
    (hs : s ∈ obj.symbols.entries) : s.Fits obj.sectionNames := by
  have hget : obj.symbols.get? s.name = some s := h.ascending.get?_eq_some_iff.mpr ⟨hs, rfl⟩
  have hsound := h.symbols s.name s hget
  have hsection : s.isSection = true ↔ s.size ≠ -1 := bne_iff_ne
  refine ⟨fun hboth => ?_, hsound.imported, hsound.blank, hsound.home, ⟨fun hsize => ?_, fun hn => ?_⟩,
    fun hsize => (hsound.ofSection (hsection.mpr hsize)).2.2⟩
  · have hextern := hsound.exclusive hboth.1
    rw [hboth.2] at hextern
    cases hextern
  · exact (hsound.ofSection (hsection.mpr hsize)).1
  · obtain ⟨s', hget', hsec⟩ := h.sections s.name hn
    rw [hget] at hget'
    cases hget'
    exact hsection.mp hsec

theorem Object.Sound.tabled {obj : Object} (h : obj.Sound) (hn : obj.symbols.Numbered) :
    obj.Tabled := by
  refine ⟨fun s hs => h.fits hs, fun n hmem => ?_, hn.numbers⟩
  obtain ⟨s, hget, -⟩ := h.sections n hmem
  exact ⟨s, SymbolTable.mem_of_get? hget, SymbolTable.name_of_get? hget⟩

theorem Object.tabled_of_assemble {name source : Bytes} {obj : Object}
    (h : (Object.assemble name source).1 = .ok obj) : obj.Tabled := by
  refine (Object.assembled h).sound.tabled ?_
  obtain ⟨_, q, p, -, hfirst, -, hfollows, rfl, -⟩ := assemble_passes h
  rw [hfollows.symbols]
  exact (FirstPass.Visits.run hfirst).consistent.numbered

/-- Wherever pass one gets to, on whatever source, and whether it fails there or not, the symbols
fit the object. In an object that is assembled every symbol is also declared, every one that is
defined is within its section, and every section has its length for its size. -/
theorem symbol_table_invariant (name : Bytes) :
    (∀ (source : List Bytes) (p : Progress), FirstPass.Visits name source p → p.object.Tabled) ∧
    ∀ (source : Bytes) (obj : Object), (Object.assemble name source).1 = .ok obj →
      obj.Tabled ∧ ∀ sym ∈ obj.symbols.entries, sym.IsDeclared ∧
        (sym.isDefined = true → ∃ s, obj.findSection sym.sectionName = some s ∧
          sym.value.toNat ≤ s.code.length) ∧
        (sym.size ≠ -1 → ∃ s, obj.findSection sym.name = some s ∧
          sym.size.toInt = s.code.length) := by
  refine ⟨fun source p hp => hp.consistent.sound.tabled hp.consistent.numbered,
    fun source obj hobj => ⟨Object.tabled_of_assemble hobj, fun sym hsym => ?_⟩⟩
  have ha := Object.assembled hobj
  have hget : obj.symbols.get? sym.name = some sym :=
    ha.sound.ascending.get?_eq_some_iff.mpr ⟨hsym, rfl⟩
  refine ⟨Object.isDeclared_of_assemble hobj hget, ha.values sym.name sym hget, fun hsize => ?_⟩
  obtain ⟨s, hs⟩ := Object.exists_findSection ((ha.sound.fits hsym).sized.mp hsize)
  obtain ⟨sym', hget', hlength⟩ := ha.sizes sym.name s hs
  rw [hget] at hget'
  cases hget'
  exact ⟨s, hs, hlength⟩

/-- The last line imports a symbol before it comes to one that is defined already. -/
def halfImported : List Bytes :=
  [text ".section t", text "x: .word x, y", text ".extern e, x, z"]

theorem symbol_table_invariant_halfImported :
    (∃ e p, Fails (FirstPass.run halfImported) { object := { name := text "a.o" } } e p ∧
      p.object.symbols.entries.map (fun s => (s.name, s.number)) =
        [(text "e", 3), (text "t", 0), (text "x", 1), (text "y", 2)] ∧
      p.object.Tabled) ∧
    ∃ obj, (Object.assemble (text "a.o") everyForm).1 = .ok obj ∧
      obj.symbols.entries.length = 3 ∧ obj.Tabled ∧
      ∀ sym ∈ obj.symbols.entries, sym.IsDeclared := by
  have hinvariant := symbol_table_invariant (text "a.o")
  constructor
  · have hnumbers : (outcome (FirstPass.run halfImported)
        { object := { name := text "a.o" } }).2.object.symbols.entries.map
          (fun s => (s.name, s.number)) =
        [(text "e", 3), (text "t", 0), (text "x", 1), (text "y", 2)] := by
      decide +kernel
    have hfailed : (outcome (FirstPass.run halfImported)
        { object := { name := text "a.o" } }).1.toOption = none := by
      decide +kernel
    rcases hrun : outcome (FirstPass.run halfImported) { object := { name := text "a.o" } } with
      ⟨e | u, p⟩
    · rw [hrun] at hnumbers
      exact ⟨e, p, hrun, hnumbers, hinvariant.1 halfImported p (.run hrun)⟩
    · rw [hrun] at hfailed
      cases hfailed
  · have hlength : (Object.assemble (text "a.o") everyForm).1.toOption.map
        (fun obj => obj.symbols.entries.length) = some 3 := by
      decide +kernel
    rcases hobj : (Object.assemble (text "a.o") everyForm).1 with e | obj
    · rw [hobj] at hlength
      cases hlength
    · rw [hobj] at hlength
      obtain ⟨htabled, hsymbols⟩ := hinvariant.2 everyForm obj hobj
      exact ⟨obj, rfl, Option.some.inj hlength, htabled, fun sym hsym => (hsymbols sym hsym).1⟩

end AsmKit
