import AsmKit.Assembler.SecondPass
import AsmKit.Proofs.Emission
import AsmKit.Proofs.SourceLines
import AsmKit.Proofs.Tables

/-
  Pass two. A line that succeeds opens a section that is there, emits its statement into the open
  section or does nothing (`runs_line`). So the pass follows the layout of the lines (`Follows`):
  every section is as long as its extent, and the relocations are those of the sites written so
  far, each with the value of its symbol in its word and apart from all others.
-/

namespace AsmKit

/-! ## Emitting -/

namespace Object

variable (obj : Object) (name : Bytes) (e : Emission)

theorem findSection_emit (n : Bytes) : (obj.emit name e).findSection n =
    if n = name then (obj.findSection n).map fun s => s.append e.bytes else obj.findSection n := by
  have h : (obj.emit name e).findSection n =
      (obj.modifySection name fun s => s.append e.bytes).findSection n := rfl
  rw [h, findSection_modifySection]
  split
  · next hn =>
    rcases hs : obj.findSection n with _ | s
    · rfl
    · rw [Option.map_some, Option.map_some, ← hn, ← name_of_findSection hs]
      rfl
  · rfl

theorem sectionNames_emit : (obj.emit name e).sectionNames = obj.sectionNames :=
  sectionNames_modifySection obj name _

theorem relocations_emit : (obj.emit name e).relocations.entries.Perm
    (obj.relocations.entries ++ e.references.map fun r =>
      ⟨r.symbol, r.type, ((obj.findSection name).map Section.length).getD 0 + r.offset, name⟩) :=
  RelocationTable.foldl_add_perm _ _ _

end Object

namespace SecondPass

variable {p q : Progress}

/-! ## What a line does -/

/-- What a statement does in pass two. -/
inductive Writes (st : Statement) (p q : Progress) : Prop where
  | opens {name : Bytes} (hopens : st.opens? = some name) (hfound : name ∈ p.object.sectionNames)
      (hq : q = { p with sectionName := name, isOpen := true })
  | emits (hopens : st.opens? = none) (hopen : p.isOpen = true)
      (hc : (st.emission p.object.symbols).complaint? = none)
      (hq : q = { p with object := p.object.emit p.sectionName (st.emission p.object.symbols) })
  | silent (hopens : st.opens? = none) (hsize : st.size = 0) (hops : st.symbolOperands = [])
      (hq : q = p)

theorem runs_emit {line : Nat} {e : Emission} (h : Runs (emit line e) p () q) :
    p.isOpen = true ∧ e.complaint? = none ∧
      q = { p with object := p.object.emit p.sectionName e } := by
  unfold emit at h
  simp only [runs_bind, runs_get] at h
  obtain ⟨_, _, ⟨rfl, rfl⟩, h⟩ := h
  rcases hc : e.complaint? with _ | c
  · rw [hc] at h
    split at h
    · next hopen =>
      simp only [runs_bind, runs_set, runs_pure] at h
      obtain ⟨_, _, rfl, -, rfl⟩ := h
      exact ⟨hopen, rfl, rfl⟩
    · rw [if_pos (by simp)] at h
      obtain ⟨_, _, hthrow, -⟩ := runs_bind.mp h
      exact absurd hthrow runs_throw
  · rw [hc] at h
    split at h
    · obtain ⟨_, _, -, hthrow⟩ := runs_bind.mp h
      exact absurd hthrow runs_throw
    · split at h
      · obtain ⟨_, _, -, hthrow⟩ := runs_bind.mp h
        exact absurd hthrow runs_throw
      · exact absurd h runs_throw

theorem runs_emit_of_open (hopen : p.isOpen = true) {e : Emission} (hc : e.complaint? = none)
    (number : Nat) :
    Runs (emit number e) p () { p with object := p.object.emit p.sectionName e } := by
  unfold emit
  simp only [runs_bind, runs_get]
  refine ⟨_, _, ⟨rfl, rfl⟩, ?_⟩
  rw [if_pos hopen, hc]
  simp only [runs_bind, runs_set, runs_pure]
  exact ⟨(), _, rfl, trivial, rfl⟩

theorem runs_openSection {line : Nat} {arguments : List Token}
    (h : Runs (openSection line arguments) p () q) :
    Writes (.directive .openSection arguments) p q := by
  rcases arguments with _ | ⟨t, rest⟩
  · exact absurd h runs_throw
  · simp only [openSection, runs_bind, runs_get, runs_set] at h
    obtain ⟨_, p, ⟨rfl, rfl⟩, _, _, rfl, h⟩ := h
    split at h
    · exact absurd h runs_throw
    · next hfound =>
      have hsome : (p.object.findSection t.word).isSome = true := by
        rcases hs : (p.object.findSection t.word).isSome with _ | _
        · exact absurd (by rw [hs]; rfl) hfound
        · rfl
      obtain ⟨-, rfl⟩ := runs_pure.mp h
      rw [hsome]
      exact .opens rfl (Object.findSection_isSome_iff.mp hsome) rfl

/-- An instruction that goes through is a known one, and its statement is accepted. -/
theorem accepted_of_runs {line : Nat} {name : Bytes} {arguments : List Token}
    (h : Runs (instruction line name arguments) p () q) :
    ∃ i, Instruction.find? name = some i ∧ p.isOpen = true ∧
      (i.emission p.object.symbols arguments).complaint? = none ∧
      q = { p with object := p.object.emit p.sectionName (i.emission p.object.symbols arguments) } := by
  unfold instruction at h
  rcases hi : Instruction.find? name with _ | i
  · rw [hi] at h
    exact absurd h runs_throw
  · rw [hi] at h
    simp only [runs_bind, runs_get] at h
    obtain ⟨_, p, ⟨rfl, rfl⟩, h⟩ := h
    split at h
    · obtain ⟨_, _, hthrow, -⟩ := runs_bind.mp h
      exact absurd hthrow runs_throw
    · exact ⟨i, rfl, runs_emit h⟩

theorem runs_instruction {line : Nat} {name : Bytes} {arguments : List Token}
    (h : Runs (instruction line name arguments) p () q) :
    Writes (.instruction name arguments) p q := by
  obtain ⟨i, hi, hopen, hc, hq⟩ := accepted_of_runs h
  rw [← Statement.emission_instruction hi] at hc hq
  exact .emits rfl hopen hc hq

theorem runs_line {number : Nat} {l : SourceLine} (h : Runs (line number l) p () q) :
    Writes l.statement p q := by
  unfold line at h
  match hst : l.statement with
  | .nothing | .stop | .directive .globals _ | .directive .externs _ =>
    rw [hst] at h
    obtain ⟨-, rfl⟩ := runs_pure.mp h
    exact .silent rfl rfl rfl rfl
  | .directive .openSection arguments =>
    rw [hst] at h
    exact runs_openSection h
  | .directive .words arguments =>
    rw [hst] at h
    simp only [statement, runs_bind, runs_get] at h
    obtain ⟨_, _, ⟨rfl, rfl⟩, h⟩ := h
    obtain ⟨hopen, hc, hq⟩ := runs_emit h
    exact .emits rfl hopen hc hq
  | .directive .skip arguments =>
    rw [hst] at h
    obtain ⟨hopen, hc, hq⟩ := runs_emit h
    exact .emits rfl hopen hc hq
  | .instruction name arguments =>
    rw [hst] at h
    exact runs_instruction h
  | .stray word =>
    rw [hst] at h
    exact absurd h runs_throw

end SecondPass

/-! ## Following the layout -/

/-- The word at a site is there and holds the value of the symbol, which may be referred to. -/
def Site.Filled (obj : Object) (site : Site) : Prop :=
  ∃ s sym, obj.findSection site.sectionName = some s ∧
    obj.symbols.lookup site.symbol = .ok sym ∧ s.code.Spells site.offset sym.value

theorem Site.Filled.emit {obj : Object} {site : Site} (h : site.Filled obj) (name : Bytes)
    (e : Emission) : site.Filled (obj.emit name e) := by
  obtain ⟨s, sym, hs, hsym, hspell⟩ := h
  by_cases hn : site.sectionName = name
  · refine ⟨s.append e.bytes, sym, ?_, hsym, hspell.append e.bytes⟩
    rw [Object.findSection_emit, if_pos hn, hs]
    rfl
  · refine ⟨s, sym, ?_, hsym, hspell⟩
    rw [Object.findSection_emit, if_neg hn, hs]

namespace SecondPass

variable {p q : Progress}

/-- The pass has written what the layout of the lines so far asks for. -/
structure Follows (start : Object) (y : Layout) (sites : List Site) (p : Progress) : Prop where
  symbols : p.object.symbols = start.symbols
  sectionNames : p.object.sectionNames = start.sectionNames
  current : p.sectionName = y.current
  opened : p.sectionName ≠ undefinedSection → p.isOpen = true
  found : p.isOpen = true → p.sectionName ∈ p.object.sectionNames
  lengths : ∀ n s, p.object.findSection n = some s → s.code.length = y.extent n
  relocations : p.object.relocations.entries.Perm (sites.map Site.relocation)
  filled : ∀ site ∈ sites, site.Filled p.object
  apart : sites.Pairwise fun a b => a.sectionName = b.sectionName → a.offset + 4 ≤ b.offset

variable {start : Object} {y : Layout} {sites : List Site}

/-- A site that is filled is within the extent of its section. -/
theorem Follows.le_extent (h : Follows start y sites p) {site : Site} (hs : site ∈ sites) :
    site.offset + 4 ≤ y.extent site.sectionName := by
  obtain ⟨s, sym, hfind, -, hspell⟩ := h.filled site hs
  rw [← h.lengths _ s hfind]
  exact hspell.le_length

theorem Follows.opens {l : SourceLine} {name : Bytes} (h : Follows start y sites p)
    (hopens : l.statement.opens? = some name) (hfound : name ∈ p.object.sectionNames) :
    Follows start (y.step l) sites { p with sectionName := name, isOpen := true } := by
  rw [Layout.step_current_of_opens hopens]
  exact { h with current := rfl, opened := fun _ => rfl, found := fun _ => hfound }

theorem Follows.silent {l : SourceLine} (h : Follows start y sites p)
    (hopens : l.statement.opens? = none) (hsize : l.statement.size = 0) :
    Follows start (y.step l) sites p := by
  have he : (y.step l).extent = y.extent := by
    rw [Layout.step_of_not_opens hopens, hsize]
    simp
  have hc : (y.step l).current = y.current := by rw [Layout.step_of_not_opens hopens]
  exact { h with current := h.current.trans hc.symm, lengths := he ▸ h.lengths }

theorem Follows.emits {l : SourceLine} (h : Follows start y sites p)
    (hz : start.symbols.ZeroUnlessDefined) (hopens : l.statement.opens? = none)
    (hopen : p.isOpen = true)
    (hc : (l.statement.emission p.object.symbols).complaint? = none) :
    Follows start (y.step l) (sites ++ y.sitesOfLine l)
      { p with object := p.object.emit p.sectionName (l.statement.emission p.object.symbols) } := by
  have hfits : (l.statement.emission p.object.symbols).Fits p.object.symbols l.statement :=
    Statement.emission_fits (by rw [h.symbols]; exact hz) hc
  generalize l.statement.emission p.object.symbols = e at hfits
  obtain ⟨s, hs⟩ := Object.exists_findSection (h.found hopen)
  have hlen : s.code.length = y.extent y.current := by
    rw [← h.current]
    exact h.lengths _ s hs
  have hcur : (y.step l).current = y.current := by rw [Layout.step_of_not_opens hopens]
  constructor
  case symbols => exact h.symbols
  case sectionNames => exact (Object.sectionNames_emit _ _ _).trans h.sectionNames
  case current => exact h.current.trans hcur.symm
  case opened => exact h.opened
  case found =>
    intro _
    rw [Object.sectionNames_emit]
    exact h.found hopen
  case lengths =>
    intro n s' hs'
    rw [Object.findSection_emit] at hs'
    rw [Layout.step_of_not_opens hopens]
    dsimp only
    rw [← h.current]
    split at hs'
    · next hn =>
      obtain ⟨s₀, hs₀, rfl⟩ := Option.map_eq_some_iff.mp hs'
      rw [if_pos hn, ← h.lengths n s₀ hs₀, ← hfits.length]
      exact List.length_append
    · next hn =>
      rw [if_neg hn]
      exact h.lengths n s' hs'
  case relocations =>
    refine (Object.relocations_emit _ _ _).trans ?_
    rw [List.map_append]
    refine h.relocations.append (List.Perm.of_eq ?_)
    rw [hfits.references, hs, Layout.sitesOfLine, List.map_map, List.map_map]
    apply List.map_congr_left
    intro o _
    simp [Site.relocation, SymbolOperand.reference, Section.length, hlen, h.current]
  case filled =>
    -- a new site stands behind the bytes of its section, an old one before what is added
    intro site hsite
    rcases List.mem_append.mp hsite with hsite | hsite
    · exact (h.filled site hsite).emit _ _
    · obtain ⟨o, ho, rfl⟩ := List.mem_map.mp hsite
      obtain ⟨sym, hsym, hspell⟩ := hfits.spells o ho
      refine ⟨s.append e.bytes, sym, ?_, hsym, ?_⟩
      · rw [Object.findSection_emit, ← h.current, if_pos rfl, hs]
        rfl
      · rw [← hlen]
        exact hspell.behind s.code
  case apart =>
    refine List.pairwise_append.mpr ⟨h.apart, ?_, ?_⟩
    · rw [Layout.sitesOfLine, List.pairwise_map]
      refine hfits.apart.imp fun hab _ => ?_
      dsimp only
      omega
    · intro a ha b hb hab
      have hle := h.le_extent ha
      obtain ⟨o, -, rfl⟩ := List.mem_map.mp hb
      rw [hab] at hle
      dsimp only at hle ⊢
      omega

theorem Follows.line {number : Nat} {l : SourceLine} (h : Follows start y sites p)
    (hz : start.symbols.ZeroUnlessDefined) (hl : Runs (SecondPass.line number l) p () q) :
    Follows start (y.step l) (sites ++ y.sitesOfLine l) q := by
  cases runs_line hl with
  | opens hopens hfound hq =>
    rw [hq, Layout.sitesOfLine, Statement.symbolOperands_of_opens hopens, List.map_nil,
      List.append_nil]
    exact h.opens hopens hfound
  | emits hopens hopen hc hq =>
    rw [hq]
    exact h.emits hz hopens hopen hc
  | silent hopens hsize hops hq =>
    rw [hq, Layout.sitesOfLine, hops, List.map_nil, List.append_nil]
    exact h.silent hopens hsize

theorem Follows.steps {number : Nat} {ls : List SourceLine} (h : Follows start y sites p)
    (hz : start.symbols.ZeroUnlessDefined)
    (hls : Runs (Pass.steps SecondPass.line number ls) p () q) :
    Follows start (ls.foldl Layout.step y) (sites ++ y.sites ls) q := by
  induction ls generalizing y p number sites with
  | nil =>
    obtain ⟨-, rfl⟩ := runs_pure.mp hls
    rw [Layout.sites, List.append_nil]
    exact h
  | cons l ls ih =>
    obtain ⟨_, r, hr, hq⟩ := runs_bind.mp hls
    have hrest := ih (h.line hz hr) hq
    rw [List.append_assoc] at hrest
    exact hrest

/-- Pass two starts on an object with nothing in its sections. -/
theorem follows_start (hempty : ∀ s ∈ start.sections, s.code = [])
    (hrel : start.relocations = {}) : Follows start {} [] { object := start } where
  symbols := rfl
  sectionNames := rfl
  current := rfl
  opened h := absurd rfl h
  found h := nomatch h
  lengths n s hs := by
    rw [hempty s (Object.mem_of_findSection hs)]
    rfl
  relocations := by
    rw [hrel]
    exact List.Perm.nil
  filled _ h := nomatch h
  apart := List.Pairwise.nil

/-! ## Bytes stay -/

/-- Every section of an object starts with the bytes it had in another. -/
def Extends (obj obj' : Object) : Prop :=
  ∀ n s, obj.findSection n = some s → ∃ s', obj'.findSection n = some s' ∧ s.code <+: s'.code

theorem Extends.refl (obj : Object) : Extends obj obj := fun _ s hs => ⟨s, hs, List.prefix_rfl⟩

theorem Extends.trans {obj obj' obj'' : Object} (h : Extends obj obj') (h' : Extends obj' obj'') :
    Extends obj obj'' := by
  intro n s hs
  obtain ⟨s', hs', hp⟩ := h n s hs
  obtain ⟨s'', hs'', hp'⟩ := h' n s' hs'
  exact ⟨s'', hs'', hp.trans hp'⟩

theorem extends_line {number : Nat} {l : SourceLine} (hl : Runs (line number l) p () q) :
    Extends p.object q.object := by
  cases runs_line hl with
  | opens hopens hfound hq =>
    rw [hq]
    exact .refl _
  | emits hopens hopen hc hq =>
    rw [hq]
    intro n s hs
    dsimp only
    rw [Object.findSection_emit]
    split
    · rw [hs]
      exact ⟨_, rfl, List.prefix_append _ _⟩
    · exact ⟨s, hs, List.prefix_rfl⟩
  | silent hopens hsize hops hq =>
    rw [hq]
    exact .refl _

theorem extends_steps {number : Nat} {ls : List SourceLine}
    (hls : Runs (Pass.steps line number ls) p () q) : Extends p.object q.object := by
  induction ls generalizing p number with
  | nil =>
    obtain ⟨-, rfl⟩ := runs_pure.mp hls
    exact .refl _
  | cons l ls ih =>
    obtain ⟨_, r, hr, hq⟩ := runs_bind.mp hls
    exact (extends_line hr).trans (ih hq)

/-! ## The closing check -/

theorem runs_checkSizes : Runs checkSizes p () q ↔
    q = p ∧ ∀ s ∈ p.object.sections, isMeasured p.object.symbols s = true := by
  unfold checkSizes
  simp only [runs_bind, runs_get]
  constructor
  · rintro ⟨_, _, ⟨rfl, rfl⟩, h⟩
    split at h
    · exact absurd h runs_throw
    · next hnone =>
      refine ⟨(runs_pure.mp h).2, fun s hs => ?_⟩
      simpa using List.find?_eq_none.mp hnone s hs
  · rintro ⟨rfl, hall⟩
    refine ⟨q, q, ⟨rfl, rfl⟩, ?_⟩
    have hnone : q.object.sections.find? (fun s => !isMeasured q.object.symbols s) = none := by
      rw [List.find?_eq_none]
      intro s hs
      simp [hall s hs]
    rw [hnone]
    exact runs_pure.mpr ⟨rfl, rfl⟩

end SecondPass

end AsmKit
