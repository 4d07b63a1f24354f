import AsmKit.Assembler.Basic
import AsmKit.Proofs.Lockstep

/-
  What assembling comes to. An object that is assembled holds what the layout of its source asks
  for, and nothing in it is too long for 32 bits; so its relocations are the sites of the source,
  one for one. `Object.Assembled` is what the linker can rely on.
-/

namespace AsmKit

namespace Assembler.Job

variable {job : Job} {obj : Object}

/-- A pass over a job starts from its object alone. -/
theorem run_eq (job : Job) {pass : List Bytes → Pass Unit} {result : Except Abort Unit} {q : Progress}
    (h : outcome (pass job.source) { object := job.object } = (result, q)) :
    job.run pass = ⟨{ job? := some { job with progress := q } }, result, q.log⟩ := by
  have hrun : pass job.source job.progress.enter = (result, q) := h
  unfold run
  rw [hrun]

theorem assemble_runs (hresult : job.assemble.result = .ok ())
    (hobj : job.assemble.assembler.object? = some obj) :
    ∃ q₁ q₂, Runs (FirstPass.run job.source) { object := job.object } () q₁ ∧
      Runs (SecondPass.run job.source) { object := q₁.object } () q₂ ∧ q₂.object = obj := by
  unfold assemble at hresult hobj
  rcases hfirst : outcome (FirstPass.run job.source) { object := job.object } with ⟨e | u, q₁⟩
  · rw [run_eq job hfirst] at hresult
    cases hresult
  · rw [run_eq job hfirst] at hresult hobj
    dsimp only [secondPass] at hresult hobj
    rcases hsecond : outcome (SecondPass.run job.source) { object := q₁.object } with ⟨e | u, q₂⟩
    · rw [run_eq { job with progress := q₁ } hsecond] at hresult
      cases hresult
    · rw [run_eq { job with progress := q₁ } hsecond] at hobj
      cases hobj
      exact ⟨q₁, q₂, hfirst, hsecond, rfl⟩

end Assembler.Job

namespace Assembler

/-- What `assemble` returns is the object the assembler is left with, if nothing went wrong. -/
theorem Outcome.returned_eq_ok {done : Outcome} {obj : Object} :
    done.returned = .ok obj ↔ done.result = .ok () ∧ done.assembler.object? = some obj := by
  unfold returned
  rcases done.result with e | u <;> rcases done.assembler.object? with _ | o <;> simp

end Assembler

/-- The lines of a source. -/
def sourceLines (source : Bytes) : List Bytes := (Lines.read Assembler.lineLimit source).lines

theorem Assembler.readSource_eq_ok {source : Bytes} {lines : List Bytes}
    (h : readSource source = .ok lines) : lines = sourceLines source := by
  unfold readSource at h
  dsimp only at h
  split at h
  · cases h
  · cases h
    rfl

/-- Assembling succeeds when both passes do. -/
theorem Object.assemble_runs {name source : Bytes} {obj : Object}
    (h : (Object.assemble name source).1 = .ok obj) :
    ∃ q₁ q₂, Runs (FirstPass.run (sourceLines source)) { object := { name } } () q₁ ∧
      Runs (SecondPass.run (sourceLines source)) { object := q₁.object } () q₂ ∧
      q₂.object = obj := by
  obtain ⟨hresult, hobj⟩ := Assembler.Outcome.returned_eq_ok.mp h
  unfold Assembler.assemble at hresult hobj
  rcases hlines : Assembler.readSource source with e | lines
  · rw [hlines] at hresult
    cases hresult
  · rw [hlines] at hresult hobj
    cases Assembler.readSource_eq_ok hlines
    exact Assembler.Job.assemble_runs hresult hobj

theorem Object.assemble_of_runs {name source : Bytes} {lines : List Bytes} {q₁ q₂ : Progress}
    (hlines : Assembler.readSource source = .ok lines)
    (hfirst : Runs (FirstPass.run lines) { object := { name } } () q₁)
    (hsecond : Runs (SecondPass.run lines) { object := q₁.object } () q₂) :
    (Object.assemble name source).1 = .ok q₂.object := by
  have hrun := Assembler.Job.run_eq { source := lines, progress := { object := { name } } } hfirst
  have hrun' := Assembler.Job.run_eq { source := lines, progress := q₁ } hsecond
  refine Assembler.Outcome.returned_eq_ok.mpr ?_
  unfold Assembler.assemble
  rw [hlines]
  dsimp only [Assembler.load]
  unfold Assembler.Job.assemble
  rw [hrun]
  dsimp only [Assembler.secondPass]
  rw [hrun']
  exact ⟨rfl, rfl⟩

/-- Behind both passes an object holds what the layout of its source asks for. -/
theorem Object.assemble_passes {name source : Bytes} {obj : Object}
    (h : (Object.assemble name source).1 = .ok obj) :
    ∃ ls q p, SourceLine.readAll 1 (sourceLines source) = .ok ls ∧
      Runs (FirstPass.run (sourceLines source)) { object := { name } } () q ∧
      q.object.Measured (Layout.after ls) ∧
      SecondPass.Follows q.object (Layout.after ls) (({} : Layout).sites ls) p ∧ p.object = obj ∧
      ∀ s ∈ obj.sections, SecondPass.isMeasured obj.symbols s = true := by
  obtain ⟨q₁, q₂, hfirst, hsecond, rfl⟩ := assemble_runs h
  obtain ⟨ls, r, hls, hr, -, hm⟩ := FirstPass.runs_run hfirst
  obtain ⟨_, q, hlines, hcheck⟩ := runs_bind.mp hsecond
  obtain ⟨rfl, hsizes⟩ := SecondPass.runs_checkSizes.mp hcheck
  obtain ⟨ls', p, hls', hp, hlog⟩ := Pass.runs_eachLine hlines
  rw [hls] at hls'
  cases hls'
  refine ⟨ls, q₁, p, hls, hfirst, hm, hm.follows.steps hm.zeroUnlessDefined hp, ?_, hsizes⟩
  rw [hlog]

/-- An assembled object holds what the layout of its source asks for. -/
theorem Object.assemble_follows {name source : Bytes} {obj : Object}
    (h : (Object.assemble name source).1 = .ok obj) :
    ∃ ls start p, SourceLine.readAll 1 (sourceLines source) = .ok ls ∧
      start.Measured (Layout.after ls) ∧
      SecondPass.Follows start (Layout.after ls) (({} : Layout).sites ls) p ∧ p.object = obj ∧
      ∀ s ∈ obj.sections, SecondPass.isMeasured obj.symbols s = true := by
  obtain ⟨ls, q, p, hls, -, hm, hfollows, hobj, hsizes⟩ := assemble_passes h
  exact ⟨ls, q.object, p, hls, hm, hfollows, hobj, hsizes⟩

/-- Two relocations have no byte in common. -/
def Relocation.Apart (a b : Relocation) : Prop :=
  a.sectionName = b.sectionName →
    a.location.toNat + 4 ≤ b.location.toNat ∨ b.location.toNat + 4 ≤ a.location.toNat

/-- The word of a relocation is there, and in it the value of a symbol that may be referred to. -/
def Relocation.Filled (obj : Object) (r : Relocation) : Prop :=
  ∃ s sym, obj.findSection r.sectionName = some s ∧ obj.symbols.lookup r.symbol = .ok sym ∧
    s.code.Spells r.location.toNat sym.value

/-- What holds of an object that comes from a source. -/
structure Object.Assembled (obj : Object) : Prop where
  sound : obj.Sound
  short : ∀ n s, obj.findSection n = some s → s.code.length < 2 ^ 32
  sizes : ∀ n s, obj.findSection n = some s →
    ∃ sym, obj.symbols.get? n = some sym ∧ sym.size.toInt = s.code.length
  values : ∀ n sym, obj.symbols.get? n = some sym → sym.isDefined = true →
    ∃ s, obj.findSection sym.sectionName = some s ∧ sym.value.toNat ≤ s.code.length
  filled : ∀ r ∈ obj.relocations.entries, r.Filled obj
  apart : obj.relocations.entries.Pairwise Relocation.Apart

namespace SecondPass.Follows

variable {start : Object} {y : Layout} {sites : List Site} {p : Progress}

theorem sound (h : Follows start y sites p) (hs : start.Sound) : p.object.Sound := by
  constructor
  · rw [h.symbols]
    exact hs.ascending
  · rw [h.sectionNames]
    exact hs.nodup
  · rw [h.symbols, h.sectionNames]
    exact hs.symbols
  · rw [h.symbols, h.sectionNames]
    exact hs.sections

/-- With short sections 32 bits are enough to tell where a site is. -/
theorem location_toNat (h : Follows start y sites p)
    (hshort : ∀ n s, p.object.findSection n = some s → s.code.length < 2 ^ 32) {site : Site}
    (hsite : site ∈ sites) : site.relocation.location.toNat = site.offset := by
  obtain ⟨s, sym, hs, -, hspell⟩ := h.filled site hsite
  have hle := hspell.le_length
  have hlt := hshort _ s hs
  show (UInt32.ofNat site.offset).toNat = site.offset
  rw [UInt32.toNat_ofNat']
  omega

theorem relocations_filled (h : Follows start y sites p)
    (hshort : ∀ n s, p.object.findSection n = some s → s.code.length < 2 ^ 32) :
    ∀ r ∈ p.object.relocations.entries, r.Filled p.object := by
  intro r hr
  obtain ⟨site, hsite, rfl⟩ := List.mem_map.mp (h.relocations.mem_iff.mp hr)
  obtain ⟨s, sym, hs, hsym, hspell⟩ := h.filled site hsite
  refine ⟨s, sym, hs, hsym, ?_⟩
  rw [h.location_toNat hshort hsite]
  exact hspell

theorem relocations_apart (h : Follows start y sites p)
    (hshort : ∀ n s, p.object.findSection n = some s → s.code.length < 2 ^ 32) :
    p.object.relocations.entries.Pairwise Relocation.Apart := by
  have hsymm {a b : Relocation} (hab : a.Apart b) : b.Apart a := fun e => (hab e.symm).symm
  rw [h.relocations.pairwise_iff hsymm, List.pairwise_map]
  refine List.Pairwise.imp_of_mem ?_ h.apart
  intro a b ha hb hab hsection
  rw [h.location_toNat hshort ha, h.location_toNat hshort hb]
  exact .inl (hab hsection)

end SecondPass.Follows

theorem Object.assembled {name source : Bytes} {obj : Object}
    (h : (Object.assemble name source).1 = .ok obj) : obj.Assembled := by
  obtain ⟨ls, start, p, -, hm, hfollows, rfl, hsizes⟩ := assemble_follows h
  have hshort : ∀ n s, p.object.findSection n = some s → s.code.length < 2 ^ 32 := by
    intro n s hs
    have hmem := mem_of_findSection hs
    exact (SecondPass.isMeasured_iff hm hfollows hmem).mp (hsizes s hmem)
  constructor
  · exact hfollows.sound hm.sound
  · exact hshort
  · intro n s hs
    have hmeasured := hsizes s (mem_of_findSection hs)
    unfold SecondPass.isMeasured at hmeasured
    rw [name_of_findSection hs] at hmeasured
    split at hmeasured
    · next sym hsym => exact ⟨sym, hsym, of_decide_eq_true hmeasured⟩
    · cases hmeasured
  · intro n sym hsym hdef
    have hhome := ((hfollows.sound hm.sound).symbols n sym hsym).home hdef
    obtain ⟨s, hs⟩ := exists_findSection hhome
    rw [hfollows.symbols] at hsym
    obtain ⟨k, hk, hvalue⟩ := hm.values n sym hsym hdef
    refine ⟨s, hs, ?_⟩
    rw [hfollows.lengths _ s hs, hvalue, UInt32.toNat_ofNat']
    exact Nat.le_trans (Nat.mod_le _ _) hk
  · exact hfollows.relocations_filled hshort
  · exact hfollows.relocations_apart hshort

/-- The relocations of an assembled object are the sites of its source, one for one. Each is within
a section and holds the value of a symbol that is defined, imported or exported, which is zero
unless it is defined; no two share a byte. -/
theorem relocations_are_sites {name source : Bytes} {obj : Object}
    (h : (Object.assemble name source).1 = .ok obj) :
    (∃ ls, SourceLine.readAll 1 (sourceLines source) = .ok ls ∧
      obj.relocations.entries.Perm ((({} : Layout).sites ls).map Site.relocation) ∧
      ∀ site ∈ ({} : Layout).sites ls, site.relocation.location.toNat = site.offset) ∧
    (∀ r ∈ obj.relocations.entries, ∃ s sym, obj.findSection r.sectionName = some s ∧
      obj.symbols.get? r.symbol = some sym ∧
      (sym.isDefined = true ∨ sym.isExtern = true ∨ sym.isGlobal = true) ∧
      r.location.toNat + 4 ≤ s.code.length ∧ s.word? r.location = some sym.value ∧
      (sym.isDefined = false → sym.value = 0)) ∧
    obj.relocations.entries.Pairwise Relocation.Apart := by
  have ha := Object.assembled h
  refine ⟨?_, fun r hr => ?_, ha.apart⟩
  · obtain ⟨ls, start, p, hls, hm, hfollows, rfl, -⟩ := Object.assemble_follows h
    exact ⟨ls, hls, hfollows.relocations, fun site hsite => hfollows.location_toNat ha.short hsite⟩
  · obtain ⟨s, sym, hs, hsym, hspell⟩ := ha.filled r hr
    obtain ⟨hget, hdeclared⟩ := SymbolTable.lookup_eq_ok_iff.mp hsym
    refine ⟨s, sym, hs, hget, hdeclared, hspell.le_length, Section.word?_of_spells hspell, ?_⟩
    intro hdef
    exact ((ha.sound.symbols _ sym hget).blank hdef).2

/-- A source that refers to a symbol of its own and to an imported one, in every form. -/
def everyForm : Bytes :=
  text ".extern e\n.section t\nx: jmp $x\nld e, %r1\nst %r1, [%r2 + x]\n.word 1, x, e\n.end\n"

theorem relocations_are_sites_everyForm : ∃ obj,
    (Object.assemble (text "a.o") everyForm).1 = .ok obj ∧ obj.relocations.size = 5 ∧
    (∃ ls, SourceLine.readAll 1 (sourceLines everyForm) = .ok ls ∧
      obj.relocations.entries.Perm ((({} : Layout).sites ls).map Site.relocation)) ∧
    obj.relocations.entries.Pairwise Relocation.Apart := by
  have hsize : (Object.assemble (text "a.o") everyForm).1.toOption.map
      (fun obj => obj.relocations.size) = some 5 := by
    decide +kernel
  rcases hobj : (Object.assemble (text "a.o") everyForm).1 with e | obj
  · rw [hobj] at hsize
    cases hsize
  · rw [hobj] at hsize
    obtain ⟨⟨ls, hls, hperm, -⟩, -, hapart⟩ := relocations_are_sites hobj
    exact ⟨obj, rfl, Option.some.inj hsize, ⟨ls, hls, hperm⟩, hapart⟩

end AsmKit
