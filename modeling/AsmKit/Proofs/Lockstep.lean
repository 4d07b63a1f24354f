import AsmKit.Proofs.Measure
import AsmKit.Proofs.SecondPass
import Mathlib.Algebra.Ring.Nat

/-
  The two passes go through a source in lockstep. Both follow the layout of its lines, pass one by
  counting and pass two by writing, so at each line they are in the same section, and pass two has
  put as many bytes into it as pass one has counted (`LockstepAt`). Pass one counts with 32 bits;
  the closing check of pass two notices exactly the sections that are too long for that.
-/

namespace AsmKit

/-! ## From the measured object on -/

namespace Object.Measured

variable {obj : Object} {y : Layout}

theorem zeroUnlessDefined (h : obj.Measured y) : obj.symbols.ZeroUnlessDefined :=
  fun n s hs hd => ((h.sound.symbols n s hs).blank hd).2

theorem follows (h : obj.Measured y) : SecondPass.Follows obj {} [] { object := obj } := by
  refine SecondPass.follows_start (fun s hs => ?_) h.unrelocated
  rw [h.unwritten s hs]

end Object.Measured

namespace SecondPass

variable {p : Progress} {start : Object} {y : Layout} {sites : List Site}

/-- A section has the length that pass one measured unless 32 bits were too few to count it. -/
theorem isMeasured_iff (hm : start.Measured y) (h : Follows start y sites p) {s : Section}
    (hs : s ∈ p.object.sections) :
    isMeasured p.object.symbols s = true ↔ s.code.length < 2 ^ 32 := by
  have hname : s.name ∈ p.object.sectionNames := List.mem_map_of_mem hs
  have hnodup : p.object.sectionNames.Nodup := by
    rw [h.sectionNames]
    exact hm.sound.nodup
  have hlen : s.code.length = y.extent s.name :=
    h.lengths s.name s ((Object.findSection_eq_some_iff hnodup).mpr ⟨hs, rfl⟩)
  rw [h.sectionNames] at hname
  obtain ⟨sym, hsym, hsec⟩ := hm.sound.sections s.name hname
  have hsize := hm.sizes s.name sym hsym hsec
  rw [SymbolTable.name_of_get? hsym, ← hlen] at hsize
  have hint : sym.size.toInt = ((s.code.length % 2 ^ 32 : Nat) : Int) := by
    have hlt := (UInt32.ofNat s.code.length).toNat_lt
    rw [hsize, Int64.toInt_ofNat_of_lt (by omega), UInt32.toNat_ofNat']
  have hdecide : isMeasured p.object.symbols s = decide (sym.size.toInt = s.code.length) := by
    unfold isMeasured
    rw [h.symbols, hsym]
  rw [hdecide, hint, decide_eq_true_iff]
  omega

end SecondPass

/-! ## Lockstep -/

/-- What the two passes have in common when they come to line `n` of a source, counted from zero,
where `measured` is what pass one leaves in the end. -/
structure LockstepAt (source : List Bytes) (measured : Object) (n : Nat) (p₁ p₂ : Progress) :
    Prop where
  sectionName : p₂.sectionName = p₁.sectionName
  isOpen : p₁.sectionName ≠ undefinedSection → p₂.isOpen = true
  length : p₂.isOpen = true → ∃ s, p₂.object.findSection p₂.sectionName = some s ∧
    s.code.length % 2 ^ 32 = p₁.counter.toNat
  /-- A label on the line has the length of its section so far for its value. -/
  label : ∀ raw l name, source[n]? = some raw → SourceLine.read (n + 1) raw = .ok l →
    l.label? = some name →
    ∃ sym s, measured.symbols.get? name = some sym ∧ sym.isDefined = true ∧
      sym.sectionName = p₂.sectionName ∧ p₂.object.findSection p₂.sectionName = some s ∧
      sym.value.toNat = s.code.length % 2 ^ 32

theorem FirstPass.Tracks.counter_toNat {y : Layout} {p : Progress} (h : FirstPass.Tracks y p) :
    p.counter.toNat = y.extent y.current % 2 ^ 32 := by
  rw [h.counter, UInt32.toNat_ofNat']

theorem lockstepAt {source : List Bytes} {name : Bytes} {q r : Progress} {ls : List SourceLine}
    (hls : SourceLine.readAll 1 source = .ok ls)
    (hfirst : Runs (Pass.steps FirstPass.line 1 ls) { object := { name } } () r)
    (hkeeps : r.object.symbols.Keeps q.object.symbols)
    (hm : q.object.Measured (Layout.after ls)) {n : Nat} {p₂ : Progress}
    (h₂ : Pass.stateAt SecondPass.line 1 { object := q.object } source n = some p₂) :
    ∃ p₁, Pass.stateAt FirstPass.line 1 { object := { name } } source n = some p₁ ∧
      LockstepAt source q.object n p₁ p₂ := by
  obtain ⟨hn, hgo, hsecond⟩ := (Pass.stateAt_eq_some_iff hls).mp h₂
  rw [← List.take_append_drop n ls] at hfirst
  obtain ⟨p₁, hp₁, hrest⟩ := Pass.runs_steps_append.mp hfirst
  have htracks := (FirstPass.tracks_start name).steps hp₁
  have hfollows := hm.follows.steps hm.zeroUnlessDefined hsecond
  refine ⟨p₁, (Pass.stateAt_eq_some_iff hls).mpr ⟨hn, hgo, hp₁⟩, ?_⟩
  have hsection : p₂.sectionName = p₁.sectionName := hfollows.current.trans htracks.current.symm
  have hlength (hopen : p₂.isOpen = true) : ∃ s, p₂.object.findSection p₂.sectionName = some s ∧
      s.code.length % 2 ^ 32 = p₁.counter.toNat := by
    obtain ⟨s, hs⟩ := Object.exists_findSection (hfollows.found hopen)
    refine ⟨s, hs, ?_⟩
    rw [htracks.counter_toNat, hfollows.lengths _ s hs, hfollows.current]
  constructor
  · exact hsection
  · intro hne
    exact hfollows.opened (hsection ▸ hne)
  · exact hlength
  · intro raw l label hraw hread hlabel
    rw [Nat.add_comm] at hread
    obtain ⟨l', hread', hl⟩ := SourceLine.exists_of_readAll hls hgo hraw
    rw [hread] at hread'
    cases hread'
    have hlt : n < ls.length := (List.getElem?_eq_some_iff.mp hl).1
    have hget : ls[n] = l := (List.getElem?_eq_some_iff.mp hl).2
    rw [List.drop_eq_getElem_cons hlt, hget] at hrest
    obtain ⟨_, p', hline, hrest⟩ := runs_bind.mp hrest
    -- the label gets its place here and keeps it to the end of pass one
    obtain ⟨hne, sym, hsym, hdef, hsec, hval⟩ := htracks.label hline hlabel
    obtain ⟨sym', hsym', hk⟩ :=
      (((htracks.line hline).keeps_steps hrest).trans hkeeps) label sym hsym
    obtain ⟨hdef', hsec', hval'⟩ := hk.definition hdef
    obtain ⟨s, hs, hlen⟩ := hlength (hfollows.opened (hsection ▸ hne))
    refine ⟨sym', s, hsym', hdef', ?_, hs, ?_⟩
    · rw [hsec', hsec, hsection]
    · rw [hval', hval, hlen]

/-- Later in pass two, sections still start with the bytes they have. -/
theorem extends_stateAt {source : List Bytes} {ls : List SourceLine}
    (hls : SourceLine.readAll 1 source = .ok ls) {p q r : Progress} {m n : Nat} (hnm : n ≤ m)
    (hn : Pass.stateAt SecondPass.line 1 p source n = some q)
    (hm : Pass.stateAt SecondPass.line 1 p source m = some r) :
    SecondPass.Extends q.object r.object := by
  obtain ⟨-, -, hq⟩ := (Pass.stateAt_eq_some_iff hls).mp hn
  obtain ⟨-, -, hr⟩ := (Pass.stateAt_eq_some_iff hls).mp hm
  have e : ls.take m = ls.take n ++ (ls.drop n).take (m - n) := by
    rw [← List.take_add]
    congr 1
    omega
  rw [e] at hr
  obtain ⟨q', hq', hrest⟩ := Pass.runs_steps_append.mp hr
  obtain ⟨-, rfl⟩ := hq.unique hq'
  exact SecondPass.extends_steps hrest

/-- The passes run in lockstep over every source that pass one accepts, as far as pass two gets.
What pass two writes behind a line, it appends to the bytes that are there. If pass two gets
through, its closing check succeeds if and only if no section got `2 ^ 32` bytes or more. -/
theorem passes_in_lockstep {source : List Bytes} {name : Bytes} {q : Progress}
    (h : Runs (FirstPass.run source) { object := { name } } () q) :
    (∀ n p₂, Pass.stateAt SecondPass.line 1 { object := q.object } source n = some p₂ →
      (∃ p₁, Pass.stateAt FirstPass.line 1 { object := { name } } source n = some p₁ ∧
        LockstepAt source q.object n p₁ p₂) ∧
      ∀ m p₃, n ≤ m → Pass.stateAt SecondPass.line 1 { object := q.object } source m = some p₃ →
        SecondPass.Extends p₂.object p₃.object) ∧
    ∀ p₂, Runs (Pass.eachLine SecondPass.line 1 source) { object := q.object } () p₂ →
      ((∃ r, Runs SecondPass.checkSizes p₂ () r) ↔
        ∀ s ∈ p₂.object.sections, s.code.length < 2 ^ 32) := by
  obtain ⟨ls, r, hls, hr, hkeeps, hm⟩ := FirstPass.runs_run h
  refine ⟨fun n p₂ hp₂ => ⟨lockstepAt hls hr hkeeps hm hp₂, ?_⟩, fun p₂ hp₂ => ?_⟩
  · intro m p₃ hnm hp₃
    exact extends_stateAt hls hnm hp₂ hp₃
  · obtain ⟨ls', p₃, hls', hp₃, hlog⟩ := Pass.runs_eachLine hp₂
    rw [hls] at hls'
    cases hls'
    have hfollows := hm.follows.steps hm.zeroUnlessDefined hp₃
    rw [hlog]
    constructor
    · rintro ⟨r, hr⟩ s hs
      exact (SecondPass.isMeasured_iff hm hfollows hs).mp ((SecondPass.runs_checkSizes.mp hr).2 s hs)
    · intro hlt
      refine ⟨_, SecondPass.runs_checkSizes.mpr ⟨rfl, fun s hs => ?_⟩⟩
      exact (SecondPass.isMeasured_iff hm hfollows hs).mpr (hlt s hs)

/-- A source with a label behind bytes of the second section, and its end. -/
def twoSections : List Bytes :=
  [".section t", "x: jmp x", ".section u", ".skip 3", "y: .word y, 7", ".end"].map text

theorem passes_in_lockstep_twoSections : ∃ q p₁ p₂,
    Runs (FirstPass.run twoSections) { object := { name := text "a.o" } } () q ∧
    Pass.stateAt SecondPass.line 1 { object := q.object } twoSections 4 = some p₂ ∧
    p₂.isOpen = true ∧ p₂.sectionName = text "u" ∧ LockstepAt twoSections q.object 4 p₁ p₂ := by
  have hrun : Runs (FirstPass.run twoSections) { object := { name := text "a.o" } } ()
      (outcome (FirstPass.run twoSections) { object := { name := text "a.o" } }).2 := by
    decide +kernel
  have hreach : (Pass.stateAt SecondPass.line 1 { object := (outcome (FirstPass.run twoSections)
      { object := { name := text "a.o" } }).2.object } twoSections 4).map
      (fun p => (p.isOpen, p.sectionName)) = some (true, text "u") := by
    decide +kernel
  obtain ⟨p₂, hp₂, hopen⟩ := Option.map_eq_some_iff.mp hreach
  obtain ⟨⟨p₁, -, hlock⟩, -⟩ := (passes_in_lockstep hrun).1 4 p₂ hp₂
  exact ⟨_, p₁, p₂, hrun, hp₂, congrArg Prod.fst hopen, congrArg Prod.snd hopen, hlock⟩

end AsmKit
