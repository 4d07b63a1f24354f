import AsmKit.Proofs.ClosedForm
import AsmKit.Proofs.Completion

/-
  Which sections can be in each other's way. A section without a placement is put behind all those
  with one and behind those without one before it (`Formed.stacked`, `Formed.behind_pinned`), so it
  has no address in common with another. An overlap is then always between two sections whose names
  have placements (`blames_of_checkOverlap`), and no other stage of linking reports one.
-/

namespace AsmKit

/-- The error is an overlap of two sections that placements name. -/
def Error.BlamesPlacements (placements : Placements) (e : Error) : Prop :=
  ∃ name other, e = .report { kind := .sectionsOverlap, name, other } ∧
    name ∈ placements.map Prod.fst ∧ other ∈ placements.map Prod.fst

theorem Error.not_blamesPlacements_nil (e : Error) : ¬ e.BlamesPlacements [] := by
  rintro ⟨_, _, -, h, -⟩
  cases h

@[simp] theorem Error.kinds_about (kind : Error.Kind) (name : Bytes) :
    (Error.about kind name).kinds = [kind] := rfl

theorem Error.kinds_inFile (file : Bytes) (e : Error) : (e.inFile file).kinds = e.kinds := by
  have hkind (r : Error.Report) : (r.inFile file).kind = r.kind := by
    unfold Error.Report.inFile
    split <;> rfl
  induction e with
  | bare kind => rfl
  | plain cause => rfl
  | wrapped message inner ih => exact ih
  | report r => rw [inFile, kinds, kinds, hkind]
  | because r inner => rw [inFile, kinds, kinds, hkind]

namespace Linker

variable {p q : Progress} {objects objects' : List Object} {placements : Placements}
  {refs : List SectionRef} {e : Error} {tree : IntervalTree Span}

theorem mem_keys_of_lookup {name : Bytes} (h : placements.lookup name ≠ none) :
    name ∈ placements.map Prod.fst := by
  apply Classical.byContradiction
  intro hout
  refine h (List.lookup_eq_none_iff.mpr fun entry hentry => bne_iff_ne.mpr fun hname => hout ?_)
  rw [hname]
  exact List.mem_map_of_mem hentry

/-! ## Sections with an address in common -/

/-- A section that has an address in common with another has a placement. -/
theorem Formed.pinned_of_shared (h : Formed placements refs objects objects') {a b : SectionRef}
    (ha : a ∈ refs) (hb : b ∈ refs) (hne : a ≠ b) {i : Nat}
    (hai : locationAt objects' a ≤ i ∧ i < locationAt objects' a + lengthAt objects a)
    (hbi : locationAt objects' b ≤ i ∧ i < locationAt objects' b + lengthAt objects b) :
    placements.lookup a.name ≠ none := by
  intro hnone
  have hloose := mem_loose.mpr ⟨ha, hnone⟩
  rcases hpin : placements.lookup b.name with _ | address
  · obtain hbefore | hbehind := h.stacked hloose (mem_loose.mpr ⟨hb, hpin⟩) hne
    · omega
    · omega
  · have hbehind := h.behind_pinned hloose hb hpin
    omega

theorem blames_of_checkOverlap (hfinds : tree.Finds) (haccepts : tree.Accepts) {l : Linker}
    (h : Formed placements (allSections 0 objects) objects l.objects)
    (hagree : Agree Section.unplaced objects l.objects) (hperm : refs.Perm (allSections 0 objects))
    (hcheck : Span.checkOverlap tree (l.spans refs) = .error e) : e.BlamesPlacements placements := by
  obtain ⟨before, x, after, y, hspans, hcollision, -, rfl⟩ :=
    Span.collision_of_checkOverlap hfinds haccepts (h.fits_spans hagree hperm) hcheck
  have hx : x ∈ l.spans refs := by
    rw [hspans]
    exact List.mem_append_right _ (List.mem_cons_self ..)
  have hy : y ∈ l.spans refs := by
    rw [hspans]
    exact List.mem_append_left _ hcollision.mem
  obtain ⟨a, ha, s, hs, rfl⟩ := mem_spans.mp hx
  obtain ⟨b, hb, t, ht, rfl⟩ := mem_spans.mp hy
  obtain ⟨hname, i, hti, hsi⟩ := hcollision.collides
  have haname : s.name = a.name := name_of_sectionAt hs
  have hbname : t.name = b.name := name_of_sectionAt ht
  have hne : a ≠ b := by
    rintro rfl
    exact hname (hbname.trans haname.symm)
  -- in the numbers of the layout, the address that both spans contain
  have hcontains {r : SectionRef} {u : Section} (hu : sectionAt l.objects r = some u)
      (hi : u.span.Contains i) :
      locationAt l.objects r ≤ i ∧ i < locationAt l.objects r + lengthAt objects r := by
    obtain ⟨hlocation, hlength⟩ := place_of_agree hagree hu
    rw [hlocation, hlength]
    exact hi
  have hamem := hperm.mem_iff.mp ha
  have hbmem := hperm.mem_iff.mp hb
  refine ⟨t.name, s.name, rfl, ?_, ?_⟩
  · rw [hbname]
    exact mem_keys_of_lookup
      (h.pinned_of_shared hbmem hamem hne.symm (hcontains ht hti) (hcontains hs hsi))
  · rw [haname]
    exact mem_keys_of_lookup
      (h.pinned_of_shared hamem hbmem hne (hcontains hs hsi) (hcontains ht hti))

/-! ## Stages that report no overlap -/

theorem not_overlap_of_fails_mergeSymbols (h : Fails mergeSymbols p e q) :
    .sectionsOverlap ∉ e.kinds := by
  obtain ⟨_, _, _, _, _, _, e, -, -, hfails, rfl⟩ :=
    fails_objects (fun obj => obj.symbols.entries) Offer.mk merge h
  rw [Error.kinds_inFile]
  obtain ⟨-, ⟨-, hcheck⟩ | htakes⟩ := fails_merge hfails
  · unfold checkSectionSymbol at hcheck
    split at hcheck
    · split at hcheck
      · cases hcheck
      · cases hcheck
        simp
    · cases hcheck
      simp
  · obtain ⟨_, -, ⟨-, rfl⟩ | ⟨-, -, rfl⟩⟩ := SymbolTable.takes_eq_error htakes
    · simp [Error.kinds]
    · simp [Error.kinds]

theorem not_overlap_of_resolve {l : Linker} {obj : Object} {name : Bytes}
    (h : l.resolve obj name = .error e) : .sectionsOverlap ∉ e.kinds := by
  unfold resolve at h
  split at h
  · split at h
    · cases h
    · cases h
      simp
  · split at h
    · cases h
      simp
    · split at h
      · cases h
      · cases h
        simp

theorem not_overlap_of_fails_relocateOne {n : Nat} {rel : Relocation}
    (h : Fails (relocateOne n rel) p e q) : .sectionsOverlap ∉ e.kinds := by
  unfold relocateOne at h
  simp only [fails_bind, fails_get, runs_get, false_or] at h
  obtain ⟨_, _, ⟨rfl, rfl⟩, h⟩ := h
  split at h
  · next obj _ =>
    split at h
    · next target _ =>
      obtain h | ⟨address, _, -, h⟩ := fails_bind.mp h
      · exact not_overlap_of_resolve (fails_liftExcept.mp h).1
      · split at h
        · next cause hpatch =>
          unfold Section.patch at hpatch
          split at hpatch
          · cases hpatch
            rw [(fails_throw.mp h).1]
            simp [Error.kinds]
          · cases hpatch
        · simp only [fails_bind, fails_modifySection, fails_record, and_false, exists_false,
            or_self] at h
    · rw [(fails_throw.mp h).1]
      simp
  · exact absurd h fails_pure

theorem not_overlap_of_fails_relocate (h : Fails relocate p e q) : .sectionsOverlap ∉ e.kinds := by
  obtain ⟨_, _, _, _, _, _, e, -, -, hfails, rfl⟩ :=
    fails_objects (fun obj => obj.relocations.entries) (fun n _ => Patch.mk n)
      (fun x => relocateOne x.object x.relocation) h
  rw [Error.kinds_inFile]
  exact not_overlap_of_fails_relocateOne hfails

/-- Linking that fails for an overlap fails for one of two sections with placements. -/
theorem blames_of_fails (hfinds : tree.Finds) (haccepts : tree.Accepts)
    (hnodup : ∀ obj ∈ objects, obj.sectionNames.Nodup)
    (h : Fails (generate tree (List.range objects.length)) { objects, placements } e q)
    (hoverlap : .sectionsOverlap ∈ e.kinds) : e.BlamesPlacements placements := by
  obtain ⟨s, hs, h⟩ := fails_generate h
  obtain h | ⟨m, hmerge, h⟩ := h
  · exact absurd hoverlap (not_overlap_of_fails_mergeSymbols h)
  obtain h | ⟨-, h⟩ := h
  · obtain ⟨-, sym, -, -, rfl⟩ := fails_checkUnresolved h
    simp at hoverlap
  obtain h | ⟨refs, f, hform, h⟩ := h
  · rw [(observes_formSections.fails _ _ _ h).2] at hoverlap
    simp at hoverlap
  obtain h | h := h
  · have harranged : Arranged objects placements refs s m f :=
      arranged_of_runs hnodup hs (runs_mergeSymbols hmerge) hform
    exact blames_of_checkOverlap hfinds haccepts harranged.formed harranged.placed
      harranged.perm (fails_checkOverlap.mp h).1
  · exact absurd hoverlap (not_overlap_of_fails_relocate h)

end Linker

theorem Executable.fails_of_link {tree : IntervalTree Span} {placements : Placements}
    {objects : List Object} {e : Error}
    (h : (Executable.link tree placements objects).1 = .error e) :
    ∃ q, Fails (Linker.generate tree (List.range objects.length)) { objects, placements } e q := by
  unfold Executable.link at h
  dsimp only at h
  rcases hrun : ({ objects, placements } : Linker).run
    (Linker.generate tree (List.range objects.length)) with ⟨l, err | refs, log⟩
  · rw [hrun] at h
    cases h
    exact ⟨_, Linker.fails_of_run hrun⟩
  · rw [hrun] at h
    cases h

/-- Sections that no placement names are in nobody's way. If the check for overlaps fails on sections
that were just placed, it is for two sections that placements name, and the same goes for linking as
a whole. So without placements linking never fails for an overlap. The check may use any tree that
finds what was put into it and takes intervals which end behind their start. -/
theorem collisions_need_placements {tree : IntervalTree Span} (hfinds : tree.Finds)
    (haccepts : tree.Accepts) (placements : Placements) {objects : List Object}
    (hnames : ∀ obj ∈ objects, obj.sectionNames.Nodup) :
    (∀ l refs log, (Linker.ready placements objects).run Linker.formSections = ⟨l, .ok refs, log⟩ →
      ∀ l' e log', l.run (Linker.checkOverlap tree refs) = ⟨l', .error e, log'⟩ →
        e.BlamesPlacements placements) ∧
    (∀ e, (Executable.link tree placements objects).1 = .error e → .sectionsOverlap ∈ e.kinds →
      e.BlamesPlacements placements) ∧
    ∀ e, (Executable.link tree [] objects).1 = .error e → .sectionsOverlap ∉ e.kinds := by
  refine ⟨fun l refs log hform l' e log' hcheck => ?_, fun e he hoverlap => ?_, fun e he hoverlap => ?_⟩
  · obtain ⟨hagree, hformed, hsort⟩ := (Linker.fresh_ready rfl).formed (nodup_allSections hnames 0)
      (Linker.runs_of_run hform)
    have hperm : refs.Perm (allSections 0 objects) := by
      rw [hsort]
      exact Ordered.sort_perm ..
    have hfails := (Linker.fails_checkOverlap.mp (Linker.fails_of_run hcheck)).1
    exact Linker.blames_of_checkOverlap hfinds haccepts hformed hagree hperm hfails
  · obtain ⟨q, hfails⟩ := Executable.fails_of_link he
    exact Linker.blames_of_fails hfinds haccepts hnames hfails hoverlap
  · obtain ⟨q, hfails⟩ := Executable.fails_of_link he
    exact e.not_blamesPlacements_nil
      (Linker.blames_of_fails hfinds haccepts hnames hfails hoverlap)

/-- The second section named b runs into the place of those named a. -/
theorem collisions_need_placements_interleaved : ∃ l refs log l' e log',
    (Linker.ready [(text "b", 100), (text "a", 102)] interleaved).run Linker.formSections =
      ⟨l, .ok refs, log⟩ ∧
    l.run (Linker.checkOverlap (.sorted Span) refs) = ⟨l', .error e, log'⟩ ∧
    e.BlamesPlacements [(text "b", 100), (text "a", 102)] ∧
    ∀ e, (Executable.link (.sorted Span) [] interleaved).1 = .error e → .sectionsOverlap ∉ e.kinds := by
  have hnames : ∀ obj ∈ interleaved, obj.sectionNames.Nodup := by decide
  obtain ⟨hblames, -, hnone⟩ := collisions_need_placements IntervalTree.sorted_finds
    IntervalTree.sorted_accepts [(text "b", 100), (text "a", 102)] hnames
  rcases hform : (Linker.ready [(text "b", 100), (text "a", 102)] interleaved).run
    Linker.formSections with ⟨l, result, log⟩
  have h : (((Linker.ready [(text "b", 100), (text "a", 102)] interleaved).run
      Linker.formSections).result.toOption.map fun refs =>
        (((Linker.ready [(text "b", 100), (text "a", 102)] interleaved).run
          Linker.formSections).linker.run (Linker.checkOverlap (.sorted Span) refs)).result.toOption) =
      some none := by
    decide +kernel
  rw [hform] at h
  obtain ⟨refs, hrefs, hfailed⟩ := Option.map_eq_some_iff.mp h
  obtain rfl := eq_ok_of_toOption hrefs
  rcases hcheck : l.run (Linker.checkOverlap (.sorted Span) refs) with ⟨l', e | u, log'⟩
  · exact ⟨l, refs, log, l', e, log', rfl, hcheck, hblames l refs log hform l' e log' hcheck, hnone⟩
  · dsimp only at hfailed
    rw [hcheck] at hfailed
    cases hfailed

end AsmKit
