import AsmKit.Linker.Generate
import AsmKit.Proofs.Merging
import AsmKit.Proofs.Overlap
import AsmKit.Proofs.Relocating

/-
  Linking as a whole. A run that succeeds went through four states: the objects as they were given,
  their symbols merged, their sections in place, and the addresses filled in. `Stages` says what
  happened from each to the next, in the terms of the modules about the single stages.
-/

namespace AsmKit

/-- A section as linking leaves it: its name and how many bytes it has. -/
def Section.outline (s : Section) : Section := s.unplaced.blanked

theorem Section.outline_eq_iff {s t : Section} :
    s.outline = t.outline ↔ s.name = t.name ∧ s.code.length = t.code.length := by
  simp [Section.outline, Section.blanked, Section.unplaced]

namespace Linker

variable {p q : Linker.Progress}

theorem runs_of_run {α : Type} {l l' : Linker} {stage : Linking α} {a : α} {log : List Event}
    (h : l.run stage = ⟨l', .ok a, log⟩) :
    Runs stage { toLinker := l } a { toLinker := l', log := log } := by
  have hlinker := congrArg Outcome.linker h
  have hresult := congrArg Outcome.result h
  have hlog := congrArg Outcome.log h
  subst hlinker hlog
  exact Prod.ext hresult rfl

theorem fails_of_run {α : Type} {l l' : Linker} {stage : Linking α} {e : Error} {log : List Event}
    (h : l.run stage = ⟨l', .error e, log⟩) :
    Fails stage { toLinker := l } e { toLinker := l', log := log } := by
  have hlinker := congrArg Outcome.linker h
  have hresult := congrArg Outcome.result h
  have hlog := congrArg Outcome.log h
  subst hlinker hlog
  exact Prod.ext hresult rfl

theorem runs_checkOverlap {tree : IntervalTree Span} {refs : List SectionRef} {u : Unit} :
    Runs (checkOverlap tree refs) p u q ↔ Span.checkOverlap tree (p.spans refs) = .ok () ∧ q = p := by
  unfold checkOverlap
  simp only [runs_bind, runs_get, runs_liftExcept]
  constructor
  · rintro ⟨_, _, ⟨rfl, rfl⟩, h⟩
    exact h
  · intro h
    exact ⟨_, _, ⟨rfl, rfl⟩, h⟩

theorem runs_generate {tree : IntervalTree Span} {inputs : List Nat} {refs : List SectionRef}
    (h : Runs (generate tree inputs) p refs q) :
    ∃ s m f d : Progress, s.toLinker = { p.toLinker with inputs } ∧
      Runs (forM s.offers merge) s () m ∧ Runs formSections m refs f ∧
      Span.checkOverlap tree (f.spans refs) = .ok () ∧ Runs relocate f () d ∧
      q.toLinker = d.toLinker := by
  simp only [generate, runs_bind, runs_modify, runs_record, runs_checkUnresolved,
    runs_checkOverlap, runs_pure] at h
  obtain ⟨_, _, rfl, _, s, hs, _, m, hmerge, _, _, ⟨-, rfl⟩, formed, f, hform, _, _, ⟨hcheck, rfl⟩,
    _, d, hrelocate, _, _, hrecord, rfl, rfl⟩ := h
  refine ⟨s, _, _, d, ?_, runs_mergeSymbols hmerge, hform, hcheck, hrelocate, ?_⟩
  · rw [hs]
  · rw [hrecord]

/-- The states of a run that got as far as placing the sections of all its objects: at the start,
with symbols merged, and with sections formed. -/
structure Arranged (objects : List Object) (placements : Placements) (refs : List SectionRef)
    (s m f : Progress) : Prop where
  names : ∀ obj ∈ objects, obj.sectionNames.Nodup
  start : s.toLinker = { objects, placements, inputs := List.range objects.length }
  merge : Runs (forM s.offers merge) s () m
  moves : Moves m f
  formed : Formed placements (allSections 0 objects) objects f.objects
  order : refs = Ordered.sort (fun a b => f.location a ≤ f.location b) (allSections 0 objects)

/-- The states of a run that linked all its objects: those up to the placing of sections, with
nothing in the way of each other, and at the end with addresses filled in. -/
structure Stages (tree : IntervalTree Span) (objects : List Object) (placements : Placements)
    (refs : List SectionRef) (s m f d : Progress) : Prop
    extends Arranged objects placements refs s m f where
  clear : Span.checkOverlap tree (f.spans refs) = .ok ()
  patched : Patched f.patches f d

theorem sectionAt_of_mem_allSections {objects : List Object} {ref : SectionRef}
    (h : ref ∈ allSections 0 objects) : (sectionAt objects ref).isSome = true := by
  obtain ⟨-, obj, hobj, hname⟩ := mem_allSections.mp h
  rw [sectionAt_eq hobj]
  exact Object.findSection_isSome_iff.mpr hname

variable {tree : IntervalTree Span} {objects : List Object} {placements : Placements}
  {refs : List SectionRef} {s m f d : Progress}

theorem arranged_of_runs (hnodup : ∀ obj ∈ objects, obj.sectionNames.Nodup)
    (hs : s.toLinker = { objects, placements, inputs := List.range objects.length })
    (hmerge : Runs (forM s.offers Linker.merge) s () m) (hform : Runs formSections m refs f) :
    Arranged objects placements refs s m f := by
  have hm : m.objects = objects ∧ m.placements = placements ∧
      m.inputs = List.range objects.length := by
    rw [merge_frame hmerge]
    dsimp only
    rw [hs]
    exact ⟨rfl, rfl, rfl⟩
  have hocc : m.occurrences = allSections 0 objects := by
    rw [occurrences_eq (by rw [hm.1, hm.2.2]), hm.1]
  obtain ⟨hmoves, hformed, horder⟩ := runs_formSections (p := m)
    (by rw [hocc]; exact nodup_allSections hnodup 0)
    (by rw [hocc, hm.1]; exact fun r hr => sectionAt_of_mem_allSections hr) hform
  rw [hocc, hm.1, hm.2.1] at hformed
  rw [hocc] at horder
  exact ⟨hnodup, hs, hmerge, hmoves, hformed, horder⟩

/-! ## What the stages leave alone -/

theorem Arranged.placed (h : Arranged objects placements refs s m f) :
    Agree Section.unplaced objects f.objects := by
  have hm : m.objects = objects := by
    rw [merge_frame h.merge]
    dsimp only
    rw [h.start]
  rw [← hm]
  exact h.moves.objects

theorem Arranged.inputs_eq (h : Arranged objects placements refs s m f) :
    f.inputs = List.range objects.length := by
  rw [h.moves.frame, merge_frame h.merge]
  dsimp only
  rw [h.start]

theorem Arranged.perm (h : Arranged objects placements refs s m f) :
    refs.Perm (allSections 0 objects) := by
  rw [h.order]
  exact Ordered.sort_perm ..

theorem Arranged.nodup (h : Arranged objects placements refs s m f) : refs.Nodup :=
  h.perm.nodup_iff.mpr (nodup_allSections h.names 0)

/-- With its sections in place an object still has one section of each name. -/
theorem Arranged.nodup_placed (h : Arranged objects placements refs s m f) :
    ∀ obj ∈ f.objects, obj.sectionNames.Nodup :=
  h.placed.nodup (fun _ => rfl) h.names

theorem Arranged.place (h : Arranged objects placements refs s m f) {ref : SectionRef} {t : Section}
    (ht : sectionAt f.objects ref = some t) :
    locationAt f.objects ref = t.location.toNat ∧ lengthAt objects ref = t.length.toNat :=
  place_of_agree h.placed ht

theorem object_lt_of_mem_patches {l : Linker} {x : Patch} (h : x ∈ l.patches) :
    x.object < l.objects.length := by
  obtain ⟨-, obj, hobj, -⟩ := mem_patches.mp h
  exact (List.getElem?_eq_some_iff.mp hobj).1

theorem stages_of_run {l : Linker} {log : List Event}
    (hnodup : ∀ obj ∈ objects, obj.sectionNames.Nodup)
    (h : ({ objects, placements } : Linker).run (generate tree (List.range objects.length)) =
      ⟨l, .ok refs, log⟩) :
    ∃ s m f d : Progress, Stages tree objects placements refs s m f d ∧ d.toLinker = l := by
  obtain ⟨s, m, f, d, hs, hmerge, hform, hclear, hrelocate, hd⟩ := runs_generate (runs_of_run h)
  have harranged := arranged_of_runs hnodup hs hmerge hform
  have hpatched := patched_of_runs (fun _ hx => object_lt_of_mem_patches hx) harranged.nodup_placed
    (runs_relocate hrelocate)
  exact ⟨s, m, f, d, ⟨harranged, hclear, hpatched⟩, hd.symm⟩

/-- Linking leaves objects their sections, with as many bytes as they had. -/
theorem Stages.outlined (h : Stages tree objects placements refs s m f d) :
    Agree Section.outline objects d.objects := by
  refine (h.placed.coarsen fun _ => rfl).trans (h.patched.objects.coarsen fun s => ?_)
  simp [Section.outline, Section.blanked, Section.unplaced]

end Linker

end AsmKit
