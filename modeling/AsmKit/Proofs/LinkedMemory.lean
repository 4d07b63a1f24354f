import Mathlib.Data.List.Forall2
import AsmKit.Proofs.Assembled
import AsmKit.Proofs.Linking
import AsmKit.Proofs.Reading
import AsmKit.Proofs.Sorting

/-
  The memory of a linked program, in the lengths that the linker counts. Filling in addresses moves no
  section, so what was formed is what the program has (`Spread`). Its spans ascend and end below the
  top of the address space, and no two have an address in common: those of one name because they were
  put one behind the other, those of different names because the check for overlaps succeeded.
-/

namespace AsmKit

/-- The object was assembled or read. -/
def Object.Obtained (obj : Object) : Prop :=
  (∃ name source, (Object.assemble name source).1 = .ok obj) ∨
    ∃ name s, Object.read name s = .ok obj

theorem Object.Obtained.nodup {obj : Object} (h : obj.Obtained) : obj.sectionNames.Nodup := by
  rcases h with ⟨name, source, h⟩ | ⟨name, s, h⟩
  · exact (Object.assembled h).sound.nodup
  · exact (Object.read_regular h).sections

/-- The memory that a section takes up. -/
def Section.span (s : Section) : Span := ⟨s.name, s.location, s.length⟩

/-- The segment is the section that a reference stands for, wherever it was put and with whatever
addresses filled in. -/
def Segment.IsAt (objects : List Object) (ref : SectionRef) (seg : Segment) : Prop :=
  ∃ obj s, objects[ref.object]? = some obj ∧ obj.findSection ref.name = some s ∧
    seg.file = obj.name ∧ seg.body.name = s.name ∧ seg.body.code.length = s.code.length

theorem forall₂_filterMap {α β : Type} {R : α → β → Prop} {f : α → Option β} {xs : List α}
    (h : ∀ x ∈ xs, ∃ y, f x = some y ∧ R x y) : List.Forall₂ R xs (xs.filterMap f) := by
  induction xs with
  | nil => exact .nil
  | cons x xs ih =>
    obtain ⟨y, hy, hR⟩ := h x (List.mem_cons_self ..)
    rw [List.filterMap_cons_some hy]
    exact .cons hR (ih fun z hz => h z (List.mem_cons_of_mem _ hz))

theorem exists_mem_of_forall₂ {α β : Type} {R : α → β → Prop} {xs : List α} {ys : List β}
    (h : List.Forall₂ R xs ys) {x : α} (hx : x ∈ xs) : ∃ y ∈ ys, R x y := by
  induction h with
  | nil => cases hx
  | cons hR _ ih =>
    obtain rfl | hx := List.mem_cons.mp hx
    · exact ⟨_, List.mem_cons_self .., hR⟩
    · obtain ⟨y, hy, hR⟩ := ih hx
      exact ⟨y, List.mem_cons_of_mem _ hy, hR⟩

theorem exists_of_forall₂ {α β : Type} {R : α → β → Prop} {xs : List α} {ys : List β}
    (h : List.Forall₂ R xs ys) {y : β} (hy : y ∈ ys) : ∃ x, R x y := by
  induction h with
  | nil => cases hy
  | cons hR _ ih =>
    obtain rfl | hy := List.mem_cons.mp hy
    · exact ⟨_, hR⟩
    · exact ih hy

namespace Linker

variable {tree : IntervalTree Span} {objects : List Object} {placements : Placements}
  {refs : List SectionRef} {s m f d : Progress}

/-! ## Spans -/

theorem spans_eq (l : Linker) (refs : List SectionRef) :
    l.spans refs = refs.filterMap fun ref => (sectionAt l.objects ref).map Section.span := by
  unfold spans segments
  rw [List.map_filterMap]
  congr 1
  funext ref
  rw [Option.map_map]
  rfl

theorem spans_of_agree {l l' : Linker} (h : Agree Section.blanked l.objects l'.objects)
    (refs : List SectionRef) : l'.spans refs = l.spans refs := by
  have hspan (s : Section) : s.blanked.span = s.span := by
    simp [Section.span, Section.blanked, Section.length]
  rw [spans_eq, spans_eq]
  congr 1
  funext ref
  have e := congrArg (Option.map Section.span) (h.sectionAt (fun _ => rfl) ref)
  rw [Option.map_map, Option.map_map, funext (f := Section.span ∘ Section.blanked) hspan] at e
  exact e

theorem mem_spans {l : Linker} {x : Span} : x ∈ l.spans refs ↔
    ∃ ref ∈ refs, ∃ s, sectionAt l.objects ref = some s ∧ s.span = x := by
  rw [spans_eq, List.mem_filterMap]
  simp only [Option.map_eq_some_iff]

theorem Formed.fits_spans {l : Linker}
    (h : Formed placements (allSections 0 objects) objects l.objects)
    (hagree : Agree Section.unplaced objects l.objects) (hperm : refs.Perm (allSections 0 objects)) :
    ∀ x ∈ l.spans refs, x.Fits := by
  intro x hx
  obtain ⟨ref, href, t, ht, rfl⟩ := mem_spans.mp hx
  have hfits := h.fits ref (hperm.mem_iff.mp href)
  obtain ⟨hloc, hlen⟩ := place_of_agree hagree ht
  rw [hloc, hlen] at hfits
  exact hfits

theorem Arranged.fits (h : Arranged objects placements refs s m f) :
    ∀ x ∈ f.spans refs, x.Fits :=
  h.formed.fits_spans h.placed h.perm

theorem Stages.ascending (h : Stages tree objects placements refs s m f d) :
    (f.spans refs).Pairwise fun x y => x.start ≤ y.start := by
  have hsorted : refs.Pairwise fun a b => decide (f.location a ≤ f.location b) = true := by
    rw [h.order]
    refine Ordered.sort_pairwise (fun a b => ?_) (fun a b c hab hbc => ?_) _
    · rw [decide_eq_true_iff, decide_eq_true_iff]
      exact UInt32.le_total ..
    · rw [decide_eq_true_iff] at hab hbc ⊢
      exact UInt32.le_trans hab hbc
  rw [spans_eq, List.pairwise_filterMap]
  refine hsorted.imp fun {a b} hle x hx y hy => ?_
  obtain ⟨t, ht, rfl⟩ := Option.map_eq_some_iff.mp hx
  obtain ⟨u, hu, rfl⟩ := Option.map_eq_some_iff.mp hy
  have hlocation {ref : SectionRef} {v : Section} (hv : sectionAt f.objects ref = some v) :
      f.location ref = v.location := by
    show ((sectionAt f.objects ref).map Section.location).getD 0 = v.location
    rw [hv]
    rfl
  rw [decide_eq_true_iff, hlocation ht, hlocation hu] at hle
  exact hle

theorem Stages.disjoint (htree : tree.Finds) (h : Stages tree objects placements refs s m f d) :
    (f.spans refs).Pairwise Span.Disjoint := by
  have hclear := Span.pairwise_of_checkOverlap htree h.fits h.clear
  rw [spans_eq, List.pairwise_filterMap] at hclear ⊢
  refine (h.nodup.and hclear).imp_of_mem fun {a b} ha hb hab x hx y hy => ?_
  by_cases hname : x.name = y.name
  · obtain ⟨t, ht, rfl⟩ := Option.map_eq_some_iff.mp hx
    obtain ⟨u, hu, rfl⟩ := Option.map_eq_some_iff.mp hy
    have hsame : a.name = b.name := by
      rw [← name_of_sectionAt ht, ← name_of_sectionAt hu]
      exact hname
    -- of one name: one lies behind the other
    have hbehind := h.formed.apart (h.perm.mem_iff.mp ha) (h.perm.mem_iff.mp hb) hab.1 hsame
    obtain ⟨htloc, htlen⟩ := h.place ht
    obtain ⟨huloc, hulen⟩ := h.place hu
    rintro i ⟨hti, hui⟩
    unfold Span.Contains Section.span at hti hui
    dsimp only at hti hui
    omega
  · exact fun i hi => hab.2 x hx y hy ⟨hname, i, hi⟩

/-! ## Segments -/

theorem Stages.present (h : Stages tree objects placements refs s m f d) :
    List.Forall₂ (Segment.IsAt objects) refs (d.segments refs) := by
  refine forall₂_filterMap fun ref href => ?_
  obtain ⟨-, obj, hobj, hname⟩ := mem_allSections.mp (h.perm.mem_iff.mp href)
  rw [Nat.sub_zero] at hobj
  obtain ⟨t, ht⟩ := Object.exists_findSection hname
  obtain ⟨obj', hobj', hfile, -⟩ := h.outlined.getElem? hobj
  have e := h.outlined.sectionAt (fun _ => rfl) ref
  rw [sectionAt_eq hobj, ht] at e
  obtain ⟨t', ht', e⟩ := Option.map_eq_some_iff.mp e
  obtain ⟨hname', hlen⟩ := Section.outline_eq_iff.mp e
  refine ⟨⟨d.fileName ref.object, t'⟩, ?_, obj, t, hobj, ht, ?_, hname', hlen⟩
  · show (sectionAt d.objects ref).map _ = _
    rw [ht']
    rfl
  · show (d.objects[ref.object]?.map Object.name).getD [] = obj.name
    rw [hobj']
    exact hfile

end Linker

theorem Executable.link_eq_ok {tree : IntervalTree Span} {placements : Placements}
    {objects : List Object} {exe : Executable}
    (h : (Executable.link tree placements objects).1 = .ok exe) :
    ∃ l refs log, ({ objects, placements } : Linker).run
        (Linker.generate tree (List.range objects.length)) = ⟨l, .ok refs, log⟩ ∧
      l.executable refs = exe := by
  unfold Executable.link at h
  dsimp only at h
  generalize Linker.run _ _ = done at h ⊢
  obtain ⟨l, result, log⟩ := done
  cases result with
  | error e => cases h
  | ok refs =>
    cases h
    exact ⟨l, refs, log, rfl, rfl⟩

/-- What linking gives: every section of every object once, by address, below the top of the address
space and apart from each other. -/
structure Executable.Spread (objects : List Object) (exe : Executable) : Prop where
  present : ∃ refs : List SectionRef, refs.Perm (allSections 0 objects) ∧ refs.Nodup ∧
    List.Forall₂ (Segment.IsAt objects) refs exe.segments
  ascending : exe.segments.Pairwise fun s t => s.body.location ≤ t.body.location
  fits : ∀ s ∈ exe.segments, s.body.span.Fits
  disjoint : (exe.segments.map fun s => s.body.span).Pairwise Span.Disjoint

theorem Linker.Stages.spread {tree : IntervalTree Span} {objects : List Object}
    {placements : Placements} {refs : List SectionRef} {s m f d : Progress} (htree : tree.Finds)
    (h : Stages tree objects placements refs s m f d) : (d.executable refs).Spread objects := by
  -- addresses are filled in without moving a section
  have hspans : (d.executable refs).segments.map (fun s => s.body.span) = f.spans refs :=
    spans_of_agree h.patched.objects refs
  refine ⟨⟨refs, h.perm, h.nodup, h.present⟩, ?_, fun t ht => ?_, hspans ▸ h.disjoint htree⟩
  · have hasc := h.ascending
    rw [← hspans, List.pairwise_map] at hasc
    exact hasc
  · refine h.fits t.body.span ?_
    rw [← hspans]
    exact List.mem_map_of_mem ht

theorem Executable.spread_of_link {tree : IntervalTree Span} {placements : Placements}
    {objects : List Object} {exe : Executable} (htree : tree.Finds)
    (hnames : ∀ obj ∈ objects, obj.sectionNames.Nodup)
    (h : (Executable.link tree placements objects).1 = .ok exe) : exe.Spread objects := by
  obtain ⟨l, refs, log, hrun, rfl⟩ := Executable.link_eq_ok h
  obtain ⟨s, m, f, d, hstages, rfl⟩ := Linker.stages_of_run hnames hrun
  exact hstages.spread htree

end AsmKit
