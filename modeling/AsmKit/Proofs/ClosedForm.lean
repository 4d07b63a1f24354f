import Mathlib.Data.List.Basic
import Mathlib.Data.UInt
import AsmKit.Proofs.Addresses
import AsmKit.Proofs.Sorting

/-
  Where sections go, as a formula. The sections of a name are put one behind the other from its base
  on (`slot`). The base of a name that a placement gives is that placement. The other names follow in
  the order in which they come up, behind the highest end of a name with a placement (`base`). The
  formula is in unbounded numbers and does not speak of the linker's progress. Placing is successful
  if it leaves every section below the top of the address space, and puts each where it says. The
  sizes of sections are a parameter of the formula, since the linker has its own: it counts bytes in
  32 bits (`lengthAt`), and takes a section of 2³² bytes to be empty.
-/

namespace AsmKit

/-! ## Stable sorting -/

namespace Ordered

variable {α : Type} {key : α → Nat} {le : α → α → Bool}

/-- The elements of `xs` by their keys, those of one key in the order they have in `xs`. -/
structure IsStableSort (key : α → Nat) (xs ys : List α) : Prop where
  perm : ys.Perm xs
  ascending : ys.Pairwise fun a b => key a ≤ key b
  stable : ∀ k, (ys.filter fun a => key a == k) = xs.filter fun a => key a == k

theorem isStableSort_sort (hle : ∀ a b, le a b = true ↔ key a ≤ key b) (xs : List α) :
    IsStableSort key xs (sort le xs) := by
  have htotal (a b : α) : le a b = true ∨ le b a = true := by
    rw [hle, hle]
    exact Nat.le_total ..
  have htrans (a b c : α) (hab : le a b = true) (hbc : le b c = true) : le a c = true := by
    rw [hle] at hab hbc ⊢
    exact Nat.le_trans hab hbc
  refine ⟨sort_perm le xs, ?_, fun k => filter_sort htotal htrans (fun a b ha hb => ?_) xs⟩
  · exact (sort_pairwise htotal htrans xs).imp fun h => (hle _ _).mp h
  · exact (hle a b).mpr (Nat.le_of_eq ((beq_iff_eq.mp ha).trans (beq_iff_eq.mp hb).symm))

end Ordered

/-! ## Sizes -/

/-- How many bytes a section has. -/
def sizeAt (objects : List Object) (ref : SectionRef) : Nat :=
  ((sectionAt objects ref).map fun s => s.code.length).getD 0

/-- The bytes of each section can be counted in 32 bits. -/
def Object.Short (obj : Object) : Prop := ∀ s ∈ obj.sections, s.code.length < 2 ^ 32

theorem lengthAt_eq (objects : List Object) (ref : SectionRef) :
    lengthAt objects ref = sizeAt objects ref % 2 ^ 32 := by
  unfold lengthAt sizeAt
  rcases sectionAt objects ref with _ | s
  · rfl
  · exact UInt32.toNat_ofNat'

theorem sizeAt_lt {objects : List Object} (h : ∀ obj ∈ objects, obj.Short) (ref : SectionRef) :
    sizeAt objects ref < 2 ^ 32 := by
  unfold sizeAt
  rcases hs : sectionAt objects ref with _ | s
  · exact Nat.two_pow_pos 32
  · obtain ⟨obj, hobj, hs⟩ := Option.bind_eq_some_iff.mp hs
    exact h obj (List.mem_of_getElem? hobj) s (Object.mem_of_findSection hs)

theorem lengthAt_of_short {objects : List Object} (h : ∀ obj ∈ objects, obj.Short) :
    lengthAt objects = sizeAt objects := by
  funext ref
  rw [lengthAt_eq, Nat.mod_eq_of_lt (sizeAt_lt h ref)]

/-! ## The formula -/

section Formula

variable (size : SectionRef → Nat) (placements : Placements)

/-- The size of some sections taken together. -/
def total (refs : List SectionRef) : Nat := (refs.map size).sum

/-- The names without a placement, in the order in which they come up. -/
def looseNames (refs : List SectionRef) : List Bytes :=
  ((refs.filter fun r => (placements.lookup r.name).isNone).map SectionRef.name).eraseDups

/-- The highest end of a name with a placement, all its sections counted, and 0 if there is none. -/
def highestEnd (refs : List SectionRef) : Nat :=
  (refs.filterMap fun r => (placements.lookup r.name).map fun a =>
    a.toNat + total size (named r.name refs)).foldr max 0

/-- Where the first section of a name goes. -/
def base (refs : List SectionRef) (name : Bytes) : Nat :=
  match placements.lookup name with
  | some a => a.toNat
  | none => highestEnd size placements refs +
      (((looseNames placements refs).takeWhile fun n => n != name).map fun n =>
        total size (named n refs)).sum

/-- Where a section goes that has the sections `front` before it. -/
def slot (objects : List Object) (front : List SectionRef) (r : SectionRef) : Nat :=
  base size placements (allSections 0 objects) r.name + total size (named r.name front)

/-- The formula has every section end below the top of the address space. -/
def AllFit (objects : List Object) : Prop :=
  ∀ front r back, allSections 0 objects = front ++ r :: back →
    slot size placements objects front r + size r ≤ 2 ^ 32 - 1

/-- Every section is where the formula has it. -/
def AllAt (objects objects' : List Object) : Prop :=
  ∀ front r back, allSections 0 objects = front ++ r :: back →
    locationAt objects' r = slot size placements objects front r

end Formula

/-- A section that the formula has end below the top of the address space is short. -/
theorem short_of_allFit {placements : Placements} {objects : List Object}
    (hnames : ∀ obj ∈ objects, obj.sectionNames.Nodup)
    (h : AllFit (sizeAt objects) placements objects) : ∀ obj ∈ objects, obj.Short := by
  intro obj hobj s hs
  obtain ⟨n, hn⟩ := List.mem_iff_getElem?.mp hobj
  have hmem : ⟨n, s.name⟩ ∈ allSections 0 objects :=
    mem_allSections.mpr ⟨Nat.zero_le _, obj, hn, List.mem_map_of_mem hs⟩
  obtain ⟨front, back, e⟩ := List.append_of_mem hmem
  have hsize : sizeAt objects ⟨n, s.name⟩ = s.code.length := by
    unfold sizeAt
    rw [sectionAt_eq hn, (Object.findSection_eq_some_iff (hnames obj hobj)).mpr ⟨hs, rfl⟩]
    rfl
  have hfits := h front ⟨n, s.name⟩ back e
  omega

namespace Linker

variable {placements : Placements} {objects objects' : List Object} {refs : List SectionRef}

/-! ## Names without a placement -/

theorem foldr_max_le {l : List Nat} {x : Nat} : l.foldr max 0 ≤ x ↔ ∀ a ∈ l, a ≤ x := by
  induction l with
  | nil => simp
  | cons a l ih => rw [List.foldr_cons, Nat.max_le, ih, List.forall_mem_cons]

theorem Behind.eq_highestEnd {top : Nat} (h : Behind placements refs objects top) :
    top = highestEnd (lengthAt objects) placements refs := by
  have hiff (x : Nat) : top ≤ x ↔ highestEnd (lengthAt objects) placements refs ≤ x := by
    rw [h x, highestEnd, foldr_max_le]
    simp only [List.mem_filterMap, Option.map_eq_some_iff]
    constructor
    · rintro hall _ ⟨r, hr, a, ha, rfl⟩
      exact hall r hr a ha
    · intro hall r hr a ha
      exact hall _ ⟨r, hr, a, ha, rfl⟩
  exact Nat.le_antisymm ((hiff _).mpr (Nat.le_refl _)) ((hiff _).mp (Nat.le_refl _))

theorem loose_eq (placements : Placements) (refs : List SectionRef) :
    loose placements refs = (looseNames placements refs).flatMap fun n => named n refs := by
  unfold loose grouped
  refine List.flatMap_congr fun n hn => ?_
  rw [List.mem_eraseDups, List.mem_map] at hn
  obtain ⟨r, hr, rfl⟩ := hn
  have hloose := (List.mem_filter.mp hr).2
  unfold named
  rw [List.filter_filter]
  refine List.filter_congr fun r' _ => ?_
  by_cases hname : r'.name = r.name
  · rw [hname, hloose, Bool.and_true]
  · rw [beq_false_of_ne hname, Bool.false_and]

theorem span_flatMap_named (names : List Bytes) :
    span objects (names.flatMap fun n => named n refs) =
      (names.map fun n => total (lengthAt objects) (named n refs)).sum := by
  induction names with
  | nil => rfl
  | cons n names ih =>
    rw [List.flatMap_cons, span_append, ih, List.map_cons, List.sum_cons]
    rfl

/-- Before a section without a placement come those of the names before its own, and those of its
name before it. -/
theorem loose_split {front back : List SectionRef} {r : SectionRef}
    (hr : placements.lookup r.name = none) (e : refs = front ++ r :: back) :
    ∃ back', loose placements refs = (((looseNames placements refs).takeWhile fun n =>
      n != r.name).flatMap fun n => named n refs) ++ named r.name front ++ r :: back' := by
  have hmem : r.name ∈ looseNames placements refs := by
    rw [looseNames, List.mem_eraseDups]
    refine List.mem_map_of_mem (List.mem_filter.mpr ⟨?_, by rw [hr]; rfl⟩)
    rw [e]
    exact List.mem_append_right _ (List.mem_cons_self ..)
  obtain ⟨later, hlater⟩ : ∃ later, looseNames placements refs =
      ((looseNames placements refs).takeWhile fun n => n != r.name) ++ r.name :: later := by
    generalize looseNames placements refs = names at hmem
    induction names with
    | nil => simp at hmem
    | cons n names ih =>
      by_cases hn : n = r.name
      · exact ⟨names, by simp [hn]⟩
      · obtain ⟨later, hlater⟩ := ih ((List.mem_cons.mp hmem).resolve_left fun e => hn e.symm)
        refine ⟨later, ?_⟩
        rw [List.takeWhile_cons_of_pos (by simpa using hn), List.cons_append, ← hlater]
  refine ⟨named r.name back ++ later.flatMap fun n => named n refs, ?_⟩
  have hnamed : named r.name refs = named r.name front ++ r :: named r.name back := by
    rw [e, named_split]
  rw [loose_eq]
  nth_rewrite 1 [hlater]
  rw [List.flatMap_append, List.flatMap_cons, hnamed]
  simp only [List.append_assoc, List.cons_append]

/-- Counting the sections before one, from behind those with a placement on, comes to its slot. -/
theorem top_add_span {top : Nat} {front back before after : List SectionRef} {r : SectionRef}
    (hnodup : (allSections 0 objects).Nodup)
    (hr : placements.lookup r.name = none) (e : allSections 0 objects = front ++ r :: back)
    (htop : Behind placements (allSections 0 objects) objects top)
    (hloose : loose placements (allSections 0 objects) = before ++ r :: after) :
    top + span objects before = slot (lengthAt objects) placements objects front r := by
  have hnodup' : (loose placements (allSections 0 objects)).Nodup := nodup_grouped (hnodup.filter _)
  obtain ⟨after', hsplit⟩ := loose_split hr e
  rw [hloose] at hnodup'
  obtain ⟨-, hcons, hdisjoint⟩ := List.nodup_append.mp hnodup'
  obtain ⟨rfl, -, -⟩ := (List.append_cons_inj_of_notMem
    (fun hmem => hdisjoint r hmem r (List.mem_cons_self ..) rfl)
    (List.nodup_cons.mp hcons).1).mp (hloose.symm.trans hsplit)
  rw [slot, base, hr, htop.eq_highestEnd, span_append, span_flatMap_named]
  exact (Nat.add_assoc ..).symm

/-! ## Placing by the formula -/

theorem Formed.allAt (h : Formed placements (allSections 0 objects) objects objects')
    (hnodup : (allSections 0 objects).Nodup) :
    AllAt (lengthAt objects) placements objects objects' := by
  intro front r back e
  rcases hr : placements.lookup r.name with _ | a
  · obtain ⟨top, htop, hrest⟩ := h.rest
    have hmem : r ∈ allSections 0 objects := by
      rw [e]
      exact List.mem_append_right _ (List.mem_cons_self ..)
    obtain ⟨before, after, hloose⟩ := List.append_of_mem (mem_loose.mpr ⟨hmem, hr⟩)
    rw [hrest before r after hloose, top_add_span hnodup hr e htop hloose]
  · rw [h.pinned front r back a e hr, slot, base, hr]
    rfl

/-- What placing starts from when there is nothing but objects and placements. -/
structure Fresh (placements : Placements) (objects : List Object) (p : Linker.Progress) : Prop where
  occurrences : p.occurrences = allSections 0 objects
  objects : p.objects = objects
  placements : p.placements = placements
  there : ∀ r ∈ p.occurrences, (sectionAt p.objects r).isSome = true

theorem fresh_ready {p : Linker.Progress} (hp : p.toLinker = ready placements objects) :
    Fresh placements objects p := by
  have hocc : (ready placements objects).occurrences = allSections 0 objects := occurrences_eq rfl
  refine ⟨hp ▸ hocc, hp ▸ rfl, hp ▸ rfl, fun r hr => ?_⟩
  rw [hp, hocc] at hr
  rw [hp]
  exact sectionAt_of_mem_allSections hr

theorem Fresh.formed {p q : Linker.Progress} (hp : Fresh placements objects p)
    (hnodup : (allSections 0 objects).Nodup) (h : Runs formSections p refs q) :
    Agree Section.unplaced objects q.objects ∧
      Formed placements (allSections 0 objects) objects q.objects ∧
      refs = Ordered.sort (fun a b => q.location a ≤ q.location b) (allSections 0 objects) := by
  obtain ⟨hmoves, hformed, horder⟩ := runs_formSections (hp.occurrences ▸ hnodup) hp.there h
  have hagree := hmoves.objects
  rw [hp.occurrences, hp.objects, hp.placements] at hformed
  rw [hp.objects] at hagree
  rw [hp.occurrences] at horder
  exact ⟨hagree, hformed, horder⟩

theorem Fresh.not_allFit {p q : Linker.Progress} {e : Error} (hp : Fresh placements objects p)
    (hnodup : (allSections 0 objects).Nodup) (h : Fails formSections p e q) :
    ¬ AllFit (lengthAt objects) placements objects := by
  intro hfits
  have hfails := fails_formSections (hp.occurrences ▸ hnodup) hp.there h
  rw [hp.occurrences, hp.objects, hp.placements] at hfails
  obtain ⟨front, r, back, a, e, ha, hlong⟩ | ⟨top, htop, before, r, after, hloose, hlong⟩ := hfails
  · have hfit := hfits front r back e
    rw [slot, base, ha] at hfit
    exact absurd hfit (Nat.not_le_of_lt hlong)
  · obtain ⟨hmem, hr⟩ := mem_loose.mp (hloose ▸ List.mem_append_right _ (List.mem_cons_self ..))
    obtain ⟨front, back, e⟩ := List.append_of_mem hmem
    rw [top_add_span hnodup hr e htop hloose] at hlong
    exact absurd (hfits front r back e) (Nat.not_le_of_lt hlong)

/-- A new linker finds a place for every section. -/
def Placeable (placements : Placements) (objects : List Object) : Prop :=
  ∃ l refs log, (ready placements objects).run formSections = ⟨l, .ok refs, log⟩

theorem placeable_iff (hnames : ∀ obj ∈ objects, obj.sectionNames.Nodup) :
    Placeable placements objects ↔ AllFit (lengthAt objects) placements objects := by
  have hnodup := nodup_allSections hnames 0
  have hfresh : Fresh placements objects { toLinker := ready placements objects } := fresh_ready rfl
  constructor
  · rintro ⟨l, refs, log, hrun⟩ front r back e
    obtain ⟨-, hform, -⟩ := hfresh.formed hnodup (runs_of_run hrun)
    rw [← hform.allAt hnodup front r back e]
    refine hform.fits r ?_
    rw [e]
    exact List.mem_append_right _ (List.mem_cons_self ..)
  · intro hfits
    rcases hrun : (ready placements objects).run formSections with ⟨l, err | refs, log⟩
    · exact absurd hfits (hfresh.not_allFit hnodup (fails_of_run hrun))
    · exact ⟨l, refs, log, hrun⟩

end Linker

/-- Placing the sections of some objects succeeds if the formula, in the lengths that the linker
counts, has every section end below the top of the address space, and only then. It puts each section
where the formula says, changes nothing else about it, and gives the sections by address, those at one
address in the order they came. That is the formula in the true sizes as long as these can be counted
in 32 bits. If one cannot, the formula has no room for it, so then the linker is right exactly if it
fails. -/
theorem placement_closed_form (placements : Placements) {objects : List Object}
    (hnames : ∀ obj ∈ objects, obj.sectionNames.Nodup) :
    ((Linker.Placeable placements objects ↔ AllFit (sizeAt objects) placements objects) ↔
      (∀ obj ∈ objects, obj.Short) ∨ ¬ Linker.Placeable placements objects) ∧
    (Linker.Placeable placements objects ↔ AllFit (lengthAt objects) placements objects) ∧
    ∀ l refs log, (Linker.ready placements objects).run Linker.formSections = ⟨l, .ok refs, log⟩ →
      AllAt (lengthAt objects) placements objects l.objects ∧
      ((∀ obj ∈ objects, obj.Short) → AllAt (sizeAt objects) placements objects l.objects) ∧
      Agree Section.unplaced objects l.objects ∧
      Ordered.IsStableSort (locationAt l.objects) (allSections 0 objects) refs := by
  have hnodup := nodup_allSections hnames 0
  have hplaceable : Linker.Placeable placements objects ↔ _ := Linker.placeable_iff hnames
  refine ⟨⟨fun hiff => ?_, fun h => ?_⟩, hplaceable, fun l refs log hrun => ?_⟩
  · by_cases hplaced : Linker.Placeable placements objects
    · exact .inl (short_of_allFit hnames (hiff.mp hplaced))
    · exact .inr hplaced
  · constructor
    · intro hplaced
      obtain hshort | hnot := h
      · rw [← lengthAt_of_short hshort]
        exact hplaceable.mp hplaced
      · exact absurd hplaced hnot
    · intro hfits
      rw [← lengthAt_of_short (short_of_allFit hnames hfits)] at hfits
      exact hplaceable.mpr hfits
  · obtain ⟨hagree, hform, hsort⟩ :=
      (Linker.fresh_ready rfl).formed hnodup (Linker.runs_of_run hrun)
    have hat := hform.allAt hnodup
    refine ⟨hat, fun hshort => lengthAt_of_short hshort ▸ hat, hagree, ?_⟩
    rw [hsort]
    exact Ordered.isStableSort_sort (fun a b => decide_eq_true_iff) _

/-- Two objects with sections of each other's names, and an empty section. -/
def interleaved : List Object :=
  [{ name := text "a.o"
     sections := [{ name := text "a", code := [1, 2] }, { name := text "b", code := [3] }] },
   { name := text "b.o"
     sections := [{ name := text "b", code := [4, 5, 6] }, { name := text "c" },
       { name := text "a", code := [7] }] }]

theorem placement_closed_form_interleaved : ∃ l refs log,
    (Linker.ready [(text "b", 100)] interleaved).run Linker.formSections = ⟨l, .ok refs, log⟩ ∧
    refs.map (fun r => (r.object, r.name, locationAt l.objects r)) =
      [(0, text "b", 100), (1, text "b", 101), (0, text "a", 104), (1, text "a", 106),
        (1, text "c", 107)] ∧
    AllAt (sizeAt interleaved) [(text "b", 100)] interleaved l.objects ∧
    Ordered.IsStableSort (locationAt l.objects) (allSections 0 interleaved) refs ∧
    ¬ Linker.Placeable [(text "b", 2 ^ 32 - 4)] interleaved := by
  have hnames : ∀ obj ∈ interleaved, obj.sectionNames.Nodup := by decide
  have hshort : ∀ obj ∈ interleaved, obj.Short := by
    unfold Object.Short
    decide
  have h : (((Linker.ready [(text "b", 100)] interleaved).run Linker.formSections).result.toOption.map
      fun refs => refs.map fun r => (r.object, r.name, locationAt
        ((Linker.ready [(text "b", 100)] interleaved).run Linker.formSections).linker.objects r)) =
      some [(0, text "b", 100), (1, text "b", 101), (0, text "a", 104), (1, text "a", 106),
        (1, text "c", 107)] := by
    decide +kernel
  rcases hrun : (Linker.ready [(text "b", 100)] interleaved).run Linker.formSections with
    ⟨l, result, log⟩
  rw [hrun] at h
  obtain ⟨refs, hrefs, hplaces⟩ := Option.map_eq_some_iff.mp h
  obtain rfl := eq_ok_of_toOption hrefs
  obtain ⟨-, -, hplaced⟩ := placement_closed_form [(text "b", 100)] hnames
  obtain ⟨-, hat, -, hsort⟩ := hplaced l refs log hrun
  refine ⟨l, refs, log, rfl, hplaces, hat hshort, hsort, fun hsome => ?_⟩
  -- the sections named b end at the top of the address space
  have hiff := (placement_closed_form [(text "b", 2 ^ 32 - 4)] hnames).1.mpr (.inl hshort)
  have hfits := hiff.mp hsome [⟨0, text "a"⟩, ⟨0, text "b"⟩] ⟨1, text "b"⟩
    [⟨1, text "c"⟩, ⟨1, text "a"⟩] (by decide)
  exact absurd hfits (by decide +kernel)

/-- An object without symbols, with a section of any bytes and one of a single byte. -/
def oversized (next : Int64) (code : Bytes) : Object where
  name := text "a.o"
  symbols := { next }
  sections := [{ name := text "t", code }, { name := text "u", code := [7] }]

theorem nodup_oversized (next : Int64) (code : Bytes) :
    ∀ obj ∈ [oversized next code], obj.sectionNames.Nodup := by
  rw [List.forall_mem_singleton]
  show [text "t", text "u"].Nodup
  decide

theorem allSections_oversized (next : Int64) (code : Bytes) :
    allSections 0 [oversized next code] = [⟨0, text "t"⟩, ⟨0, text "u"⟩] := rfl

/-- A section of 2³² bytes counts as empty, so what comes behind it goes to the same place. -/
theorem slot_oversized {next : Int64} {code : Bytes} (h : code.length = 2 ^ 32)
    {front back : List SectionRef} {r : SectionRef}
    (e : allSections 0 [oversized next code] = front ++ r :: back) :
    slot (lengthAt [oversized next code]) [] [oversized next code] front r = 0 := by
  have hempty : lengthAt [oversized next code] ⟨0, text "t"⟩ = 0 := by
    rw [lengthAt_eq]
    show code.length % 2 ^ 32 = 0
    rw [h, Nat.mod_self]
  generalize lengthAt [oversized next code] = size at hempty
  unfold slot
  rw [allSections_oversized] at e ⊢
  rcases front with _ | ⟨x, _ | ⟨y, front⟩⟩
  · cases e
    rfl
  · cases e
    show 0 + (size ⟨0, text "t"⟩ + 0) + 0 = 0
    rw [hempty]
  · have hlength := congrArg List.length e
    simp only [List.length_cons, List.length_nil, List.length_append] at hlength
    omega

theorem placeable_oversized {next : Int64} {code : Bytes} (h : code.length = 2 ^ 32) :
    Linker.Placeable [] [oversized next code] := by
  refine (Linker.placeable_iff (nodup_oversized next code)).mpr fun front r back e => ?_
  have hlt : lengthAt [oversized next code] r < 2 ^ 32 := by
    rw [lengthAt_eq]
    exact Nat.mod_lt _ (Nat.two_pow_pos 32)
  rw [slot_oversized h e]
  omega

/-- There is no room for a section of 2³² bytes, and yet it is placed. -/
theorem oversized_section_is_placed : ∃ obj : Object, obj.sectionNames.Nodup ∧
    Linker.Placeable [] [obj] ∧ ¬ AllFit (sizeAt [obj]) [] [obj] := by
  obtain ⟨code, h⟩ := Bytes.exists_length (2 ^ 32)
  refine ⟨oversized 0 code, nodup_oversized 0 code _ (List.mem_singleton_self _),
    placeable_oversized h, fun hfits => ?_⟩
  have hlong := hfits [] ⟨0, text "t"⟩ [⟨0, text "u"⟩] rfl
  have hsize : sizeAt [oversized 0 code] ⟨0, text "t"⟩ = code.length := rfl
  omega

end AsmKit
