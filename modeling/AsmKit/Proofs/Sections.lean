import AsmKit.Linker.Placement
import AsmKit.Proofs.Tables

/-
  The sections of several objects, told apart by the number of their object and their name. Stages
  of linking change one section at a time (`updated`). What a change leaves alone is said with a
  function of sections, `Agree κ`: the objects are the same if `κ` is applied to every section.
-/

namespace AsmKit

/-- The section that a reference stands for. -/
def sectionAt (objects : List Object) (ref : SectionRef) : Option Section :=
  objects[ref.object]?.bind fun obj => obj.findSection ref.name

/-- The objects with one section changed, which keeps its name. -/
def updated (objects : List Object) (ref : SectionRef) (f : Section → Section) : List Object :=
  objects.modify ref.object fun obj => obj.modifySection ref.name f

variable {objects objects' objects'' : List Object} {ref : SectionRef} {f : Section → Section}

theorem name_of_sectionAt {s : Section} (h : sectionAt objects ref = some s) : s.name = ref.name := by
  obtain ⟨obj, -, hs⟩ := Option.bind_eq_some_iff.mp h
  exact Object.name_of_findSection hs

theorem sectionAt_eq {obj : Object} (h : objects[ref.object]? = some obj) :
    sectionAt objects ref = obj.findSection ref.name := by
  unfold sectionAt
  rw [h]
  rfl

theorem sectionAt_updated (objects : List Object) (ref r : SectionRef) (f : Section → Section) :
    sectionAt (updated objects ref f) r =
      if r = ref then (sectionAt objects r).map fun s => { f s with name := ref.name }
      else sectionAt objects r := by
  unfold sectionAt updated
  rw [List.getElem?_modify]
  rcases hobj : objects[r.object]? with _ | obj
  · simp
  · by_cases hnum : ref.object = r.object
    · simp only [hnum, if_true, Option.map_eq_map, Option.map_some, Option.bind_some,
        Object.findSection_modifySection]
      by_cases hname : r.name = ref.name
      · have e : r = ref := by
          cases r
          cases ref
          simp_all
        rw [if_pos hname, if_pos e]
      · have e : r ≠ ref := by
          intro e
          exact hname (congrArg SectionRef.name e)
        rw [if_neg hname, if_neg e]
    · have e : r ≠ ref := by
        intro e
        exact hnum (congrArg SectionRef.object e).symm
      simp [hnum, e]

/-! ## What a change leaves alone -/

/-- The object with a function applied to its sections. -/
def Object.mapSections (κ : Section → Section) (obj : Object) : Object :=
  { obj with sections := obj.sections.map κ }

/-- The objects differ only in what `κ` does not show of their sections. -/
def Agree (κ : Section → Section) (objects objects' : List Object) : Prop :=
  objects'.map (Object.mapSections κ) = objects.map (Object.mapSections κ)

variable {κ : Section → Section}

theorem Agree.refl (κ : Section → Section) (objects : List Object) : Agree κ objects objects := rfl

theorem Agree.symm (h : Agree κ objects objects') : Agree κ objects' objects := Eq.symm h

theorem Agree.trans (h : Agree κ objects objects') (h' : Agree κ objects' objects'') :
    Agree κ objects objects'' :=
  Eq.trans h' h

/-- Objects that agree in more agree in less. -/
theorem Agree.coarsen {κ' : Section → Section} (h : Agree κ objects objects')
    (hκ : ∀ s, κ' (κ s) = κ' s) : Agree κ' objects objects' := by
  have e (obj : Object) : (obj.mapSections κ).mapSections κ' = obj.mapSections κ' := by
    simp [Object.mapSections, hκ]
  have h' := congrArg (List.map (Object.mapSections κ')) h
  simp only [List.map_map, Function.comp_def, e] at h'
  exact h'

theorem Agree.length (h : Agree κ objects objects') : objects'.length = objects.length := by
  have e := congrArg List.length h
  rwa [List.length_map, List.length_map] at e

/-- Objects that agree have all but their sections in common. -/
theorem Agree.getElem? (h : Agree κ objects objects') {n : Nat} {obj : Object}
    (hobj : objects[n]? = some obj) : ∃ obj', objects'[n]? = some obj' ∧ obj'.name = obj.name ∧
      obj'.symbols = obj.symbols ∧ obj'.relocations = obj.relocations ∧
      obj'.sections.map κ = obj.sections.map κ := by
  have e := congrArg (fun l : List Object => l[n]?) h
  simp only [List.getElem?_map, hobj, Option.map_some] at e
  obtain ⟨obj', hobj', e⟩ := Option.map_eq_some_iff.mp e
  simp only [Object.mapSections, Object.mk.injEq] at e
  exact ⟨obj', hobj', e⟩

theorem Object.findSection_mapSections (hκ : ∀ s, (κ s).name = s.name) (obj : Object) (n : Bytes) :
    (obj.mapSections κ).findSection n = (obj.findSection n).map κ :=
  find?_map_keyed Section.name hκ obj.sections n

theorem sectionAt_map (hκ : ∀ s, (κ s).name = s.name) (objects : List Object) (ref : SectionRef) :
    sectionAt (objects.map (Object.mapSections κ)) ref = (sectionAt objects ref).map κ := by
  unfold sectionAt
  rw [List.getElem?_map]
  rcases objects[ref.object]? with _ | obj
  · rfl
  · exact Object.findSection_mapSections hκ obj ref.name

theorem Agree.sectionAt (h : Agree κ objects objects') (hκ : ∀ s, (κ s).name = s.name)
    (ref : SectionRef) :
    (sectionAt objects' ref).map κ = (AsmKit.sectionAt objects ref).map κ := by
  rw [← sectionAt_map hκ, ← sectionAt_map hκ, h]

theorem agree_updated (objects : List Object) (ref : SectionRef)
    (hf : ∀ obj, objects[ref.object]? = some obj → ∀ s ∈ obj.sections, s.name = ref.name →
      κ { f s with name := ref.name } = κ s) : Agree κ objects (updated objects ref f) := by
  unfold Agree updated
  apply List.ext_getElem?
  intro n
  rw [List.getElem?_map, List.getElem?_map, List.getElem?_modify]
  rcases hobj : objects[n]? with _ | obj
  · rfl
  · by_cases hn : ref.object = n
    · simp only [hn, if_true, Option.map_eq_map, Option.map_some]
      congr 1
      unfold Object.mapSections Object.modifySection
      congr 1
      rw [List.map_map]
      apply List.map_congr_left
      intro s hs
      dsimp only [Function.comp]
      split
      · next hname => exact hf obj (hn ▸ hobj) s hs hname
      · rfl
    · simp [hn]

theorem Agree.sectionNames (h : Agree κ objects objects') (hκ : ∀ s, (κ s).name = s.name) {n : Nat}
    {obj obj' : Object} (hobj : objects[n]? = some obj) (hobj' : objects'[n]? = some obj') :
    obj'.sectionNames = obj.sectionNames := by
  obtain ⟨obj'', hobj'', -, -, -, hsec⟩ := h.getElem? hobj
  rw [hobj'] at hobj''
  cases hobj''
  have e := congrArg (List.map Section.name) hsec
  have hname : Section.name ∘ κ = Section.name := funext hκ
  rw [List.map_map, List.map_map, hname] at e
  exact e

theorem Agree.nodup (h : Agree κ objects objects') (hκ : ∀ s, (κ s).name = s.name)
    (hnodup : ∀ obj ∈ objects, obj.sectionNames.Nodup) :
    ∀ obj ∈ objects', obj.sectionNames.Nodup := by
  intro obj' hobj'
  obtain ⟨n, hn⟩ := List.mem_iff_getElem?.mp hobj'
  obtain ⟨obj, hobj, -⟩ := h.symm.getElem? hn
  rw [h.sectionNames hκ hobj hn]
  exact hnodup obj (List.mem_of_getElem? hobj)

/-! ## All sections -/

theorem Linker.mem_linkedObjects {l : Linker} {n : Nat} {obj : Object} :
    (n, obj) ∈ l.linkedObjects ↔ n ∈ l.inputs ∧ l.objects[n]? = some obj := by
  unfold linkedObjects
  rw [List.mem_filterMap]
  constructor
  · rintro ⟨m, hm, h⟩
    obtain ⟨obj', hobj', e⟩ := Option.map_eq_some_iff.mp h
    cases e
    exact ⟨hm, hobj'⟩
  · rintro ⟨hn, hobj⟩
    refine ⟨n, hn, ?_⟩
    rw [hobj]
    rfl

/-- Every section of some objects, of which the first has the given number. -/
def allSections (number : Nat) : List Object → List SectionRef
  | [] => []
  | obj :: rest => (obj.sections.map fun s => ⟨number, s.name⟩) ++ allSections (number + 1) rest

theorem filterMap_range' (front back : List Object) :
    ((List.range' front.length back.length).filterMap fun n =>
        (front ++ back)[n]?.map fun obj => (n, obj)).flatMap
      (fun (n, obj) => obj.sections.map fun s => (⟨n, s.name⟩ : SectionRef)) =
      allSections front.length back := by
  induction back generalizing front with
  | nil => rfl
  | cons obj back ih =>
    have hrest := ih (front ++ [obj])
    rw [List.append_assoc, List.singleton_append, List.length_append, List.length_singleton] at hrest
    have hget : (front ++ obj :: back)[front.length]? = some obj := by simp
    rw [List.length_cons, List.range'_succ, List.filterMap_cons, hget]
    simp only [Option.map_some, List.flatMap_cons, allSections, hrest]

/-- A linker that links all its objects, each once, has all their sections to place. -/
theorem occurrences_eq {l : Linker} (h : l.inputs = List.range l.objects.length) :
    l.occurrences = allSections 0 l.objects := by
  unfold Linker.occurrences Linker.linkedObjects
  rw [h, List.range_eq_range']
  exact filterMap_range' [] l.objects

theorem mem_allSections {number : Nat} {r : SectionRef} : r ∈ allSections number objects ↔
    number ≤ r.object ∧ ∃ obj, objects[r.object - number]? = some obj ∧
      r.name ∈ obj.sectionNames := by
  induction objects generalizing number with
  | nil => simp [allSections]
  | cons obj rest ih =>
    rw [allSections, List.mem_append, ih]
    constructor
    · rintro (h | ⟨hle, obj', hobj', hname⟩)
      · obtain ⟨s, hs, rfl⟩ := List.mem_map.mp h
        refine ⟨Nat.le_refl _, obj, ?_, List.mem_map_of_mem hs⟩
        rw [Nat.sub_self, List.getElem?_cons_zero]
      · refine ⟨by omega, obj', ?_, hname⟩
        rw [show r.object - number = (r.object - (number + 1)) + 1 by omega]
        exact hobj'
    · rintro ⟨hle, obj', hobj', hname⟩
      rcases Nat.eq_or_lt_of_le hle with e | hlt
      · left
        rw [← e, Nat.sub_self, List.getElem?_cons_zero] at hobj'
        cases hobj'
        obtain ⟨s, hs, hs'⟩ := List.mem_map.mp hname
        refine List.mem_map.mpr ⟨s, hs, ?_⟩
        rw [hs', e]
      · right
        rw [show r.object - number = (r.object - (number + 1)) + 1 by omega] at hobj'
        exact ⟨hlt, obj', hobj', hname⟩

theorem nodup_allSections (h : ∀ obj ∈ objects, obj.sectionNames.Nodup) (number : Nat) :
    (allSections number objects).Nodup := by
  induction objects generalizing number with
  | nil => exact List.nodup_nil
  | cons obj rest ih =>
    refine List.nodup_append.mpr ⟨?_, ih (fun o ho => h o (List.mem_cons_of_mem _ ho)) _, ?_⟩
    · have hobj := h obj (List.mem_cons_self ..)
      unfold Object.sectionNames at hobj
      rw [List.nodup_iff_pairwise_ne, List.pairwise_map] at hobj ⊢
      exact hobj.imp fun hne e => hne (congrArg SectionRef.name e)
    · intro a ha b hb e
      obtain ⟨s, -, rfl⟩ := List.mem_map.mp ha
      have hle := (mem_allSections.mp hb).1
      rw [← e] at hle
      dsimp only at hle
      omega

end AsmKit
