import AsmKit.Proofs.Relocating

/-
  Words written over each other. Two laws hold of them: a word written twice in a row need be written
  only once, and a word that will be written again need not be written the first time, whatever is
  written in between (`Filling.apply_again`, `Filling.apply_between`). So a sequence of writes can be
  repeated without effect (`Filling.applyAll_again`). It changes nothing but bytes
  (`Filling.alike_applyAll`), and leaves at each place what the last word to reach it has there
  (`Filling.byteAt_applyAll`).
-/

namespace AsmKit

/-! ## Words over words -/

namespace Bytes

variable {code : Bytes} {k j : Nat} {w v : UInt32}

/-- The code with a word written at offset `k`, if there are four bytes for it. -/
def overwritten (code : Bytes) (k : Nat) (w : UInt32) : Bytes :=
  if k + 4 ≤ code.length then code.patched k w else code

@[simp] theorem length_overwritten : (code.overwritten k w).length = code.length := by
  unfold overwritten
  split
  · next h => exact length_patched h w
  · rfl

theorem getElem?_overwritten (i : Nat) : (code.overwritten k w)[i]? =
    if k + 4 ≤ code.length ∧ k ≤ i ∧ i < k + 4 then (ofWord w)[i - k]? else code[i]? := by
  unfold overwritten
  by_cases hfits : k + 4 ≤ code.length
  · rw [if_pos hfits]
    by_cases hi : k ≤ i ∧ i < k + 4
    · rw [if_pos ⟨hfits, hi⟩]
      have hspells := spells_patched hfits w (i - k) (by omega)
      rwa [Nat.add_sub_cancel' hi.1] at hspells
    · rw [if_neg fun h => hi h.2]
      exact getElem?_patched_of_outside hfits w (by omega)
  · rw [if_neg hfits, if_neg fun h => hfits h.1]

theorem overwritten_again : (code.overwritten k w).overwritten k w = code.overwritten k w := by
  apply List.ext_getElem?
  intro i
  rw [getElem?_overwritten, length_overwritten, getElem?_overwritten]
  split
  · rfl
  · rfl

/-- A word that will be written again need not have been written before. -/
theorem overwritten_between : ((code.overwritten k w).overwritten j v).overwritten k w =
    (code.overwritten j v).overwritten k w := by
  apply List.ext_getElem?
  intro i
  simp only [getElem?_overwritten, length_overwritten]
  split
  · rfl
  · rfl

end Bytes

/-! ## One section after another -/

theorem Object.modifySection_modifySection (obj : Object) (name : Bytes) (f g : Section → Section) :
    (obj.modifySection name f).modifySection name g =
      obj.modifySection name fun s => g { f s with name } := by
  unfold modifySection
  congr 1
  rw [List.map_map]
  apply List.map_congr_left
  intro s _
  dsimp only [Function.comp]
  by_cases h : s.name = name
  · simp only [h, if_true]
  · simp only [h, if_false]

theorem Object.modifySection_comm {name name' : Bytes} (h : name ≠ name') (obj : Object)
    (f g : Section → Section) : (obj.modifySection name f).modifySection name' g =
      (obj.modifySection name' g).modifySection name f := by
  unfold modifySection
  congr 1
  rw [List.map_map, List.map_map]
  apply List.map_congr_left
  intro s _
  dsimp only [Function.comp]
  by_cases hs : s.name = name
  · simp only [hs, h, if_true, if_false]
  · by_cases hs' : s.name = name'
    · simp only [hs', h.symm, if_true, if_false]
    · simp only [hs, hs', if_false]

theorem updated_updated (objects : List Object) (ref : SectionRef) (f g : Section → Section) :
    updated (updated objects ref f) ref g =
      updated objects ref fun s => g { f s with name := ref.name } := by
  unfold updated
  rw [List.modify_modify_eq]
  congr 1
  funext obj
  exact obj.modifySection_modifySection ref.name f g

theorem updated_comm {ref ref' : SectionRef} (h : ref ≠ ref') (objects : List Object)
    (f g : Section → Section) :
    updated (updated objects ref f) ref' g = updated (updated objects ref' g) ref f := by
  unfold updated
  by_cases hobject : ref.object = ref'.object
  · have hname : ref.name ≠ ref'.name := by
      intro hname
      cases ref
      cases ref'
      cases hobject
      exact h (congrArg _ hname)
    rw [hobject, List.modify_modify_eq, List.modify_modify_eq]
    congr 1
    funext obj
    exact obj.modifySection_comm hname f g
  · exact List.modify_modify_ne _ _ _ hobject

/-! ## Fillings -/

/-- The word that is put in for a relocation. -/
structure Filling extends Patch where
  word : UInt32

namespace Filling

variable {f g : Filling} {objects : List Object} {s : Section}

/-- A section with the word in it. -/
def write (f : Filling) (s : Section) : Section :=
  { s with code := s.code.overwritten f.offset f.word }

/-- The objects with the word in the section that it belongs to. -/
def apply (f : Filling) (objects : List Object) : List Object :=
  match sectionAt objects f.ref with
  | none => objects
  | some s => updated objects f.ref fun _ => f.write s

theorem write_again : f.write (f.write s) = f.write s := by
  unfold write
  rw [Bytes.overwritten_again]

theorem write_between : f.write (g.write (f.write s)) = f.write (g.write s) := by
  unfold write
  dsimp only
  rw [Bytes.overwritten_between]

theorem apply_of_none (h : sectionAt objects f.ref = none) : f.apply objects = objects := by
  unfold apply
  rw [h]

theorem apply_of_some (h : sectionAt objects f.ref = some s) :
    f.apply objects = updated objects f.ref fun _ => f.write s := by
  unfold apply
  rw [h]

theorem sectionAt_apply (f : Filling) (objects : List Object) (r : SectionRef) :
    sectionAt (f.apply objects) r =
      if r = f.ref then (sectionAt objects r).map f.write else sectionAt objects r := by
  rcases h : sectionAt objects f.ref with _ | s
  · rw [apply_of_none h]
    split
    · next e => rw [e, h, Option.map_none]
    · rfl
  · rw [apply_of_some h, sectionAt_updated]
    split
    · next e =>
      rw [e, h, Option.map_some, Option.map_some, ← name_of_sectionAt h]
      rfl
    · rfl

/-- A word goes into a section that has just been replaced. -/
theorem apply_replaced {ref : SectionRef} {t : Section} (href : f.ref = ref)
    (hs : sectionAt objects ref = some s) (ht : t.name = ref.name) :
    f.apply (updated objects ref fun _ => t) = updated objects ref fun _ => f.write t := by
  have hsame : sectionAt (updated objects ref fun _ => t) f.ref = some t := by
    rw [href, sectionAt_updated, if_pos rfl, hs, Option.map_some, ← ht]
  rw [apply_of_some hsame, href, updated_updated]

theorem apply_again : f.apply (f.apply objects) = f.apply objects := by
  rcases h : sectionAt objects f.ref with _ | s
  · rw [apply_of_none h, apply_of_none h]
  · have hname := name_of_sectionAt h
    rw [apply_of_some h, apply_replaced (t := f.write s) rfl h hname, write_again]

theorem apply_comm (h : f.ref ≠ g.ref) : f.apply (g.apply objects) = g.apply (f.apply objects) := by
  have hf := sectionAt_apply g objects f.ref
  have hg := sectionAt_apply f objects g.ref
  rw [if_neg h] at hf
  rw [if_neg h.symm] at hg
  rcases hs : sectionAt objects f.ref with _ | s
  · rw [hs] at hf
    rw [apply_of_none hf, apply_of_none hs]
  rcases ht : sectionAt objects g.ref with _ | t
  · rw [ht] at hg
    rw [apply_of_none hg, apply_of_none ht]
  · rw [hs] at hf
    rw [ht] at hg
    rw [apply_of_some hf, apply_of_some hg, apply_of_some hs, apply_of_some ht, updated_comm h]

/-- A word that will be put in again need not have been put in before. -/
theorem apply_between : f.apply (g.apply (f.apply objects)) = f.apply (g.apply objects) := by
  by_cases href : g.ref = f.ref
  · -- three words in one section
    rcases hs : sectionAt objects f.ref with _ | s
    · rw [apply_of_none hs]
    · have hname := name_of_sectionAt hs
      have hg : sectionAt objects g.ref = some s := href ▸ hs
      rw [apply_of_some hs, apply_replaced (t := f.write s) href hs hname,
        apply_replaced (t := g.write (f.write s)) rfl hs hname, apply_of_some hg, href,
        apply_replaced (t := g.write s) rfl hs hname, write_between]
  · rw [apply_comm href, apply_again]

/-- The objects with several words put in, one after the other. -/
def applyAll (fs : List Filling) (objects : List Object) : List Object :=
  fs.foldl (fun os f => f.apply os) objects

theorem applyAll_append (fs gs : List Filling) (objects : List Object) :
    applyAll (fs ++ gs) objects = applyAll gs (applyAll fs objects) :=
  List.foldl_append

/-- The law of two words, for any number of words in between. -/
theorem apply_applyAll_between (f : Filling) (gs : List Filling) (objects : List Object) :
    f.apply (applyAll gs (f.apply objects)) = f.apply (applyAll gs objects) := by
  induction gs generalizing objects with
  | nil => exact apply_again
  | cons g gs ih =>
    calc f.apply (applyAll gs (g.apply (f.apply objects)))
        = f.apply (applyAll gs (f.apply (g.apply (f.apply objects)))) := (ih _).symm
      _ = f.apply (applyAll gs (f.apply (g.apply objects))) := by rw [apply_between]
      _ = f.apply (applyAll gs (g.apply objects)) := ih _

/-- Words that will be put in again, in the same order, need not have been put in before. -/
theorem applyAll_between (fs gs : List Filling) (objects : List Object) :
    applyAll fs (applyAll gs (applyAll fs objects)) = applyAll fs (applyAll gs objects) := by
  -- the first of the words counts as one of those in between, once it is dropped in front
  induction fs generalizing gs objects with
  | nil => rfl
  | cons f fs ih =>
    have hdrop := apply_applyAll_between f (fs ++ gs) objects
    rw [applyAll_append, applyAll_append] at hdrop
    have hrest := ih (gs ++ [f]) objects
    rw [applyAll_append, applyAll_append] at hrest
    show applyAll fs (f.apply (applyAll gs (applyAll fs (f.apply objects)))) = _
    rw [hdrop]
    exact hrest

theorem applyAll_again (fs : List Filling) (objects : List Object) :
    applyAll fs (applyAll fs objects) = applyAll fs objects :=
  applyAll_between fs [] objects

end Filling

/-! ## All but bytes -/

/-- An object without its sections. -/
def Object.heading (obj : Object) : Object := { obj with sections := [] }

/-- Objects that differ only in the bytes of the sections that can be found in them. -/
structure Alike (objects objects' : List Object) : Prop where
  headings : ∀ n : Nat, objects'[n]?.map Object.heading = objects[n]?.map Object.heading
  sections : ∀ ref, (sectionAt objects' ref).map Section.blanked =
    (sectionAt objects ref).map Section.blanked

namespace Alike

variable {objects objects' objects'' : List Object}

theorem refl (objects : List Object) : Alike objects objects := ⟨fun _ => rfl, fun _ => rfl⟩

theorem trans (h : Alike objects objects') (h' : Alike objects' objects'') :
    Alike objects objects'' :=
  ⟨fun n => (h'.headings n).trans (h.headings n), fun ref => (h'.sections ref).trans (h.sections ref)⟩

theorem getElem? (h : Alike objects objects') {n : Nat} {obj : Object}
    (hobj : objects[n]? = some obj) : ∃ obj', objects'[n]? = some obj' ∧ obj'.name = obj.name ∧
      obj'.symbols = obj.symbols ∧ obj'.relocations = obj.relocations := by
  have hn := h.headings n
  rw [hobj, Option.map_some] at hn
  obtain ⟨obj', hobj', he⟩ := Option.map_eq_some_iff.mp hn
  simp only [Object.heading, Object.mk.injEq] at he
  exact ⟨obj', hobj', he.1, he.2.1, he.2.2.1⟩

theorem getElem?_eq_none (h : Alike objects objects') {n : Nat} (hobj : objects[n]? = none) :
    objects'[n]? = none := by
  have hn := h.headings n
  rwa [hobj, Option.map_none, Option.map_eq_none_iff] at hn

theorem lt_length (h : Alike objects objects') {n : Nat} (hn : n < objects.length) :
    n < objects'.length := by
  obtain ⟨obj', hobj', -⟩ := h.getElem? (List.getElem?_eq_getElem hn)
  exact (List.getElem?_eq_some_iff.mp hobj').1

/-- What can be found of a section, its bytes apart. -/
theorem exists_section (h : Alike objects objects') {ref : SectionRef} {s : Section}
    (hs : sectionAt objects ref = some s) : ∃ s', sectionAt objects' ref = some s' ∧
      s'.name = s.name ∧ s'.location = s.location ∧ s'.code.length = s.code.length := by
  have href := h.sections ref
  rw [hs, Option.map_some] at href
  obtain ⟨s', hs', he⟩ := Option.map_eq_some_iff.mp href
  simp only [Section.blanked, Section.mk.injEq] at he
  refine ⟨s', hs', he.1, he.2.2.1, ?_⟩
  have hlength := congrArg List.length he.2.1
  rwa [List.length_replicate, List.length_replicate] at hlength

theorem sectionAt_eq_none (h : Alike objects objects') {ref : SectionRef}
    (hs : sectionAt objects ref = none) : sectionAt objects' ref = none := by
  have href := h.sections ref
  rwa [hs, Option.map_none, Option.map_eq_none_iff] at href

end Alike

theorem Filling.alike_apply (f : Filling) (objects : List Object) :
    Alike objects (f.apply objects) := by
  constructor
  · intro n
    unfold Filling.apply
    split
    · rfl
    · unfold updated
      rw [List.getElem?_modify]
      rcases objects[n]? with _ | obj
      · rfl
      · simp only [Option.map_eq_map, Option.map_some]
        split
        · rfl
        · rfl
  · intro ref
    rw [sectionAt_apply]
    split
    · rw [Option.map_map]
      congr 1
      funext s
      simp only [Function.comp, Section.blanked, write, Bytes.length_overwritten]
    · rfl

theorem Filling.alike_applyAll (fs : List Filling) (objects : List Object) :
    Alike objects (applyAll fs objects) := by
  induction fs generalizing objects with
  | nil => exact .refl objects
  | cons f fs ih => exact (f.alike_apply objects).trans (ih (f.apply objects))

/-! ## Bytes -/

instance (x : Patch) (ref : SectionRef) (i : Nat) : Decidable (x.Covers ref i) :=
  inferInstanceAs (Decidable (_ ∧ _ ∧ _))

namespace Filling

variable {f : Filling} {fs : List Filling} {objects objects' : List Object}

/-- There are four bytes for the word. -/
def Fits (objects : List Object) (f : Filling) : Prop :=
  ∃ s, sectionAt objects f.ref = some s ∧ f.offset + 4 ≤ s.code.length

theorem Fits.of_alike (h : f.Fits objects) (halike : Alike objects objects') : f.Fits objects' := by
  obtain ⟨s, hs, hfits⟩ := h
  obtain ⟨s', hs', -, -, hlength⟩ := halike.exists_section hs
  exact ⟨s', hs', by omega⟩

/-- The byte that the word has at a place, if it has one there. -/
def byte? (f : Filling) (ref : SectionRef) (i : Nat) : Option UInt8 :=
  if f.Covers ref i then (Bytes.ofWord f.word)[i - f.offset]? else none

/-- The byte that the last word to reach a place has there. -/
def lastByte? (fs : List Filling) (ref : SectionRef) (i : Nat) : Option UInt8 :=
  fs.reverse.findSome? fun f => f.byte? ref i

theorem byteAt_apply (h : f.Fits objects) (ref : SectionRef) (i : Nat) :
    byteAt (f.apply objects) ref i = (f.byte? ref i).or (byteAt objects ref i) := by
  obtain ⟨s, hs, hfits⟩ := h
  unfold byteAt byte?
  rw [sectionAt_apply]
  by_cases hcovers : f.Covers ref i
  · obtain ⟨rfl, hle, hlt⟩ := hcovers
    have hbyte : i - f.offset < (Bytes.ofWord f.word).length := by
      rw [Bytes.length_ofWord]
      omega
    rw [if_pos rfl, hs, if_pos ⟨rfl, hle, hlt⟩, List.getElem?_eq_getElem hbyte, Option.some_or]
    show ((s.code.overwritten f.offset f.word)[i]? : Option UInt8) = _
    rw [Bytes.getElem?_overwritten, if_pos ⟨hfits, hle, hlt⟩, List.getElem?_eq_getElem hbyte]
  · rw [if_neg hcovers, Option.none_or]
    split
    · next e =>
      rw [e, hs]
      show (s.code.overwritten f.offset f.word)[i]? = s.code[i]?
      rw [Bytes.getElem?_overwritten, if_neg fun hc => hcovers ⟨e.symm, hc.2⟩]
    · rfl

theorem byteAt_applyAll (h : ∀ f ∈ fs, f.Fits objects) (ref : SectionRef) (i : Nat) :
    byteAt (applyAll fs objects) ref i = (lastByte? fs ref i).or (byteAt objects ref i) := by
  induction fs generalizing objects with
  | nil => rfl
  | cons f fs ih =>
    obtain ⟨hf, hfs⟩ := List.forall_mem_cons.mp h
    have hrest := ih fun g hg => (hfs g hg).of_alike (f.alike_apply objects)
    have hlast : lastByte? (f :: fs) ref i = (lastByte? fs ref i).or (f.byte? ref i) := by
      unfold lastByte?
      rw [List.reverse_cons, List.findSome?_append, List.findSome?_singleton]
    rw [hlast, Option.or_assoc, ← byteAt_apply hf]
    exact hrest

theorem covers_of_lastByte? {ref : SectionRef} {i : Nat} {b : UInt8}
    (h : lastByte? fs ref i = some b) : ∃ f ∈ fs, f.Covers ref i := by
  obtain ⟨f, hf, hbyte⟩ := List.exists_of_findSome?_eq_some h
  refine ⟨f, List.mem_reverse.mp hf, ?_⟩
  unfold byte? at hbyte
  split at hbyte
  · next hcovers => exact hcovers
  · cases hbyte

end Filling

end AsmKit
