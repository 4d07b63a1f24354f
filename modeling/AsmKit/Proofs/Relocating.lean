import AsmKit.Linker.Relocate
import AsmKit.Proofs.Placement
import AsmKit.Proofs.Words

/-
  Filling in addresses. A relocation that is carried out changes four bytes of one section
  (`runs_relocateOne`) and no address, so all of them put in what their symbols come to before the
  first is carried out. Relocations that have no byte in common do not undo each other
  (`patched_of_runs`).
-/

namespace AsmKit

/-- A section with its bytes blanked out. -/
def Section.blanked (s : Section) : Section := { s with code := List.replicate s.code.length 0 }

/-- A byte of one of several objects. -/
def byteAt (objects : List Object) (ref : SectionRef) (i : Nat) : Option UInt8 :=
  (sectionAt objects ref).bind fun s => s.code[i]?

/-- A relocation of one of several objects. -/
structure Patch where
  object : Nat
  relocation : Relocation

namespace Patch

/-- The section that a patch is in. -/
def ref (x : Patch) : SectionRef := ⟨x.object, x.relocation.sectionName⟩

/-- Where in its section the patch is. -/
def offset (x : Patch) : Nat := x.relocation.location.toNat

/-- A byte belongs to the patch. -/
def Covers (x : Patch) (ref : SectionRef) (i : Nat) : Prop :=
  x.ref = ref ∧ x.offset ≤ i ∧ i < x.offset + 4

/-- Two patches have no byte in common. -/
def Apart (x y : Patch) : Prop :=
  x.ref = y.ref → x.offset + 4 ≤ y.offset ∨ y.offset + 4 ≤ x.offset

/-- The patch holds a word. -/
def Holds (objects : List Object) (x : Patch) (w : UInt32) : Prop :=
  ∀ i < 4, byteAt objects x.ref (x.offset + i) = (Bytes.ofWord w)[i]?

end Patch

theorem byteAt_of_agree {objects objects' : List Object}
    (h : Agree Section.unplaced objects objects') (ref : SectionRef) (i : Nat) :
    byteAt objects' ref i = byteAt objects ref i := by
  have e := congrArg (fun o : Option Section => o.bind fun s => s.code[i]?)
    (h.sectionAt (fun _ => rfl) ref)
  simp only [Option.bind_map] at e
  exact e

theorem Patch.Holds.word {objects : List Object} {x : Patch} {w : UInt32} (h : x.Holds objects w) :
    ∃ s, sectionAt objects x.ref = some s ∧ s.word? x.relocation.location = some w := by
  rcases hs : sectionAt objects x.ref with _ | s
  · have hfirst := h 0 (by decide)
    unfold byteAt at hfirst
    rw [hs] at hfirst
    cases hfirst
  · refine ⟨s, rfl, Section.word?_of_spells fun i hi => ?_⟩
    have hbyte := h i hi
    unfold byteAt at hbyte
    rw [hs] at hbyte
    exact hbyte

/-! ## Addresses do not change -/

theorem location_of_agree {objects objects' : List Object}
    (h : Agree Section.blanked objects objects') {ref : SectionRef} {s' : Section}
    (hs' : sectionAt objects' ref = some s') :
    ∃ s, sectionAt objects ref = some s ∧ s.location = s'.location := by
  have e := h.sectionAt (fun _ => rfl) ref
  rw [hs'] at e
  obtain ⟨s, hs, e⟩ := Option.map_eq_some_iff.mp e.symm
  have hloc : s.blanked.location = s'.blanked.location := by rw [e]
  exact ⟨s, hs, hloc⟩

namespace Linker

/-- A symbol comes to the address of its definition in the object or, without one, of its shared
definition. -/
theorem resolve_eq_ok_iff {l : Linker} {obj : Object} {name : Bytes} {a : UInt32} :
    l.resolve obj name = .ok a ↔
      (∃ sym s, (obj.symbols.get? name).filter Symbol.isDefined = some sym ∧
        obj.findSection sym.sectionName = some s ∧ a = sym.value + s.location) ∨
      ((obj.symbols.get? name).filter Symbol.isDefined = none ∧
        ∃ sym s, (l.symbols.get? name).filter Symbol.isDefined = some sym ∧
          l.owner sym = some s ∧ a = sym.value + s.location) := by
  unfold resolve
  rcases (obj.symbols.get? name).filter Symbol.isDefined with _ | sym
  · rcases (l.symbols.get? name).filter Symbol.isDefined with _ | sym
    · simp
    · rcases ho : l.owner sym with _ | s
      · simp [ho]
      · simp [ho, eq_comm]
  · rcases hs : obj.findSection sym.sectionName with _ | s
    · simp [hs]
    · simp [hs, eq_comm]

/-- Addresses depend on where sections are, not on what is in them. -/
theorem resolve_of_agree {l l' : Linker} (hsymbols : l'.symbols = l.symbols)
    (hindex : l'.index = l.index) (h : Agree Section.blanked l.objects l'.objects) {n : Nat}
    {obj obj' : Object} (hobj : l.objects[n]? = some obj) (hobj' : l'.objects[n]? = some obj')
    {name : Bytes} {a : UInt32} (ha : l'.resolve obj' name = .ok a) : l.resolve obj name = .ok a := by
  obtain ⟨obj'', hobj'', -, hsym, -⟩ := h.getElem? hobj
  rw [hobj'] at hobj''
  cases hobj''
  rw [resolve_eq_ok_iff] at ha ⊢
  rw [hsym] at ha
  rcases ha with ⟨sym, s', hd, hs', e⟩ | ⟨hd, sym, s', hd', hs', e⟩
  · have hat : sectionAt l'.objects ⟨n, sym.sectionName⟩ = some s' := by
      rw [sectionAt_eq hobj']
      exact hs'
    obtain ⟨s, hs, hloc⟩ := location_of_agree h hat
    rw [sectionAt_eq hobj] at hs
    exact .inl ⟨sym, s, hd, hs, hloc ▸ e⟩
  · unfold owner at hs'
    rw [hindex] at hs'
    obtain ⟨ref, href, hs'⟩ := Option.bind_eq_some_iff.mp hs'
    obtain ⟨s, hs, hloc⟩ := location_of_agree h hs'
    refine .inr ⟨hd, sym, s, hsymbols ▸ hd', ?_, hloc ▸ e⟩
    unfold owner
    rw [href]
    exact hs

/-! ## One relocation -/

variable {p q r : Linker.Progress}

/-- Relocations have been carried out: bytes outside of them are what they were, and if no two
have a byte in common, each holds the address of its symbol. -/
structure Patched (xs : List Patch) (p q : Linker.Progress) : Prop where
  frame : q = { p with objects := q.objects, log := q.log }
  objects : Agree Section.blanked p.objects q.objects
  outside : ∀ ref i, (∀ x ∈ xs, ¬ x.Covers ref i) →
    byteAt q.objects ref i = byteAt p.objects ref i
  inside : xs.Pairwise Patch.Apart → ∀ x ∈ xs, ∃ obj address, p.objects[x.object]? = some obj ∧
    p.resolve obj x.relocation.symbol = .ok address ∧ x.Holds q.objects address

theorem runs_relocateOne {n : Nat} {rel : Relocation} (hn : n < p.objects.length)
    (h : Runs (relocateOne n rel) p () q) :
    ∃ obj target address, p.objects[n]? = some obj ∧
      obj.findSection rel.sectionName = some target ∧ p.resolve obj rel.symbol = .ok address ∧
      rel.location.toNat + 4 ≤ target.code.length ∧
      q = { p with
        objects := updated p.objects ⟨n, rel.sectionName⟩ fun _ =>
          { target with code := target.code.patched rel.location.toNat address }
        log := q.log } := by
  unfold relocateOne at h
  simp only [runs_bind, runs_get] at h
  obtain ⟨_, p, ⟨rfl, rfl⟩, h⟩ := h
  rw [List.getElem?_eq_getElem hn] at h ⊢
  generalize p.objects[n] = obj at h ⊢
  dsimp only at h
  rcases hs : obj.findSection rel.sectionName with _ | target
  · rw [hs] at h
    exact absurd h runs_throw
  · rw [hs] at h
    obtain ⟨address, p', hcheck, hdone⟩ := runs_bind.mp h
    obtain ⟨ha, hp'⟩ := runs_liftExcept.mp hcheck
    rw [hp'] at hdone
    rcases hpatch : target.patch rel.location address with e | patched
    · rw [hpatch] at hdone
      exact absurd hdone runs_throw
    · rw [hpatch] at hdone
      obtain ⟨hlen, rfl⟩ := Section.patch_eq_ok_iff.mp hpatch
      simp only [runs_bind, runs_modifySection, runs_record] at hdone
      obtain ⟨_, _, rfl, rfl⟩ := hdone
      exact ⟨obj, target, address, rfl, hs, ha, hlen, rfl⟩

theorem byteAt_replaced {objects : List Object} {ref : SectionRef} {s t : Section}
    (hs : sectionAt objects ref = some s) (r : SectionRef) (i : Nat) :
    byteAt (updated objects ref fun _ => t) r i =
      if r = ref then t.code[i]? else byteAt objects r i := by
  unfold byteAt
  rw [sectionAt_updated]
  split
  · next e =>
    rw [e, hs]
    rfl
  · rfl

theorem patched_one {x : Patch} (hx : x.object < p.objects.length)
    (hnodup : ∀ obj ∈ p.objects, obj.sectionNames.Nodup)
    (h : Runs (relocateOne x.object x.relocation) p () q) : Patched [x] p q := by
  obtain ⟨obj, target, address, hobj, htarget, ha, hlen, hq⟩ := runs_relocateOne hx h
  change x.offset + 4 ≤ target.code.length at hlen
  have hat : sectionAt p.objects x.ref = some target := (sectionAt_eq hobj).trans htarget
  have hbyte (ref : SectionRef) (i : Nat) : byteAt q.objects ref i =
      if ref = x.ref then (target.code.patched x.offset address)[i]?
      else byteAt p.objects ref i := by
    rw [hq]
    exact byteAt_replaced hat ref i
  constructor
  case frame => rw [hq]
  case objects =>
    rw [hq]
    refine agree_updated p.objects x.ref fun obj' hobj' s hs hname => ?_
    -- names are unique, so there is one section to change
    have e : s = target := by
      rw [show p.objects[x.ref.object]? = some obj from hobj] at hobj'
      cases hobj'
      have hfind := (Object.findSection_eq_some_iff
        (hnodup obj (List.mem_of_getElem? hobj))).mpr ⟨hs, hname⟩
      exact Option.some.inj (hfind.symm.trans htarget)
    subst e
    have hsame : (s.code.patched x.relocation.location.toNat address).length = s.code.length :=
      Bytes.length_patched hlen address
    unfold Section.blanked
    dsimp only
    rw [hsame, ← hname]
  case outside =>
    intro ref i hout
    have hx := hout x (List.mem_singleton_self x)
    rw [hbyte]
    split
    · next e =>
      have hi : i < x.offset ∨ x.offset + 4 ≤ i := by
        unfold Patch.Covers at hx
        have := not_and.mp hx e.symm
        omega
      rw [Bytes.getElem?_patched_of_outside hlen address hi, e]
      unfold byteAt
      rw [hat]
      rfl
    · rfl
  case inside =>
    intro _ y hy
    rw [List.mem_singleton.mp hy]
    refine ⟨obj, address, hobj, ha, fun i hi => ?_⟩
    rw [hbyte, if_pos rfl]
    exact Bytes.spells_patched hlen address i hi

/-! ## All relocations -/

theorem Patched.cons {x : Patch} {xs : List Patch} (h : Patched [x] p q) (h' : Patched xs q r) :
    Patched (x :: xs) p r := by
  constructor
  case frame =>
    have hf := h'.frame
    rw [h.frame] at hf
    exact hf
  case objects => exact h.objects.trans h'.objects
  case outside =>
    intro ref i hout
    rw [h'.outside ref i fun y hy => hout y (List.mem_cons_of_mem _ hy)]
    refine h.outside ref i fun y hy => ?_
    rw [List.mem_singleton.mp hy]
    exact hout x (List.mem_cons_self ..)
  case inside =>
    intro hapart y hy
    obtain ⟨hx, hxs⟩ := List.pairwise_cons.mp hapart
    rcases List.mem_cons.mp hy with rfl | hy
    · obtain ⟨obj, address, hobj, ha, hholds⟩ :=
        h.inside (List.pairwise_singleton _ y) y (List.mem_singleton_self y)
      refine ⟨obj, address, hobj, ha, fun i hi => ?_⟩
      rw [h'.outside, hholds i hi]
      -- the patches that follow are apart from this one
      rintro z hz ⟨href, hle, hlt⟩
      have := hx z hz href.symm
      omega
    · obtain ⟨obj', address, hobj', ha', hholds⟩ := h'.inside hxs y hy
      obtain ⟨obj, hobj, -⟩ := h.objects.symm.getElem? hobj'
      refine ⟨obj, address, hobj, ?_, hholds⟩
      exact resolve_of_agree (by rw [h.frame]) (by rw [h.frame]) h.objects hobj hobj' ha'

theorem patched_of_runs {xs : List Patch} (hxs : ∀ x ∈ xs, x.object < p.objects.length)
    (hnodup : ∀ obj ∈ p.objects, obj.sectionNames.Nodup)
    (h : Runs (forM xs fun x => relocateOne x.object x.relocation) p () q) : Patched xs p q := by
  induction xs generalizing p with
  | nil =>
    rw [runs_forM_nil.mp h]
    exact ⟨rfl, .refl _ _, fun _ _ _ => rfl, fun _ _ hx => nomatch hx⟩
  | cons x xs ih =>
    obtain ⟨r, hr, h⟩ := runs_forM_cons.mp h
    have hone := patched_one (hxs x (List.mem_cons_self ..)) hnodup hr
    refine hone.cons (ih (fun y hy => ?_) (hone.objects.nodup (fun _ => rfl) hnodup) h)
    rw [hone.objects.length]
    exact hxs y (List.mem_cons_of_mem _ hy)

/-- The relocations that a linker carries out, in order. -/
def patches (l : Linker) : List Patch :=
  l.linkedObjects.flatMap fun (n, obj) => obj.relocations.entries.map (Patch.mk n)

theorem runs_relocate (h : Runs relocate p () q) :
    Runs (forM p.patches fun x => relocateOne x.object x.relocation) p () q :=
  runs_objects (fun obj => obj.relocations.entries) (fun n _ => Patch.mk n) _ h

theorem mem_patches {l : Linker} {x : Patch} : x ∈ l.patches ↔
    x.object ∈ l.inputs ∧ ∃ obj, l.objects[x.object]? = some obj ∧
      x.relocation ∈ obj.relocations.entries := by
  unfold patches
  rw [List.mem_flatMap]
  constructor
  · rintro ⟨⟨n, obj⟩, hobj, hx⟩
    obtain ⟨rel, hrel, rfl⟩ := List.mem_map.mp hx
    obtain ⟨hn, hobj⟩ := mem_linkedObjects.mp hobj
    exact ⟨hn, obj, hobj, hrel⟩
  · rintro ⟨hn, obj, hobj, hrel⟩
    exact ⟨(x.object, obj), mem_linkedObjects.mpr ⟨hn, hobj⟩, List.mem_map_of_mem hrel⟩

end Linker

end AsmKit
