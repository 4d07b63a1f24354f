import AsmKit.Proofs.Failure
import AsmKit.Proofs.Sections
import Mathlib.Algebra.Ring.Nat

/-
  Where sections are put. Placing changes nothing of a section but its place (`unplaced`). A
  section that a placement names goes behind the sections of its name before it (`placeNamed`), any
  other behind all that were placed before (`placeRest`). All this is said in unbounded numbers:
  an address that does not fit into 32 bits makes placing fail.
-/

namespace AsmKit

/-- A section without its place. -/
def Section.unplaced (s : Section) : Section := { s with location := 0, isPlaced := false }

/-- The length that the linker sees of a section, which is counted in 32 bits. -/
def lengthAt (objects : List Object) (ref : SectionRef) : Nat :=
  (((sectionAt objects ref).map Section.length).getD 0).toNat

/-- The address of a section. -/
def locationAt (objects : List Object) (ref : SectionRef) : Nat :=
  (((sectionAt objects ref).map Section.location).getD 0).toNat

/-- The length of some sections taken together. -/
def span (objects : List Object) (refs : List SectionRef) : Nat :=
  (refs.map (lengthAt objects)).sum

/-- The sections of a name. -/
def named (name : Bytes) (refs : List SectionRef) : List SectionRef :=
  refs.filter fun ref => ref.name == name

variable {objects objects' : List Object}

theorem lengthAt_of_agree (h : Agree Section.unplaced objects objects') :
    lengthAt objects' = lengthAt objects := by
  funext ref
  have e := h.sectionAt (fun _ => rfl) ref
  have e' := congrArg (fun o : Option Section => (o.map Section.length).getD 0) e
  simp only [Option.map_map] at e'
  exact congrArg UInt32.toNat e'

theorem span_of_agree (h : Agree Section.unplaced objects objects') :
    span objects' = span objects := by
  funext refs
  unfold span
  rw [lengthAt_of_agree h]

theorem isSome_of_agree (h : Agree Section.unplaced objects objects') (ref : SectionRef) :
    (sectionAt objects' ref).isSome = (sectionAt objects ref).isSome := by
  have e := congrArg Option.isSome (h.sectionAt (fun _ => rfl) ref)
  rwa [Option.isSome_map, Option.isSome_map] at e

/-- The place of a section that placing has left otherwise as it was. -/
theorem place_of_agree (h : Agree Section.unplaced objects objects') {ref : SectionRef} {s : Section}
    (hs : sectionAt objects' ref = some s) :
    locationAt objects' ref = s.location.toNat ∧ lengthAt objects ref = s.length.toNat := by
  rw [← lengthAt_of_agree h]
  unfold locationAt lengthAt
  rw [hs]
  exact ⟨rfl, rfl⟩

/-- Taking back whether a section is placed leaves it where it is. -/
theorem agree_unmarked (objects : List Object) (ref : SectionRef) :
    Agree Section.unplaced objects (updated objects ref fun s => { s with isPlaced := false }) := by
  refine agree_updated objects ref fun _ _ s _ hs => ?_
  rw [← hs]
  rfl

theorem locationAt_unmarked (objects : List Object) (ref r : SectionRef) :
    locationAt (updated objects ref fun s => { s with isPlaced := false }) r =
      locationAt objects r := by
  unfold locationAt
  rw [sectionAt_updated]
  split
  · rw [Option.map_map]
    rfl
  · rfl

theorem agree_placed (objects : List Object) (ref : SectionRef) (address : UInt32) :
    Agree Section.unplaced objects
      (updated objects ref fun s => { s with location := address, isPlaced := true }) := by
  refine agree_updated objects ref fun _ _ s _ hs => ?_
  rw [← hs]
  rfl

theorem locationAt_placed {ref : SectionRef} (h : (sectionAt objects ref).isSome = true)
    (address : UInt32) (r : SectionRef) :
    locationAt (updated objects ref fun s => { s with location := address, isPlaced := true }) r =
      if r = ref then address.toNat else locationAt objects r := by
  unfold locationAt
  rw [sectionAt_updated]
  split
  · next e =>
    obtain ⟨s, hs⟩ := Option.isSome_iff_exists.mp h
    rw [e, hs]
    rfl
  · rfl

@[simp] theorem span_nil (objects : List Object) : span objects [] = 0 := rfl

@[simp] theorem span_cons (objects : List Object) (ref : SectionRef) (refs : List SectionRef) :
    span objects (ref :: refs) = lengthAt objects ref + span objects refs := by
  simp [span]

@[simp] theorem span_append (objects : List Object) (refs more : List SectionRef) :
    span objects (refs ++ more) = span objects refs + span objects more := by
  simp [span]

namespace Linker

variable {p q : Linker.Progress} {ref : SectionRef}

/-! ## Single steps -/

theorem runs_record {e : Event} {u : Unit} :
    Runs (record e) p u q ↔ q = { p with log := p.log ++ [e] } := by
  simp [record]

theorem runs_liftExcept {α : Type} {x : Except Error α} {a : α} :
    Runs (liftExcept x) p a q ↔ x = .ok a ∧ q = p := by
  rcases x with e | b
  · simp [liftExcept]
  · simp [liftExcept, eq_comm]

theorem runs_modifySection {f : Section → Section} {u : Unit} :
    Runs (modifySection ref f) p u q ↔ q = { p with objects := updated p.objects ref f } := by
  unfold modifySection
  rw [runs_modify]
  rfl

theorem fails_record {event : Event} {e : Error} : ¬ Fails (record event) p e q := by
  unfold record
  exact fails_modify

theorem fails_liftExcept {α : Type} {x : Except Error α} {e : Error} :
    Fails (liftExcept x) p e q ↔ x = .error e ∧ q = p := by
  rcases x with e' | a
  · simp [liftExcept, eq_comm]
  · simp [liftExcept]

theorem fails_modifySection {g : Section → Section} {e : Error} :
    ¬ Fails (modifySection ref g) p e q := by
  unfold modifySection
  exact fails_modify

/-- A stage that goes through the objects and through the items of each is one loop. -/
theorem runs_objects {α β : Type} (items : Object → List α) (pack : Nat → Object → α → β)
    (step : β → Linking Unit)
    (h : Runs (get >>= fun s => s.toLinker.linkedObjects.forM fun (n, obj) =>
      inFile obj.name ((items obj).forM fun a => step (pack n obj a))) p () q) :
    Runs (forM (p.linkedObjects.flatMap fun (n, obj) => (items obj).map (pack n obj)) step)
      p () q := by
  simp only [runs_bind, runs_get] at h
  obtain ⟨_, p, ⟨rfl, rfl⟩, h⟩ := h
  refine runs_forM_flatMap (fun x _ s t hx => ?_) h
  rw [inFile, runs_tryCatch_throw] at hx
  rw [List.forM_map]
  exact hx

/-- Nothing changes but the places of sections, the placements left over and the log. -/
structure Moves (p q : Linker.Progress) : Prop where
  frame : q = { p with objects := q.objects, placements := q.placements, log := q.log }
  objects : Agree Section.unplaced p.objects q.objects

theorem Moves.refl (p : Progress) : Moves p p := ⟨rfl, .refl _ _⟩

theorem Moves.trans {r : Linker.Progress} (h : Moves p q) (h' : Moves q r) : Moves p r := by
  refine ⟨?_, h.objects.trans h'.objects⟩
  have hf := h'.frame
  rw [h.frame] at hf
  exact hf

theorem Moves.there {refs : List SectionRef} (h : Moves p q)
    (hthere : ∀ r ∈ ref :: refs, (sectionAt p.objects r).isSome = true) :
    ∀ r ∈ refs, (sectionAt q.objects r).isSome = true := by
  intro r hr
  rw [isSome_of_agree h.objects]
  exact hthere r (List.mem_cons_of_mem _ hr)

/-- One section has been put at an address, and ends at `stop`. -/
structure Places (ref : SectionRef) (address stop : UInt32) (p q : Linker.Progress) : Prop where
  fits : stop.toNat ≤ 2 ^ 32 - 1
  stop : stop.toNat = address.toNat + lengthAt p.objects ref
  moves : Moves p q
  placements : q.placements = p.placements
  location : ∀ r, locationAt q.objects r =
    if r = ref then address.toNat else locationAt p.objects r

theorem runs_place {address stop : UInt32} (hthere : (sectionAt p.objects ref).isSome = true)
    (h : Runs (place ref address) p stop q) : Places ref address stop p q := by
  simp only [place, runs_bind, runs_get] at h
  obtain ⟨_, p, ⟨rfl, rfl⟩, h⟩ := h
  split at h
  · obtain ⟨_, _, hthrow, -⟩ := runs_bind.mp h
    exact absurd hthrow runs_throw
  · next hfits =>
    simp only [runs_bind, runs_modifySection, runs_record, runs_pure] at h
    obtain ⟨_, _, rfl, _, _, rfl, rfl, rfl⟩ := h
    have hle : address.toNat + lengthAt p.objects ref ≤ 2 ^ 32 - 1 := Nat.not_lt.mp hfits
    have hstop : (address + ((sectionAt p.objects ref).map Section.length).getD 0).toNat =
        address.toNat + lengthAt p.objects ref := by
      rw [UInt32.toNat_add]
      exact Nat.mod_eq_of_lt (by unfold lengthAt at hle; omega)
    exact ⟨Nat.le_trans (Nat.le_of_eq hstop) hle, hstop, ⟨rfl, agree_placed p.objects ref address⟩,
      rfl, locationAt_placed hthere address⟩

/-- A section is put at an address, unless it does not end below the top of the address space. -/
theorem place_cases (hthere : (sectionAt p.objects ref).isSome = true) (address : UInt32) :
    (2 ^ 32 - 1 < address.toNat + lengthAt p.objects ref ∧ ∃ e q, Fails (place ref address) p e q) ∨
      ∃ stop q, Runs (place ref address) p stop q ∧ Places ref address stop p q := by
  obtain ⟨stop, q, h⟩ | ⟨e, q, h⟩ := runs_or_fails (place ref address) p
  · exact .inr ⟨stop, q, h, runs_place hthere h⟩
  · refine .inl ⟨?_, e, q, h⟩
    simp only [place, fails_bind, fails_get, runs_get, false_or] at h
    obtain ⟨_, p, ⟨rfl, rfl⟩, h⟩ := h
    split at h
    · next hlong => exact hlong
    · simp only [fails_bind, fails_modifySection, fails_record, fails_pure, and_false, exists_false,
        or_self] at h

/-- Where the next section of a name goes, if not to the rest. -/
def pin (ends placements : Placements) (name : Bytes) : Option UInt32 :=
  (ends.lookup name).or (placements.lookup name)

theorem lookup_filter_ne (placements : Placements) (name n : Bytes) (hn : n ≠ name) :
    (placements.filter fun entry => entry.1 != name).lookup n = placements.lookup n := by
  induction placements with
  | nil => rfl
  | cons entry rest ih =>
    obtain ⟨k, a⟩ := entry
    by_cases hk : k = name
    · have hne : (n == k) = false := by
        rw [hk]
        exact beq_false_of_ne hn
      rw [List.filter_cons_of_neg (by simp [hk]), List.lookup_cons, hne, ih]
    · rw [List.filter_cons_of_pos (by simp [hk]), List.lookup_cons, List.lookup_cons, ih]

theorem runs_takePlacement {ends : Placements} {name : Bytes} {a? : Option UInt32}
    (h : Runs (takePlacement ends name) p a? q) :
    a? = pin ends p.placements name ∧ q = { p with placements := q.placements } ∧
      (a? = none → q.placements = p.placements) ∧
      ∀ n ≠ name, q.placements.lookup n = p.placements.lookup n := by
  unfold takePlacement at h
  unfold pin
  rcases hends : ends.lookup name with _ | address
  · rw [hends] at h
    simp only [runs_bind, runs_get] at h
    obtain ⟨_, p, ⟨rfl, rfl⟩, h⟩ := h
    rcases hplace : p.placements.lookup name with _ | address
    · rw [hplace] at h
      obtain ⟨rfl, rfl⟩ := runs_pure.mp h
      exact ⟨rfl, rfl, fun _ => rfl, fun _ _ => rfl⟩
    · rw [hplace] at h
      simp only [runs_bind, runs_set, runs_pure] at h
      obtain ⟨_, _, rfl, rfl, rfl⟩ := h
      refine ⟨rfl, rfl, (by intro h; cases h), fun n hn => ?_⟩
      exact lookup_filter_ne p.placements name n hn
  · rw [hends] at h
    obtain ⟨rfl, rfl⟩ := runs_pure.mp h
    exact ⟨rfl, rfl, fun _ => rfl, fun _ _ => rfl⟩

theorem fails_takePlacement {ends : Placements} {name : Bytes} {e : Error} :
    ¬ Fails (takePlacement ends name) p e q := by
  intro h
  unfold takePlacement at h
  split at h
  · exact fails_pure h
  · simp only [fails_bind, fails_get, runs_get, false_or] at h
    obtain ⟨_, _, -, h⟩ := h
    split at h
    · exact fails_pure h
    · simp only [fails_bind, fails_set, fails_pure, false_or, and_false, exists_false] at h

/-! ## Named sections -/

/-- A section has been left for later, since nothing says where it goes. -/
structure Leaves (ends : Placements) (ref : SectionRef) (p q : Linker.Progress) : Prop where
  here : pin ends p.placements ref.name = none
  moves : Moves p q
  location : ∀ r, locationAt q.objects r = locationAt p.objects r
  placements : q.placements = p.placements

/-- A section has gone where `pin` says, and the next of its name goes to where it ends. -/
structure Puts (ends : Placements) (ref : SectionRef) (address stop : UInt32)
    (p q : Linker.Progress) : Prop where
  here : pin ends p.placements ref.name = some address
  fits : stop.toNat ≤ 2 ^ 32 - 1
  reach : stop.toNat = address.toNat + lengthAt p.objects ref
  moves : Moves p q
  location : ∀ r, locationAt q.objects r =
    if r = ref then address.toNat else locationAt p.objects r
  next : ∀ n, pin ((ref.name, stop) :: ends) q.placements n =
    if n = ref.name then some stop else pin ends p.placements n

/-- What says where a section goes has been asked, and taken if it was a placement. -/
structure Takes (ends : Placements) (ref : SectionRef) (a? : Option UInt32) (p q : Linker.Progress) :
    Prop where
  here : pin ends p.placements ref.name = a?
  moves : Moves p q
  location : ∀ r, locationAt q.objects r = locationAt p.objects r
  same : a? = none → q.placements = p.placements
  other : ∀ n ≠ ref.name, q.placements.lookup n = p.placements.lookup n

theorem exists_takes (p : Linker.Progress) (ref : SectionRef) (ends : Placements) (top : UInt32)
    (others refs : List SectionRef) :
    ∃ a? p', Takes ends ref a? p p' ∧
      outcome (placeNamed ends top others (ref :: refs)) p = outcome (match a? with
        | none => placeNamed ends top (ref :: others) refs
        | some address => do
          let stop ← place ref address
          placeNamed ((ref.name, stop) :: ends) (max top stop) others refs) p' := by
  have hmark : Runs (modifySection ref fun s => { s with isPlaced := false }) p () _ :=
    runs_modifySection.mpr rfl
  obtain ⟨a?, p', htake⟩ | ⟨e, q, hfails⟩ := runs_or_fails (takePlacement ends ref.name)
    { p with objects := updated p.objects ref fun s => { s with isPlaced := false } }
  · obtain ⟨ha, hp', hsame, hother⟩ := runs_takePlacement htake
    have hobj : p'.objects = updated p.objects ref fun s => { s with isPlaced := false } := by
      rw [hp']
    refine ⟨a?, p', ⟨ha.symm, ⟨by rw [hp'], ?_⟩, fun r => ?_, hsame, hother⟩, ?_⟩
    · rw [hobj]
      exact agree_unmarked p.objects ref
    · rw [hobj]
      exact locationAt_unmarked p.objects ref r
    · rw [placeNamed]
      exact (hmark.outcome_bind _).trans (htake.outcome_bind _)
  · exact absurd hfails fails_takePlacement

theorem Takes.puts {ends : Placements} {address stop : UInt32} {p' : Linker.Progress}
    (h : Takes ends ref (some address) p p') (hplaced : Places ref address stop p' q) :
    Puts ends ref address stop p q := by
  refine ⟨h.here, hplaced.fits, ?_, h.moves.trans hplaced.moves, fun r => ?_, fun n => ?_⟩
  · rw [hplaced.stop, lengthAt_of_agree h.moves.objects]
  · rw [hplaced.location, h.location]
  · unfold pin
    rw [List.lookup_cons, hplaced.placements]
    by_cases hn : n = ref.name
    · simp [hn]
    · rw [if_neg hn, beq_false_of_ne hn, h.other n hn]

/-- All that can become of the first of some sections: it is left for later, it does not fit where
it has to go, or it goes there. -/
theorem placeNamed_cases (ends : Placements) (top : UInt32) (others refs : List SectionRef)
    (hthere : (sectionAt p.objects ref).isSome = true) :
    (∃ p', Leaves ends ref p p' ∧ outcome (placeNamed ends top others (ref :: refs)) p =
      outcome (placeNamed ends top (ref :: others) refs) p') ∨
    (∃ address, pin ends p.placements ref.name = some address ∧
      2 ^ 32 - 1 < address.toNat + lengthAt p.objects ref ∧
      ∃ e q, Fails (placeNamed ends top others (ref :: refs)) p e q) ∨
    ∃ address stop p', Puts ends ref address stop p p' ∧
      outcome (placeNamed ends top others (ref :: refs)) p =
        outcome (placeNamed ((ref.name, stop) :: ends) (max top stop) others refs) p' := by
  obtain ⟨a?, p₂, htakes, e⟩ := exists_takes p ref ends top others refs
  rcases a? with _ | address
  · exact .inl ⟨p₂, ⟨htakes.here, htakes.moves, htakes.location, htakes.same rfl⟩, e⟩
  · obtain ⟨hlong, err, q, hfails⟩ | ⟨stop, p₃, hplace, hplaced⟩ :=
      place_cases ((isSome_of_agree htakes.moves.objects ref).trans hthere) address
    · rw [lengthAt_of_agree htakes.moves.objects] at hlong
      refine .inr (.inl ⟨address, htakes.here, hlong, err, q, ?_⟩)
      rw [Fails, e]
      exact fails_bind.mpr (.inl hfails)
    · refine .inr (.inr ⟨address, stop, p₃, htakes.puts hplaced, ?_⟩)
      rw [e]
      exact hplace.outcome_bind _

theorem named_cons_of_ne {name : Bytes} {r : SectionRef} (h : r.name ≠ name)
    (refs : List SectionRef) : named name (r :: refs) = named name refs :=
  List.filter_cons_of_neg (by simpa using h)

theorem named_cons_of_eq {name : Bytes} {r : SectionRef} (h : r.name = name)
    (refs : List SectionRef) : named name (r :: refs) = r :: named name refs :=
  List.filter_cons_of_pos (by simpa using h)

theorem named_split {front back : List SectionRef} {r : SectionRef} :
    named r.name (front ++ r :: back) = named r.name front ++ r :: named r.name back := by
  unfold named
  rw [List.filter_append, List.filter_cons_of_pos (by simp)]

theorem Leaves.ne_name {ends : Placements} {p' : Linker.Progress} {name : Bytes} {a : UInt32}
    (h : Leaves ends ref p p') (ha : pin ends p.placements name = some a) : ref.name ≠ name := by
  intro e
  rw [← e, h.here] at ha
  cases ha

/-- The sections behind one that is put count from its end if they have its name, and from where they
did if they have not. -/
theorem Puts.count {ends : Placements} {p' : Linker.Progress} {address stop a : UInt32} {name : Bytes}
    (h : Puts ends ref address stop p p') (ha : pin ends p.placements name = some a) :
    ∃ a', pin ((ref.name, stop) :: ends) p'.placements name = some a' ∧
      ∀ refs, a'.toNat + span p.objects (named name refs) =
        a.toNat + span p.objects (named name (ref :: refs)) := by
  by_cases hname : ref.name = name
  · rw [← hname, h.here] at ha
    cases ha
    refine ⟨stop, by rw [h.next, if_pos hname.symm], fun refs => ?_⟩
    rw [named_cons_of_eq hname, span_cons, h.reach]
    omega
  · refine ⟨a, by rw [h.next, if_neg fun e => hname e.symm, ha], fun refs => ?_⟩
    rw [named_cons_of_ne hname]

theorem Puts.counted {ends : Placements} {p' : Linker.Progress} {address stop a' : UInt32}
    {name : Bytes} (h : Puts ends ref address stop p p')
    (ha' : pin ((ref.name, stop) :: ends) p'.placements name = some a') :
    ∃ a, pin ends p.placements name = some a ∧ ∀ refs, a'.toNat + span p.objects (named name refs) =
      a.toNat + span p.objects (named name (ref :: refs)) := by
  obtain ⟨a, ha⟩ : ∃ a, pin ends p.placements name = some a := by
    rw [h.next] at ha'
    split at ha'
    · next e => exact ⟨address, e ▸ h.here⟩
    · exact ⟨a', ha'⟩
  obtain ⟨_, ha'', hcount⟩ := h.count ha
  rw [ha'] at ha''
  cases ha''
  exact ⟨a, ha, hcount⟩

/-- Sections have been put behind the sections of their name before them, from where `pin` says
on. -/
structure PlacesNamed (pin : Bytes → Option UInt32) (refs : List SectionRef)
    (p q : Linker.Progress) : Prop where
  moves : Moves p q
  others : ∀ r, r ∉ refs ∨ pin r.name = none → locationAt q.objects r = locationAt p.objects r
  placed : ∀ front r back a, refs = front ++ r :: back → pin r.name = some a →
    locationAt q.objects r = a.toNat + span p.objects (named r.name front) ∧
      locationAt q.objects r + lengthAt p.objects r ≤ 2 ^ 32 - 1

theorem PlacesNamed.later {ends : Placements} {refs : List SectionRef} {p' : Linker.Progress}
    (hleaves : Leaves ends ref p p') (h : PlacesNamed (pin ends p.placements) refs p' q) :
    PlacesNamed (pin ends p.placements) (ref :: refs) p q := by
  refine ⟨hleaves.moves.trans h.moves, fun r hr => ?_, fun front r back a e ha => ?_⟩
  · rw [h.others r ?_, hleaves.location]
    exact hr.imp_left fun hr hmem => hr (List.mem_cons_of_mem _ hmem)
  · have hne := hleaves.ne_name ha
    cases front with
    | nil =>
      cases e
      exact absurd rfl hne
    | cons first front =>
      cases e
      have hp := h.placed front r back a rfl ha
      rw [lengthAt_of_agree hleaves.moves.objects, span_of_agree hleaves.moves.objects] at hp
      rw [named_cons_of_ne hne]
      exact hp

theorem PlacesNamed.first {ends : Placements} {refs : List SectionRef} {address stop : UInt32}
    {p' : Linker.Progress} (hputs : Puts ends ref address stop p p') (hnew : ref ∉ refs)
    (h : PlacesNamed (pin ((ref.name, stop) :: ends) p'.placements) refs p' q) :
    PlacesNamed (pin ends p.placements) (ref :: refs) p q := by
  refine ⟨hputs.moves.trans h.moves, fun r hr => ?_, fun front r back a e ha => ?_⟩
  · have hne : r ≠ ref := by
      intro e
      rw [e] at hr
      obtain hr | hr := hr
      · exact hr (List.mem_cons_self ..)
      · rw [hputs.here] at hr
        cases hr
    rw [h.others r ?_, hputs.location, if_neg hne]
    obtain hr | hr := hr
    · exact .inl fun hmem => hr (List.mem_cons_of_mem _ hmem)
    · right
      rw [hputs.next, if_neg ?_, hr]
      intro e
      rw [e, hputs.here] at hr
      cases hr
  · obtain ⟨a', ha', hcount⟩ := hputs.count ha
    cases front with
    | nil =>
      cases e
      rw [hputs.here] at ha
      cases ha
      rw [h.others ref (.inl hnew), hputs.location, if_pos rfl, ← hputs.reach]
      exact ⟨by simp [named], hputs.fits⟩
    | cons first front =>
      cases e
      have hp := h.placed front r back a' rfl ha'
      rw [lengthAt_of_agree hputs.moves.objects, span_of_agree hputs.moves.objects, hcount] at hp
      exact hp

theorem runs_placeNamed {ends : Placements} {top top' : UInt32} {others rest refs : List SectionRef}
    (hnodup : refs.Nodup) (hthere : ∀ r ∈ refs, (sectionAt p.objects r).isSome = true)
    (h : Runs (placeNamed ends top others refs) p (top', rest) q) :
    rest = others.reverse ++ refs.filter (fun r => (pin ends p.placements r.name).isNone) ∧
      PlacesNamed (pin ends p.placements) refs p q := by
  induction refs generalizing ends top others p with
  | nil =>
    simp only [placeNamed, runs_pure, Prod.mk.injEq] at h
    obtain ⟨⟨-, rfl⟩, rfl⟩ := h
    refine ⟨by simp, .refl _, fun _ _ => rfl, ?_⟩
    intro front r back a e
    simp at e
  | cons ref refs ih =>
    obtain ⟨hnew, hnodup⟩ := List.nodup_cons.mp hnodup
    obtain ⟨p', hleaves, e⟩ | ⟨_, -, -, _, _, hfails⟩ | ⟨address, stop, p', hputs, e⟩ :=
      placeNamed_cases ends top others refs (hthere ref (List.mem_cons_self ..))
    · rw [Runs, e] at h
      obtain ⟨hrest, hplaces⟩ := ih hnodup (hleaves.moves.there hthere) h
      rw [hleaves.placements] at hrest hplaces
      refine ⟨?_, hplaces.later hleaves⟩
      rw [hrest, List.filter_cons_of_pos (by rw [hleaves.here]; rfl)]
      simp
    · exact absurd h hfails.not_runs
    · rw [Runs, e] at h
      obtain ⟨hrest, hplaces⟩ := ih hnodup (hputs.moves.there hthere) h
      refine ⟨?_, hplaces.first hputs hnew⟩
      rw [hrest, List.filter_cons_of_neg (by rw [hputs.here]; simp)]
      congr 1
      apply List.filter_congr
      intro r _
      rw [hputs.next]
      split
      · next e => rw [e, hputs.here]; rfl
      · rfl

theorem toNat_max_le (a b : UInt32) (x : Nat) : (max a b).toNat ≤ x ↔ a.toNat ≤ x ∧ b.toNat ≤ x := by
  show (if a ≤ b then b else a).toNat ≤ x ↔ _
  split
  · next h =>
    rw [UInt32.le_iff_toNat_le] at h
    omega
  · next h =>
    rw [UInt32.le_iff_toNat_le] at h
    omega

/-- No sections of one name end above `x`, where they are put from where `pin` says on. -/
def Below (pin : Bytes → Option UInt32) (objects : List Object) (refs : List SectionRef) (x : Nat) :
    Prop :=
  ∀ r ∈ refs, ∀ a, pin r.name = some a → a.toNat + span objects (named r.name refs) ≤ x

theorem Leaves.below_iff {ends : Placements} {p' : Linker.Progress} (h : Leaves ends ref p p')
    (refs : List SectionRef) (x : Nat) :
    Below (pin ends p.placements) p.objects (ref :: refs) x ↔
      Below (pin ends p.placements) p.objects refs x := by
  have hskip (r : SectionRef) (a : UInt32) (ha : pin ends p.placements r.name = some a) :
      named r.name (ref :: refs) = named r.name refs := named_cons_of_ne (h.ne_name ha) refs
  constructor
  · intro hall r hr a ha
    rw [← hskip r a ha]
    exact hall r (List.mem_cons_of_mem _ hr) a ha
  · intro hrest r hr a ha
    obtain rfl | hr := List.mem_cons.mp hr
    · exact absurd rfl (h.ne_name ha)
    · rw [hskip r a ha]
      exact hrest r hr a ha

theorem Puts.below_iff {ends : Placements} {p' : Linker.Progress} {address stop : UInt32}
    (h : Puts ends ref address stop p p') (refs : List SectionRef) (x : Nat) :
    Below (pin ends p.placements) p.objects (ref :: refs) x ↔
      stop.toNat ≤ x ∧ Below (pin ((ref.name, stop) :: ends) p'.placements) p.objects refs x := by
  constructor
  · intro hall
    refine ⟨?_, fun r hr a ha => ?_⟩
    · have hfirst := hall ref List.mem_cons_self address h.here
      rw [named_cons_of_eq rfl, span_cons] at hfirst
      have hstop := h.reach
      omega
    · obtain ⟨a₀, ha₀, hcount⟩ := h.counted ha
      rw [hcount]
      exact hall r (List.mem_cons_of_mem _ hr) a₀ ha₀
  · intro hrest r hr a ha
    obtain ⟨a', ha', hcount⟩ := h.count ha
    rw [← hcount]
    by_cases hmem : ∃ r' ∈ refs, r'.name = r.name
    · obtain ⟨r', hr', hname⟩ := hmem
      rw [← hname] at ha' ⊢
      exact hrest.2 r' hr' a' ha'
    · -- the section is the last of its name
      obtain rfl : r = ref := by
        obtain e | hr := List.mem_cons.mp hr
        · exact e
        · exact absurd ⟨r, hr, rfl⟩ hmem
      have hnone : named r.name refs = [] := by
        unfold named
        rw [List.filter_eq_nil_iff]
        intro r' hr' e
        exact hmem ⟨r', hr', eq_of_beq e⟩
      rw [h.next, if_pos rfl] at ha'
      cases ha'
      rw [hnone]
      exact hrest.1

/-- The sections of each name end where the lengths of all of them take it, and `top` is the highest
of these ends. -/
theorem top_le_iff {ends : Placements} {top top' : UInt32} {others rest refs : List SectionRef}
    (hthere : ∀ r ∈ refs, (sectionAt p.objects r).isSome = true)
    (h : Runs (placeNamed ends top others refs) p (top', rest) q) (x : Nat) :
    top'.toNat ≤ x ↔ top.toNat ≤ x ∧ Below (pin ends p.placements) p.objects refs x := by
  induction refs generalizing ends top others p with
  | nil =>
    simp only [placeNamed, runs_pure, Prod.mk.injEq] at h
    rw [h.1.1]
    simp [Below]
  | cons ref refs ih =>
    obtain ⟨p', hleaves, e⟩ | ⟨_, -, -, _, _, hfails⟩ | ⟨address, stop, p', hputs, e⟩ :=
      placeNamed_cases ends top others refs (hthere ref (List.mem_cons_self ..))
    · rw [Runs, e] at h
      rw [ih (hleaves.moves.there hthere) h, hleaves.placements, hleaves.below_iff]
      unfold Below
      rw [span_of_agree hleaves.moves.objects]
    · exact absurd h hfails.not_runs
    · rw [Runs, e] at h
      rw [ih (hputs.moves.there hthere) h, toNat_max_le, and_assoc, hputs.below_iff]
      unfold Below
      rw [span_of_agree hputs.moves.objects]

/-- Placing by name fails at a section that does not fit behind those of its name. -/
theorem fails_placeNamed {ends : Placements} {top : UInt32} {others refs : List SectionRef} {e : Error}
    (hthere : ∀ r ∈ refs, (sectionAt p.objects r).isSome = true)
    (h : Fails (placeNamed ends top others refs) p e q) :
    ∃ front r back a, refs = front ++ r :: back ∧ pin ends p.placements r.name = some a ∧
      2 ^ 32 - 1 < a.toNat + span p.objects (named r.name front) + lengthAt p.objects r := by
  induction refs generalizing ends top others p with
  | nil => exact absurd h fails_pure
  | cons ref refs ih =>
    obtain ⟨p', hleaves, e⟩ | ⟨address, hpin, hlong, -⟩ | ⟨address, stop, p', hputs, e⟩ :=
      placeNamed_cases ends top others refs (hthere ref (List.mem_cons_self ..))
    · rw [Fails, e] at h
      obtain ⟨front, r, back, a, rfl, ha, hlong⟩ := ih (hleaves.moves.there hthere) h
      rw [hleaves.placements] at ha
      rw [span_of_agree hleaves.moves.objects, lengthAt_of_agree hleaves.moves.objects,
        ← named_cons_of_ne (hleaves.ne_name ha)] at hlong
      exact ⟨ref :: front, r, back, a, rfl, ha, hlong⟩
    · exact ⟨[], ref, refs, address, rfl, hpin, by simpa [named] using hlong⟩
    · rw [Fails, e] at h
      obtain ⟨front, r, back, a', rfl, ha', hlong⟩ := ih (hputs.moves.there hthere) h
      obtain ⟨a, ha, hcount⟩ := hputs.counted ha'
      rw [span_of_agree hputs.moves.objects, lengthAt_of_agree hputs.moves.objects, hcount] at hlong
      exact ⟨ref :: front, r, back, a, rfl, ha, hlong⟩

/-! ## The rest -/

theorem runs_placeRest {top : UInt32} {refs : List SectionRef} (hnodup : refs.Nodup)
    (hthere : ∀ r ∈ refs, (sectionAt p.objects r).isSome = true)
    (h : Runs (placeRest top refs) p () q) :
    Moves p q ∧ (∀ r, r ∉ refs → locationAt q.objects r = locationAt p.objects r) ∧
      ∀ front r back, refs = front ++ r :: back →
        locationAt q.objects r = top.toNat + span p.objects front ∧
        locationAt q.objects r + lengthAt p.objects r ≤ 2 ^ 32 - 1 := by
  induction refs generalizing top p with
  | nil =>
    obtain ⟨-, rfl⟩ := runs_pure.mp h
    refine ⟨.refl _, fun _ _ => rfl, fun front r back e => ?_⟩
    simp at e
  | cons ref refs ih =>
    obtain ⟨hnew, hnodup⟩ := List.nodup_cons.mp hnodup
    obtain ⟨stop, p', hplace, h⟩ := runs_bind.mp h
    obtain ⟨hfits, hstop, hmoves, -, hlocation⟩ := runs_place (hthere ref (List.mem_cons_self ..)) hplace
    obtain ⟨hmoves', hothers, hplaced⟩ := ih hnodup (hmoves.there hthere) h
    rw [lengthAt_of_agree hmoves.objects, span_of_agree hmoves.objects] at hplaced
    refine ⟨hmoves.trans hmoves', fun r hr => ?_, fun front r back e => ?_⟩
    · rw [List.mem_cons, not_or] at hr
      rw [hothers r hr.2, hlocation, if_neg hr.1]
    · cases front with
      | nil =>
        cases e
        rw [hothers ref hnew, hlocation, if_pos rfl]
        exact ⟨by simp, by omega⟩
      | cons first front =>
        cases e
        obtain ⟨hat, hend⟩ := hplaced front r back rfl
        refine ⟨?_, hend⟩
        rw [hat, hstop, span_cons]
        omega

theorem fails_placeRest {top : UInt32} {refs : List SectionRef} {e : Error}
    (hthere : ∀ r ∈ refs, (sectionAt p.objects r).isSome = true)
    (h : Fails (placeRest top refs) p e q) :
    ∃ front r back, refs = front ++ r :: back ∧
      2 ^ 32 - 1 < top.toNat + span p.objects front + lengthAt p.objects r := by
  induction refs generalizing top p with
  | nil => exact absurd h fails_pure
  | cons ref refs ih =>
    obtain ⟨hlong, -⟩ | ⟨stop, p', hplace, hplaced⟩ :=
      place_cases (hthere ref (List.mem_cons_self ..)) top
    · exact ⟨[], ref, refs, rfl, hlong⟩
    · rw [Fails, placeRest, hplace.outcome_bind] at h
      obtain ⟨front, r, back, rfl, hlong⟩ := ih (hplaced.moves.there hthere) h
      rw [span_of_agree hplaced.moves.objects, lengthAt_of_agree hplaced.moves.objects,
        hplaced.stop] at hlong
      refine ⟨ref :: front, r, back, rfl, ?_⟩
      rw [span_cons]
      omega

theorem nodup_eraseDups {α : Type} [BEq α] [LawfulBEq α] (l : List α) : l.eraseDups.Nodup := by
  induction hn : l.length using Nat.strongRecOn generalizing l with
  | ind n ih =>
    cases l with
    | nil => simp
    | cons a l =>
      rw [List.eraseDups_cons, List.nodup_cons]
      constructor
      · rw [List.mem_eraseDups]
        simp
      · refine ih _ ?_ _ rfl
        have hle := List.length_filter_le (fun b => !b == a) l
        rw [List.length_cons] at hn
        omega

theorem mem_grouped {refs : List SectionRef} : ref ∈ grouped refs ↔ ref ∈ refs := by
  unfold grouped
  simp only [List.mem_flatMap, List.mem_eraseDups, List.mem_map, List.mem_filter, beq_iff_eq]
  constructor
  · rintro ⟨_, -, h, -⟩
    exact h
  · intro h
    exact ⟨ref.name, ⟨ref, h, rfl⟩, h, rfl⟩

theorem nodup_grouped {refs : List SectionRef} (h : refs.Nodup) : (grouped refs).Nodup := by
  unfold grouped
  rw [List.nodup_flatMap]
  refine ⟨fun name _ => h.filter _, ?_⟩
  refine (nodup_eraseDups _).imp fun {a b} hne => ?_
  intro r ha hb
  have ha' := (List.mem_filter.mp ha).2
  have hb' := (List.mem_filter.mp hb).2
  rw [beq_iff_eq] at ha' hb'
  exact hne (ha'.symm.trans hb')

theorem runs_records {names : List Bytes} {event : Bytes → Event}
    (h : Runs (forM names fun name => record (event name)) p () q) :
    q = { p with log := q.log } := by
  refine runs_forM_rel (R := fun p q : Linker.Progress => q = { p with log := q.log })
    (fun _ => rfl) (fun h h' => ?_) (fun name _ p q h => ?_) h
  · rw [h', h]
  · rw [runs_record.mp h]

theorem moves_records {names : List Bytes} {event : Bytes → Event}
    (h : Runs (forM names fun name => record (event name)) p () q) : Moves p q := by
  rw [runs_records h]
  exact ⟨rfl, .refl _ _⟩

/-! ## All sections -/

/-- Behind the sections with a placement, and nowhere further up. -/
def Behind (placements : Placements) (refs : List SectionRef) (objects : List Object) (top : Nat) :
    Prop :=
  ∀ x, top ≤ x ↔ ∀ r ∈ refs, ∀ a, placements.lookup r.name = some a →
    a.toNat + span objects (named r.name refs) ≤ x

/-- The sections without a placement, in the order in which they are put. -/
def loose (placements : Placements) (refs : List SectionRef) : List SectionRef :=
  grouped (refs.filter fun r => (placements.lookup r.name).isNone)

theorem mem_loose {placements : Placements} {refs : List SectionRef} :
    ref ∈ loose placements refs ↔ ref ∈ refs ∧ placements.lookup ref.name = none := by
  rw [loose, mem_grouped, List.mem_filter, Option.isNone_iff_eq_none]

/-- Where the sections are put that are listed, under the given placements. -/
structure Formed (placements : Placements) (refs : List SectionRef) (objects objects' : List Object) :
    Prop where
  fits : ∀ r ∈ refs, locationAt objects' r + lengthAt objects r ≤ 2 ^ 32 - 1
  pinned : ∀ front r back a, refs = front ++ r :: back → placements.lookup r.name = some a →
    locationAt objects' r = a.toNat + span objects (named r.name front)
  rest : ∃ top, Behind placements refs objects top ∧
    ∀ front r back, loose placements refs = front ++ r :: back →
      locationAt objects' r = top + span objects front

/-- What is left when the sections with a placement are in place, at `top` and above it. -/
structure PlacesPinned (placements : Placements) (refs : List SectionRef) (top : UInt32)
    (others : List SectionRef) (p q : Linker.Progress) : Prop where
  others : grouped others = loose placements refs
  behind : Behind placements refs p.objects top.toNat
  named : PlacesNamed (fun n => placements.lookup n) refs p q

theorem runs_placePinned {top : UInt32} {others refs : List SectionRef} (hnodup : refs.Nodup)
    (hthere : ∀ r ∈ refs, (sectionAt p.objects r).isSome = true)
    (h : Runs (placeNamed [] 0 [] refs) p (top, others) q) :
    PlacesPinned p.placements refs top others p q := by
  obtain ⟨hothers, hplaces⟩ := runs_placeNamed hnodup hthere h
  refine ⟨?_, fun x => ?_, hplaces⟩
  · rw [hothers]
    rfl
  · rw [top_le_iff hthere h]
    exact and_iff_right (Nat.zero_le x)

theorem runs_formSections {refs : List SectionRef} (hnodup : p.occurrences.Nodup)
    (hthere : ∀ r ∈ p.occurrences, (sectionAt p.objects r).isSome = true)
    (h : Runs formSections p refs q) :
    Moves p q ∧ Formed p.placements p.occurrences p.objects q.objects ∧
      refs = Ordered.sort (fun a b => q.location a ≤ q.location b) p.occurrences := by
  simp only [formSections, runs_bind, runs_get] at h
  obtain ⟨_, p, ⟨rfl, rfl⟩, ⟨top, others⟩, _, hnamed, _, p₁, ⟨rfl, rfl⟩, _, p₂, hrecord, _, p₃,
    hrest, _, _, ⟨rfl, rfl⟩, h⟩ := h
  obtain ⟨rfl, rfl⟩ := runs_pure.mp h
  have hpinned := runs_placePinned hnodup hthere hnamed
  have hmoves : Moves p p₂ := hpinned.named.moves.trans (moves_records hrecord)
  have hobj : p₂.objects = p₁.objects := by rw [runs_records hrecord]
  have hloose : grouped others = loose p.placements p.occurrences := hpinned.others
  obtain ⟨hmoves', hkept, hrest⟩ := runs_placeRest
    (hloose ▸ nodup_grouped (hnodup.filter _))
    (fun r hr => (isSome_of_agree hmoves.objects r).trans
      (hthere r (mem_loose.mp (hloose ▸ hr)).1)) hrest
  rw [lengthAt_of_agree hmoves.objects, span_of_agree hmoves.objects, hloose] at hrest
  have hplaced {front back : List SectionRef} {r : SectionRef} {a : UInt32}
      (e : p.occurrences = front ++ r :: back) (ha : p.placements.lookup r.name = some a) :
      locationAt q.objects r = a.toNat + span p.objects (named r.name front) ∧
        locationAt q.objects r + lengthAt p.objects r ≤ 2 ^ 32 - 1 := by
    have hr : r ∉ grouped others := by
      rw [hloose, mem_loose, ha]
      simp
    rw [hkept r hr, hobj]
    exact hpinned.named.placed front r back a e ha
  refine ⟨hmoves.trans hmoves', ⟨fun r hr => ?_, ?_, top.toNat, hpinned.behind, ?_⟩, rfl⟩
  · rcases ha : p.placements.lookup r.name with _ | a
    · obtain ⟨front, back, e⟩ := List.append_of_mem (mem_loose.mpr ⟨hr, ha⟩)
      exact (hrest front r back e).2
    · obtain ⟨front, back, e⟩ := List.append_of_mem hr
      exact (hplaced e ha).2
  · intro front r back a e ha
    exact (hplaced e ha).1
  · intro front r back e
    exact (hrest front r back e).1

/-- Sections are formed unless one of them does not fit where it has to go. -/
theorem fails_formSections {e : Error} (hnodup : p.occurrences.Nodup)
    (hthere : ∀ r ∈ p.occurrences, (sectionAt p.objects r).isSome = true)
    (h : Fails formSections p e q) :
    (∃ front r back a, p.occurrences = front ++ r :: back ∧ p.placements.lookup r.name = some a ∧
      2 ^ 32 - 1 < a.toNat + span p.objects (named r.name front) + lengthAt p.objects r) ∨
    ∃ top, Behind p.placements p.occurrences p.objects top ∧
      ∃ front r back, loose p.placements p.occurrences = front ++ r :: back ∧
        2 ^ 32 - 1 < top + span p.objects front + lengthAt p.objects r := by
  simp only [formSections, fails_bind, fails_get, runs_get, false_or] at h
  obtain ⟨_, p, ⟨rfl, rfl⟩, h⟩ := h
  obtain h | ⟨⟨top, others⟩, p₁, hnamed, _, _, ⟨rfl, rfl⟩, h⟩ := h
  · exact .inl (fails_placeNamed hthere h)
  · obtain h | ⟨_, p₂, hrecord, h⟩ := h
    · obtain ⟨_, _, _, _, -, -, h⟩ := fails_forM h
      exact absurd h fails_record
    · have hpinned := runs_placePinned hnodup hthere hnamed
      have hmoves : Moves p p₂ := hpinned.named.moves.trans (moves_records hrecord)
      have hloose : grouped others = loose p.placements p.occurrences := hpinned.others
      have hrest : Fails (placeRest top (grouped others)) p₂ e q := by
        simpa only [fails_pure, and_false, exists_false, or_false] using h
      obtain ⟨front, r, back, e, hlong⟩ := fails_placeRest (fun r hr =>
        (isSome_of_agree hmoves.objects r).trans (hthere r (mem_loose.mp (hloose ▸ hr)).1)) hrest
      rw [lengthAt_of_agree hmoves.objects, span_of_agree hmoves.objects] at hlong
      exact .inr ⟨top.toNat, hpinned.behind, front, r, back, hloose ▸ e, hlong⟩

theorem two_of_mem {α : Type} {l : List α} {a b : α} (ha : a ∈ l) (hb : b ∈ l) (hne : a ≠ b) :
    (∃ front mid back, l = front ++ a :: mid ++ b :: back) ∨
      ∃ front mid back, l = front ++ b :: mid ++ a :: back := by
  obtain ⟨front, back, rfl⟩ := List.append_of_mem ha
  rcases List.mem_append.mp hb with hb | hb
  · obtain ⟨front', mid, rfl⟩ := List.append_of_mem hb
    exact .inr ⟨front', mid, back, rfl⟩
  · rcases List.mem_cons.mp hb with hb | hb
    · exact absurd hb.symm hne
    · obtain ⟨mid, back', rfl⟩ := List.append_of_mem hb
      refine .inl ⟨front, mid, back', ?_⟩
      simp

section

variable {placements : Placements} {refs : List SectionRef} {objects objects' : List Object}
  {a b : SectionRef}

/-- Of two sections without a placement, one is put behind the other. -/
theorem Formed.stacked (h : Formed placements refs objects objects') (ha : a ∈ loose placements refs)
    (hb : b ∈ loose placements refs) (hne : a ≠ b) :
    locationAt objects' a + lengthAt objects a ≤ locationAt objects' b ∨
      locationAt objects' b + lengthAt objects b ≤ locationAt objects' a := by
  obtain ⟨top, -, hrest⟩ := h.rest
  have order {a b : SectionRef} {front mid back : List SectionRef}
      (e : loose placements refs = front ++ a :: mid ++ b :: back) :
      locationAt objects' a + lengthAt objects a ≤ locationAt objects' b := by
    have hb := hrest _ b back e
    rw [List.append_assoc, List.cons_append] at e
    have ha := hrest _ a _ e
    rw [ha, hb, span_append, span_cons]
    omega
  rcases two_of_mem ha hb hne with ⟨_, _, _, e⟩ | ⟨_, _, _, e⟩
  · exact .inl (order e)
  · exact .inr (order e)

/-- A section without a placement is put behind every section with one. -/
theorem Formed.behind_pinned (h : Formed placements refs objects objects')
    (ha : a ∈ loose placements refs) (hb : b ∈ refs) {address : UInt32}
    (hpin : placements.lookup b.name = some address) :
    locationAt objects' b + lengthAt objects b ≤ locationAt objects' a := by
  obtain ⟨top, htop, hrest⟩ := h.rest
  obtain ⟨before, after, hloose⟩ := List.append_of_mem ha
  obtain ⟨front, back, e⟩ := List.append_of_mem hb
  have hbelow := (htop top).mp (Nat.le_refl top) b hb address hpin
  rw [e, named_split, span_append, span_cons] at hbelow
  rw [hrest before a after hloose, h.pinned front b back address e hpin]
  omega

/-- Of two sections of one name, one is put behind the other. -/
theorem Formed.apart (h : Formed placements refs objects objects') (ha : a ∈ refs) (hb : b ∈ refs)
    (hne : a ≠ b) (hname : a.name = b.name) :
    locationAt objects' a + lengthAt objects a ≤ locationAt objects' b ∨
      locationAt objects' b + lengthAt objects b ≤ locationAt objects' a := by
  rcases hpin : placements.lookup a.name with _ | address
  · exact h.stacked (mem_loose.mpr ⟨ha, hpin⟩) (mem_loose.mpr ⟨hb, hname ▸ hpin⟩) hne
  · have order {a b : SectionRef} {front mid back : List SectionRef} (hname : a.name = b.name)
        (hpin : placements.lookup a.name = some address)
        (e : refs = front ++ a :: mid ++ b :: back) :
        locationAt objects' a + lengthAt objects a ≤ locationAt objects' b := by
      have hb := h.pinned _ b back address e (hname ▸ hpin)
      rw [List.append_assoc, List.cons_append] at e
      have ha := h.pinned _ a _ address e hpin
      rw [ha, hb, ← hname, named_split, span_append, span_cons]
      omega
    rcases two_of_mem ha hb hne with ⟨_, _, _, e⟩ | ⟨_, _, _, e⟩
    · exact .inl (order hname hpin e)
    · exact .inr (order hname.symm (hname ▸ hpin) e)

end

end Linker

end AsmKit
