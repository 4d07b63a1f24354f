import AsmKit.Linker.Generate
import AsmKit.Proofs.Overwriting

/-
  Filling in addresses a second time. Which relocations are carried out, and what is wrong with the
  first that is not, does not depend on what is in the sections (`wordOf_of_alike`). So it is settled
  when the first of them is carried out, and all come to a sequence of words that are put in one after
  the other (`run_relocate`). This holds for linkers in any state: relocations may overlap or not fit,
  and an object may be linked many times.
-/

namespace AsmKit

namespace Linker

variable {l : Linker} {objects : List Object}

/-! ## What decides about a relocation -/

theorem fileName_of_alike (h : Alike l.objects objects) (n : Nat) :
    ({ l with objects } : Linker).fileName n = l.fileName n := by
  unfold fileName
  dsimp only
  rcases hobj : l.objects[n]? with _ | obj
  · rw [h.getElem?_eq_none hobj]
  · obtain ⟨obj', hobj', hname, -⟩ := h.getElem? hobj
    rw [hobj', Option.map_some, Option.map_some, hname]

theorem patches_of_alike (h : Alike l.objects objects) :
    ({ l with objects } : Linker).patches = l.patches := by
  unfold patches linkedObjects
  dsimp only
  generalize l.inputs = inputs
  induction inputs with
  | nil => rfl
  | cons n inputs ih =>
    rw [List.filterMap_cons, List.filterMap_cons]
    rcases hobj : l.objects[n]? with _ | obj
    · rw [h.getElem?_eq_none hobj]
      exact ih
    · obtain ⟨obj', hobj', -, -, hrelocations⟩ := h.getElem? hobj
      rw [hobj']
      simp only [Option.map_some, List.flatMap_cons, ih, hrelocations]

/-- Addresses depend on where sections are, not on what is in them. -/
theorem resolve_of_alike (h : Alike l.objects objects) {n : Nat} {obj obj' : Object}
    (hobj : l.objects[n]? = some obj) (hobj' : objects[n]? = some obj') (name : Bytes) :
    ({ l with objects } : Linker).resolve obj' name = l.resolve obj name := by
  obtain ⟨obj'', hobj'', -, hsymbols, -⟩ := h.getElem? hobj
  rw [hobj'] at hobj''
  cases hobj''
  unfold resolve
  rw [hsymbols]
  rcases (obj.symbols.get? name).filter Symbol.isDefined with _ | sym
  · dsimp only
    rcases (l.symbols.get? name).filter Symbol.isDefined with _ | sym
    · rfl
    · dsimp only [owner]
      rcases l.index.lookup (sym.sectionName, sym.file) with _ | ref
      · rfl
      · rcases hs : sectionAt l.objects ref with _ | s
        · have hs' := h.sectionAt_eq_none hs
          unfold sectionAt at hs hs'
          simp only [Option.bind_some, findSection, hs, hs']
        · obtain ⟨s', hs', -, hlocation, -⟩ := h.exists_section hs
          unfold sectionAt at hs hs'
          simp only [Option.bind_some, findSection, hs, hs', hlocation]
  · dsimp only
    have hown : sectionAt l.objects ⟨n, sym.sectionName⟩ = obj.findSection sym.sectionName :=
      sectionAt_eq hobj
    have hown' : sectionAt objects ⟨n, sym.sectionName⟩ = obj'.findSection sym.sectionName :=
      sectionAt_eq hobj'
    rcases hs : sectionAt l.objects ⟨n, sym.sectionName⟩ with _ | s
    · rw [← hown, ← hown', hs, h.sectionAt_eq_none hs]
    · obtain ⟨s', hs', -, hlocation, -⟩ := h.exists_section hs
      rw [← hown, ← hown', hs, hs']
      simp only [hlocation]

/-- What a relocation comes to: the word to put in, or what is wrong with it. -/
def wordOf (l : Linker) (x : Patch) : Except Error UInt32 :=
  match l.objects[x.object]?, sectionAt l.objects x.ref with
  | some obj, some target =>
    match l.resolve obj x.relocation.symbol with
    | .error e => .error e
    | .ok address =>
      if x.offset + 4 ≤ target.code.length then .ok address
      else .error (.because { kind := .malformedObject, name := x.relocation.symbol }
        (.plain (.patchPastEnd x.relocation.location target.name target.code.length)))
  | _, _ => .error (.about .malformedObject x.relocation.sectionName)

theorem wordOf_of_alike (h : Alike l.objects objects) (x : Patch) :
    ({ l with objects } : Linker).wordOf x = l.wordOf x := by
  unfold wordOf
  dsimp only
  rcases hobj : l.objects[x.object]? with _ | obj
  · rw [h.getElem?_eq_none hobj]
  · obtain ⟨obj', hobj', -⟩ := h.getElem? hobj
    rw [hobj']
    rcases hs : sectionAt l.objects x.ref with _ | s
    · rw [h.sectionAt_eq_none hs]
    · obtain ⟨s', hs', hname, -, hlength⟩ := h.exists_section hs
      rw [hs']
      simp only [resolve_of_alike h hobj hobj', hname, hlength]

/-! ## Carrying out relocations -/

variable {p : Progress}

/-- What is noted of a word that was put in. -/
def noted (l : Linker) (f : Filling) : Event :=
  .relocated (l.fileName f.object) f.relocation.sectionName f.relocation.location f.relocation.symbol
    f.word f.relocation.type

/-- A relocation is carried out, or left with everything as it was, by what it comes to. -/
theorem relocateOne_cases {x : Patch} (hx : x.object < p.objects.length) :
    (∃ w, p.toLinker.wordOf x = .ok w ∧ Runs (relocateOne x.object x.relocation) p () { p with
      objects := Filling.apply ⟨x, w⟩ p.objects
      log := p.log ++ [p.toLinker.noted ⟨x, w⟩] }) ∨
    ∃ e, p.toLinker.wordOf x = .error e ∧ Fails (relocateOne x.object x.relocation) p e p := by
  have hobj := List.getElem?_eq_getElem hx
  generalize p.objects[x.object] = obj at hobj
  have hat : sectionAt p.objects x.ref = obj.findSection x.relocation.sectionName := sectionAt_eq hobj
  unfold Runs Fails relocateOne wordOf
  rw [(runs_get.mpr ⟨rfl, rfl⟩).outcome_bind]
  dsimp only
  rw [hobj, hat]
  dsimp only
  rcases hs : obj.findSection x.relocation.sectionName with _ | target
  · exact .inr ⟨_, rfl, rfl⟩
  dsimp only
  rcases ha : p.resolve obj x.relocation.symbol with e | address
  · exact .inr ⟨_, rfl, rfl⟩
  dsimp only
  rw [(runs_liftExcept.mpr ⟨rfl, rfl⟩).outcome_bind]
  by_cases hfits : x.offset + 4 ≤ target.code.length
  · have hwrite : Filling.write ⟨x, address⟩ target =
        { target with code := target.code.patched x.offset address } := by
      unfold Filling.write Bytes.overwritten
      rw [if_pos hfits]
    have hname : p.fileName x.object = obj.name := by
      unfold fileName
      rw [hobj]
      rfl
    refine .inl ⟨address, if_pos hfits, ?_⟩
    rw [Section.patch_eq_ok_iff.mpr ⟨hfits, rfl⟩]
    dsimp only
    rw [(runs_modifySection (u := ()).mpr rfl).outcome_bind, Filling.apply_of_some (hat.trans hs), hwrite,
      noted, hname]
    rfl
  · have hpatch : target.patch x.relocation.location address = .error
        (.plain (.patchPastEnd x.relocation.location target.name target.code.length)) := by
      unfold Section.patch
      exact if_pos (Nat.lt_of_not_le hfits)
    rw [hpatch]
    exact .inr ⟨_, if_neg hfits, rfl⟩

/-- The words that are put in for relocations: for all those in front of the first with which
something is wrong. -/
def fillings (l : Linker) : List Patch → List Filling
  | [] => []
  | x :: xs =>
    match l.wordOf x with
    | .ok w => ⟨x, w⟩ :: l.fillings xs
    | .error _ => []

/-- What is wrong with the first of some relocations with which something is. -/
def verdict (l : Linker) : List Patch → Except Error Unit
  | [] => .ok ()
  | x :: xs =>
    match l.wordOf x with
    | .ok _ => l.verdict xs
    | .error e => .error (e.inFile (l.fileName x.object))

/-- A loop whose errors name a file is a loop of steps whose errors do. -/
theorem inFile_forM {α : Type} (file : Bytes) (step : α → Linking Unit) (xs : List α) :
    inFile file (xs.forM step) = xs.forM fun x => inFile file (step x) := by
  funext p
  show outcome (inFile file (forM xs step)) p = outcome (forM xs fun x => inFile file (step x)) p
  induction xs generalizing p with
  | nil => rfl
  | cons x xs ih =>
    unfold inFile at ih ⊢
    rw [List.forM_cons, List.forM_cons, outcome_tryCatch, outcome_bind, outcome_bind,
      outcome_tryCatch]
    rcases outcome (step x) p with ⟨e | ⟨⟩, q⟩
    · rfl
    · dsimp only
      rw [← ih, outcome_tryCatch]

/-- One relocation, with its file named if something is wrong. -/
def carryOut (l : Linker) (x : Patch) : Linking Unit :=
  inFile (l.fileName x.object) (relocateOne x.object x.relocation)

theorem outcome_relocate_eq_forM (p : Progress) :
    outcome relocate p = outcome (forM p.patches p.carryOut) p := by
  have hloop : ∀ os ⊆ p.linkedObjects, (forM os fun o =>
      inFile o.2.name (o.2.relocations.entries.forM (relocateOne o.1))) =
      forM (os.flatMap fun o => o.2.relocations.entries.map (Patch.mk o.1)) p.carryOut := by
    intro os hos
    induction os with
    | nil => rfl
    | cons o os ih =>
      obtain ⟨hobj, hos⟩ := List.cons_subset.mp hos
      have hname : p.fileName o.1 = o.2.name := by
        unfold fileName
        rw [(mem_linkedObjects.mp hobj).2]
        rfl
      rw [List.forM_cons, List.flatMap_cons, List.forM_append, ih hos, List.forM_map, inFile_forM,
        ← hname]
      rfl
  unfold relocate
  rw [(runs_get.mpr ⟨rfl, rfl⟩).outcome_bind]
  exact congrArg (outcome · p) (hloop p.linkedObjects (List.Subset.refl _))

/-- Relocations are carried out by what the linker they start from says of them, since it says the
same in between. -/
theorem outcome_forM_carryOut {xs : List Patch} (hxs : ∀ x ∈ xs, x.object < l.objects.length)
    (hp : p.toLinker = { l with objects := p.objects }) (halike : Alike l.objects p.objects) :
    outcome (forM xs l.carryOut) p = (l.verdict xs, { p with
      objects := Filling.applyAll (l.fillings xs) p.objects
      log := p.log ++ (l.fillings xs).map l.noted }) := by
  induction xs generalizing p with
  | nil =>
    show (Except.ok (), p) = (Except.ok (), { p with objects := p.objects, log := p.log ++ [] })
    rw [List.append_nil]
  | cons x xs ih =>
    obtain ⟨hx, hxs⟩ := List.forall_mem_cons.mp hxs
    have hword : p.toLinker.wordOf x = l.wordOf x := by
      rw [hp]
      exact wordOf_of_alike halike x
    have hnoted (f : Filling) : p.toLinker.noted f = l.noted f := by
      unfold noted
      rw [hp, fileName_of_alike halike]
    rw [List.forM_cons]
    unfold fillings verdict
    obtain ⟨w, hw, hruns⟩ | ⟨e, he, hfails⟩ := relocateOne_cases (halike.lt_length hx)
    · rw [hword] at hw
      have hcarried : Runs (l.carryOut x) p () _ := runs_tryCatch_throw.mpr hruns
      rw [hcarried.outcome_bind, hw, ih hxs ?_ (halike.trans (Filling.alike_apply _ _))]
      · dsimp only
        rw [hnoted, List.append_assoc, List.map_cons, List.singleton_append]
        rfl
      · dsimp only
        rw [hp]
    · rw [hword] at he
      have hrefused : Fails (l.carryOut x) p _ p := fails_tryCatch_throw.mpr ⟨e, hfails, rfl⟩
      rw [he]
      dsimp only
      rw [List.map_nil, List.append_nil]
      exact fails_bind.mpr (.inl hrefused)

/-- What comes of filling in addresses, and what is left behind. -/
theorem run_relocate (l : Linker) : l.run relocate =
    ⟨{ l with objects := Filling.applyAll (l.fillings l.patches) l.objects }, l.verdict l.patches,
      (l.fillings l.patches).map l.noted⟩ := by
  have hxs : ∀ x ∈ l.patches, x.object < l.objects.length := by
    intro x hx
    obtain ⟨-, obj, hobj, -⟩ := mem_patches.mp hx
    exact (List.getElem?_eq_some_iff.mp hobj).1
  have hdone := (outcome_relocate_eq_forM { toLinker := l }).trans
    (outcome_forM_carryOut hxs rfl (.refl _))
  unfold run
  unfold outcome at hdone
  rw [hdone]
  rfl

theorem wordOf_eq_ok {x : Patch} {w : UInt32} (h : l.wordOf x = .ok w) :
    ∃ s, sectionAt l.objects x.ref = some s ∧ x.offset + 4 ≤ s.code.length := by
  unfold wordOf at h
  split at h
  · next s hobj hs =>
    split at h
    · cases h
    · split at h
      · next hfits => exact ⟨s, hs, hfits⟩
      · cases h
  · cases h

theorem of_mem_fillings {xs : List Patch} {f : Filling} (h : f ∈ l.fillings xs) :
    f.toPatch ∈ xs ∧ f.Fits l.objects := by
  induction xs with
  | nil => cases h
  | cons x xs ih =>
    unfold fillings at h
    rcases hw : l.wordOf x with e | w
    · rw [hw] at h
      cases h
    · rw [hw] at h
      obtain rfl | h := List.mem_cons.mp h
      · exact ⟨List.mem_cons_self, wordOf_eq_ok hw⟩
      · exact ⟨List.mem_cons_of_mem x (ih h).1, (ih h).2⟩

/-- What relocations come to depends on everything but the bytes of sections. -/
theorem run_relocate_of_alike {objects : List Object} (h : Alike l.objects objects) :
    ({ l with objects } : Linker).run relocate =
      ⟨{ l with objects := Filling.applyAll (l.fillings l.patches) objects }, l.verdict l.patches,
        (l.fillings l.patches).map l.noted⟩ := by
  have hnoted : ({ l with objects } : Linker).noted = l.noted := by
    funext f
    unfold noted
    rw [fileName_of_alike h]
  have hsame (xs : List Patch) : ({ l with objects } : Linker).fillings xs = l.fillings xs ∧
      ({ l with objects } : Linker).verdict xs = l.verdict xs := by
    induction xs with
    | nil => exact ⟨rfl, rfl⟩
    | cons x xs ih =>
      unfold fillings verdict
      rw [wordOf_of_alike h, fileName_of_alike h, ih.1, ih.2]
      exact ⟨rfl, rfl⟩
  rw [run_relocate, patches_of_alike h, (hsame _).1, (hsame _).2, hnoted]

end Linker

/-- Filling in addresses is idempotent: done a second time it comes to the same, success or error,
notes the same and changes nothing. The first time it changes only bytes of relocations; each of them
is then what the last relocation to reach it put there, of those in front of the first with which
something was wrong. -/
theorem relocating_is_idempotent (l : Linker) :
    (l.run Linker.relocate).linker.run Linker.relocate = l.run Linker.relocate ∧
    ∃ objects, (l.run Linker.relocate).linker = { l with objects } ∧ Alike l.objects objects ∧
      ∀ ref i,
        (byteAt objects ref i = byteAt l.objects ref i ∨ ∃ x ∈ l.patches, x.Covers ref i) ∧
        byteAt objects ref i =
          (Filling.lastByte? (l.fillings l.patches) ref i).or (byteAt l.objects ref i) := by
  have halike := Filling.alike_applyAll (l.fillings l.patches) l.objects
  rw [Linker.run_relocate l]
  refine ⟨?_, _, rfl, halike, fun ref i => ?_⟩
  · rw [Linker.run_relocate_of_alike halike, Filling.applyAll_again]
  · have hfits : ∀ f ∈ l.fillings l.patches, f.Fits l.objects :=
      fun f hf => (Linker.of_mem_fillings hf).2
    have hbyte := Filling.byteAt_applyAll hfits ref i
    refine ⟨?_, hbyte⟩
    rcases hlast : Filling.lastByte? (l.fillings l.patches) ref i with _ | b
    · rw [hlast, Option.none_or] at hbyte
      exact .inl hbyte
    · obtain ⟨f, hf, hcovers⟩ := Filling.covers_of_lastByte? hlast
      exact .inr ⟨f.toPatch, (Linker.of_mem_fillings hf).1, hcovers⟩

/-- An object that is linked twice. Two of its relocations overlap, the third is of a symbol that
nobody defines. -/
def overlapping : Linker where
  objects := [{
    name := text "a.o"
    symbols := { entries := [⟨text "a", text "t", 1, false, false, 0, -1, true, []⟩,
      ⟨text "b", text "t", 2, false, false, 1, -1, true, []⟩] }
    relocations := { entries := [⟨text "a", .symbol, 0, text "t"⟩, ⟨text "b", .symbol, 2, text "t"⟩,
      ⟨text "c", .symbol, 4, text "t"⟩] }
    sections := [{ name := text "t", code := List.replicate 8 0xAA, location := 16 }] }]
  inputs := [0, 0]

example : (overlapping.run Linker.relocate).result.toOption = none ∧
    byteAt (overlapping.run Linker.relocate).linker.objects ⟨0, text "t"⟩ 3 = some 0 ∧
    byteAt (overlapping.run Linker.relocate).linker.objects ⟨0, text "t"⟩ 5 = some 18 ∧
    byteAt (overlapping.run Linker.relocate).linker.objects ⟨0, text "t"⟩ 6 = some 0xAA := by
  decide +kernel

end AsmKit
