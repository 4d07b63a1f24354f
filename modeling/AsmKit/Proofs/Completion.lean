import AsmKit.Proofs.LinkedMemory
import AsmKit.Proofs.Resolution

/-
  Linking fails before it changes a byte, or not at all. Merging and the check for unresolved
  symbols change no object, and placing sections changes only where they are (`observes_formSections`).
  What is left is to fill in addresses. An assembled object has the bytes of each of its relocations,
  and a symbol it refers to is its own or shared, so that it has been resolved by then: every
  relocation can be carried out (`Arranged.relocatable`), and still can after others have been
  (`Relocatable.of_agree`).
-/

namespace AsmKit

namespace Linker

variable {p q s m f d : Progress} {objects : List Object} {placements : Placements}
  {refs : List SectionRef} {ref : SectionRef} {E : Error → Prop} {tree : IntervalTree Span}

/-! ## Placing sections -/

theorem observes_moves_bind {α β : Type} {stage : Linking α} {next : α → Linking β}
    (h : Observes Moves E stage) (hnext : ∀ a, Observes Moves E (next a)) :
    Observes Moves E (stage >>= next) :=
  h.bind (fun _ _ _ hst htu => hst.trans htu) hnext

theorem observes_record (event : Event) : Observes Moves E (record event) :=
  observes_modify fun _ => ⟨rfl, .refl _ _⟩

theorem observes_modifySection {g : Section → Section}
    (h : ∀ objects, Agree Section.unplaced objects (updated objects ref g)) :
    Observes Moves E (modifySection ref g) :=
  observes_modify fun p => ⟨rfl, h p.objects⟩

/-- The only reason for which a section cannot be placed is that it does not fit. -/
theorem observes_place (ref : SectionRef) (address : UInt32) :
    Observes Moves (fun e => e.kinds = [.addressOverflow]) (place ref address) := by
  unfold place
  refine observes_moves_bind (observes_get Moves.refl) fun p => ?_
  dsimp only
  split
  · exact observes_throw Moves.refl rfl
  · refine observes_moves_bind (observes_modifySection fun objects => ?_) fun _ =>
      observes_moves_bind (observes_record _) fun _ => observes_pure Moves.refl _
    exact agree_placed objects ref address

theorem observes_takePlacement (ends : Placements) (name : Bytes) :
    Observes Moves E (takePlacement ends name) := by
  refine observes_of_runs (fun p a? q h => ?_) fun p e q h => fails_takePlacement h
  obtain ⟨-, hq, -⟩ := runs_takePlacement h
  rw [hq]
  exact ⟨rfl, .refl _ _⟩

theorem observes_placeNamed (ends : Placements) (top : UInt32) (others refs : List SectionRef) :
    Observes Moves (fun e => e.kinds = [.addressOverflow]) (placeNamed ends top others refs) := by
  induction refs generalizing ends top others with
  | nil => exact observes_pure Moves.refl _
  | cons ref rest ih =>
    unfold placeNamed
    refine observes_moves_bind (observes_modifySection fun objects => ?_) fun _ =>
      observes_moves_bind (observes_takePlacement ends ref.name) fun a? => ?_
    · exact agree_unmarked objects ref
    · cases a? with
      | none => exact ih ends top (ref :: others)
      | some address => exact observes_moves_bind (observes_place ref address) fun stop => ih _ _ _

theorem observes_placeRest (top : UInt32) (refs : List SectionRef) :
    Observes Moves (fun e => e.kinds = [.addressOverflow]) (placeRest top refs) := by
  induction refs generalizing top with
  | nil => exact observes_pure Moves.refl _
  | cons ref rest ih =>
    unfold placeRest
    exact observes_moves_bind (observes_place ref top) fun stop => ih stop

theorem observes_formSections :
    Observes Moves (fun e => e.kinds = [.addressOverflow]) formSections := by
  unfold formSections
  refine observes_moves_bind (observes_get Moves.refl) fun p =>
    observes_moves_bind (observes_placeNamed ..) fun ⟨top, others⟩ =>
    observes_moves_bind (observes_get Moves.refl) fun p' => observes_moves_bind ?_ fun _ =>
    observes_moves_bind (observes_placeRest ..) fun _ =>
    observes_moves_bind (observes_get Moves.refl) fun _ => observes_pure Moves.refl _
  exact observes_forM Moves.refl (fun _ _ _ hst htu => hst.trans htu) fun _ _ => observes_record _

/-! ## Filling in addresses -/

/-- A relocation can be carried out: its section is there and has its bytes, and its symbol comes to
an address. -/
def Relocatable (l : Linker) (x : Patch) : Prop :=
  ∃ obj target address, l.objects[x.object]? = some obj ∧
    obj.findSection x.relocation.sectionName = some target ∧
    l.resolve obj x.relocation.symbol = .ok address ∧ x.offset + 4 ≤ target.code.length

theorem Relocatable.not_fails {x : Patch} {e : Error} (h : Relocatable p.toLinker x) :
    ¬ Fails (relocateOne x.object x.relocation) p e q := by
  intro hfails
  obtain ⟨obj, target, address, hobj, htarget, hresolve, hlength⟩ := h
  obtain ⟨patched, hpatch⟩ : ∃ patched, target.patch x.relocation.location address = .ok patched :=
    ⟨_, Section.patch_eq_ok_iff.mpr ⟨hlength, rfl⟩⟩
  unfold relocateOne at hfails
  simp only [fails_bind, fails_get, runs_get, false_or] at hfails
  obtain ⟨_, _, ⟨rfl, rfl⟩, hfails⟩ := hfails
  rw [hobj] at hfails
  dsimp only at hfails
  rw [htarget] at hfails
  simp only [fails_bind, fails_liftExcept, runs_liftExcept, hresolve] at hfails
  obtain ⟨hnone, -⟩ | ⟨_, _, ⟨hsame, rfl⟩, hfails⟩ := hfails
  · cases hnone
  · cases hsame
    rw [hpatch] at hfails
    simp only [fails_bind, fails_modifySection, fails_record, and_false, exists_false,
      or_false] at hfails

/-- Filling in one address does not keep another from being filled in. -/
theorem Relocatable.of_agree {l l' : Linker} {x : Patch} (h : Relocatable l x)
    (hsymbols : l'.symbols = l.symbols) (hindex : l'.index = l.index)
    (hagree : Agree Section.blanked l.objects l'.objects) : Relocatable l' x := by
  obtain ⟨obj, target, address, hobj, htarget, hresolve, hlength⟩ := h
  obtain ⟨obj', hobj', -⟩ := hagree.getElem? hobj
  have hresolve' : l'.resolve obj' x.relocation.symbol = .ok address :=
    resolve_of_agree hsymbols.symm hindex.symm hagree.symm hobj' hobj hresolve
  have hat := hagree.sectionAt (fun _ => rfl) x.ref
  rw [sectionAt_eq hobj', sectionAt_eq hobj] at hat
  rw [show obj.findSection x.ref.name = some target from htarget] at hat
  obtain ⟨target', htarget', hblanked⟩ := Option.map_eq_some_iff.mp hat
  have hsame : target'.code.length = target.code.length := by
    have hcode := congrArg (fun s : Section => s.code.length) hblanked
    simp only [Section.blanked, List.length_replicate] at hcode
    exact hcode
  exact ⟨obj', target', address, hobj', htarget', hresolve', by omega⟩

theorem runs_relocate_of_relocatable (hnodup : ∀ obj ∈ p.objects, obj.sectionNames.Nodup)
    (h : ∀ x ∈ p.patches, Relocatable p.toLinker x) : ∃ d, Runs relocate p () d := by
  obtain ⟨⟨⟩, d, hruns⟩ | ⟨e, q, hfails⟩ := runs_or_fails relocate p
  · exact ⟨d, hruns⟩
  · obtain ⟨front, n, obj, rel, back, r, e', hpatches, hfront, hone, -⟩ :=
      fails_objects (fun obj => obj.relocations.entries) (fun n _ => Patch.mk n)
        (fun x => relocateOne x.object x.relocation) hfails
    change p.patches = front ++ Patch.mk n rel :: back at hpatches
    have hmem (x : Patch) (hx : x ∈ front) : x ∈ p.patches := by
      rw [hpatches]
      exact List.mem_append_left _ hx
    have hpatched : Patched front p r :=
      patched_of_runs (fun x hx => object_lt_of_mem_patches (hmem x hx)) hnodup hfront
    have hx : Patch.mk n rel ∈ p.patches := by
      rw [hpatches]
      exact List.mem_append_right _ (List.mem_cons_self ..)
    have hstill : Relocatable r.toLinker (Patch.mk n rel) :=
      (h _ hx).of_agree (by rw [hpatched.frame]) (by rw [hpatched.frame]) hpatched.objects
    exact absurd hone hstill.not_fails

/-- The section that a symbol is defined in is still there when sections have their places. -/
theorem Arranged.exists_home (h : Arranged objects placements refs s m f) (hin : Inputs objects)
    {n : Nat} {obj : Object} {name : Bytes} {sym : Symbol} (hobj : objects[n]? = some obj)
    (hget : obj.symbols.get? name = some sym) (hdefined : sym.isDefined = true) :
    ∃ t, sectionAt f.objects ⟨n, sym.sectionName⟩ = some t := by
  have hmem := ((hin.sound hobj).symbols _ _ hget).home hdefined
  obtain ⟨t, ht⟩ := Object.exists_findSection hmem
  have hbefore : sectionAt objects ⟨n, sym.sectionName⟩ = some t := (sectionAt_eq hobj).trans ht
  have hsome := isSome_of_agree h.placed ⟨n, sym.sectionName⟩
  rw [hbefore] at hsome
  exact Option.isSome_iff_exists.mp hsome

/-- Once symbols are resolved and sections have their places, every symbol that an assembled object
may refer to comes to an address. -/
theorem Arranged.exists_address (h : Arranged objects placements refs s m f) (hin : Inputs objects)
    (hresolved : Resolved objects m.symbols) {n : Nat} {obj obj' : Object} {name : Bytes}
    {sym : Symbol} (hobj : objects[n]? = some obj) (hobj' : f.objects[n]? = some obj')
    (hlookup : obj.symbols.lookup name = .ok sym) : ∃ address, f.resolve obj' name = .ok address := by
  obtain ⟨hget, hdeclared⟩ := SymbolTable.lookup_eq_ok_iff.mp hlookup
  obtain ⟨obj'', hobj'', -, hsymbols, -⟩ := h.placed.getElem? hobj
  rw [hobj'] at hobj''
  cases hobj''
  rcases hdefined : sym.isDefined with _ | _
  · -- not defined here, so shared, and what is shared has been resolved
    have hshares : obj.Shares name := by
      refine ⟨sym, hget, ?_⟩
      rw [hdefined] at hdeclared
      simpa [or_comm] using hdeclared
    have hsome := hresolved.shared obj (List.mem_of_getElem? hobj) name hshares
    obtain ⟨entry, hentry⟩ := Option.isSome_iff_exists.mp hsome
    obtain ⟨home, hmem, own, ⟨hown, hglobal, hdefined'⟩, -, rfl⟩ :=
      (hresolved.entry name entry).mp hentry
    obtain ⟨k, hx⟩ := exists_offer h.start hmem hown
    obtain ⟨t, ht⟩ := h.exists_home hin ((h.mem_offers).mp hx).1 hown hdefined'
    have hsame : f.symbols = m.symbols := by rw [h.moves.frame]
    refine ⟨own.value + t.location, ?_⟩
    refine resolve_eq_ok_iff.mpr (.inr ⟨?_, Offer.shared ⟨k, home, own⟩, t, ?_, ?_, rfl⟩)
    · rw [hsymbols, hget, Option.filter_some, hdefined]
      rfl
    · rw [hsame, hentry]
      exact Option.filter_eq_some_iff.mpr ⟨rfl, hdefined'⟩
    · exact (h.owner_eq hin hx hdefined').trans ht
  · obtain ⟨t, ht⟩ := h.exists_home hin hobj hget hdefined
    rw [sectionAt_eq hobj'] at ht
    refine ⟨sym.value + t.location, resolve_eq_ok_iff.mpr (.inl ⟨sym, t, ?_, ht, rfl⟩)⟩
    rw [hsymbols, hget, Option.filter_some, hdefined]
    rfl

theorem Arranged.relocatable (h : Arranged objects placements refs s m f) (hin : Inputs objects)
    (hresolved : Resolved objects m.symbols) : ∀ x ∈ f.patches, Relocatable f.toLinker x := by
  intro x hx
  obtain ⟨-, obj', hobj', hr⟩ := mem_patches.mp hx
  obtain ⟨obj, hobj, -, -, hrelocations, -⟩ := h.placed.symm.getElem? hobj'
  rw [← hrelocations] at hr
  obtain ⟨target, sym, htarget, hlookup, hspells⟩ :=
    (hin.assembled obj (List.mem_of_getElem? hobj)).filled _ hr
  obtain ⟨address, hresolve⟩ := h.exists_address hin hresolved hobj hobj' hlookup
  have hat := h.placed.sectionAt (fun _ => rfl) x.ref
  rw [sectionAt_eq hobj', sectionAt_eq hobj] at hat
  rw [show obj.findSection x.ref.name = some target from htarget] at hat
  obtain ⟨target', htarget', hunplaced⟩ := Option.map_eq_some_iff.mp hat
  have hcode := congrArg Section.code hunplaced
  change target'.code = target.code at hcode
  refine ⟨obj', target', address, hobj', htarget', hresolve, ?_⟩
  rw [hcode]
  exact hspells.le_length

/-- After the stages before it, filling in addresses succeeds. -/
theorem runs_relocate_of_runs (hs : s.toLinker = ready placements objects) (hin : Inputs objects)
    (hmerge : Runs mergeSymbols s () m) (hcheck : ∀ sym ∈ m.symbols.entries, isUnresolved sym = false)
    (hform : Runs formSections m refs f) : ∃ d, Runs relocate f () d := by
  have hmerge' := runs_mergeSymbols hmerge
  have harranged : Arranged objects placements refs s m f :=
    arranged_of_runs (fun obj hobj => (hin.assembled obj hobj).sound.nodup) hs hmerge' hform
  have hresolved := resolved_of_runs hs hin hmerge' hcheck
  exact runs_relocate_of_relocatable harranged.nodup_placed (harranged.relocatable hin hresolved)

/-! ## Linking as a whole -/

theorem fails_checkOverlap {e : Error} : Fails (checkOverlap tree refs) p e q ↔
    Span.checkOverlap tree (p.spans refs) = .error e ∧ q = p := by
  unfold checkOverlap
  simp only [fails_bind, fails_get, runs_get, fails_liftExcept, false_or]
  constructor
  · intro h
    obtain ⟨_, _, ⟨rfl, rfl⟩, h⟩ := h
    exact h
  · intro h
    exact ⟨_, _, ⟨rfl, rfl⟩, h⟩

/-- Linking that fails does so in one of its stages, with those before it done. -/
theorem fails_generate {inputs : List Nat} {e : Error} (h : Fails (generate tree inputs) p e q) :
    ∃ s : Progress, s.toLinker = { p.toLinker with inputs } ∧
      (Fails mergeSymbols s e q ∨ ∃ m, Runs mergeSymbols s () m ∧
      (Fails checkUnresolved m e q ∨ (∀ sym ∈ m.symbols.entries, isUnresolved sym = false) ∧
      (Fails formSections m e q ∨ ∃ refs f, Runs formSections m refs f ∧
      (Fails (checkOverlap tree refs) f e q ∨ Fails relocate f e q)))) := by
  simp only [generate, fails_bind, fails_modify, fails_record, runs_modify, runs_record,
    runs_checkUnresolved, runs_checkOverlap, fails_pure, false_or, and_false, exists_false,
    or_false] at h
  obtain ⟨_, _, rfl, _, s, hs, h⟩ := h
  refine ⟨s, by rw [hs], ?_⟩
  obtain h | ⟨_, m, hmerge, h⟩ := h
  · exact .inl h
  · refine .inr ⟨m, hmerge, ?_⟩
    obtain h | ⟨_, _, ⟨hcheck, rfl⟩, h⟩ := h
    · exact .inl h
    · refine .inr ⟨hcheck, ?_⟩
      obtain h | ⟨refs, f, hform, h⟩ := h
      · exact .inl h
      · refine .inr ⟨refs, f, hform, ?_⟩
        obtain h | ⟨_, _, ⟨-, rfl⟩, h⟩ := h
        · exact .inl h
        · exact .inr h

/-- What can be wrong with assembled objects that are linked. -/
def complaints : List Error.Kind :=
  [.labelSectionConflict, .multipleDefinition, .unresolvedSymbol, .addressOverflow, .sectionsOverlap]

theorem complaint_of_fails (htree : tree.Accepts) (hin : Inputs objects) {e : Error}
    (h : Fails (generate tree (List.range objects.length)) { objects, placements } e q) :
    (∃ kind ∈ complaints, e.kinds = [kind]) ∧ Agree Section.unplaced objects q.objects := by
  obtain ⟨s, hs, h⟩ := fails_generate h
  obtain h | ⟨m, hmerge, h⟩ := h
  · obtain ⟨hobjects, r, rfl, hclash⟩ := clash_of_fails hs hin h
    rw [hobjects]
    refine ⟨⟨r.kind, ?_, rfl⟩, .refl _ _⟩
    generalize r.kind = kind at hclash
    cases hclash <;> decide
  have hobjects : m.objects = objects := by
    rw [merge_frame (runs_mergeSymbols hmerge)]
    dsimp only
    rw [hs]
  obtain h | ⟨hcheck, h⟩ := h
  · obtain ⟨rfl, sym, -, -, rfl⟩ := fails_checkUnresolved h
    rw [hobjects]
    exact ⟨⟨.unresolvedSymbol, by decide, rfl⟩, .refl _ _⟩
  obtain h | ⟨refs, f, hform, h⟩ := h
  · obtain ⟨hmoves, hkinds⟩ := observes_formSections.fails _ _ _ h
    have hagree := hmoves.objects
    rw [hobjects] at hagree
    exact ⟨⟨.addressOverflow, by decide, hkinds⟩, hagree⟩
  have harranged : Arranged objects placements refs s m f :=
    arranged_of_runs (fun obj hobj => (hin.assembled obj hobj).sound.nodup) hs
      (runs_mergeSymbols hmerge) hform
  obtain h | h := h
  · obtain ⟨hcheck, rfl⟩ := fails_checkOverlap.mp h
    have hkinds := Span.kinds_of_check htree harranged.fits hcheck
    exact ⟨⟨.sectionsOverlap, by decide, hkinds⟩, harranged.placed⟩
  · obtain ⟨d, hruns⟩ := runs_relocate_of_runs hs hin hmerge hcheck hform
    exact absurd hruns h.not_runs

end Linker

/-- Linking assembled objects does not fail late: if their symbols resolve and their sections fit
without overlaps, the addresses can be filled in. So linking that fails is never about a malformed
object or an internal error, and leaves the objects as they were but for the places of sections. All
that is asked of the tree that finds overlaps is that it takes intervals which end behind their
start. -/
theorem linking_never_fails_late {tree : IntervalTree Span} (htree : tree.Accepts)
    {placements : Placements} {objects : List Object}
    (hobjects : ∀ obj ∈ objects, ∃ name source, (Object.assemble name source).1 = .ok obj)
    (hnames : (objects.map Object.name).Nodup) :
    (∀ s m c f o refs, s.toLinker = Linker.ready placements objects →
      Runs Linker.mergeSymbols s () m → Runs Linker.checkUnresolved m () c →
      Runs Linker.formSections c refs f → Runs (Linker.checkOverlap tree refs) f () o →
      ∃ d, Runs Linker.relocate o () d) ∧
    ∀ l e log, ({ objects, placements } : Linker).run
        (Linker.generate tree (List.range objects.length)) = ⟨l, .error e, log⟩ →
      (∃ kind ∈ Linker.complaints, e.kinds = [kind]) ∧
      .malformedObject ∉ e.kinds ∧ .internal ∉ e.kinds ∧
      Agree Section.unplaced objects l.objects := by
  have hin := Inputs.of_assemble hobjects hnames
  refine ⟨fun s m c f o refs hs hmerge hcheck hform hclear => ?_, fun l e log hrun => ?_⟩
  · obtain ⟨hall, rfl⟩ := Linker.runs_checkUnresolved.mp hcheck
    obtain ⟨-, rfl⟩ := Linker.runs_checkOverlap.mp hclear
    exact Linker.runs_relocate_of_runs hs hin hmerge hall hform
  · obtain ⟨⟨kind, hkind, hkinds⟩, hagree⟩ :=
      Linker.complaint_of_fails htree hin (Linker.fails_of_run hrun)
    rw [hkinds]
    refine ⟨⟨kind, hkind, rfl⟩, fun h => ?_, fun h => ?_, hagree⟩
    · obtain rfl := List.mem_singleton.mp h
      exact absurd hkind (by decide)
    · obtain rfl := List.mem_singleton.mp h
      exact absurd hkind (by decide)

theorem linking_never_fails_late_importing : ∃ a b o d l e log,
    (Object.assemble (text "a.o") importing).1 = .ok a ∧
    (Object.assemble (text "b.o") exporting).1 = .ok b ∧
    Runs (do
      Linker.mergeSymbols
      Linker.checkUnresolved
      Linker.checkOverlap (.sorted Span) (← Linker.formSections)) { toLinker := Linker.ready [] [a, b] } () o ∧
    Runs Linker.relocate o () d ∧
    ({ objects := [a, b], placements := [(text "t", 0), (text "u", 0)] } : Linker).run
      (Linker.generate (.sorted Span) (List.range 2)) = ⟨l, .error e, log⟩ ∧
    e.kinds = [.sectionsOverlap] ∧ Agree Section.unplaced [a, b] l.objects := by
  have h : ((Object.assemble (text "a.o") importing).1.toOption.bind fun a =>
      (Object.assemble (text "b.o") exporting).1.toOption.bind fun b =>
        let stages := outcome (do
          Linker.mergeSymbols
          Linker.checkUnresolved
          Linker.checkOverlap (.sorted Span) (← Linker.formSections)) { toLinker := Linker.ready [] [a, b] }
        let failed := ({ objects := [a, b], placements := [(text "t", 0), (text "u", 0)] } : Linker).run
          (Linker.generate (.sorted Span) (List.range 2))
        stages.1.toOption.bind fun _ =>
          ((failed.result.map fun _ => []).tryCatch fun e => .ok e.kinds).toOption.map fun kinds =>
            ([a.name, b.name], kinds)) =
      some ([text "a.o", text "b.o"], [Error.Kind.sectionsOverlap]) := by
    decide +kernel
  obtain ⟨a, ha, h⟩ := Option.bind_eq_some_iff.mp h
  obtain ⟨b, hb, h⟩ := Option.bind_eq_some_iff.mp h
  obtain ⟨u, hstages, h⟩ := Option.bind_eq_some_iff.mp h
  have ha := eq_ok_of_toOption ha
  have hb := eq_ok_of_toOption hb
  have hstages : Runs (do
      Linker.mergeSymbols
      Linker.checkUnresolved
      Linker.checkOverlap (.sorted Span) (← Linker.formSections)) { toLinker := Linker.ready [] [a, b] } u _ :=
    Prod.ext (eq_ok_of_toOption hstages) rfl
  rcases hrun : ({ objects := [a, b], placements := [(text "t", 0), (text "u", 0)] } : Linker).run
    (Linker.generate (.sorted Span) (List.range 2)) with ⟨l, result, log⟩
  rw [hrun] at h
  cases result with
  | ok refs => exact absurd (congrArg Prod.snd (Option.some.inj h)) (List.cons_ne_nil _ _).symm
  | error e =>
    have h := Option.some.inj h
    have hobjects := assembled_pair ha hb
    have hnames := nodup_names_pair (congrArg Prod.fst h) (by decide)
    obtain ⟨_, m, hmerge, hrest⟩ := runs_bind.mp hstages
    obtain ⟨_, c, hcheck, hrest⟩ := runs_bind.mp hrest
    obtain ⟨refs, f, hform, hclear⟩ := runs_bind.mp hrest
    obtain ⟨d, hrelocate⟩ := (linking_never_fails_late IntervalTree.sorted_accepts hobjects hnames).1 _ m c f _ refs rfl hmerge
      hcheck hform hclear
    obtain ⟨-, -, -, hagree⟩ := (linking_never_fails_late IntervalTree.sorted_accepts hobjects hnames).2 l e log hrun
    exact ⟨a, b, _, d, l, e, log, ha, hb, hstages, hrelocate, hrun, congrArg Prod.snd h, hagree⟩

end AsmKit
