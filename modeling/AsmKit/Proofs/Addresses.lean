import AsmKit.Proofs.Assembled
import AsmKit.Proofs.Linking

/-
  The addresses in a linked program. What a name means in an object is said without the linker
  (`Means`): the object's own definition, or else the one global definition there is. Objects that
  were assembled have a symbol for each of their sections, so the linker finds the section of every
  definition (`Stages.means`), and a definition is not behind the end of its section, so its address
  does not wrap (`Stages.toNat_address`).
-/

namespace AsmKit

/-- One of some objects defines a global symbol. -/
def Exports (objects : List Object) (name : Bytes) (k : Nat) (sym : Symbol) : Prop :=
  ∃ obj, objects[k]? = some obj ∧ obj.symbols.get? name = some sym ∧ sym.isGlobal = true ∧
    sym.isDefined = true

/-- What a name stands for in the object with the number `n`: a symbol of that object if it defines
the name, and otherwise the only global definition of the name. -/
inductive Means (objects : List Object) (n : Nat) (name : Bytes) : Nat → Symbol → Prop
  | own {obj : Object} {sym : Symbol} (hobj : objects[n]? = some obj)
      (hsym : obj.symbols.get? name = some sym) (hdefined : sym.isDefined = true) :
      Means objects n name n sym
  | shared {obj : Object} {k : Nat} {sym : Symbol} (hobj : objects[n]? = some obj)
      (hnone : ∀ own, obj.symbols.get? name = some own → own.isDefined = false)
      (hexports : Exports objects name k sym)
      (honly : ∀ k' sym', Exports objects name k' sym' → k' = k ∧ sym' = sym) :
      Means objects n name k sym

/-- Objects as the assembler makes them, under different names. -/
structure Inputs (objects : List Object) : Prop where
  assembled : ∀ obj ∈ objects, obj.Assembled
  names : (objects.map Object.name).Nodup

theorem Inputs.of_assemble {objects : List Object}
    (hobjects : ∀ obj ∈ objects, ∃ name source, (Object.assemble name source).1 = .ok obj)
    (hnames : (objects.map Object.name).Nodup) : Inputs objects := by
  refine ⟨fun obj hobj => ?_, hnames⟩
  obtain ⟨name, source, ha⟩ := hobjects obj hobj
  exact Object.assembled ha

theorem Inputs.of_perm {objects objects' : List Object} (h : Inputs objects)
    (hperm : objects.Perm objects') : Inputs objects' :=
  ⟨fun obj hobj => h.assembled obj (hperm.mem_iff.mpr hobj), (hperm.map _).nodup_iff.mp h.names⟩

theorem Inputs.sound {objects : List Object} (h : Inputs objects) {n : Nat} {obj : Object}
    (hobj : objects[n]? = some obj) : obj.Sound :=
  (h.assembled obj (List.mem_of_getElem? hobj)).sound

/-- What a name means is a definition of one of the objects. -/
theorem Means.defined {objects : List Object} {n k : Nat} {name : Bytes} {sym : Symbol}
    (h : Means objects n name k sym) :
    ∃ obj, objects[k]? = some obj ∧ obj.symbols.get? name = some sym ∧ sym.isDefined = true := by
  cases h with
  | own hobj hsym hdefined => exact ⟨_, hobj, hsym, hdefined⟩
  | shared _ _ hexports _ =>
    obtain ⟨obj, hobj, hsym, -, hdefined⟩ := hexports
    exact ⟨obj, hobj, hsym, hdefined⟩

/-- A name means one thing in an object. -/
theorem Means.unique {objects : List Object} {n k k' : Nat} {name : Bytes} {sym sym' : Symbol}
    (h : Means objects n name k sym) (h' : Means objects n name k' sym') : k' = k ∧ sym' = sym := by
  have clash {obj obj' : Object} {own : Symbol} (hobj : objects[n]? = some obj)
      (hown : obj.symbols.get? name = some own) (hdefined : own.isDefined = true)
      (hobj' : objects[n]? = some obj')
      (hnone : ∀ own, obj'.symbols.get? name = some own → own.isDefined = false) : False := by
    rw [hobj] at hobj'
    cases hobj'
    rw [hnone own hown] at hdefined
    cases hdefined
  cases h with
  | own hobj hsym hdefined =>
    cases h' with
    | own hobj' hsym' _ =>
      rw [hobj] at hobj'
      cases hobj'
      rw [hsym] at hsym'
      cases hsym'
      exact ⟨rfl, rfl⟩
    | shared hobj' hnone _ _ => exact (clash hobj hsym hdefined hobj' hnone).elim
  | shared hobj hnone hexports honly =>
    cases h' with
    | own hobj' hsym' hdefined => exact (clash hobj' hsym' hdefined hobj hnone).elim
    | shared _ _ hexports' _ => exact honly _ _ hexports'

namespace Linker

variable {tree : IntervalTree Span} {objects : List Object} {placements : Placements}
  {refs : List SectionRef} {s m f d : Progress}

/-! ## Shared symbols -/

/-- A linker that is to link all of some objects and has not begun. -/
def ready (placements : Placements) (objects : List Object) : Linker :=
  { objects, placements, inputs := List.range objects.length }

theorem mem_offers_of_ready (h : s.toLinker = ready placements objects) {x : Offer} :
    x ∈ s.offers ↔ objects[x.number]? = some x.object ∧ x.symbol ∈ x.object.symbols.entries := by
  rw [Linker.mem_offers, h]
  dsimp only [ready]
  constructor
  · exact fun hx => hx.2
  · intro hx
    refine ⟨?_, hx⟩
    rw [List.mem_range]
    exact (List.getElem?_eq_some_iff.mp hx.1).1

/-- Objects of different names are told apart by their names. -/
theorem number_eq_of_name (hnames : (objects.map Object.name).Nodup) {a b : Nat} {A B : Object}
    (hA : objects[a]? = some A) (hB : objects[b]? = some B) (h : A.name = B.name) : a = b := by
  have hlt : a < (objects.map Object.name).length := by
    rw [List.length_map]
    exact (List.getElem?_eq_some_iff.mp hA).1
  apply (List.getElem?_inj hlt hnames).mp
  rw [List.getElem?_map, List.getElem?_map, hA, hB, Option.map_some, Option.map_some, h]

theorem coherent_of_ready (h : s.toLinker = ready placements objects) (hin : Inputs objects) :
    Coherent s.offers := by
  constructor
  · intro x hx hdefined
    obtain ⟨hobj, hsym⟩ := (mem_offers_of_ready h).mp hx
    have hs := hin.sound hobj
    have hget := hs.ascending.get?_eq_some_iff.mpr ⟨hsym, rfl⟩
    rcases himported : x.symbol.isExtern with _ | _
    · rfl
    · rw [(hs.symbols _ _ hget).imported himported] at hdefined
      cases hdefined
  · intro x hx y hy hname
    obtain ⟨hx, -⟩ := (mem_offers_of_ready h).mp hx
    obtain ⟨hy, -⟩ := (mem_offers_of_ready h).mp hy
    exact number_eq_of_name hin.names hx hy hname

theorem merged_of_ready (h : s.toLinker = ready placements objects) {xs ys : List Offer}
    (hin : Inputs objects) (hoffers : s.offers = xs ++ ys) (hrun : Runs (forM xs merge) s () m) :
    Merged xs m.toLinker := by
  have hempty : Merged [] s.toLinker := by
    rw [h]
    exact ⟨(fun _ _ hsym => nomatch hsym), (fun _ hx => nomatch hx), (fun _ hx => nomatch hx)⟩
  have hall : Coherent (xs ++ ys) := hoffers ▸ coherent_of_ready h hin
  exact merged_of_runs hempty hall.left hrun

theorem Arranged.mem_offers (h : Arranged objects placements refs s m f) {x : Offer} :
    x ∈ s.offers ↔ objects[x.number]? = some x.object ∧ x.symbol ∈ x.object.symbols.entries :=
  mem_offers_of_ready h.start

theorem Arranged.coherent (h : Arranged objects placements refs s m f) (hin : Inputs objects) :
    Coherent s.offers :=
  coherent_of_ready h.start hin

theorem Arranged.merged (h : Arranged objects placements refs s m f) (hin : Inputs objects) :
    Merged s.offers f.toLinker := by
  have hm := merged_of_ready h.start hin (List.append_nil _).symm h.merge
  rw [h.moves.frame]
  exact ⟨hm.source, hm.definition, hm.index⟩

theorem Arranged.offer_mem (h : Arranged objects placements refs s m f) {k : Nat} {obj : Object}
    {name : Bytes} {sym : Symbol} (hobj : objects[k]? = some obj)
    (hsym : obj.symbols.get? name = some sym) : Offer.mk k obj sym ∈ s.offers :=
  h.mem_offers.mpr ⟨hobj, SymbolTable.mem_of_get? hsym⟩

/-- A global definition is the shared symbol of its name, so there is no other. -/
theorem Arranged.only (h : Arranged objects placements refs s m f) (hin : Inputs objects)
    {name : Bytes} {k k' : Nat} {sym sym' : Symbol} (hk : Exports objects name k sym)
    (hk' : Exports objects name k' sym') : k' = k ∧ sym' = sym := by
  obtain ⟨obj, hobj, hsym, hdefines⟩ := hk
  obtain ⟨obj', hobj', hsym', hdefines'⟩ := hk'
  have hx := h.offer_mem hobj hsym
  have hy := h.offer_mem hobj' hsym'
  have hmerged := h.merged hin
  have hshared := hmerged.definition _ hx hdefines
  have hshared' := hmerged.definition _ hy hdefines'
  dsimp only at hshared hshared'
  rw [SymbolTable.name_of_get? hsym] at hshared
  rw [SymbolTable.name_of_get? hsym', hshared] at hshared'
  have hfile : obj.name = obj'.name := congrArg Symbol.file (Option.some.inj hshared')
  have hnumber : k' = k := ((h.coherent hin).names _ hx _ hy hfile).symm
  subst hnumber
  rw [hobj] at hobj'
  cases hobj'
  rw [hsym] at hsym'
  cases hsym'
  exact ⟨rfl, rfl⟩

/-- The linker finds the section of a definition in the object that has the definition. -/
theorem Arranged.owner_eq (h : Arranged objects placements refs s m f) (hin : Inputs objects)
    {x : Offer} (hx : x ∈ s.offers) (hdefined : x.symbol.isDefined = true) :
    f.owner x.shared = sectionAt f.objects ⟨x.number, x.symbol.sectionName⟩ := by
  obtain ⟨hobj, hsym⟩ := h.mem_offers.mp hx
  have hs := hin.sound hobj
  have hget := hs.ascending.get?_eq_some_iff.mpr ⟨hsym, rfl⟩
  have hhome := (hs.symbols _ _ hget).home hdefined
  obtain ⟨section', hsection, hkind⟩ := hs.sections _ hhome
  have hindex := (h.merged hin).index _ (h.offer_mem hobj hsection) hkind
  dsimp only at hindex
  rw [SymbolTable.name_of_get? hsection] at hindex
  show (f.index.lookup (x.symbol.sectionName, x.object.name)).bind f.findSection = _
  rw [hindex]
  rfl

theorem Stages.means (h : Stages tree objects placements refs s m f d) (hin : Inputs objects) {n : Nat}
    {obj : Object} {name : Bytes} {a : UInt32} (hobj : f.objects[n]? = some obj)
    (ha : f.resolve obj name = .ok a) :
    ∃ k sym t, Means objects n name k sym ∧
      sectionAt f.objects ⟨k, sym.sectionName⟩ = some t ∧ a = sym.value + t.location := by
  obtain ⟨obj₀, hobj₀, -, hsymbols, -⟩ := h.placed.symm.getElem? hobj
  rw [resolve_eq_ok_iff, ← hsymbols] at ha
  rcases ha with ⟨sym, t, hsym, ht, rfl⟩ | ⟨hnone, sym, t, hsym, ht, rfl⟩
  · obtain ⟨hget, hdefined⟩ := Option.filter_eq_some_iff.mp hsym
    exact ⟨n, sym, t, .own hobj₀ hget hdefined, (sectionAt_eq hobj).trans ht, rfl⟩
  · obtain ⟨hget, hdefined⟩ := Option.filter_eq_some_iff.mp hsym
    obtain ⟨x, hx, rfl, hkind⟩ := (h.merged hin).source _ _ hget
    obtain ⟨hxobj, hxsym⟩ := h.mem_offers.mp hx
    have hglobal : x.symbol.isGlobal = true := by
      have hown := (h.coherent hin).own x hx hdefined
      rcases hkind with hglobal | himported
      · exact hglobal
      · rw [hown] at himported
        cases himported
    have hexports : Exports objects name x.number x.symbol := by
      have hs := hin.sound hxobj
      have hname : x.shared.name = name := SymbolTable.name_of_get? hget
      exact ⟨x.object, hxobj, hs.ascending.get?_eq_some_iff.mpr ⟨hxsym, hname⟩, hglobal, hdefined⟩
    rw [h.owner_eq hin hx hdefined] at ht
    refine ⟨x.number, x.symbol, t, .shared hobj₀ (fun own hown => ?_) hexports
      (fun k' sym' hk' => h.only hin hexports hk'), ht, rfl⟩
    simpa using Option.filter_eq_none_iff.mp hnone own hown

/-- The address of a definition fits into 32 bits: it is not behind the end of its section. -/
theorem Stages.toNat_address (h : Stages tree objects placements refs s m f d) (hin : Inputs objects)
    {n k : Nat} {name : Bytes} {sym : Symbol} {t : Section} (hmeans : Means objects n name k sym)
    (ht : sectionAt f.objects ⟨k, sym.sectionName⟩ = some t) :
    (sym.value + t.location).toNat = sym.value.toNat + t.location.toNat := by
  obtain ⟨obj, hobj, hsym, hdefined⟩ := hmeans.defined
  have ha := hin.assembled obj (List.mem_of_getElem? hobj)
  obtain ⟨u, hu, hvalue⟩ := ha.values name sym hsym hdefined
  have hshort : u.code.length < 2 ^ 32 := ha.short _ u hu
  have hmem : ⟨k, sym.sectionName⟩ ∈ allSections 0 objects := by
    refine mem_allSections.mpr ⟨Nat.zero_le _, obj, hobj, ?_⟩
    rw [← Object.findSection_isSome_iff, hu]
    rfl
  have hfits := h.formed.fits _ hmem
  have hat : sectionAt objects ⟨k, sym.sectionName⟩ = some u := (sectionAt_eq hobj).trans hu
  have hlength : lengthAt objects ⟨k, sym.sectionName⟩ = u.code.length := by
    unfold lengthAt
    rw [hat]
    show (UInt32.ofNat u.code.length).toNat = u.code.length
    rw [UInt32.toNat_ofNat']
    omega
  rw [(h.place ht).1, hlength] at hfits
  rw [UInt32.toNat_add]
  omega

/-! ## Relocations -/

theorem Stages.mem_patches (h : Stages tree objects placements refs s m f d) {n : Nat} {obj : Object}
    (hobj : objects[n]? = some obj) {r : Relocation} :
    Patch.mk n r ∈ f.patches ↔ r ∈ obj.relocations.entries := by
  obtain ⟨obj', hobj', -, -, hrel, -⟩ := h.placed.getElem? hobj
  rw [Linker.mem_patches, h.inputs_eq, List.mem_range]
  dsimp only
  rw [hobj', ← hrel]
  constructor
  · rintro ⟨-, _, e, hr⟩
    cases e
    exact hr
  · intro hr
    exact ⟨(List.getElem?_eq_some_iff.mp hobj).1, obj', rfl, hr⟩

theorem Stages.patches_apart (h : Stages tree objects placements refs s m f d) (hin : Inputs objects) :
    f.patches.Pairwise Patch.Apart := by
  unfold patches
  rw [List.pairwise_flatMap]
  constructor
  · rintro ⟨n, obj⟩ hobj
    obtain ⟨obj₀, hobj₀, -, -, hrel, -⟩ := h.placed.symm.getElem? (mem_linkedObjects.mp hobj).2
    have hapart := (hin.assembled obj₀ (List.mem_of_getElem? hobj₀)).apart
    rw [hrel] at hapart
    rw [List.pairwise_map]
    exact hapart.imp fun hab href => hab (congrArg SectionRef.name href)
  · -- relocations of different objects are in different sections
    unfold linkedObjects
    rw [h.inputs_eq, List.pairwise_filterMap]
    refine List.nodup_range.imp fun {a b} hne x hx y hy p hp q hq href => ?_
    obtain ⟨_, -, rfl⟩ := Option.map_eq_some_iff.mp hx
    obtain ⟨_, -, rfl⟩ := Option.map_eq_some_iff.mp hy
    obtain ⟨_, -, rfl⟩ := List.mem_map.mp hp
    obtain ⟨_, -, rfl⟩ := List.mem_map.mp hq
    exact absurd (congrArg SectionRef.object href) hne

/-- Every relocation holds the address of what its symbol means. -/
theorem Stages.holds (h : Stages tree objects placements refs s m f d) (hin : Inputs objects) {n : Nat}
    {obj : Object} (hobj : objects[n]? = some obj) {r : Relocation}
    (hr : r ∈ obj.relocations.entries) : ∃ k sym home w, Means objects n r.symbol k sym ∧
      sectionAt d.objects ⟨k, sym.sectionName⟩ = some home ∧ Patch.Holds d.objects ⟨n, r⟩ w ∧
      w.toNat = sym.value.toNat + home.location.toNat := by
  obtain ⟨obj', address, hobj', hresolve, hholds⟩ :=
    h.patched.inside (h.patches_apart hin) _ ((h.mem_patches hobj).mpr hr)
  obtain ⟨k, sym, t, hmeans, ht, rfl⟩ := h.means hin hobj' hresolve
  obtain ⟨home, hhome, hlocation⟩ := location_of_agree h.patched.objects.symm ht
  refine ⟨k, sym, home, _, hmeans, hhome, hholds, ?_⟩
  rw [hlocation]
  exact h.toNat_address hin hmeans ht

theorem Stages.word (h : Stages tree objects placements refs s m f d) (hin : Inputs objects) {n : Nat}
    {obj : Object} (hobj : objects[n]? = some obj) {r : Relocation}
    (hr : r ∈ obj.relocations.entries) : ∃ k sym home target w, Means objects n r.symbol k sym ∧
      sectionAt d.objects ⟨k, sym.sectionName⟩ = some home ∧
      sectionAt d.objects ⟨n, r.sectionName⟩ = some target ∧
      target.word? r.location = some w ∧ w.toNat = sym.value.toNat + home.location.toNat := by
  obtain ⟨k, sym, home, w, hmeans, hhome, hholds, hw⟩ := h.holds hin hobj hr
  obtain ⟨target, htarget, hword⟩ := hholds.word
  exact ⟨k, sym, home, target, w, hmeans, hhome, htarget, hword, hw⟩

theorem Stages.byte (h : Stages tree objects placements refs s m f d) {n : Nat} {obj : Object}
    (hobj : objects[n]? = some obj) {name : Bytes} {i : Nat}
    (hout : ∀ r ∈ obj.relocations.entries, ¬ Patch.Covers ⟨n, r⟩ ⟨n, name⟩ i) :
    byteAt d.objects ⟨n, name⟩ i = byteAt objects ⟨n, name⟩ i := by
  rw [h.patched.outside ⟨n, name⟩ i, byteAt_of_agree h.placed]
  rintro ⟨n', r⟩ hx hcovers
  obtain rfl : n' = n := congrArg SectionRef.object hcovers.1
  exact hout r ((h.mem_patches hobj).mp hx) hcovers

end Linker

/-- In a program that is linked from assembled objects, every relocation holds the address of what
its symbol means: the value of the symbol and the location of its section, added without wrapping.
All other bytes are those that were assembled, and the tables of the objects are as they were. -/
theorem relocations_hold_addresses {tree : IntervalTree Span} {placements : Placements}
    {objects : List Object} {l : Linker} {refs : List SectionRef} {log : List Event}
    (hobjects : ∀ obj ∈ objects, ∃ name source, (Object.assemble name source).1 = .ok obj)
    (hnames : (objects.map Object.name).Nodup)
    (h : ({ objects, placements } : Linker).run
      (Linker.generate tree (List.range objects.length)) = ⟨l, .ok refs, log⟩) :
    l.objects.length = objects.length ∧
    ∀ n obj, objects[n]? = some obj → ∃ obj', l.objects[n]? = some obj' ∧
      obj'.name = obj.name ∧ obj'.symbols = obj.symbols ∧ obj'.relocations = obj.relocations ∧
      obj'.sectionNames = obj.sectionNames ∧
      (∀ r ∈ obj.relocations.entries, ∃ k sym home target w, Means objects n r.symbol k sym ∧
        sectionAt l.objects ⟨k, sym.sectionName⟩ = some home ∧
        obj'.findSection r.sectionName = some target ∧
        target.word? r.location = some w ∧ w.toNat = sym.value.toNat + home.location.toNat) ∧
      ∀ name i, (∀ r ∈ obj.relocations.entries, ¬ Patch.Covers ⟨n, r⟩ ⟨n, name⟩ i) →
        byteAt l.objects ⟨n, name⟩ i = byteAt objects ⟨n, name⟩ i := by
  have hin : Inputs objects := by
    refine ⟨fun obj hobj => ?_, hnames⟩
    obtain ⟨name, source, ha⟩ := hobjects obj hobj
    exact Object.assembled ha
  obtain ⟨s, m, f, d, hstages, rfl⟩ :=
    Linker.stages_of_run (fun obj hobj => (hin.assembled obj hobj).sound.nodup) h
  have hagree := hstages.outlined
  refine ⟨hagree.length, fun n obj hobj => ?_⟩
  obtain ⟨obj', hobj', hname, hsymbols, hrelocations, -⟩ := hagree.getElem? hobj
  refine ⟨obj', hobj', hname, hsymbols, hrelocations, hagree.sectionNames (fun _ => rfl) hobj hobj',
    fun r hr => ?_, fun name i hout => hstages.byte hobj hout⟩
  obtain ⟨k, sym, home, target, w, hmeans, hhome, htarget, hword⟩ := hstages.word hin hobj hr
  rw [sectionAt_eq (show d.objects[n]? = some obj' from hobj')] at htarget
  exact ⟨k, sym, home, target, w, hmeans, hhome, htarget, hword⟩

/-- A source that refers to a label of its own and to an imported symbol. -/
def importing : Bytes := text ".extern e\n.section t\n.skip 2\nx: jmp $x\n.word e\n.end\n"

/-- A source that defines what the other imports. -/
def exporting : Bytes := text ".global e\n.section u\n.skip 3\ne: .word 7\n.end\n"

theorem relocations_hold_addresses_importing : ∃ a b l refs log,
    (Object.assemble (text "a.o") importing).1 = .ok a ∧
    (Object.assemble (text "b.o") exporting).1 = .ok b ∧
    ({ objects := [a, b], placements := [(text "u", 100)] } : Linker).run
      (Linker.generate (.sorted Span) (List.range 2)) = ⟨l, .ok refs, log⟩ ∧
    (a.relocations.entries.map fun r =>
      (r.symbol, (l.findSection ⟨0, r.sectionName⟩).bind fun s => s.word? r.location)) =
      [(text "e", some 103), (text "x", some 109)] ∧
    ∀ r ∈ a.relocations.entries, ∃ k sym home, Means [a, b] 0 r.symbol k sym ∧
      sectionAt l.objects ⟨k, sym.sectionName⟩ = some home := by
  have h : ((Object.assemble (text "a.o") importing).1.toOption.bind fun a =>
      (Object.assemble (text "b.o") exporting).1.toOption.bind fun b =>
        let done := ({ objects := [a, b], placements := [(text "u", 100)] } : Linker).run
          (Linker.generate (.sorted Span) (List.range 2))
        done.result.toOption.map fun _ => ([a.name, b.name], a.relocations.entries.map fun r =>
          (r.symbol, (done.linker.findSection ⟨0, r.sectionName⟩).bind fun s => s.word? r.location))) =
      some ([text "a.o", text "b.o"], [(text "e", some 103), (text "x", some 109)]) := by
    decide +kernel
  obtain ⟨a, ha, h⟩ := Option.bind_eq_some_iff.mp h
  obtain ⟨b, hb, h⟩ := Option.bind_eq_some_iff.mp h
  have ha := eq_ok_of_toOption ha
  have hb := eq_ok_of_toOption hb
  rcases hrun : ({ objects := [a, b], placements := [(text "u", 100)] } : Linker).run
    (Linker.generate (.sorted Span) (List.range 2)) with ⟨l, result, log⟩
  rw [hrun] at h
  obtain ⟨refs, hresult, h⟩ := Option.map_eq_some_iff.mp h
  obtain rfl : result = .ok refs := eq_ok_of_toOption hresult
  have hobjects : ∀ obj ∈ [a, b], ∃ name source, (Object.assemble name source).1 = .ok obj := by
    intro obj hobj
    rcases List.mem_cons.mp hobj with rfl | hobj
    · exact ⟨_, _, ha⟩
    · rw [List.mem_singleton.mp hobj]
      exact ⟨_, _, hb⟩
  have hnames : ([a, b].map Object.name).Nodup := by
    have e : [a, b].map Object.name = [text "a.o", text "b.o"] := congrArg Prod.fst h
    rw [e]
    decide
  obtain ⟨-, hall⟩ := relocations_hold_addresses hobjects hnames hrun
  obtain ⟨_, -, -, -, -, -, hwords, -⟩ := hall 0 a rfl
  refine ⟨a, b, l, refs, log, ha, hb, hrun, congrArg Prod.snd h, fun r hr => ?_⟩
  obtain ⟨k, sym, home, -, -, hmeans, hhome, -⟩ := hwords r hr
  exact ⟨k, sym, home, hmeans, hhome⟩

end AsmKit
