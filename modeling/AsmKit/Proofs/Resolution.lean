import AsmKit.Proofs.Addresses
import AsmKit.Proofs.Failure

/-
  What merging the symbols of objects comes to. A name is shared if some object exports or imports
  it. When merging succeeds and nothing is left unresolved, every shared name has one definition
  among the objects and the table lists exactly these definitions (`Resolved`). When it fails, the
  error tells why: a second definition of a name, or a section and a label under one name.
-/

namespace AsmKit

/-- The object defines a symbol for other objects. -/
def Object.Exports (obj : Object) (name : Bytes) (sym : Symbol) : Prop :=
  obj.symbols.get? name = some sym ∧ sym.isGlobal = true ∧ sym.isDefined = true

/-- The object exports a name or imports it. -/
def Object.Shares (obj : Object) (name : Bytes) : Prop :=
  ∃ sym, obj.symbols.get? name = some sym ∧ (sym.isGlobal = true ∨ sym.isExtern = true)

theorem Object.Exports.shares {obj : Object} {name : Bytes} {sym : Symbol}
    (h : obj.Exports name sym) : obj.Shares name :=
  ⟨sym, h.1, .inl h.2.1⟩

namespace Error

/-- The error has a report of a kind about a name. -/
def Names (kind : Kind) (name : Bytes) : Error → Prop
  | .bare _ => False
  | .plain _ => False
  | .wrapped _ inner => inner.Names kind name
  | .report r => r.kind = kind ∧ r.name = name
  | .because r inner => r.kind = kind ∧ r.name = name ∨ inner.Names kind name

end Error

/-- The two reasons to refuse a symbol: one of its name is a section and the other is not, or both
are definitions. -/
theorem SymbolTable.takes_eq_error {t : SymbolTable} {sym : Symbol} {e : Error}
    (h : t.takes sym = .error e) : ∃ old, t.get? sym.name = some old ∧
      (old.isSection ≠ sym.isSection ∧
        e = .report { kind := .labelSectionConflict, name := sym.name, other := old.file } ∨
      (old.isGlobal = true ∧ old.isDefined = true) ∧ (sym.isGlobal = true ∧ sym.isDefined = true) ∧
        e = .report { kind := .multipleDefinition, name := sym.name, other := old.file }) := by
  unfold takes at h
  rcases hold : t.get? sym.name with _ | old
  · rw [hold] at h
    cases h
  · rw [hold] at h
    dsimp only at h
    split at h
    · cases h
    · split at h
      · next hkind =>
        cases h
        exact ⟨old, rfl, .inl ⟨by simpa using hkind, rfl⟩⟩
      · split at h
        · next htwo =>
          cases h
          simp only [Bool.and_eq_true] at htwo
          exact ⟨old, rfl, .inr ⟨⟨htwo.1.1.1, htwo.1.2⟩, ⟨htwo.1.1.2, htwo.2⟩, rfl⟩⟩
        · cases h

/-- An ascending table is determined by what it answers. -/
theorem SymbolTable.Ascending.entries_eq {t t' : SymbolTable} (h : t.Ascending) (h' : t'.Ascending)
    (hget : ∀ name, t.get? name = t'.get? name) : t.entries = t'.entries := by
  have hmem (sym : Symbol) : sym ∈ t.entries ↔ sym ∈ t'.entries := by
    have hleft : t.get? sym.name = some sym ↔ sym ∈ t.entries ∧ sym.name = sym.name :=
      h.get?_eq_some_iff
    have hright : t'.get? sym.name = some sym ↔ sym ∈ t'.entries ∧ sym.name = sym.name :=
      h'.get?_eq_some_iff
    rw [hget] at hleft
    simpa using hleft.symm.trans hright
  have hperm : t.entries.Perm t'.entries :=
    (List.perm_ext_iff_of_nodup h.nodup.of_map h'.nodup.of_map).mpr hmem
  refine hperm.eq_of_pairwise (fun a b _ _ hab hba => ?_) h h'
  exact absurd (List.lt_trans hab hba) (List.lt_irrefl _)

/-- The symbol of a section of an assembled object has the length of the section. -/
theorem Object.Assembled.checkSectionSymbol {obj : Object} (h : obj.Assembled) {sym : Symbol}
    (hsym : sym ∈ obj.symbols.entries) (hsection : sym.isSection = true) :
    Linker.checkSectionSymbol obj sym = .ok () := by
  have hget := h.sound.ascending.get?_eq_some_iff.mpr ⟨hsym, rfl⟩
  have hname := ((h.sound.symbols _ _ hget).ofSection hsection).1
  obtain ⟨s, hs⟩ := Object.exists_findSection hname
  obtain ⟨sym', hsym', hsize⟩ := h.sizes _ s hs
  rw [hget] at hsym'
  cases hsym'
  have hshort := h.short _ s hs
  have hlength : s.length.toNat = s.code.length := by
    unfold Section.length
    rw [UInt32.toNat_ofNat']
    omega
  unfold Linker.checkSectionSymbol
  rw [hs]
  dsimp only
  rw [hlength, hsize, if_pos rfl]

namespace Linker

variable {p q s m c : Linker.Progress} {objects : List Object} {placements : Placements}

/-! ## Merging that fails -/

/-- A stage that goes through the objects and through the items of each fails at one of them, and
names its file. -/
theorem fails_objects {α β : Type} (items : Object → List α) (pack : Nat → Object → α → β)
    (step : β → Linking Unit) {e : Error}
    (h : Fails (get >>= fun s => s.toLinker.linkedObjects.forM fun (n, obj) =>
      inFile obj.name ((items obj).forM fun a => step (pack n obj a))) p e q) :
    ∃ front n obj a back r e',
      (p.linkedObjects.flatMap fun (n, obj) => (items obj).map (pack n obj)) =
        front ++ pack n obj a :: back ∧
      Runs (forM front step) p () r ∧ Fails (step (pack n obj a)) r e' q ∧
      e = e'.inFile obj.name := by
  obtain h | ⟨_, p', hget, h⟩ := fails_bind.mp h
  · exact absurd h fails_get
  obtain ⟨rfl, rfl⟩ := runs_get.mp hget
  obtain ⟨front, ⟨n, obj⟩, back, r, hlist, hfront, hobj⟩ := fails_forM h
  obtain ⟨e', hitems, rfl⟩ := fails_tryCatch_throw.mp hobj
  obtain ⟨before, a, behind, t, hsplit, hbefore, hstep⟩ := fails_forM hitems
  have hfront' : Runs (forM (front.flatMap fun (n, obj) => (items obj).map (pack n obj)) step)
      p' () r := by
    refine runs_forM_flatMap (fun x _ s t hx => ?_) hfront
    have hx' : Runs ((items x.2).forM fun a => step (pack x.1 x.2 a)) s () t :=
      runs_tryCatch_throw.mp hx
    rw [List.forM_map]
    exact hx'
  refine ⟨(front.flatMap fun (n, obj) => (items obj).map (pack n obj)) ++ before.map (pack n obj),
    n, obj, a, behind.map (pack n obj) ++ back.flatMap fun (n, obj) => (items obj).map (pack n obj),
    t, e', ?_, ?_, hstep, rfl⟩
  · rw [hlist]
    simp [hsplit]
  · rw [runs_forM_append]
    refine ⟨r, hfront', ?_⟩
    rw [List.forM_map]
    exact hbefore

theorem not_fails_share {taken : Bool} {f : Linker.Progress → Linker.Progress} {event : Event}
    {e : Error} : ¬ Fails (if taken = true then do
        modify f
        record event
      else pure ()) p e q := by
  cases taken with
  | false => exact fails_pure
  | true =>
    intro h
    obtain h | ⟨_, _, -, h⟩ := fails_bind.mp h
    · exact fails_modify h
    · exact fails_record h

/-- Merging a symbol fails because its section is not as long as it says, or because the table
refuses it. -/
theorem fails_merge {x : Offer} {e : Error} (h : Fails (merge x) p e q) :
    q = { p with index := q.index } ∧
      (x.symbol.isSection = true ∧ checkSectionSymbol x.object x.symbol = .error e ∨
        p.symbols.takes x.symbol = .error e) := by
  unfold merge mergeSymbol at h
  by_cases hsection : x.symbol.isSection = true
  · simp only [hsection, if_true, fails_bind, fails_liftExcept, fails_modify, fails_get,
      not_fails_share, runs_liftExcept, runs_modify, runs_get, false_or, and_false, exists_false,
      or_false] at h
    obtain ⟨hcheck, rfl⟩ | ⟨_, _, ⟨-, rfl⟩, _, _, rfl, _, _, ⟨rfl, rfl⟩, htakes, rfl⟩ := h
    · exact ⟨rfl, .inl ⟨hsection, hcheck⟩⟩
    · exact ⟨rfl, .inr htakes⟩
  · simp only [hsection, Bool.false_eq_true, if_false, fails_bind, fails_liftExcept, fails_get,
      not_fails_share, runs_get, false_or, and_false, exists_false, or_false] at h
    obtain ⟨_, _, ⟨rfl, rfl⟩, htakes, rfl⟩ := h
    exact ⟨rfl, .inr htakes⟩

/-! ## Merging that succeeds -/

/-- A name that was in the table stays there, and a shared one gets there. -/
theorem isSome_of_merge {x : Offer} {name : Bytes} (h : Runs (merge x) p () q)
    (hname : (p.symbols.get? name).isSome = true ∨ x.symbol.name = name ∧
      (x.symbol.isGlobal = true ∨ x.symbol.isExtern = true)) :
    (q.symbols.get? name).isSome = true := by
  obtain ⟨taken, htakes, hq⟩ := runs_merge h
  have hget : q.symbols.get? name =
      if taken = true ∧ name = x.symbol.name then some x.shared else p.symbols.get? name := by
    rw [hq]
    exact get?_share ..
  rw [hget]
  split
  · rfl
  · next hout =>
    obtain hname | ⟨rfl, hshared⟩ := hname
    · exact hname
    · -- a shared symbol that is not taken found one of its name
      rcases SymbolTable.takes_cases htakes with ⟨-, htaken⟩ | ⟨old, hold, -⟩ | ⟨old, hold, -⟩
      · have hyes : taken = true := by
          rw [htaken]
          simpa using hshared
        exact absurd ⟨hyes, rfl⟩ hout
      · rw [hold]
        rfl
      · rw [hold]
        rfl

theorem isSome_of_merges {xs : List Offer} {name : Bytes} (h : Runs (forM xs merge) p () q)
    (hname : (p.symbols.get? name).isSome = true ∨ ∃ x ∈ xs, x.symbol.name = name ∧
      (x.symbol.isGlobal = true ∨ x.symbol.isExtern = true)) :
    (q.symbols.get? name).isSome = true := by
  induction xs generalizing p with
  | nil =>
    rw [runs_forM_nil.mp h]
    obtain hname | ⟨x, hx, -⟩ := hname
    · exact hname
    · cases hx
  | cons x xs ih =>
    obtain ⟨r, hr, hxs⟩ := runs_forM_cons.mp h
    refine ih hxs ?_
    obtain hname | ⟨y, hy, hyname⟩ := hname
    · exact .inl (isSome_of_merge hr (.inl hname))
    · rcases List.mem_cons.mp hy with rfl | hy
      · exact .inl (isSome_of_merge hr (.inr hyname))
      · exact .inr ⟨y, hy, hyname⟩

theorem ascending_of_merges {xs : List Offer} (h : Runs (forM xs merge) p () q) :
    p.symbols.Ascending → q.symbols.Ascending := by
  refine runs_forM_rel
    (R := fun p q : Linker.Progress => p.symbols.Ascending → q.symbols.Ascending)
    (fun _ h => h) (fun hst htu hs => htu (hst hs)) (fun x _ s t hx hs => ?_) h
  obtain ⟨taken, -, ht⟩ := runs_merge hx
  rw [ht]
  cases taken with
  | false => exact hs
  | true => exact hs.insert _

/-! ## Symbols and their objects -/

theorem exists_offer (hs : s.toLinker = ready placements objects) {obj : Object}
    (hobj : obj ∈ objects) {name : Bytes} {sym : Symbol}
    (hsym : obj.symbols.get? name = some sym) : ∃ n, Offer.mk n obj sym ∈ s.offers := by
  obtain ⟨n, hn⟩ := List.mem_iff_getElem?.mp hobj
  exact ⟨n, (mem_offers_of_ready hs).mpr ⟨hn, SymbolTable.mem_of_get? hsym⟩⟩

theorem get?_of_offer (hs : s.toLinker = ready placements objects) (hin : Inputs objects) {x : Offer}
    (hx : x ∈ s.offers) :
    x.object ∈ objects ∧ x.object.symbols.get? x.symbol.name = some x.symbol := by
  obtain ⟨hobj, hsym⟩ := (mem_offers_of_ready hs).mp hx
  have hsound := hin.sound hobj
  exact ⟨List.mem_of_getElem? hobj, hsound.ascending.get?_eq_some_iff.mpr ⟨hsym, rfl⟩⟩

/-- An object offers a name once. -/
theorem offers_distinct (hs : s.toLinker = ready placements objects) (hin : Inputs objects) :
    s.offers.Pairwise fun x y => x.number = y.number → x.symbol.name ≠ y.symbol.name := by
  unfold offers
  rw [List.pairwise_flatMap]
  constructor
  · intro x hx
    obtain ⟨-, hobj⟩ := mem_linkedObjects.mp (show (x.1, x.2) ∈ s.linkedObjects from hx)
    rw [hs] at hobj
    have hnodup := (hin.sound hobj).ascending.nodup
    rw [List.nodup_iff_pairwise_ne, List.pairwise_map] at hnodup
    rw [List.pairwise_map]
    refine hnodup.imp ?_
    intro a b hne _
    exact hne
  · unfold linkedObjects
    rw [hs, List.pairwise_filterMap]
    refine List.nodup_range.imp fun {a b} hne x hx y hy v hv w hw hnumber => ?_
    obtain ⟨_, -, rfl⟩ := Option.map_eq_some_iff.mp hx
    obtain ⟨_, -, rfl⟩ := Option.map_eq_some_iff.mp hy
    obtain ⟨_, -, rfl⟩ := List.mem_map.mp hv
    obtain ⟨_, -, rfl⟩ := List.mem_map.mp hw
    exact absurd hnumber hne

/-! ## Resolution -/

/-- Two objects cannot be linked with each other on account of a name that the first one shares: it
is a section in one of them only, or both define it. -/
inductive Clash (objects : List Object) (name : Bytes) : Error.Kind → Prop where
  | kinds {obj obj' : Object} {sym sym' : Symbol} (hobj : obj ∈ objects) (hobj' : obj' ∈ objects)
      (hsym : obj.symbols.get? name = some sym) (hsym' : obj'.symbols.get? name = some sym')
      (hshares : obj.Shares name) (hne : sym.isSection ≠ sym'.isSection) :
      Clash objects name .labelSectionConflict
  | definitions {obj obj' : Object} {sym sym' : Symbol} (hobj : obj ∈ objects)
      (hobj' : obj' ∈ objects) (hne : obj ≠ obj') (hsym : obj.Exports name sym)
      (hsym' : obj'.Exports name sym') : Clash objects name .multipleDefinition

/-- Merging the symbols of assembled objects fails only over a clash, and changes no object. -/
theorem clash_of_fails (hs : s.toLinker = ready placements objects) (hin : Inputs objects)
    {e : Error} (h : Fails mergeSymbols s e q) :
    q.objects = objects ∧ ∃ r : Error.Report, e = .report r ∧ Clash objects r.name r.kind := by
  obtain ⟨front, n, obj, sym, back, r, e', hoffers, hfront, hfails, rfl⟩ :=
    fails_objects (fun obj => obj.symbols.entries) Offer.mk merge h
  change s.offers = front ++ Offer.mk n obj sym :: back at hoffers
  have hr : r.objects = objects := by
    rw [merge_frame hfront]
    dsimp only
    rw [hs]
    rfl
  obtain ⟨hq, hreason⟩ := fails_merge hfails
  refine ⟨by rw [hq]; exact hr, ?_⟩
  have hx : Offer.mk n obj sym ∈ s.offers := by
    rw [hoffers]
    exact List.mem_append_right _ (List.mem_cons_self ..)
  obtain ⟨hobj, hsym⟩ := get?_of_offer hs hin hx
  obtain ⟨hsection, hcheck⟩ | htakes := hreason
  · have hok := (hin.assembled obj hobj).checkSectionSymbol (SymbolTable.mem_of_get? hsym) hsection
    rw [hok] at hcheck
    cases hcheck
  · obtain ⟨old, hold, hwhy⟩ := SymbolTable.takes_eq_error htakes
    obtain ⟨y, hy, rfl, hshared⟩ := (merged_of_ready hs hin hoffers hfront).source _ _ hold
    have hymem : y ∈ s.offers := by
      rw [hoffers]
      exact List.mem_append_left _ hy
    have hyname : y.shared.name = sym.name := SymbolTable.name_of_get? hold
    change y.symbol.name = sym.name at hyname
    obtain ⟨hyobj, hysym⟩ := get?_of_offer hs hin hymem
    rw [hyname] at hysym
    obtain ⟨hkind, rfl⟩ | ⟨hdefines, hdefines', rfl⟩ := hwhy
    · exact ⟨_, rfl, .kinds hyobj hobj hysym hsym ⟨_, hysym, hshared⟩ hkind⟩
    · refine ⟨_, rfl, .definitions hyobj hobj ?_ ⟨hysym, hdefines⟩ ⟨hsym, hdefines'⟩⟩
      intro hsame
      -- one object does not offer a name twice
      have hnumber : y.number = n :=
        (coherent_of_ready hs hin).names _ hymem _ hx (congrArg Object.name hsame)
      have hdistinct := offers_distinct hs hin
      rw [hoffers] at hdistinct
      have hapart := (List.pairwise_append.mp hdistinct).2.2 y hy _ (List.mem_cons_self ..)
      exact hapart hnumber hyname

/-- A table lists the definitions that objects share: for every shared name the symbol of the one
object that exports it. -/
structure Resolved (objects : List Object) (t : SymbolTable) : Prop where
  ascending : t.Ascending
  shared : ∀ obj ∈ objects, ∀ name, obj.Shares name → (t.get? name).isSome = true
  entry : ∀ name sym, t.get? name = some sym ↔ ∃ obj ∈ objects, ∃ own, obj.Exports name own ∧
    own.sectionName ≠ undefinedSection ∧ sym = { own with file := obj.name }
  only : ∀ name, ∀ obj ∈ objects, ∀ obj' ∈ objects, ∀ sym sym', obj.Exports name sym →
    obj'.Exports name sym' → obj' = obj

theorem definition_of_ready (hs : s.toLinker = ready placements objects) (hin : Inputs objects)
    (hmerge : Runs (forM s.offers merge) s () m) {obj : Object} (hobj : obj ∈ objects) {name : Bytes}
    {sym : Symbol} (h : obj.Exports name sym) :
    m.symbols.get? name = some { sym with file := obj.name } := by
  obtain ⟨n, hx⟩ := exists_offer hs hobj h.1
  have hmerged := merged_of_ready hs hin (List.append_nil _).symm hmerge
  have hget := hmerged.definition _ hx h.2
  rw [show sym.name = name from SymbolTable.name_of_get? h.1] at hget
  exact hget

theorem source_of_ready (hs : s.toLinker = ready placements objects) (hin : Inputs objects)
    (hmerge : Runs (forM s.offers merge) s () m) {name : Bytes} {sym : Symbol}
    (h : m.symbols.get? name = some sym) : ∃ obj ∈ objects, ∃ own,
      obj.symbols.get? name = some own ∧ (own.isGlobal = true ∨ own.isExtern = true) ∧
      sym = { own with file := obj.name } := by
  have hmerged := merged_of_ready hs hin (List.append_nil _).symm hmerge
  obtain ⟨x, hx, rfl, hshared⟩ := hmerged.source _ _ h
  obtain ⟨hobj, hget⟩ := get?_of_offer hs hin hx
  have hname : x.shared.name = name := SymbolTable.name_of_get? h
  rw [show x.symbol.name = name from hname] at hget
  exact ⟨x.object, hobj, x.symbol, hget, hshared, rfl⟩

theorem isUnresolved_eq_false {sym : Symbol} : isUnresolved sym = false ↔
    sym.isExtern = false ∧ sym.sectionName ≠ undefinedSection ∧ sym.isDefined = true := by
  unfold isUnresolved
  simp [and_assoc]

theorem resolved_of_runs (hs : s.toLinker = ready placements objects) (hin : Inputs objects)
    (hmerge : Runs (forM s.offers merge) s () m)
    (hall : ∀ sym ∈ m.symbols.entries, isUnresolved sym = false) : Resolved objects m.symbols := by
  have hstart : s.symbols.Ascending := by
    rw [hs]
    exact SymbolTable.ascending_empty
  constructor
  case ascending => exact ascending_of_merges hmerge hstart
  case shared =>
    intro obj hobj name hshares
    obtain ⟨sym, hsym, hshared⟩ := hshares
    obtain ⟨n, hx⟩ := exists_offer hs hobj hsym
    exact isSome_of_merges hmerge (.inr ⟨_, hx, SymbolTable.name_of_get? hsym, hshared⟩)
  case entry =>
    intro name sym
    constructor
    · intro hget
      obtain ⟨obj, hobj, own, hown, hshared, rfl⟩ := source_of_ready hs hin hmerge hget
      have hfine := isUnresolved_eq_false.mp (hall _ (SymbolTable.mem_of_get? hget))
      obtain ⟨himport, hsection, hdefined⟩ := hfine
      have hglobal : own.isGlobal = true := by
        obtain hglobal | hextern := hshared
        · exact hglobal
        · rw [show own.isExtern = false from himport] at hextern
          cases hextern
      exact ⟨obj, hobj, own, ⟨hown, hglobal, hdefined⟩, hsection, rfl⟩
    · intro h
      obtain ⟨obj, hobj, own, hexports, -, rfl⟩ := h
      exact definition_of_ready hs hin hmerge hobj hexports
  case only =>
    intro name obj hobj obj' hobj' sym sym' hsym hsym'
    have hget := definition_of_ready hs hin hmerge hobj hsym
    have hget' := definition_of_ready hs hin hmerge hobj' hsym'
    rw [hget] at hget'
    have hfile : obj'.name = obj.name := congrArg Symbol.file (Option.some.inj hget').symm
    exact List.inj_on_of_nodup_map hin.names hobj' hobj hfile

theorem fails_checkUnresolved {e : Error} (h : Fails checkUnresolved p e q) :
    q = p ∧ ∃ sym ∈ p.symbols.entries, isUnresolved sym = true ∧
      e = .about .unresolvedSymbol sym.name := by
  unfold checkUnresolved at h
  simp only [fails_bind, fails_get, runs_get, false_or] at h
  obtain ⟨_, p', ⟨rfl, rfl⟩, hfind⟩ := h
  rcases hsome : p'.symbols.entries.find? isUnresolved with _ | sym
  · rw [hsome] at hfind
    exact absurd hfind fails_pure
  · rw [hsome] at hfind
    obtain ⟨rfl, rfl⟩ := fails_throw.mp hfind
    exact ⟨rfl, sym, List.mem_of_find?_eq_some hsome, List.find?_some hsome, rfl⟩

/-- A name that is left unresolved is shared, and no object defines it in a section of its own. -/
theorem unresolved_of_ready (hs : s.toLinker = ready placements objects) (hin : Inputs objects)
    (hmerge : Runs (forM s.offers merge) s () m) {sym : Symbol} (hsym : sym ∈ m.symbols.entries)
    (h : isUnresolved sym = true) : (∃ obj ∈ objects, obj.Shares sym.name) ∧
      ∀ obj ∈ objects, ∀ own, obj.Exports sym.name own → own.sectionName = undefinedSection := by
  have hstart : s.symbols.Ascending := by
    rw [hs]
    exact SymbolTable.ascending_empty
  have hget := (ascending_of_merges hmerge hstart).get?_eq_some_iff.mpr ⟨hsym, rfl⟩
  constructor
  · obtain ⟨obj, hobj, own, hown, hshared, -⟩ := source_of_ready hs hin hmerge hget
    exact ⟨obj, hobj, own, hown, hshared⟩
  · intro obj hobj own hexports
    apply Classical.byContradiction
    intro hsection
    have hdefinition := definition_of_ready hs hin hmerge hobj hexports
    rw [hget] at hdefinition
    obtain rfl := Option.some.inj hdefinition
    have himport : own.isExtern = false := by
      obtain ⟨n, hx⟩ := exists_offer hs hobj hexports.1
      exact (coherent_of_ready hs hin).own _ hx hexports.2.2
    have hfine : isUnresolved { own with file := obj.name } = false :=
      isUnresolved_eq_false.mpr ⟨himport, hsection, hexports.2.2⟩
    rw [hfine] at h
    cases h

/-- A shared name is exported by one object and no other. -/
theorem Resolved.exists_only {t : SymbolTable} (h : Resolved objects t) {obj : Object}
    (hobj : obj ∈ objects) {name : Bytes} (hshares : obj.Shares name) :
    ∃ only ∈ objects, (∃ sym, only.Exports name sym) ∧
      ∀ other ∈ objects, ∀ sym, other.Exports name sym → other = only := by
  obtain ⟨sym, hget⟩ := Option.isSome_iff_exists.mp (h.shared obj hobj name hshares)
  obtain ⟨only, honly, own, hexports, -⟩ := (h.entry name sym).mp hget
  exact ⟨only, honly, ⟨own, hexports⟩, fun other hother sym' hother' =>
    h.only name only honly other hother own sym' hexports hother'⟩

/-- The names in the table are the shared ones. -/
theorem Resolved.mem_names {t : SymbolTable} (h : Resolved objects t) {name : Bytes} :
    name ∈ t.entries.map Symbol.name ↔ ∃ obj ∈ objects, obj.Shares name := by
  constructor
  · intro hmem
    obtain ⟨entry, hentry⟩ := List.mem_map.mp hmem
    obtain ⟨obj, hobj, own, hexports, -⟩ :=
      (h.entry name entry).mp (h.ascending.get?_eq_some_iff.mpr hentry)
    exact ⟨obj, hobj, hexports.shares⟩
  · intro hshared
    obtain ⟨obj, hobj, hshares⟩ := hshared
    obtain ⟨entry, hget⟩ := Option.isSome_iff_exists.mp (h.shared obj hobj name hshares)
    exact List.mem_map.mpr ⟨entry, h.ascending.get?_eq_some_iff.mp hget⟩

/-- The table of resolved symbols does not depend on the order of the objects. -/
theorem Resolved.entries_eq {objects' : List Object} {t t' : SymbolTable} (h : Resolved objects t)
    (h' : Resolved objects' t') (hperm : objects.Perm objects') : t.entries = t'.entries := by
  refine h.ascending.entries_eq h'.ascending fun name => Option.ext fun sym => ?_
  rw [h.entry, h'.entry]
  simp only [hperm.mem_iff]

end Linker

/-- Symbol resolution is exact. When the symbols of assembled objects are merged and none is left
unresolved, each name that some object exports or imports is defined for others by exactly one
object, and the table consists of these definitions, each with the name of its object, in whatever
order the objects came. A second definition is complained of only where there are two, and a symbol
is called unresolved only where no object defines it in a section of its own. -/
theorem symbols_resolve_exactly {placements : Placements} {objects : List Object}
    {s : Linker.Progress}
    (hobjects : ∀ obj ∈ objects, ∃ name source, (Object.assemble name source).1 = .ok obj)
    (hnames : (objects.map Object.name).Nodup) (hs : s.toLinker = Linker.ready placements objects) :
    (∀ m c, Runs Linker.mergeSymbols s () m → Runs Linker.checkUnresolved m () c →
      (∀ obj ∈ objects, ∀ name, obj.Shares name → ∃ only ∈ objects, (∃ sym, only.Exports name sym) ∧
        ∀ other ∈ objects, ∀ sym, other.Exports name sym → other = only) ∧
      (c.symbols.entries.map Symbol.name).Nodup ∧
      (∀ name, name ∈ c.symbols.entries.map Symbol.name ↔ ∃ obj ∈ objects, obj.Shares name) ∧
      (∀ entry ∈ c.symbols.entries, ∃ obj ∈ objects, ∃ sym, obj.Exports entry.name sym ∧
        entry = { sym with file := obj.name }) ∧
      ∀ (objects' : List Object) (placements' : Placements) (s' m' c' : Linker.Progress),
        objects.Perm objects' → s'.toLinker = Linker.ready placements' objects' →
        Runs Linker.mergeSymbols s' () m' → Runs Linker.checkUnresolved m' () c' →
        c'.symbols.entries = c.symbols.entries) ∧
    (∀ e q name, Fails Linker.mergeSymbols s e q → e.Names .multipleDefinition name →
      ∃ obj ∈ objects, ∃ obj' ∈ objects, obj ≠ obj' ∧ (∃ sym, obj.Exports name sym) ∧
        ∃ sym, obj'.Exports name sym) ∧
    ∀ m e q name, Runs Linker.mergeSymbols s () m → Fails Linker.checkUnresolved m e q →
      e.Names .unresolvedSymbol name → (∃ obj ∈ objects, obj.Shares name) ∧
        ¬ ∃ obj ∈ objects, ∃ sym, obj.Exports name sym ∧ sym.sectionName ≠ undefinedSection := by
  have hin := Inputs.of_assemble hobjects hnames
  refine ⟨fun m c hmerge hcheck => ?_, fun e q name hfails hname => ?_,
    fun m e q name hmerge hfails hname => ?_⟩
  · obtain ⟨hall, rfl⟩ := Linker.runs_checkUnresolved.mp hcheck
    have hresolved := Linker.resolved_of_runs hs hin (Linker.runs_mergeSymbols hmerge) hall
    refine ⟨fun obj hobj name hshares => hresolved.exists_only hobj hshares,
      hresolved.ascending.nodup, fun name => hresolved.mem_names, fun entry hmem => ?_,
      fun objects' placements' s' m' c' hperm hs' hmerge' hcheck' => ?_⟩
    · have hget := hresolved.ascending.get?_eq_some_iff.mpr ⟨hmem, rfl⟩
      obtain ⟨obj, hobj, own, hexports, -, heq⟩ := (hresolved.entry entry.name entry).mp hget
      exact ⟨obj, hobj, own, hexports, heq⟩
    · obtain ⟨hall', rfl⟩ := Linker.runs_checkUnresolved.mp hcheck'
      have hresolved' := Linker.resolved_of_runs hs' (hin.of_perm hperm)
        (Linker.runs_mergeSymbols hmerge') hall'
      exact (hresolved.entries_eq hresolved' hperm).symm
  · obtain ⟨-, r, rfl, hclash⟩ := Linker.clash_of_fails hs hin hfails
    obtain ⟨hkind, rfl⟩ := hname
    rw [hkind] at hclash
    cases hclash with
    | definitions hobj hobj' hne hsym hsym' =>
      exact ⟨_, hobj, _, hobj', hne, ⟨_, hsym⟩, _, hsym'⟩
  · obtain ⟨rfl, sym, hsym, hunresolved, rfl⟩ := Linker.fails_checkUnresolved hfails
    obtain ⟨-, rfl⟩ := hname
    obtain ⟨hshares, hnone⟩ :=
      Linker.unresolved_of_ready hs hin (Linker.runs_mergeSymbols hmerge) hsym hunresolved
    refine ⟨hshares, fun h => ?_⟩
    obtain ⟨obj, hobj, own, hexports, hsection⟩ := h
    exact hsection (hnone obj hobj own hexports)

theorem assembled_pair {a b : Object} {n n' source source' : Bytes}
    (ha : (Object.assemble n source).1 = .ok a) (hb : (Object.assemble n' source').1 = .ok b) :
    ∀ obj ∈ [a, b], ∃ name source, (Object.assemble name source).1 = .ok obj := by
  intro obj hobj
  rcases List.mem_cons.mp hobj with rfl | hobj
  · exact ⟨_, _, ha⟩
  · rw [List.mem_singleton.mp hobj]
    exact ⟨_, _, hb⟩

theorem nodup_names_pair {a b : Object} {n n' : Bytes} (h : [a.name, b.name] = [n, n'])
    (hne : n ≠ n') : ([a, b].map Object.name).Nodup := by
  have hnames : [a, b].map Object.name = [n, n'] := h
  rw [hnames]
  exact List.nodup_cons.mpr ⟨List.mem_singleton.not.mpr hne, List.nodup_singleton n'⟩

theorem symbols_resolve_exactly_importing : ∃ a b m c,
    (Object.assemble (text "a.o") importing).1 = .ok a ∧
    (Object.assemble (text "b.o") exporting).1 = .ok b ∧
    Runs Linker.mergeSymbols { toLinker := Linker.ready [] [a, b] } () m ∧
    Runs Linker.checkUnresolved m () c ∧
    c.symbols.entries.map (fun entry => (entry.name, entry.file)) = [(text "e", text "b.o")] ∧
    (∀ obj ∈ [a, b], ∀ name, obj.Shares name → ∃ only ∈ [a, b], (∃ sym, only.Exports name sym) ∧
      ∀ other ∈ [a, b], ∀ sym, other.Exports name sym → other = only) := by
  have h : ((Object.assemble (text "a.o") importing).1.toOption.bind fun a =>
      (Object.assemble (text "b.o") exporting).1.toOption.bind fun b =>
        let done := outcome (do Linker.mergeSymbols; Linker.checkUnresolved)
          { toLinker := Linker.ready [] [a, b] }
        done.1.toOption.map fun _ => ([a.name, b.name],
          done.2.symbols.entries.map fun entry => (entry.name, entry.file))) =
      some ([text "a.o", text "b.o"], [(text "e", text "b.o")]) := by
    decide +kernel
  obtain ⟨a, ha, h⟩ := Option.bind_eq_some_iff.mp h
  obtain ⟨b, hb, h⟩ := Option.bind_eq_some_iff.mp h
  obtain ⟨u, hdone, h⟩ := Option.map_eq_some_iff.mp h
  have ha := eq_ok_of_toOption ha
  have hb := eq_ok_of_toOption hb
  have hrun : Runs (do Linker.mergeSymbols; Linker.checkUnresolved)
      { toLinker := Linker.ready [] [a, b] } u _ := Prod.ext (eq_ok_of_toOption hdone) rfl
  obtain ⟨_, m, hmerge, hcheck⟩ := runs_bind.mp hrun
  have hobjects := assembled_pair ha hb
  have hnames := nodup_names_pair (congrArg Prod.fst h) (by decide)
  have hexact := (symbols_resolve_exactly hobjects hnames rfl).1 m _ hmerge hcheck
  exact ⟨a, b, m, _, ha, hb, hmerge, hcheck, congrArg Prod.snd h, hexact.1⟩

end AsmKit
