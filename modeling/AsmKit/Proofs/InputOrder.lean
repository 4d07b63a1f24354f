import AsmKit.Proofs.Resolution

/-
  How far the order of the objects decides whether their symbols resolve. Merging remembers shared
  symbols only, and a definition takes the place of an import whatever the two are. So a section and
  a label under one name are noticed in some orders and not in others. Where no shared name is both,
  every order resolves or none does (`Resolvable.resolves`); where one is, an order that puts the
  definition first is refused (`kinds_of_resolves`).
-/

namespace AsmKit

/-- The symbols of some objects can be merged in their order, and none is left unresolved. -/
def Resolves (placements : Placements) (objects : List Object) : Prop :=
  ∃ c, Runs (do Linker.mergeSymbols; Linker.checkUnresolved)
    { toLinker := Linker.ready placements objects } () c

/-- Every name that some object shares is defined for others by one object, in a section of its
own. -/
def Resolvable (objects : List Object) : Prop :=
  ∀ obj ∈ objects, ∀ name, obj.Shares name → ∃ only ∈ objects,
    (∃ sym, only.Exports name sym ∧ sym.sectionName ≠ undefinedSection) ∧
    ∀ other ∈ objects, ∀ sym, other.Exports name sym → other = only

/-- No name that an object shares is a section in that object or in another, and not in both. -/
def KindsAgree (objects : List Object) : Prop :=
  ∀ obj ∈ objects, ∀ obj' ∈ objects, ∀ name sym sym', obj.Shares name →
    obj.symbols.get? name = some sym → obj'.symbols.get? name = some sym' →
    sym.isSection = sym'.isSection

variable {objects objects' : List Object} {placements : Placements}

instance (placements : Placements) (objects : List Object) :
    Decidable (Resolves placements objects) :=
  match h : outcome (do Linker.mergeSymbols; Linker.checkUnresolved)
      { toLinker := Linker.ready placements objects } with
  | (.ok (), c) => .isTrue ⟨c, h⟩
  | (.error _, _) => .isFalse fun hresolves => by
    obtain ⟨_, hruns⟩ := hresolves
    unfold Runs at hruns
    rw [h] at hruns
    cases hruns

/-- Going through the entries of the tables tells whether the kinds agree. -/
theorem kindsAgree_iff : KindsAgree objects ↔ ∀ obj ∈ objects, ∀ obj' ∈ objects,
    ∀ sym ∈ obj.symbols.entries, ∀ sym' ∈ obj'.symbols.entries,
      obj.symbols.get? sym.name = some sym → obj'.symbols.get? sym.name = some sym' →
      sym.isGlobal = true ∨ sym.isExtern = true → sym.isSection = sym'.isSection := by
  constructor
  · intro h obj hobj obj' hobj' sym _ sym' _ hsym hsym' hshared
    exact h obj hobj obj' hobj' sym.name sym sym' ⟨sym, hsym, hshared⟩ hsym hsym'
  · intro h obj hobj obj' hobj' name sym sym' hshares hsym hsym'
    obtain ⟨sym'', hsym'', hshared⟩ := hshares
    rw [hsym] at hsym''
    cases hsym''
    have hmem := SymbolTable.mem_of_get? hsym
    have hmem' := SymbolTable.mem_of_get? hsym'
    obtain rfl := SymbolTable.name_of_get? hsym
    exact h obj hobj obj' hobj' sym hmem sym' hmem' hsym hsym' hshared

instance (objects : List Object) : Decidable (KindsAgree objects) :=
  decidable_of_iff' _ kindsAgree_iff

theorem Resolvable.of_perm (h : Resolvable objects) (hperm : objects.Perm objects') :
    Resolvable objects' := by
  unfold Resolvable at h ⊢
  simpa only [hperm.mem_iff] using h

theorem KindsAgree.of_perm (h : KindsAgree objects) (hperm : objects.Perm objects') :
    KindsAgree objects' := by
  unfold KindsAgree at h ⊢
  simpa only [hperm.mem_iff] using h

/-! ## What resolves is resolvable, in any order -/

theorem Resolves.resolvable (h : Resolves placements objects) (hin : Inputs objects) :
    Resolvable objects := by
  obtain ⟨c, hrun⟩ := h
  obtain ⟨_, m, hmerge, hcheck⟩ := runs_bind.mp hrun
  obtain ⟨hall, rfl⟩ := Linker.runs_checkUnresolved.mp hcheck
  have hresolved := Linker.resolved_of_runs rfl hin (Linker.runs_mergeSymbols hmerge) hall
  intro obj hobj name hshares
  obtain ⟨entry, hget⟩ := Option.isSome_iff_exists.mp (hresolved.shared obj hobj name hshares)
  obtain ⟨only, honly, own, hexports, hsection, -⟩ := (hresolved.entry name entry).mp hget
  refine ⟨only, honly, ⟨own, hexports, hsection⟩, fun other hother sym hsym => ?_⟩
  exact hresolved.only name only honly other hother own sym hexports hsym

/-- Objects that are resolvable resolve, unless a section and a label under one name come to
light. -/
theorem Resolvable.resolves_or_conflict (h : Resolvable objects) (hin : Inputs objects) :
    Resolves placements objects ∨ ∃ e q name,
      Fails Linker.mergeSymbols { toLinker := Linker.ready placements objects } e q ∧
      e.Names .labelSectionConflict name ∧ Linker.Clash objects name .labelSectionConflict := by
  obtain ⟨_, c, hrun⟩ | ⟨e, q, hfails⟩ := runs_or_fails
    (do Linker.mergeSymbols; Linker.checkUnresolved) { toLinker := Linker.ready placements objects }
  · exact .inl ⟨c, hrun⟩
  obtain hmerge | ⟨_, m, hmerge, hcheck⟩ := fails_bind.mp hfails
  · obtain ⟨-, r, rfl, hclash⟩ := Linker.clash_of_fails rfl hin hmerge
    rcases hkind : r.kind
    all_goals rw [hkind] at hclash
    case labelSectionConflict => exact .inr ⟨_, q, r.name, hmerge, ⟨hkind, rfl⟩, hclash⟩
    case multipleDefinition =>
      cases hclash with
      | definitions hobj hobj' hne hsym hsym' =>
        obtain ⟨only, -, -, honly⟩ := h _ hobj _ hsym.shares
        exact absurd ((honly _ hobj _ hsym).trans (honly _ hobj' _ hsym').symm) hne
    all_goals cases hclash
  · obtain ⟨-, sym, hsym, hunresolved, -⟩ := Linker.fails_checkUnresolved hcheck
    obtain ⟨⟨obj, hobj, hshares⟩, hnone⟩ :=
      Linker.unresolved_of_ready rfl hin (Linker.runs_mergeSymbols hmerge) hsym hunresolved
    obtain ⟨only, honly, ⟨own, hexports, hsection⟩, -⟩ := h obj hobj _ hshares
    exact absurd (hnone only honly own hexports) hsection

theorem KindsAgree.not_clash (h : KindsAgree objects) {name : Bytes} :
    ¬ Linker.Clash objects name .labelSectionConflict := by
  intro hclash
  cases hclash with
  | kinds hobj hobj' hsym hsym' hshares hne =>
    exact hne (h _ hobj _ hobj' name _ _ hshares hsym hsym')

theorem Resolvable.resolves (h : Resolvable objects) (hkinds : KindsAgree objects)
    (hin : Inputs objects) : Resolves placements objects := by
  obtain hresolves | ⟨_, _, _, -, -, hclash⟩ := h.resolves_or_conflict hin
  · exact hresolves
  · exact absurd hclash hkinds.not_clash

/-! ## Orders that are refused -/

namespace Linker

variable {s m : Linker.Progress}

theorem offers_ascending (hs : s.toLinker = ready placements objects) :
    s.offers.Pairwise fun x y => x.number ≤ y.number := by
  unfold offers
  rw [List.pairwise_flatMap]
  constructor
  · intro x _
    rw [List.pairwise_map]
    exact List.pairwise_of_forall fun _ _ => Nat.le_refl _
  · unfold linkedObjects
    rw [hs, List.pairwise_filterMap]
    refine List.pairwise_lt_range.imp fun {a b} hlt x hx y hy v hv w hw => ?_
    obtain ⟨_, -, rfl⟩ := Option.map_eq_some_iff.mp hx
    obtain ⟨_, -, rfl⟩ := Option.map_eq_some_iff.mp hy
    obtain ⟨_, -, rfl⟩ := List.mem_map.mp hv
    obtain ⟨_, -, rfl⟩ := List.mem_map.mp hw
    exact Nat.le_of_lt hlt

/-- What comes behind the definition of a name is a section exactly if the definition is. -/
theorem kind_behind_definition (hs : s.toLinker = ready placements objects) (hin : Inputs objects)
    (hmerge : Runs (forM s.offers merge) s () m) {x y : Offer} (hy : y ∈ s.offers)
    (hdefines : y.Defines) (hx : x ∈ s.offers) (hlt : y.number < x.number)
    (hname : y.symbol.name = x.symbol.name) : y.symbol.isSection = x.symbol.isSection := by
  obtain ⟨front, back, hoffers⟩ := List.append_of_mem hx
  have hascending := offers_ascending hs
  rw [hoffers] at hascending hy hmerge
  have hfront : y ∈ front := by
    rcases List.mem_append.mp hy with hy | hy
    · exact hy
    · rcases List.mem_cons.mp hy with rfl | hy
      · omega
      · have hback := (List.pairwise_append.mp hascending).2.1
        have hle := (List.pairwise_cons.mp hback).1 y hy
        omega
  obtain ⟨r, hr, hrest⟩ := runs_forM_append.mp hmerge
  obtain ⟨r', hr', -⟩ := runs_forM_cons.mp hrest
  have hget := (merged_of_ready hs hin hoffers hr).definition y hfront hdefines
  rw [hname] at hget
  obtain ⟨taken, htakes, -⟩ := runs_merge hr'
  have hown : y.symbol.isExtern = false :=
    (coherent_of_ready hs hin).own y (hoffers ▸ hy) hdefines.2
  rcases SymbolTable.takes_cases htakes with ⟨hnone, -⟩ | ⟨old, hold, -, -, -, hweak⟩ |
    ⟨old, hold, -, -, hsame, -⟩
  · rw [hget] at hnone
    cases hnone
  · rw [hget] at hold
    obtain rfl := Option.some.inj hold
    obtain himport | hundefined := hweak
    · exact absurd (himport.symm.trans hown) (by decide)
    · exact absurd (hundefined.symm.trans hdefines.2) (by decide)
  · rw [hget] at hold
    obtain rfl := Option.some.inj hold
    exact hsame

end Linker

/-- If an object with a definition comes first and resolves with the next one, the name is a section
in both or in neither. -/
theorem kinds_of_resolves {first next : Object} {rest : List Object}
    (h : Resolves placements (first :: next :: rest)) (hin : Inputs (first :: next :: rest))
    {name : Bytes} {sym sym' : Symbol} (hsym : first.Exports name sym)
    (hsym' : next.symbols.get? name = some sym') : sym.isSection = sym'.isSection := by
  obtain ⟨c, hrun⟩ := h
  obtain ⟨_, m, hmerge, -⟩ := runs_bind.mp hrun
  have hfirst : Offer.mk 0 first sym ∈ (Linker.ready placements (first :: next :: rest)).offers := by
    refine (Linker.mem_offers_of_ready (s := { toLinker := Linker.ready placements _ }) rfl).mpr ?_
    exact ⟨rfl, SymbolTable.mem_of_get? hsym.1⟩
  have hnext : Offer.mk 1 next sym' ∈ (Linker.ready placements (first :: next :: rest)).offers := by
    refine (Linker.mem_offers_of_ready (s := { toLinker := Linker.ready placements _ }) rfl).mpr ?_
    exact ⟨rfl, SymbolTable.mem_of_get? hsym'⟩
  have hname : sym.name = sym'.name :=
    (SymbolTable.name_of_get? hsym.1).trans (SymbolTable.name_of_get? hsym').symm
  exact Linker.kind_behind_definition rfl hin (Linker.runs_mergeSymbols hmerge) hfirst hsym.2 hnext
    Nat.zero_lt_one hname

theorem kindsAgree_of_resolves (hin : Inputs objects)
    (h : ∀ order, objects.Perm order → Resolves placements order) : KindsAgree objects := by
  have hresolvable := (h objects (.refl objects)).resolvable hin
  intro obj hobj obj' hobj' name sym sym' hshares hsym hsym'
  obtain ⟨only, honly, ⟨own, hexports, -⟩, -⟩ := hresolvable obj hobj name hshares
  have hkind {x : Object} (hx : x ∈ objects) {symx : Symbol}
      (hsymx : x.symbols.get? name = some symx) : own.isSection = symx.isSection := by
    by_cases hsame : x = only
    · rw [hsame, hexports.1] at hsymx
      rw [Option.some.inj hsymx]
    · -- the order that puts the definition first and this object next
      have hx' : x ∈ objects.erase only := (List.mem_erase_of_ne hsame).mpr hx
      have hperm : objects.Perm (only :: x :: (objects.erase only).erase x) :=
        (List.perm_cons_erase honly).trans ((List.perm_cons_erase hx').cons only)
      exact kinds_of_resolves (h _ hperm) (hin.of_perm hperm) hexports hsymx
  exact (hkind hobj hsym).symm.trans (hkind hobj' hsym')

/-- Of assembled objects in which no shared name is a section here and a label there, every order
resolves or none does. Whatever the objects, if one order resolves then another one resolves as well
or is refused over a section and a label. All orders resolve exactly if each shared name is defined
once and the kinds agree. -/
theorem order_decides_only_conflicts
    (hobjects : ∀ obj ∈ objects, ∃ name source, (Object.assemble name source).1 = .ok obj)
    (hnames : (objects.map Object.name).Nodup) (hperm : objects.Perm objects') :
    (KindsAgree objects → (Resolves placements objects ↔ Resolves placements objects')) ∧
    (Resolves placements objects → Resolves placements objects' ∨ ∃ e q name,
      Fails Linker.mergeSymbols { toLinker := Linker.ready placements objects' } e q ∧
      e.Names .labelSectionConflict name) ∧
    ((∀ order, objects.Perm order → Resolves placements order) ↔
      Resolvable objects ∧ KindsAgree objects) := by
  have hin := Inputs.of_assemble hobjects hnames
  have hin' := hin.of_perm hperm
  refine ⟨fun hkinds => ⟨fun h => ?_, fun h => ?_⟩, fun h => ?_, fun h => ?_, fun h order ho => ?_⟩
  · exact ((h.resolvable hin).of_perm hperm).resolves (hkinds.of_perm hperm) hin'
  · exact ((h.resolvable hin').of_perm hperm.symm).resolves hkinds hin
  · have hresolvable := (h.resolvable hin).of_perm hperm
    obtain hresolves | ⟨e, q, name, hfails, hconflict, -⟩ := hresolvable.resolves_or_conflict hin'
    · exact .inl hresolves
    · exact .inr ⟨e, q, name, hfails, hconflict⟩
  · exact ⟨(h objects (.refl objects)).resolvable hin, kindsAgree_of_resolves hin h⟩
  · exact (h.1.of_perm ho).resolves (h.2.of_perm ho) (hin.of_perm ho)

theorem order_decides_only_conflicts_importing : ∃ a b,
    (Object.assemble (text "a.o") importing).1 = .ok a ∧
    (Object.assemble (text "b.o") exporting).1 = .ok b ∧
    KindsAgree [a, b] ∧ Resolves [] [a, b] ∧ Resolves [] [b, a] := by
  have h : ((Object.assemble (text "a.o") importing).1.toOption.bind fun a =>
      (Object.assemble (text "b.o") exporting).1.toOption.map fun b =>
        ([a.name, b.name], decide (KindsAgree [a, b]), decide (Resolves [] [a, b]))) =
      some ([text "a.o", text "b.o"], true, true) := by
    decide +kernel
  obtain ⟨a, ha, h⟩ := Option.bind_eq_some_iff.mp h
  obtain ⟨b, hb, h⟩ := Option.map_eq_some_iff.mp h
  simp only [Prod.mk.injEq, decide_eq_true_eq] at h
  obtain ⟨hnames, hkinds, hresolves⟩ := h
  have ha := eq_ok_of_toOption ha
  have hb := eq_ok_of_toOption hb
  have hobjects := assembled_pair ha hb
  have hnodup := nodup_names_pair hnames (by decide)
  have hswapped : Resolves [] [a, b] ↔ Resolves [] [b, a] :=
    (order_decides_only_conflicts hobjects hnodup (.swap b a [])).1 hkinds
  exact ⟨a, b, ha, hb, hkinds, hresolves, hswapped.mp hresolves⟩

/-- A source that imports a section. -/
def importingSection : Bytes := text ".extern data\n.section text\nld data, %r1\nhalt\n"

/-- A source that exports the section. -/
def exportingSection : Bytes := text ".section data\n.global data\n.word 5\n"

/-- An exported section can be imported by an object before it and not by one behind it. -/
theorem order_decides_section_import : ∃ a b,
    (Object.assemble (text "a.o") importingSection).1 = .ok a ∧
    (Object.assemble (text "b.o") exportingSection).1 = .ok b ∧
    Resolves [] [a, b] ∧ ¬ Resolves [] [b, a] := by
  have h : ((Object.assemble (text "a.o") importingSection).1.toOption.bind fun a =>
      (Object.assemble (text "b.o") exportingSection).1.toOption.map fun b =>
        (decide (Resolves [] [a, b]), decide (Resolves [] [b, a]))) = some (true, false) := by
    decide +kernel
  obtain ⟨a, ha, h⟩ := Option.bind_eq_some_iff.mp h
  obtain ⟨b, hb, h⟩ := Option.map_eq_some_iff.mp h
  simp only [Prod.mk.injEq, decide_eq_true_eq, decide_eq_false_iff_not] at h
  exact ⟨a, b, eq_ok_of_toOption ha, eq_ok_of_toOption hb, h⟩

end AsmKit
