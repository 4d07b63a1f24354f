import AsmKit.Proofs.Placement

/-
  The symbols that objects share. Every symbol of every object goes through `mergeSymbol` once, in
  the order of `offers`. What is merged so far is described by `Merged`: each shared symbol comes
  from an object, a global definition is never displaced, and every section is found by its name
  and the name of its file. One symbol keeps this up (`Merged.offer`), hence so do all of them
  (`merged_of_runs`).
-/

namespace AsmKit

/-- A symbol of one of several objects. -/
structure Offer where
  number : Nat
  object : Object
  symbol : Symbol

namespace Offer

/-- The symbol as other objects see it. -/
def shared (x : Offer) : Symbol := { x.symbol with file := x.object.name }

/-- The symbol is a definition for other objects. -/
def Defines (x : Offer) : Prop := x.symbol.isGlobal = true ∧ x.symbol.isDefined = true

end Offer

/-- The ways in which a symbol is taken into the table or is not. -/
theorem SymbolTable.takes_cases {t : SymbolTable} {sym : Symbol} {taken : Bool}
    (h : t.takes sym = .ok taken) :
    (t.get? sym.name = none ∧ taken = (sym.isGlobal || sym.isExtern)) ∨
    (∃ old, t.get? sym.name = some old ∧ taken = true ∧ sym.isGlobal = true ∧
      sym.isDefined = true ∧ (old.isExtern = true ∨ old.isDefined = false)) ∨
    (∃ old, t.get? sym.name = some old ∧ taken = false ∧
      ¬ (sym.isGlobal = true ∧ sym.isDefined = true ∧
        (old.isExtern = true ∨ old.isDefined = false)) ∧
      old.isSection = sym.isSection ∧
      ¬ (old.isGlobal = true ∧ sym.isGlobal = true ∧ old.isDefined = true ∧
        sym.isDefined = true)) := by
  unfold takes at h
  rcases hold : t.get? sym.name with _ | old
  · rw [hold] at h
    cases h
    exact .inl ⟨rfl, rfl⟩
  · rw [hold] at h
    dsimp only at h
    split at h
    · next hdef =>
      cases h
      refine .inr (.inl ⟨old, rfl, rfl, ?_⟩)
      simpa [and_assoc] using hdef
    · next hdef =>
      split at h
      · cases h
      · next hkind =>
        split at h
        · cases h
        · next htwo =>
          cases h
          refine .inr (.inr ⟨old, rfl, rfl, ?_, by simpa using hkind, ?_⟩)
          · simpa [and_assoc] using hdef
          · simpa [and_assoc] using htwo

namespace Linker

variable {p q : Linker.Progress}

/-- Every symbol of the objects being linked, in their order. -/
def offers (l : Linker) : List Offer :=
  l.linkedObjects.flatMap fun (n, obj) => obj.symbols.entries.map (Offer.mk n obj)

/-- Sends a symbol to the table of shared symbols. -/
def merge (x : Offer) : Linking Unit := mergeSymbol x.number x.object x.symbol

theorem runs_mergeSymbols (h : Runs mergeSymbols p () q) : Runs (forM p.offers merge) p () q :=
  runs_objects (fun obj => obj.symbols.entries) Offer.mk merge h

theorem runs_share {x : Offer} {taken : Bool} {e : Event}
    (h : Runs (if taken = true then do
        modify fun p => { p with symbols := p.symbols.insert x.shared }
        record e
      else pure ()) p () q) :
    q = { p with symbols := if taken then p.symbols.insert x.shared else p.symbols, log := q.log } := by
  cases taken with
  | false =>
    obtain ⟨-, rfl⟩ := runs_pure.mp h
    rfl
  | true =>
    simp only [if_true, runs_bind, runs_modify, runs_record] at h
    obtain ⟨_, _, rfl, rfl⟩ := h
    rfl

theorem get?_share (t : SymbolTable) (x : Offer) (taken : Bool) (name : Bytes) :
    (if taken = true then t.insert x.shared else t).get? name =
      if taken = true ∧ name = x.symbol.name then some x.shared else t.get? name := by
  cases taken with
  | false => simp
  | true =>
    simp only [if_true, true_and]
    exact SymbolTable.get?_insert ..

/-- All that merging one symbol does. -/
theorem runs_merge {x : Offer} (h : Runs (merge x) p () q) :
    ∃ taken, p.symbols.takes x.symbol = .ok taken ∧
      q = { p with
        symbols := if taken then p.symbols.insert x.shared else p.symbols
        index := if x.symbol.isSection then
            ((x.symbol.name, x.object.name), ⟨x.number, x.symbol.name⟩) :: p.index
          else p.index
        log := q.log } := by
  unfold merge mergeSymbol at h
  by_cases hsec : x.symbol.isSection = true
  · simp only [hsec, if_true, runs_bind, runs_liftExcept, runs_modify, runs_get] at h
    obtain ⟨_, _, ⟨-, rfl⟩, _, _, rfl, _, _, ⟨rfl, rfl⟩, taken, _, ⟨htakes, rfl⟩, h⟩ := h
    refine ⟨taken, htakes, ?_⟩
    rw [if_pos hsec]
    exact runs_share h
  · simp only [hsec, Bool.false_eq_true, if_false, runs_bind, runs_liftExcept, runs_get] at h
    obtain ⟨_, _, ⟨rfl, rfl⟩, taken, _, ⟨htakes, rfl⟩, h⟩ := h
    refine ⟨taken, htakes, ?_⟩
    rw [if_neg hsec]
    exact runs_share h

/-- Merging changes the shared symbols and where they stand, but no object. -/
theorem merge_frame {xs : List Offer} (h : Runs (forM xs merge) p () q) :
    q = { p with symbols := q.symbols, index := q.index, log := q.log } := by
  refine runs_forM_rel
    (R := fun p q : Progress => q = { p with symbols := q.symbols, index := q.index, log := q.log })
    (fun _ => rfl) (fun {s t u} hst htu => ?_) (fun x _ s t hx => ?_) h
  · rw [hst] at htu
    exact htu
  · obtain ⟨taken, -, ht⟩ := runs_merge hx
    rw [ht]

/-! ## What is merged -/

/-- The offers are those of sound objects: what is defined is not imported, and objects have
different names. -/
structure Coherent (xs : List Offer) : Prop where
  own : ∀ x ∈ xs, x.symbol.isDefined = true → x.symbol.isExtern = false
  names : ∀ x ∈ xs, ∀ y ∈ xs, x.object.name = y.object.name → x.number = y.number

theorem Coherent.left {xs ys : List Offer} (h : Coherent (xs ++ ys)) : Coherent xs := by
  constructor
  · exact fun x hx => h.own x (List.mem_append_left _ hx)
  · exact fun x hx y hy => h.names x (List.mem_append_left _ hx) y (List.mem_append_left _ hy)

/-- The linker has merged some symbols. -/
structure Merged (xs : List Offer) (l : Linker) : Prop where
  source : ∀ name sym, l.symbols.get? name = some sym → ∃ x ∈ xs, sym = x.shared ∧
    (x.symbol.isGlobal = true ∨ x.symbol.isExtern = true)
  definition : ∀ x ∈ xs, x.Defines → l.symbols.get? x.symbol.name = some x.shared
  index : ∀ x ∈ xs, x.symbol.isSection = true →
    l.index.lookup (x.symbol.name, x.object.name) = some ⟨x.number, x.symbol.name⟩

variable {xs ys : List Offer} {x : Offer}

/-- A definition is taken, or merging fails: what stands in the table already is imported or not
defined, for a definition there would be a second one. -/
theorem Merged.takes_definition (h : Merged xs p.toLinker) {taken : Bool} (hx : x.Defines)
    (htakes : p.symbols.takes x.symbol = .ok taken) : taken = true := by
  rcases SymbolTable.takes_cases htakes with ⟨-, rfl⟩ | ⟨_, -, rfl, -⟩ | ⟨old, hold, -, hnot, -, htwo⟩
  · rw [hx.1, Bool.true_or]
  · rfl
  · obtain ⟨y, -, rfl, hy⟩ := h.source _ _ hold
    obtain ⟨himport, hdefined⟩ : y.shared.isExtern = false ∧ y.shared.isDefined = true := by
      simpa [hx.1, hx.2] using hnot
    have hglobal : y.shared.isGlobal = true := by
      rcases hy with hy | hy
      · exact hy
      · exact absurd (hy.symm.trans himport) (by decide)
    exact absurd ⟨hglobal, hx.1, hdefined, hx.2⟩ htwo

/-- A definition that stands in the table is not displaced. -/
theorem Merged.not_displaced (h : Merged xs p.toLinker) (hxs : Coherent xs) {y : Offer}
    (hy : y ∈ xs) (hdef : y.Defines) (hname : y.symbol.name = x.symbol.name) {taken : Bool}
    (htakes : p.symbols.takes x.symbol = .ok taken) : taken = false := by
  have hold := h.definition y hy hdef
  rw [hname] at hold
  rcases SymbolTable.takes_cases htakes with ⟨hnone, -⟩ | ⟨old, hold', -, -, -, hweak⟩ | ⟨_, -, e, -⟩
  · rw [hold] at hnone
    cases hnone
  · rw [hold] at hold'
    cases hold'
    rcases hweak with himport | hundef
    · exact absurd (himport.symm.trans (hxs.own y hy hdef.2)) (by decide)
    · exact absurd (hundef.symm.trans hdef.2) (by decide)
  · exact e

/-- What is in the table after one more symbol came from an object. -/
theorem source_of_merge (hrun : Runs (merge x) p () q)
    (h : ∀ name sym, p.symbols.get? name = some sym → ∃ y ∈ xs, sym = y.shared ∧
      (y.symbol.isGlobal = true ∨ y.symbol.isExtern = true)) {name : Bytes} {sym : Symbol}
    (hsym : q.symbols.get? name = some sym) : ∃ y ∈ xs ++ [x], sym = y.shared ∧
      (y.symbol.isGlobal = true ∨ y.symbol.isExtern = true) := by
  obtain ⟨taken, htakes, hq⟩ := runs_merge hrun
  rw [hq, get?_share] at hsym
  split at hsym
  · next htaken =>
    cases hsym
    refine ⟨x, List.mem_append_right _ (List.mem_singleton_self x), rfl, ?_⟩
    rcases SymbolTable.takes_cases htakes with ⟨-, e⟩ | ⟨_, -, -, hglobal, -⟩ | ⟨_, -, e, -⟩
    · rw [htaken.1] at e
      simpa using e.symm
    · exact .inl hglobal
    · rw [htaken.1] at e
      cases e
  · obtain ⟨y, hy, e⟩ := h name sym hsym
    exact ⟨y, List.mem_append_left _ hy, e⟩

theorem Merged.offer (h : Merged xs p.toLinker) (hxs : Coherent (xs ++ [x]))
    (hrun : Runs (merge x) p () q) : Merged (xs ++ [x]) q.toLinker := by
  obtain ⟨taken, htakes, hq⟩ := runs_merge hrun
  have hget (name : Bytes) : q.symbols.get? name =
      if taken = true ∧ name = x.symbol.name then some x.shared else p.symbols.get? name := by
    rw [hq]
    exact get?_share ..
  have hx : x ∈ xs ++ [x] := List.mem_append_right _ (List.mem_singleton_self x)
  constructor
  case source =>
    intro name sym hsym
    exact source_of_merge hrun h.source hsym
  case definition =>
    intro y hy hdef
    rw [hget]
    rcases List.mem_append.mp hy with hy | hy
    · rw [if_neg, h.definition y hy hdef]
      rintro ⟨htaken, hname⟩
      have hnot := h.not_displaced hxs.left hy hdef hname htakes
      rw [htaken] at hnot
      cases hnot
    · obtain rfl := List.mem_singleton.mp hy
      rw [if_pos ⟨h.takes_definition hdef htakes, rfl⟩]
  case index =>
    intro y hy hsec
    rw [hq]
    dsimp only
    rcases List.mem_append.mp hy with hy' | hy'
    · split
      · rw [List.lookup_cons]
        split
        · next hkey =>
          -- the same name in a file of the same name: the same section
          rw [beq_iff_eq, Prod.mk.injEq] at hkey
          rw [hkey.1, hxs.names y hy x hx hkey.2]
        · exact h.index y hy' hsec
      · exact h.index y hy' hsec
    · obtain rfl := List.mem_singleton.mp hy'
      rw [if_pos hsec, List.lookup_cons_self]

theorem merged_of_runs (h : Merged xs p.toLinker) (hall : Coherent (xs ++ ys))
    (hrun : Runs (forM ys merge) p () q) : Merged (xs ++ ys) q.toLinker := by
  induction ys generalizing xs p with
  | nil =>
    rw [runs_forM_nil.mp hrun, List.append_nil]
    exact h
  | cons y ys ih =>
    obtain ⟨r, hy, hys⟩ := runs_forM_cons.mp hrun
    have e : xs ++ y :: ys = (xs ++ [y]) ++ ys := by simp
    rw [e] at hall ⊢
    exact ih (h.offer hall.left hy) hall hys

/-! ## The offers of a linker -/

theorem mem_offers {l : Linker} {x : Offer} : x ∈ l.offers ↔
    x.number ∈ l.inputs ∧ l.objects[x.number]? = some x.object ∧
      x.symbol ∈ x.object.symbols.entries := by
  unfold offers
  rw [List.mem_flatMap]
  constructor
  · rintro ⟨⟨n, obj⟩, hobj, hx⟩
    obtain ⟨sym, hsym, rfl⟩ := List.mem_map.mp hx
    obtain ⟨hn, hobj⟩ := mem_linkedObjects.mp hobj
    exact ⟨hn, hobj, hsym⟩
  · rintro ⟨hn, hobj, hsym⟩
    exact ⟨(x.number, x.object), mem_linkedObjects.mpr ⟨hn, hobj⟩, List.mem_map_of_mem hsym⟩

theorem runs_checkUnresolved {u : Unit} : Runs checkUnresolved p u q ↔
    (∀ sym ∈ p.symbols.entries, isUnresolved sym = false) ∧ q = p := by
  unfold checkUnresolved
  simp only [runs_bind, runs_get]
  constructor
  · rintro ⟨_, p, ⟨rfl, rfl⟩, h⟩
    rcases hfind : p.symbols.entries.find? isUnresolved with _ | sym
    · rw [hfind] at h
      refine ⟨fun sym hsym => ?_, (runs_pure.mp h).2⟩
      simpa using List.find?_eq_none.mp hfind sym hsym
    · rw [hfind] at h
      exact absurd h runs_throw
  · rintro ⟨hall, rfl⟩
    refine ⟨_, _, ⟨rfl, rfl⟩, ?_⟩
    have hfind : q.symbols.entries.find? isUnresolved = none := by
      rw [List.find?_eq_none]
      intro sym hsym
      simp [hall sym hsym]
    rw [hfind]
    exact runs_pure.mpr ⟨rfl, rfl⟩

end Linker

end AsmKit
