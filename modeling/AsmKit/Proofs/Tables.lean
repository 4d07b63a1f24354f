import AsmKit.Assembler.FirstPass
import AsmKit.Proofs.Sorting
import Mathlib.Data.List.Nodup

/-
  What the tables of an object answer after a change: symbols by name, sections by name, and the
  list of relocations. `get?` and `findSection` are the only views that later modules use; the
  order of the entries matters only where a whole table is gone through (`Ascending`), and so do the
  numbers of the symbols (`Numbered`).
-/

namespace AsmKit

/-- Looking up a key after a change that keeps every key. -/
theorem find?_map_keyed {α β : Type} [BEq β] (key : α → β) {g : α → α}
    (hg : ∀ x, key (g x) = key x) (l : List α) (k : β) :
    (l.map g).find? (fun x => key x == k) = (l.find? fun x => key x == k).map g := by
  rw [List.find?_map]
  have h : (fun x => key x == k) ∘ g = fun x => key x == k := funext fun x => by
    simp only [Function.comp, hg]
  rw [h]

/-- Where no two elements share a key, looking one up by its key finds it. -/
theorem find?_keyed_eq_some_iff {α β : Type} [BEq β] [LawfulBEq β] (key : α → β) {l : List α}
    (hl : (l.map key).Nodup) (k : β) (a : α) :
    l.find? (fun x => key x == k) = some a ↔ a ∈ l ∧ key a = k := by
  constructor
  · intro h
    exact ⟨List.mem_of_find?_eq_some h, by simpa using List.find?_some h⟩
  · rintro ⟨ha, rfl⟩
    have hsome : (l.find? fun x => key x == key a).isSome := by
      rw [List.find?_isSome]
      exact ⟨a, ha, beq_self_eq_true _⟩
    obtain ⟨b, hb⟩ := Option.isSome_iff_exists.mp hsome
    have hkey : key b = key a := by simpa using List.find?_some hb
    rw [hb, List.inj_on_of_nodup_map hl (List.mem_of_find?_eq_some hb) ha hkey]

/-! ## Symbols by name -/

namespace Symbol

theorem find?_put (sym : Symbol) (l : List Symbol) (n : Bytes) :
    (sym.put l).find? (fun s => s.name == n) =
      if n = sym.name then some sym else l.find? (fun s => s.name == n) := by
  by_cases hn : n = sym.name
  · subst hn
    rw [if_pos rfl]
    induction l with
    | nil => simp [put]
    | cons s rest ih =>
      simp only [put]
      split
      · simp
      · next hs =>
        split
        · simp
        · simp [hs, ih]
  · rw [if_neg hn]
    have hsym : (sym.name == n) = false := by simpa using Ne.symm hn
    induction l with
    | nil => simp [put, hsym]
    | cons s rest ih =>
      simp only [put]
      split
      · next hs => simp [hs, hsym]
      · split
        · simp [List.find?_cons, hsym]
        · simp [List.find?_cons, ih]

theorem mem_put {sym s : Symbol} {l : List Symbol} (h : s ∈ sym.put l) : s = sym ∨ s ∈ l := by
  induction l with
  | nil => simpa [put] using h
  | cons x rest ih =>
    simp only [put] at h
    split at h
    · rcases List.mem_cons.mp h with h | h
      · exact Or.inl h
      · exact Or.inr (List.mem_cons_of_mem _ h)
    · split at h
      · exact List.mem_cons.mp h
      · rcases List.mem_cons.mp h with h | h
        · exact Or.inr (h ▸ List.mem_cons_self)
        · exact (ih h).imp_right (List.mem_cons_of_mem _)

/-- A symbol put into an ascending list leaves it ascending. -/
theorem pairwise_put (sym : Symbol) {l : List Symbol}
    (h : l.Pairwise fun a b => a.name < b.name) :
    (sym.put l).Pairwise fun a b => a.name < b.name := by
  induction l with
  | nil => simp [put]
  | cons s rest ih =>
    obtain ⟨hs, hrest⟩ := List.pairwise_cons.mp h
    simp only [put]
    split
    · next he => exact List.pairwise_cons.mpr ⟨fun x hx => he ▸ hs x hx, hrest⟩
    · next hne =>
      split
      · next hlt =>
        refine List.pairwise_cons.mpr ⟨fun x hx => ?_, h⟩
        rcases List.mem_cons.mp hx with rfl | hx
        · exact hlt
        · exact List.lt_trans hlt (hs x hx)
      · next hnlt =>
        refine List.pairwise_cons.mpr ⟨fun x hx => ?_, ih hrest⟩
        rcases mem_put hx with rfl | hx
        · exact (List.le_iff_lt_or_eq.mp (List.not_lt.mp hnlt)).resolve_right hne
        · exact hs x hx

/-- A symbol of a new name is added. -/
theorem put_perm (sym : Symbol) {l : List Symbol} (h : ∀ s ∈ l, s.name ≠ sym.name) :
    (sym.put l).Perm (sym :: l) := by
  induction l with
  | nil => exact .refl _
  | cons s rest ih =>
    simp only [put]
    rw [if_neg (h s List.mem_cons_self)]
    split
    · exact .refl _
    · have hrest := ih fun x hx => h x (List.mem_cons_of_mem s hx)
      exact (hrest.cons s).trans (.swap sym s rest)

end Symbol

namespace SymbolTable

variable {t : SymbolTable} {n name : Bytes} {s : Symbol}

theorem name_of_get? (h : t.get? n = some s) : s.name = n := by
  simpa using List.find?_some h

theorem mem_of_get? (h : t.get? n = some s) : s ∈ t.entries := List.mem_of_find?_eq_some h

theorem get?_insert (t : SymbolTable) (sym : Symbol) (n : Bytes) :
    (t.insert sym).get? n = if n = sym.name then some sym else t.get? n :=
  Symbol.find?_put sym t.entries n

theorem get?_create (t : SymbolTable) (name sectionName : Bytes) (value : UInt32) (size : Int64)
    (n : Bytes) : (t.create name sectionName value size).get? n =
      if n = name then some { name, sectionName, value, number := t.next, size } else t.get? n :=
  Symbol.find?_put _ t.entries n

theorem get?_modify (t : SymbolTable) (name : Bytes) (f : Symbol → Symbol) (n : Bytes) :
    (t.modify name f).get? n =
      if n = name then (t.get? n).map fun s => { f s with name } else t.get? n := by
  have hmap : (t.modify name f).get? n =
      (t.get? n).map fun s => if s.name = name then { f s with name } else s :=
    find?_map_keyed Symbol.name (fun x => by split <;> simp_all) t.entries n
  rw [hmap]
  rcases h : t.get? n with _ | s
  · simp
  · have hs := name_of_get? h
    by_cases hn : n = name <;> simp [hs, hn]

theorem get?_mention (t : SymbolTable) (name n : Bytes) :
    (t.mention name).get? n =
      if n = name then
        some ((t.get? n).getD ⟨name, undefinedSection, 0, false, false, t.next, Symbol.noSize, false, []⟩)
      else t.get? n := by
  unfold mention
  by_cases hn : n = name
  · subst hn
    split
    · next s hs => simp [hs]
    · next hs => simp [hs, get?_create]
  · split
    · simp [hn]
    · simp [hn, get?_create]

/-- The names of the entries ascend, so that each stands for one symbol. -/
def Ascending (t : SymbolTable) : Prop := t.entries.Pairwise fun a b => a.name < b.name

theorem ascending_empty : ({} : SymbolTable).Ascending := List.Pairwise.nil

theorem Ascending.insert (h : t.Ascending) (sym : Symbol) : (t.insert sym).Ascending :=
  Symbol.pairwise_put sym h

theorem Ascending.create (h : t.Ascending) (name sectionName : Bytes) (value : UInt32)
    (size : Int64) : (t.create name sectionName value size).Ascending :=
  h.insert _

theorem Ascending.modify (h : t.Ascending) (name : Bytes) (f : Symbol → Symbol) :
    (t.modify name f).Ascending := by
  refine List.pairwise_map.mpr (List.Pairwise.imp (fun {a b} hab => ?_) h)
  have keep : ∀ x : Symbol, (if x.name = name then { f x with name } else x).name = x.name := by
    intro x
    split
    · next hx => exact hx.symm
    · rfl
  rw [keep, keep]
  exact hab

theorem Ascending.mention (h : t.Ascending) (name : Bytes) : (t.mention name).Ascending := by
  unfold SymbolTable.mention
  split
  · exact h
  · exact h.create _ _ _ _

theorem Ascending.nodup (h : t.Ascending) : (t.entries.map Symbol.name).Nodup := by
  refine List.pairwise_map.mpr (List.Pairwise.imp (fun {a b} hab he => ?_) h)
  rw [he] at hab
  exact List.lt_irrefl _ hab

theorem Ascending.get?_eq_some_iff (h : t.Ascending) :
    t.get? n = some s ↔ s ∈ t.entries ∧ s.name = n :=
  find?_keyed_eq_some_iff Symbol.name h.nodup n s

/-- The symbols are numbered from zero, and the next number is the one that follows. -/
structure Numbered (t : SymbolTable) : Prop where
  numbers : (t.entries.map Symbol.number).Perm ((List.range t.entries.length).map Int64.ofNat)
  next : t.next = Int64.ofNat t.entries.length

theorem numbered_empty : ({} : SymbolTable).Numbered := ⟨.refl _, rfl⟩

theorem Numbered.create (h : t.Numbered) (hnew : t.get? name = none) (sectionName : Bytes)
    (value : UInt32) (size : Int64) : (t.create name sectionName value size).Numbered := by
  have hput := Symbol.put_perm { name, sectionName, value, number := t.next, size }
    (l := t.entries) fun s hs => by simpa using List.find?_eq_none.mp hnew s hs
  have hlength : (t.create name sectionName value size).entries.length = t.entries.length + 1 :=
    hput.length_eq
  constructor
  · rw [hlength, List.range_succ, List.map_append, List.map_singleton, ← h.next]
    refine (hput.map Symbol.number).trans ?_
    exact (h.numbers.cons t.next).trans (List.perm_append_singleton _ _).symm
  · rw [hlength, Int64.ofNat_add, ← h.next]
    rfl

theorem Numbered.modify {f : Symbol → Symbol} (h : t.Numbered)
    (hf : ∀ s, (f s).number = s.number) (name : Bytes) : (t.modify name f).Numbered := by
  have hnumbers : (t.modify name f).entries.map Symbol.number = t.entries.map Symbol.number := by
    unfold SymbolTable.modify
    rw [List.map_map]
    refine List.map_congr_left fun s _ => ?_
    dsimp only [Function.comp]
    split
    · exact hf s
    · rfl
  have hlength : (t.modify name f).entries.length = t.entries.length := List.length_map ..
  constructor
  · rw [hnumbers, hlength]
    exact h.numbers
  · rw [hlength]
    exact h.next

theorem Numbered.mention (h : t.Numbered) (name : Bytes) : (t.mention name).Numbered := by
  unfold SymbolTable.mention
  split
  · exact h
  · next hnew => exact h.create hnew _ _ _

end SymbolTable

/-! ## Sections by name -/

namespace Object

variable {obj : Object} {n name : Bytes} {s : Section}

/-- The names of the sections, in order. -/
def sectionNames (obj : Object) : List Bytes := obj.sections.map Section.name

theorem name_of_findSection (h : obj.findSection n = some s) : s.name = n := by
  simpa using List.find?_some h

theorem mem_of_findSection (h : obj.findSection n = some s) : s ∈ obj.sections :=
  List.mem_of_find?_eq_some h

theorem findSection_isSome_iff : (obj.findSection n).isSome = true ↔ n ∈ obj.sectionNames := by
  unfold findSection sectionNames
  rw [List.find?_isSome, List.mem_map]
  simp

theorem exists_findSection (h : n ∈ obj.sectionNames) : ∃ s, obj.findSection n = some s :=
  Option.isSome_iff_exists.mp (findSection_isSome_iff.mpr h)

theorem findSection_eq_some_iff (h : obj.sectionNames.Nodup) :
    obj.findSection n = some s ↔ s ∈ obj.sections ∧ s.name = n :=
  find?_keyed_eq_some_iff Section.name h n s

theorem findSection_modifySection (obj : Object) (name : Bytes) (f : Section → Section)
    (n : Bytes) : (obj.modifySection name f).findSection n =
      if n = name then (obj.findSection n).map fun s => { f s with name }
      else obj.findSection n := by
  have hmap : (obj.modifySection name f).findSection n =
      (obj.findSection n).map fun s => if s.name = name then { f s with name } else s :=
    find?_map_keyed Section.name (fun x => by split <;> simp_all) obj.sections n
  rw [hmap]
  rcases h : obj.findSection n with _ | s
  · simp
  · have hs := name_of_findSection h
    by_cases hn : n = name <;> simp [hs, hn]

@[simp] theorem sectionNames_modifySection (obj : Object) (name : Bytes) (f : Section → Section) :
    (obj.modifySection name f).sectionNames = obj.sectionNames := by
  unfold sectionNames modifySection
  rw [List.map_map]
  refine List.map_congr_left fun x _ => ?_
  simp only [Function.comp]
  split
  · next h => exact h.symm
  · rfl

theorem addSection_eq_ok_iff {obj' : Object} : obj.addSection name = .ok obj' ↔
    name ∉ obj.sectionNames ∧ obj' = { obj with sections := obj.sections ++ [{ name }] } := by
  unfold addSection
  rw [← findSection_isSome_iff]
  split
  · next h => simp [h]
  · next h => simp [h, eq_comm]

theorem sectionNames_opened (obj : Object) (symbols : SymbolTable) (name : Bytes) :
    { obj with symbols, sections := obj.sections ++ [{ name }] : Object }.sectionNames =
      obj.sectionNames ++ [name] := by
  simp [sectionNames]

end Object

/-! ## Relocations -/

namespace Relocation

theorem le_total (a b : Relocation) :
    decide (a.symbol ≤ b.symbol) = true ∨ decide (b.symbol ≤ a.symbol) = true := by
  rw [decide_eq_true_iff, decide_eq_true_iff]
  exact List.le_total a.symbol b.symbol

theorem le_trans (a b c : Relocation) (hab : decide (a.symbol ≤ b.symbol) = true)
    (hbc : decide (b.symbol ≤ c.symbol) = true) : decide (a.symbol ≤ c.symbol) = true := by
  rw [decide_eq_true_iff] at hab hbc ⊢
  exact List.le_trans hab hbc

end Relocation

namespace RelocationTable

/-- A relocation added to an ascending table leaves it ascending. -/
theorem pairwise_add {t : RelocationTable}
    (h : t.entries.Pairwise fun a b => a.symbol ≤ b.symbol) (r : Relocation) :
    (t.add r).entries.Pairwise fun a b => a.symbol ≤ b.symbol := by
  have hsorted := Ordered.insert_pairwise Relocation.le_total Relocation.le_trans r
    (h.imp fun hab => decide_eq_true hab)
  exact hsorted.imp fun hab => of_decide_eq_true hab

theorem add_perm (t : RelocationTable) (r : Relocation) :
    (t.add r).entries.Perm (t.entries ++ [r]) :=
  (Ordered.insert_perm _ r t.entries).trans (List.perm_append_singleton r t.entries).symm

theorem foldl_add_perm {α : Type} (f : α → Relocation) (xs : List α) (t : RelocationTable) :
    (xs.foldl (fun t x => t.add (f x)) t).entries.Perm (t.entries ++ xs.map f) := by
  induction xs generalizing t with
  | nil => simp
  | cons x xs ih =>
    have h := (ih (t.add (f x))).trans ((t.add_perm (f x)).append_right (xs.map f))
    simpa using h

end RelocationTable

end AsmKit
