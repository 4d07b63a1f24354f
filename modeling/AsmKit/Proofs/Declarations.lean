import AsmKit.Proofs.Tables
import Mathlib.Logic.Relation

/-
  What pass one may do to one symbol while it stays in a section (`Symbol.Declared`), what this
  keeps true of every symbol (`Symbol.Sound`) and what it never takes back (`Symbol.Keeps`). Pass
  one mentions, exports, imports and defines symbols; each of these is one such change to the
  symbol of one name.
-/

namespace AsmKit

open Relation (ReflTransGen)

namespace Symbol

/-- A symbol that is only referred to. -/
def blank (name : Bytes) (number : Int64) : Symbol :=
  { name, sectionName := undefinedSection, value := 0, number, size := noSize }

/-- The changes to a symbol at an address of a section. -/
inductive Declared (sectionName : Bytes) (address : UInt32) (s : Symbol) : Symbol → Prop where
  | mentioned : Declared sectionName address s s
  | exported (h : s.isExtern = false) :
      Declared sectionName address s { s with isGlobal := true }
  | imported (hg : s.isGlobal = false) (hd : s.isDefined = false) :
      Declared sectionName address s { s with isExtern := true }
  | labelled (hsection : sectionName ≠ undefinedSection) (hd : s.isDefined = false)
      (he : s.isExtern = false) :
      Declared sectionName address s { s with sectionName, value := address, isDefined := true }

/-- What holds of a symbol of an object with sections of the given names. -/
structure Sound (names : List Bytes) (s : Symbol) : Prop where
  exclusive : s.isGlobal = true → s.isExtern = false
  imported : s.isExtern = true → s.isDefined = false
  blank : s.isDefined = false → s.sectionName = undefinedSection ∧ s.value = 0
  home : s.isDefined = true → s.sectionName ∈ names
  ofSection : s.isSection = true →
    s.name ∈ names ∧ s.isDefined = true ∧ s.sectionName = s.name ∧ s.value = 0

/-- What is never taken back: a definition, a declaration, and whether the symbol is a section. -/
structure Keeps (s s' : Symbol) : Prop where
  definition : s.isDefined = true →
    s'.isDefined = true ∧ s'.sectionName = s.sectionName ∧ s'.value = s.value
  isSection : s'.isSection = s.isSection

theorem with_name {s : Symbol} {n : Bytes} (h : s.name = n) : { s with name := n } = s := by
  subst h
  rfl

variable {s s' s'' : Symbol} {names more : List Bytes} {sectionName : Bytes} {address : UInt32}

theorem Keeps.refl (s : Symbol) : Keeps s s := ⟨fun h => ⟨h, rfl, rfl⟩, rfl⟩

theorem Keeps.trans (h : Keeps s s') (h' : Keeps s' s'') : Keeps s s'' := by
  refine ⟨fun hd => ?_, h'.isSection.trans h.isSection⟩
  obtain ⟨hd', hs, hv⟩ := h.definition hd
  obtain ⟨hd'', hs', hv'⟩ := h'.definition hd'
  exact ⟨hd'', hs'.trans hs, hv'.trans hv⟩

theorem Declared.name (h : Declared sectionName address s s') : s'.name = s.name := by
  cases h <;> rfl

theorem Declared.size (h : Declared sectionName address s s') : s'.size = s.size := by
  cases h <;> rfl

theorem Declared.keeps (h : Declared sectionName address s s') : Keeps s s' := by
  have hs : s'.isSection = s.isSection := by
    unfold isSection
    rw [h.size]
  refine ⟨fun hd => ?_, hs⟩
  cases h with
  | mentioned => exact ⟨hd, rfl, rfl⟩
  | exported => exact ⟨hd, rfl, rfl⟩
  | imported _ hd' =>
    rw [hd'] at hd
    cases hd
  | labelled _ hd' =>
    rw [hd'] at hd
    cases hd

/-- A change defines a symbol only at the address it is made at. -/
theorem Declared.defined (h : Declared sectionName address s s') (hd : s'.isDefined = true) :
    s.isDefined = true ∧ s'.sectionName = s.sectionName ∧ s'.value = s.value ∨
      s'.sectionName = sectionName ∧ s'.value = address := by
  cases h with
  | mentioned => exact .inl ⟨hd, rfl, rfl⟩
  | exported => exact .inl ⟨hd, rfl, rfl⟩
  | imported => exact .inl ⟨hd, rfl, rfl⟩
  | labelled => exact .inr ⟨rfl, rfl⟩

theorem sound_blank (names : List Bytes) (name : Bytes) (number : Int64) :
    Sound names (Symbol.blank name number) := by
  constructor
  · intro h
    cases h
  · intro h
    cases h
  · exact fun _ => ⟨rfl, rfl⟩
  · intro h
    cases h
  · intro h
    cases h

theorem Sound.mono (h : Sound names s) (hnames : ∀ n ∈ names, n ∈ more) : Sound more s where
  exclusive := h.exclusive
  imported := h.imported
  blank := h.blank
  home hd := hnames _ (h.home hd)
  ofSection hs :=
    have ⟨hn, hd, hh, hv⟩ := h.ofSection hs
    ⟨hnames _ hn, hd, hh, hv⟩

theorem Declared.sound (h : Declared sectionName address s s')
    (hcurrent : sectionName ≠ undefinedSection → sectionName ∈ names) (hs : Sound names s) :
    Sound names s' := by
  cases h with
  | mentioned => exact hs
  | exported he =>
    exact ⟨fun _ => he, hs.imported, hs.blank, hs.home, hs.ofSection⟩
  | imported hg hd =>
    refine ⟨fun h => ?_, fun _ => hd, hs.blank, hs.home, hs.ofSection⟩
    exact absurd (h.symm.trans hg) (by decide)
  | labelled hsection hd he =>
    constructor
    · exact hs.exclusive
    · intro h
      exact absurd (h.symm.trans he) (by decide)
    · intro h
      cases h
    · exact fun _ => hcurrent hsection
    · intro h
      exact absurd ((hs.ofSection h).2.1.symm.trans hd) (by decide)

end Symbol

namespace SymbolTable

/-- The symbol of one name is changed, or made if there is none. -/
structure Declares (sectionName : Bytes) (address : UInt32) (t t' : SymbolTable) : Prop where
  ascending : t.Ascending → t'.Ascending
  numbered : t.Numbered → t'.Numbered
  change : ∃ name s, Symbol.Declared sectionName address
    ((t.get? name).getD (Symbol.blank name t.next)) s ∧
    ∀ n, t'.get? n = if n = name then some s else t.get? n

variable {t t' : SymbolTable} {sectionName name : Bytes} {address : UInt32}

theorem name_getD_blank (t : SymbolTable) (name : Bytes) :
    ((t.get? name).getD (Symbol.blank name t.next)).name = name := by
  rcases h : t.get? name with _ | s
  · rfl
  · exact name_of_get? h

theorem declares_modify {f : Symbol → Symbol} (hname : ∀ s, (f s).name = s.name)
    (hnumber : ∀ s, (f s).number = s.number)
    (h : Symbol.Declared sectionName address ((t.get? name).getD (Symbol.blank name t.next))
      (f ((t.get? name).getD (Symbol.blank name t.next)))) :
    Declares sectionName address t ((t.mention name).modify name f) := by
  refine ⟨fun ha => (ha.mention name).modify name f,
    fun hn => (hn.mention name).modify hnumber name, name, _, h, fun n => ?_⟩
  rw [get?_modify, get?_mention]
  split
  · next hn =>
    subst hn
    rw [Option.map_some]
    congr 1
    exact Symbol.with_name ((hname _).trans (t.name_getD_blank n))
  · rfl

theorem declares_mention (t : SymbolTable) (name : Bytes) :
    Declares sectionName address t (t.mention name) :=
  ⟨fun ha => ha.mention name, fun hn => hn.mention name, name, _, .mentioned, fun n => by
    rw [get?_mention]
    split
    · next hn =>
      subst hn
      rfl
    · rfl⟩

theorem declares_global (h : t.declareGlobal name = .ok t') :
    Declares sectionName address t t' := by
  unfold declareGlobal at h
  split at h
  · cases h
  · next hextern =>
    cases h
    refine declares_modify (fun _ => rfl) (fun _ => rfl) (.exported ?_)
    rcases hget : t.get? name with _ | s
    · rfl
    · simpa [hget] using hextern

theorem declares_extern (h : t.declareExtern name = .ok t') :
    Declares sectionName address t t' := by
  unfold declareExtern at h
  split at h
  · cases h
  · next hglobal =>
    split at h
    · cases h
    · next hdefined =>
      cases h
      refine declares_modify (fun _ => rfl) (fun _ => rfl) (.imported ?_ ?_)
      · rcases hget : t.get? name with _ | s
        · rfl
        · simpa [hget] using hglobal
      · rcases hget : t.get? name with _ | s
        · rfl
        · simpa [hget] using hdefined

theorem declares_label (hsection : sectionName ≠ undefinedSection)
    (h : t.defineLabel name sectionName address = .ok t') :
    Declares sectionName address t t' := by
  unfold defineLabel at h
  split at h
  · cases h
  · next hdefined =>
    split at h
    · cases h
    · next hextern =>
      cases h
      refine declares_modify (fun _ => rfl) (fun _ => rfl) (.labelled hsection ?_ ?_)
      · rcases hget : t.get? name with _ | s
        · rfl
        · simpa [hget] using hdefined
      · rcases hget : t.get? name with _ | s
        · rfl
        · simpa [hget] using hextern

theorem get?_defineLabel (h : t.defineLabel name sectionName address = .ok t') :
    ∃ s, t'.get? name = some s ∧ s.isDefined = true ∧ s.sectionName = sectionName ∧
      s.value = address := by
  unfold defineLabel at h
  split at h
  · cases h
  · split at h
    · cases h
    · cases h
      rw [get?_modify, if_pos rfl, get?_mention, if_pos rfl]
      exact ⟨_, rfl, rfl, rfl, rfl⟩

/-- Everything in a table is kept in another. -/
def Keeps (t t' : SymbolTable) : Prop :=
  ∀ n s, t.get? n = some s → ∃ s', t'.get? n = some s' ∧ s.Keeps s'

theorem Keeps.refl (t : SymbolTable) : Keeps t t := fun _ s h => ⟨s, h, .refl s⟩

theorem Keeps.trans {t'' : SymbolTable} (h : Keeps t t') (h' : Keeps t' t'') : Keeps t t'' := by
  intro n s hs
  obtain ⟨s', hs', hk⟩ := h n s hs
  obtain ⟨s'', hs'', hk'⟩ := h' n s' hs'
  exact ⟨s'', hs'', hk.trans hk'⟩

theorem Declares.keeps (h : Declares sectionName address t t') : Keeps t t' := by
  obtain ⟨name, s', hs', hget⟩ := h.change
  intro n s hs
  rw [hget n]
  split
  · next hn =>
    subst hn
    rw [hs] at hs'
    exact ⟨s', rfl, hs'.keeps⟩
  · exact ⟨s, hs, .refl s⟩

/-- What every symbol satisfies is satisfied behind a change, if blank symbols satisfy it and
changes keep it. -/
theorem Declares.forall {P : Symbol → Prop} (h : Declares sectionName address t t')
    (hblank : ∀ name number, P (Symbol.blank name number))
    (hstep : ∀ s s', Symbol.Declared sectionName address s s' → P s → P s')
    (hp : ∀ n s, t.get? n = some s → P s) {n : Bytes} {s : Symbol} (hs : t'.get? n = some s) :
    P s := by
  obtain ⟨name, s', hs', hget⟩ := h.change
  rw [hget n] at hs
  split at hs
  · cases hs
    refine hstep _ _ hs' ?_
    rcases hname : t.get? name with _ | s₀
    · exact hblank name t.next
    · exact hp name s₀ hname
  · exact hp n s hs

/-! ## Several declarations -/

/-- Any number of changes at one address. -/
def DeclaresAll (sectionName : Bytes) (address : UInt32) : SymbolTable → SymbolTable → Prop :=
  ReflTransGen (Declares sectionName address)

theorem DeclaresAll.keeps (h : DeclaresAll sectionName address t t') : Keeps t t' := by
  induction h with
  | refl => exact .refl t
  | tail _ hstep ih => exact ih.trans hstep.keeps

theorem DeclaresAll.ascending (h : DeclaresAll sectionName address t t') (ha : t.Ascending) :
    t'.Ascending := by
  induction h with
  | refl => exact ha
  | tail _ hstep ih => exact hstep.ascending ih

theorem DeclaresAll.numbered (h : DeclaresAll sectionName address t t') (hn : t.Numbered) :
    t'.Numbered := by
  induction h with
  | refl => exact hn
  | tail _ hstep ih => exact hstep.numbered ih

theorem DeclaresAll.forall {P : Symbol → Prop} (h : DeclaresAll sectionName address t t')
    (hblank : ∀ name number, P (Symbol.blank name number))
    (hstep : ∀ s s', Symbol.Declared sectionName address s s' → P s → P s')
    (hp : ∀ n s, t.get? n = some s → P s) : ∀ n s, t'.get? n = some s → P s := by
  induction h with
  | refl => exact hp
  | tail _ hlast ih => exact fun n s hs => hlast.forall hblank hstep ih hs

/-! ## Sections -/

theorem defineSection_eq_ok (h : t.defineSection name = .ok t') :
    t.get? name = none ∧ (t.Ascending → t'.Ascending) ∧
      ∀ n, t'.get? n = if n = name then
        some { name, sectionName := name, value := 0, number := t.next, size := 0,
               isDefined := true }
        else t.get? n := by
  unfold defineSection at h
  split at h
  · cases h
  · next hnone =>
    cases h
    refine ⟨hnone, fun ha => (ha.create name name 0 0).modify name _, fun n => ?_⟩
    rw [get?_modify, get?_create]
    split <;> rfl

theorem Numbered.defineSection (hn : t.Numbered) (h : t.defineSection name = .ok t') :
    t'.Numbered := by
  unfold SymbolTable.defineSection at h
  split at h
  · cases h
  · next hnone =>
    cases h
    refine (hn.create hnone name 0 0).modify ?_ name
    exact fun _ => rfl

theorem get?_closeSection (t : SymbolTable) (name : Bytes) (length : UInt32) (n : Bytes) :
    (t.closeSection name length).get? n =
      if n = name ∧ name ≠ undefinedSection then
        (t.get? n).map fun s => { s with size := Int64.ofNat length.toNat }
      else t.get? n := by
  unfold closeSection
  split
  · next hname => simp [hname]
  · next hname =>
    rw [get?_modify]
    by_cases hn : n = name
    · rw [if_pos hn, if_pos ⟨hn, hname⟩]
      rcases hs : t.get? n with _ | s
      · rfl
      · rw [Option.map_some, Option.map_some, ← hn, ← name_of_get? hs]
    · rw [if_neg hn, if_neg fun h => hn h.1]

theorem Ascending.closeSection (h : t.Ascending) (name : Bytes) (length : UInt32) :
    (t.closeSection name length).Ascending := by
  unfold SymbolTable.closeSection
  split
  · exact h
  · exact h.modify name _

theorem Numbered.closeSection (h : t.Numbered) (name : Bytes) (length : UInt32) :
    (t.closeSection name length).Numbered := by
  unfold SymbolTable.closeSection
  split
  · exact h
  · refine h.modify ?_ name
    exact fun _ => rfl

end SymbolTable

end AsmKit
