import AsmKit.Proofs.Construction
import AsmKit.Proofs.DeclaredSymbols
import AsmKit.Proofs.Resolution

/-
  An assembled object is what its placed lines make of it (`Object.ComposedOf`): its sections are the
  ones they open, with the bytes they emit there, its relocations their sites and its symbols their
  declarations. Emissions look symbols up but do not see their numbers, so two objects that are
  composed of the same lines differ only in the order of sections and relocations and in the numbers
  of symbols (`ComposedOf.same`).
-/

namespace AsmKit

/-! ## Numbers do not matter -/

namespace SymbolTable

/-- The tables have the same symbols, apart from their numbers. -/
def Alike (t t' : SymbolTable) : Prop :=
  ∀ n, (t.get? n).map Symbol.unnumbered = (t'.get? n).map Symbol.unnumbered

variable {t t' : SymbolTable}

theorem exists_number {s s' : Symbol} (h : s.unnumbered = s'.unnumbered) :
    ∃ number, s' = { s with number } := by
  refine ⟨s'.number, ?_⟩
  cases s
  cases s'
  simp_all [Symbol.unnumbered]

/-- What does not look at the number of a symbol makes the same of both tables. -/
theorem Alike.lookup_bind {α : Type} (h : t.Alike t') (n : Bytes)
    {f : Symbol → Except Error.Complaint α} (hf : ∀ s number, f { s with number } = f s) :
    t.lookup n >>= f = t'.lookup n >>= f := by
  have hn := h n
  unfold lookup
  rcases hs : t.get? n with _ | s
  · rcases hs' : t'.get? n with _ | s'
    · rfl
    · rw [hs, hs'] at hn
      cases hn
  · rcases hs' : t'.get? n with _ | s'
    · rw [hs, hs'] at hn
      cases hn
    · rw [hs, hs'] at hn
      obtain ⟨number, rfl⟩ := exists_number (Option.some.inj hn)
      dsimp only
      split
      · exact (hf s number).symm
      · rfl

theorem Alike.jump (h : t.Alike t') : Operand.jump t = Operand.jump t' := by
  funext token
  unfold Operand.jump
  split
  case h_1 | h_2 | h_3 | h_4 | h_7 => rfl
  case h_5 | h_6 => exact h.lookup_bind _ fun _ _ => rfl

theorem Alike.bracket (h : t.Alike t') : Operand.bracket t = Operand.bracket t' := by
  funext token
  unfold Operand.bracket
  rcases Bracket.read? token.word with _ | ⟨register, _ | offset⟩
  · rfl
  · rfl
  · dsimp only
    congr 1
    funext r
    split
    · exact h.lookup_bind _ fun _ _ => rfl
    · rfl

theorem Alike.data (h : t.Alike t') : Operand.data t = Operand.data t' := by
  funext token
  unfold Operand.data
  rw [h.bracket]
  split
  case h_8 | h_9 => exact h.lookup_bind _ fun _ _ => rfl
  all_goals rfl

theorem Alike.wordItem (h : t.Alike t') : Emission.wordItem t = Emission.wordItem t' := by
  funext token
  unfold Emission.wordItem
  split
  · exact h.lookup_bind _ fun _ _ => rfl
  · rfl

/-- A statement emits the same with either table. -/
theorem Alike.emission (h : t.Alike t') (st : Statement) : st.emission t = st.emission t' := by
  unfold Statement.emission
  split
  · unfold Emission.words
    rw [h.wordItem]
  · rfl
  · split
    · unfold Instruction.emission Instruction.operands
      rw [h.jump, h.data]
    · rfl
  · rfl

end SymbolTable

theorem PlacedLine.code_eq {t t' : SymbolTable} (h : t.Alike t') (n : Bytes) (xs : List PlacedLine) :
    PlacedLine.code t n xs = PlacedLine.code t' n xs := by
  unfold PlacedLine.code PlacedLine.bytes
  simp only [h.emission]

/-! ## Composed objects -/

namespace Object

/-- The object is what the lines make of it. -/
structure ComposedOf (xs : List PlacedLine) (obj : Object) : Prop where
  ascending : obj.symbols.Ascending
  symbols : obj.symbols.Reflects (xs.flatMap PlacedLine.declarations)
  sizes : ∀ n s, obj.symbols.get? n = some s → s.size =
    if n ∈ obj.sectionNames then
      Int64.ofNat (UInt32.ofNat ((PlacedLine.within n xs).map PlacedLine.size).sum).toNat
    else Symbol.noSize
  sectionNames : obj.sectionNames = xs.filterMap fun x => x.line.statement.opens?
  nodup : obj.sectionNames.Nodup
  sections : ∀ s ∈ obj.sections,
    s = { name := s.name, code := PlacedLine.code obj.symbols s.name xs }
  relocations : obj.relocations.entries.Perm ((xs.flatMap PlacedLine.sites).map Site.relocation)

/-- The size of a symbol is that of its section, if it is one. -/
theorem Measured.size_eq {y : Layout} {obj : Object} (h : obj.Measured y) {n : Bytes} {s : Symbol}
    (hs : obj.symbols.get? n = some s) : s.size =
      if n ∈ obj.sectionNames then Int64.ofNat (UInt32.ofNat (y.extent n)).toNat
      else Symbol.noSize := by
  have hname := SymbolTable.name_of_get? hs
  split
  · next hn =>
    obtain ⟨s', hs', hsection⟩ := h.sound.sections n hn
    rw [hs] at hs'
    cases hs'
    rw [h.sizes n s hs hsection, hname]
  · next hn =>
    rcases hsection : s.isSection with _ | _
    · simpa [Symbol.isSection] using hsection
    · have hmem := ((h.sound.symbols n s hs).ofSection hsection).1
      rw [hname] at hmem
      exact absurd hmem hn

/-- An assembled object is composed of the lines of its source. Nothing is placed outside of a
section. -/
theorem composedOf_assemble {name source : Bytes} {obj : Object}
    (h : (Object.assemble name source).1 = .ok obj) :
    ∃ ls, SourceLine.readAll 1 (sourceLines source) = .ok ls ∧
      (Layout.after ls).extent undefinedSection = 0 ∧
      ((∀ l ∈ ls, l.statement.opens? ≠ none → l.label? = none) →
        obj.ComposedOf (({} : Layout).placed ls)) := by
  obtain ⟨ls, r, p, hls, hr, hp, rfl⟩ := assemble_steps h
  have ht : FirstPass.Tracks (Layout.after ls) r := (FirstPass.tracks_start name).steps hr
  refine ⟨ls, hls, ht.outside _ (.inr rfl), fun hunlabelled => ?_⟩
  have hm := ht.measured
  have hf := hm.follows.steps hm.zeroUnlessDefined hp
  have hreflects := FirstPass.reflects_steps (FirstPass.tracks_start name) hunlabelled hr
    SymbolTable.reflects_empty
  have hwritten := hm.writtenBy hp
  have hextent (n : Bytes) := Layout.extent_after {} ls n
  constructor
  case ascending =>
    rw [hf.symbols]
    exact hm.sound.ascending
  case symbols =>
    rw [hf.symbols]
    exact hreflects.closeSection _ _
  case sizes =>
    intro n s hs
    rw [hf.symbols] at hs
    rw [hf.sectionNames, hm.size_eq hs]
    show (if _ then Int64.ofNat (UInt32.ofNat ((ls.foldl Layout.step {}).extent n)).toNat else _) = _
    rw [hextent, Nat.zero_add]
  case sectionNames =>
    have hnames := FirstPass.sectionNames_steps hr
    have hlines := congrArg (List.filterMap fun l : SourceLine => l.statement.opens?)
      (Layout.lines_placed {} ls)
    rw [List.filterMap_map] at hlines
    rw [hf.sectionNames]
    exact hnames.trans hlines.symm
  case nodup =>
    rw [hf.sectionNames]
    exact hm.sound.nodup
  case sections =>
    intro s hs
    have hunplaced := (makes_of_assemble h).built.regular.unplaced s hs
    rw [← hwritten.code s hs]
    exact hunplaced.symm
  case relocations => exact hwritten.relocations

variable {xs xs' : List PlacedLine} {obj obj' : Object}

theorem ComposedOf.sections_eq (h : obj.ComposedOf xs) :
    obj.sections = (xs.filterMap fun x => x.line.statement.opens?).map fun n =>
      { name := n, code := PlacedLine.code obj.symbols n xs } := by
  rw [← h.sectionNames]
  unfold Object.sectionNames
  rw [List.map_map]
  have hmap := List.map_congr_left h.sections
  rw [List.map_id'] at hmap
  exact hmap

/-- The same lines make the same symbols. -/
theorem ComposedOf.alike (h : obj.ComposedOf xs) (h' : obj'.ComposedOf xs') (hperm : xs'.Perm xs)
    (hwithin : ∀ n, PlacedLine.within n xs' = PlacedLine.within n xs) :
    obj'.symbols.Alike obj.symbols := by
  have hds (d : Declaration) : d ∈ xs'.flatMap PlacedLine.declarations ↔
      d ∈ xs.flatMap PlacedLine.declarations := (hperm.flatMap_right _).mem_iff
  have hnames : obj'.sectionNames.Perm obj.sectionNames := by
    rw [h.sectionNames, h'.sectionNames]
    exact hperm.filterMap _
  intro n
  have hknown : (obj'.symbols.get? n).isSome = (obj.symbols.get? n).isSome := by
    rw [Bool.eq_iff_iff, h'.symbols.known, h.symbols.known]
    simp only [hds]
  rcases hs : obj.symbols.get? n with _ | s
  · rcases hs' : obj'.symbols.get? n with _ | s'
    · rfl
    · rw [hs, hs'] at hknown
      cases hknown
  · rcases hs' : obj'.symbols.get? n with _ | s'
    · rw [hs, hs'] at hknown
      cases hknown
    · have hname : s'.name = s.name := by
        rw [SymbolTable.name_of_get? hs, SymbolTable.name_of_get? hs']
      have hsize : s'.size = s.size := by
        rw [h.sizes n s hs, h'.sizes n s' hs', hwithin]
        simp only [hnames.mem_iff]
      rw [Option.map_some, Option.map_some]
      exact congrArg some ((h'.symbols.symbols n s' hs').unique (h.symbols.symbols n s hs) hds hname
        hsize)

end Object

theorem SymbolTable.Alike.entries {t t' : SymbolTable} (h : t.Alike t') (ht : t.Ascending)
    (ht' : t'.Ascending) :
    t.entries.map Symbol.unnumbered = t'.entries.map Symbol.unnumbered := by
  have hget (t : SymbolTable) (n : Bytes) :
      SymbolTable.get? { entries := t.entries.map Symbol.unnumbered } n =
        (t.get? n).map Symbol.unnumbered :=
    find?_map_keyed Symbol.name (g := Symbol.unnumbered) (fun _ => rfl) t.entries n
  have hascending {t : SymbolTable} (ht : t.Ascending) :
      SymbolTable.Ascending { entries := t.entries.map Symbol.unnumbered } :=
    List.pairwise_map.mpr ht
  refine (hascending ht).entries_eq (hascending ht') fun n => ?_
  rw [hget, hget]
  exact h n

/-- Objects that are composed of the same lines, in an order that keeps the lines of each section in
theirs, have the same sections, the same relocations and, apart from numbers, the same symbols. -/
theorem Object.ComposedOf.same {xs xs' : List PlacedLine} {obj obj' : Object} (h : obj.ComposedOf xs)
    (h' : obj'.ComposedOf xs') (hperm : xs'.Perm xs)
    (hwithin : ∀ n, PlacedLine.within n xs' = PlacedLine.within n xs) :
    obj'.sections.Perm obj.sections ∧
      obj'.symbols.entries.map Symbol.unnumbered = obj.symbols.entries.map Symbol.unnumbered ∧
      obj'.relocations.entries.Perm obj.relocations.entries := by
  have halike := h.alike h' hperm hwithin
  have hcode (n : Bytes) :
      PlacedLine.code obj'.symbols n xs' = PlacedLine.code obj.symbols n xs := by
    rw [PlacedLine.code_eq halike]
    unfold PlacedLine.code
    rw [hwithin]
  refine ⟨?_, halike.entries h'.ascending h.ascending, ?_⟩
  · rw [h.sections_eq, h'.sections_eq]
    simp only [hcode]
    exact (hperm.filterMap _).map _
  · refine h'.relocations.trans (List.Perm.trans ?_ h.relocations.symm)
    exact (hperm.flatMap_right _).map _

end AsmKit
