import AsmKit.Proofs.Reading
import AsmKit.Proofs.Resolution

/-
  The two ways to an address. In the object that defines a symbol, its section is looked up among
  the sections of the object. Other objects go through the index, which merging fills from the
  symbols that stand for sections: a section without such a symbol is not in it. So both ways lead to
  the same address exactly where the object lists the section among its symbols, and otherwise the
  other objects do not find it.
-/

namespace AsmKit

/-- An object has a symbol that stands for a section of this name. -/
def Object.Marks (obj : Object) (name : Bytes) : Prop :=
  ∃ sym ∈ obj.symbols.entries, sym.name = name ∧ sym.isSection = true

instance (obj : Object) (name : Bytes) : Decidable (obj.Marks name) :=
  inferInstanceAs (Decidable (∃ sym ∈ obj.symbols.entries, sym.name = name ∧ sym.isSection = true))

/-- Where the section is that a symbol stands for. -/
def Offer.entry (x : Offer) : (Bytes × Bytes) × SectionRef :=
  ((x.symbol.name, x.object.name), ⟨x.number, x.symbol.name⟩)

namespace Linker

variable {p q s m f : Linker.Progress} {objects : List Object} {placements : Placements}
  {refs : List SectionRef}

/-! ## What merging leaves -/

/-- The index holds the sections that symbols stand for, newest first. -/
theorem index_of_merges {xs : List Offer} (h : Runs (forM xs merge) p () q) :
    q.index = ((xs.filter fun x => x.symbol.isSection).map Offer.entry).reverse ++ p.index := by
  induction xs generalizing p with
  | nil => rw [runs_forM_nil.mp h]; rfl
  | cons x xs ih =>
    obtain ⟨r, hx, hxs⟩ := runs_forM_cons.mp h
    obtain ⟨_, -, hr⟩ := runs_merge hx
    rw [ih hxs, hr]
    cases hsec : x.symbol.isSection with
    | true => simp [hsec, Offer.entry]
    | false => simp [hsec]

theorem source_of_merges {xs ys : List Offer}
    (h : ∀ name sym, p.symbols.get? name = some sym → ∃ y ∈ xs, sym = y.shared ∧
      (y.symbol.isGlobal = true ∨ y.symbol.isExtern = true))
    (hrun : Runs (forM ys merge) p () q) {name : Bytes} {sym : Symbol}
    (hsym : q.symbols.get? name = some sym) : ∃ y ∈ xs ++ ys, sym = y.shared ∧
      (y.symbol.isGlobal = true ∨ y.symbol.isExtern = true) := by
  induction ys generalizing xs p with
  | nil =>
    rw [runs_forM_nil.mp hrun] at hsym
    rw [List.append_nil]
    exact h name sym hsym
  | cons y ys ih =>
    obtain ⟨r, hy, hys⟩ := runs_forM_cons.mp hrun
    have hall := ih (fun _ _ hsym => source_of_merge hy h hsym) hys
    rwa [List.append_assoc] at hall

/-- A section symbol that was merged has its section in the object. -/
theorem section_of_merge {x : Offer} (h : Runs (merge x) p () q) (hsec : x.symbol.isSection = true) :
    ∃ t, x.object.findSection x.symbol.name = some t := by
  unfold merge mergeSymbol at h
  simp only [hsec, if_true, runs_bind, runs_liftExcept] at h
  obtain ⟨_, _, ⟨hcheck, -⟩, -⟩ := h
  unfold checkSectionSymbol at hcheck
  split at hcheck
  next t ht => exact ⟨t, ht⟩
  next => cases hcheck

theorem section_of_merges {xs : List Offer} (h : Runs (forM xs merge) p () q) {x : Offer}
    (hx : x ∈ xs) (hsec : x.symbol.isSection = true) :
    ∃ t, x.object.findSection x.symbol.name = some t := by
  induction xs generalizing p with
  | nil => cases hx
  | cons y ys ih =>
    obtain ⟨r, hy, hys⟩ := runs_forM_cons.mp h
    rcases List.mem_cons.mp hx with rfl | hx
    · exact section_of_merge hy hsec
    · exact ih hys hx

/-! ## Sections by index -/

theorem Arranged.index_eq (h : Arranged objects placements refs s m f) :
    f.index = ((s.offers.filter fun x => x.symbol.isSection).map Offer.entry).reverse := by
  have hempty : s.index = [] := by rw [h.start]
  have hm := index_of_merges h.merge
  rw [hempty, List.append_nil] at hm
  rw [h.moves.frame]
  exact hm

/-- What the index knows of an object: the sections that its symbols stand for. -/
theorem Arranged.lookup_index (h : Arranged objects placements refs s m f)
    (hnames : (objects.map Object.name).Nodup) {a : Nat} {A : Object} (hA : objects[a]? = some A)
    (name : Bytes) :
    f.index.lookup (name, A.name) = if A.Marks name then some ⟨a, name⟩ else none := by
  have hmem (ref : SectionRef) :
      ((name, A.name), ref) ∈ f.index ↔ A.Marks name ∧ ref = ⟨a, name⟩ := by
    rw [h.index_eq, List.mem_reverse, List.mem_map]
    constructor
    · rintro ⟨x, hx, e⟩
      obtain ⟨hx, hsec⟩ := List.mem_filter.mp hx
      obtain ⟨hobj, hsym⟩ := h.mem_offers.mp hx
      simp only [Offer.entry, Prod.mk.injEq] at e
      obtain ⟨⟨rfl, hname⟩, rfl⟩ := e
      obtain rfl := number_eq_of_name hnames hobj hA hname
      rw [hA] at hobj
      cases hobj
      exact ⟨⟨x.symbol, hsym, rfl, hsec⟩, rfl⟩
    · rintro ⟨⟨sym, hsym, rfl, hsec⟩, rfl⟩
      exact ⟨⟨a, A, sym⟩, List.mem_filter.mpr ⟨h.mem_offers.mpr ⟨hA, hsym⟩, hsec⟩, rfl⟩
  cases hlookup : f.index.lookup (name, A.name) with
  | none =>
    rw [if_neg]
    intro hmarks
    have hin := (hmem _).mpr ⟨hmarks, rfl⟩
    have hout := List.lookup_eq_none_iff.mp hlookup _ hin
    simp at hout
  | some ref =>
    obtain ⟨l₁, l₂, hindex, -⟩ := List.lookup_eq_some_iff.mp hlookup
    have hin : ((name, A.name), ref) ∈ f.index := by
      rw [hindex]
      exact List.mem_append_right _ List.mem_cons_self
    obtain ⟨hmarks, rfl⟩ := (hmem ref).mp hin
    rw [if_pos hmarks]

/-- An object with its sections in place, and the object as it was given. -/
theorem Arranged.given (h : Arranged objects placements refs s m f) {A : Object}
    (hA : A ∈ f.objects) : ∃ (a : Nat) (A₀ : Object), f.objects[a]? = some A ∧
      objects[a]? = some A₀ ∧ A₀.name = A.name ∧ A₀.symbols = A.symbols ∧
      A₀.sectionNames = A.sectionNames := by
  obtain ⟨a, hA⟩ := List.mem_iff_getElem?.mp hA
  obtain ⟨A₀, hA₀, hname, hsymbols, -, hsections⟩ := h.placed.symm.getElem? hA
  refine ⟨a, A₀, hA, hA₀, hname, hsymbols, ?_⟩
  have e := congrArg (List.map Section.name) hsections
  rw [List.map_map, List.map_map] at e
  exact e

/-- A section that an object marks is there. -/
theorem Arranged.section_of_marks (h : Arranged objects placements refs s m f) {A : Object}
    (hA : A ∈ f.objects) {name : Bytes} (hmarks : A.Marks name) :
    ∃ t, A.findSection name = some t := by
  obtain ⟨a, A₀, -, hA₀, -, hsymbols, hsections⟩ := h.given hA
  obtain ⟨sym, hsym, rfl, hsec⟩ := hmarks
  rw [← hsymbols] at hsym
  obtain ⟨t, ht⟩ := section_of_merges h.merge (x := ⟨a, A₀, sym⟩)
    (h.mem_offers.mpr ⟨hA₀, hsym⟩) hsec
  apply Object.exists_findSection
  rw [← hsections]
  exact Object.findSection_isSome_iff.mp (Option.isSome_of_eq_some ht)

theorem Arranged.source (h : Arranged objects placements refs s m f) {name : Bytes} {sym : Symbol}
    (hsym : f.symbols.get? name = some sym) : ∃ x ∈ s.offers, sym = x.shared := by
  have hempty : s.symbols = {} := by rw [h.start]
  rw [h.moves.frame] at hsym
  have hnone (name : Bytes) (sym : Symbol) (hsym : s.symbols.get? name = some sym) :
      ∃ y ∈ ([] : List Offer), sym = y.shared ∧
        (y.symbol.isGlobal = true ∨ y.symbol.isExtern = true) := by
    rw [hempty] at hsym
    cases hsym
  obtain ⟨x, hx, e, -⟩ := source_of_merges hnone h.merge hsym
  exact ⟨x, hx, e⟩

/-! ## The two ways -/

variable {l : Linker} {obj : Object} {name : Bytes} {sym : Symbol}

theorem resolve_of_own (hsym : obj.symbols.get? name = some sym) (hdefined : sym.isDefined = true) :
    l.resolve obj name = match obj.findSection sym.sectionName with
      | some s => .ok (sym.value + s.location)
      | none => .error (.about .malformedObject name) := by
  cases hs : obj.findSection sym.sectionName with
  | none => simp only [resolve, hsym, Option.filter_some, hdefined, if_true, hs]
  | some s => simp only [resolve, hsym, Option.filter_some, hdefined, if_true, hs]

theorem resolve_of_shared (hown : (obj.symbols.get? name).filter Symbol.isDefined = none)
    (hsym : l.symbols.get? name = some sym) (hdefined : sym.isDefined = true) :
    l.resolve obj name = match l.owner sym with
      | some s => .ok (sym.value + s.location)
      | none => .error (.about .internal name) := by
  cases hs : l.owner sym with
  | none => simp only [resolve, hown, hsym, Option.filter_some, hdefined, if_true, hs]
  | some s => simp only [resolve, hown, hsym, Option.filter_some, hdefined, if_true, hs]

/-- Other objects find the sections that an object marks, and no others. -/
theorem Arranged.owner_of_file (h : Arranged objects placements refs s m f)
    (hnames : (objects.map Object.name).Nodup) {A : Object} (hA : A ∈ f.objects)
    (hfile : sym.file = A.name) :
    f.owner sym = if A.Marks sym.sectionName then A.findSection sym.sectionName else none := by
  obtain ⟨a, A₀, hA, hA₀, hname, hsymbols, -⟩ := h.given hA
  have hmarks : A₀.Marks sym.sectionName ↔ A.Marks sym.sectionName := by
    unfold Object.Marks
    rw [hsymbols]
  unfold owner
  rw [hfile, ← hname, h.lookup_index hnames hA₀]
  simp only [hmarks]
  have hat : sectionAt f.objects ⟨a, sym.sectionName⟩ = A.findSection sym.sectionName :=
    sectionAt_eq hA
  split
  · exact hat
  · rfl

/-- A shared symbol is a symbol of the object that it came from. -/
theorem Arranged.own_of_file (h : Arranged objects placements refs s m f)
    (hascending : ∀ obj ∈ objects, obj.symbols.Ascending)
    (hnames : (objects.map Object.name).Nodup) (hsym : f.symbols.get? name = some sym)
    {A : Object} (hA : A ∈ f.objects) (hfile : sym.file = A.name) :
    ∃ own, A.symbols.get? name = some own ∧ sym = { own with file := A.name } := by
  obtain ⟨a, A₀, -, hA₀, hname, hsymbols, -⟩ := h.given hA
  obtain ⟨x, hx, rfl⟩ := h.source hsym
  obtain ⟨hobj, hmem⟩ := h.mem_offers.mp hx
  have hfile : x.object.name = A.name := hfile
  obtain rfl := number_eq_of_name hnames hobj hA₀ (hfile.trans hname.symm)
  rw [hA₀] at hobj
  cases hobj
  refine ⟨x.symbol, ?_, by rw [← hfile]; rfl⟩
  rw [← hsymbols]
  have hname : x.shared.name = name := SymbolTable.name_of_get? hsym
  have hsorted := hascending _ (List.mem_of_getElem? hA₀)
  exact hsorted.get?_eq_some_iff.mpr ⟨hmem, hname⟩

end Linker

/-- Linking up to the placing of sections, when addresses are known. -/
def Linker.arrange : Linking (List SectionRef) := do
  mergeSymbols
  checkUnresolved
  formSections

/-- Whatever objects are read, once their sections are in place: a shared symbol comes to the same
in the object that it came from and in one that does not define it exactly if the former has a symbol
for the section that it stands in. Without one the latter does not find the section. -/
theorem tiers_agree_on_marked_sections {objects : List Object} {placements : Placements}
    {refs : List SectionRef} {f : Linker.Progress}
    (hread : ∀ obj ∈ objects, ∃ contents, Object.read obj.name contents = .ok obj)
    (hnames : (objects.map Object.name).Nodup)
    (hrun : Runs Linker.arrange { toLinker := Linker.ready placements objects } refs f)
    {name : Bytes} {sym : Symbol} (hsym : f.symbols.get? name = some sym) {A B : Object}
    (hA : A ∈ f.objects) (hfile : sym.file = A.name)
    (hB : (B.symbols.get? name).filter Symbol.isDefined = none) :
    (f.resolve B name = f.resolve A name ↔ A.Marks sym.sectionName) ∧
      (¬ A.Marks sym.sectionName → f.resolve B name = .error (.about .internal name)) := by
  simp only [Linker.arrange, runs_bind] at hrun
  obtain ⟨_, m, hmerge, _, _, hcheck, hform⟩ := hrun
  obtain ⟨hresolved, rfl⟩ := Linker.runs_checkUnresolved.mp hcheck
  have hnodup (obj : Object) (hobj : obj ∈ objects) : obj.sectionNames.Nodup := by
    obtain ⟨_, hobj⟩ := hread obj hobj
    exact (Object.read_regular hobj).sections
  have hascending (obj : Object) (hobj : obj ∈ objects) : obj.symbols.Ascending := by
    obtain ⟨_, hobj⟩ := hread obj hobj
    exact (Object.read_regular hobj).symbols
  have h := Linker.arranged_of_runs hnodup rfl (Linker.runs_mergeSymbols hmerge) hform
  have hdefined : sym.isDefined = true := by
    rw [h.moves.frame] at hsym
    exact (Linker.isUnresolved_eq_false.mp (hresolved sym (SymbolTable.mem_of_get? hsym))).2.2
  obtain ⟨own, hget, e⟩ := h.own_of_file hascending hnames hsym hA hfile
  have hA' := Linker.resolve_of_own (l := f.toLinker) hget (by rw [e] at hdefined; exact hdefined)
  have hB' := Linker.resolve_of_shared hB hsym hdefined
  rw [h.owner_of_file hnames hA hfile] at hB'
  by_cases hmarks : A.Marks sym.sectionName
  · obtain ⟨t, ht⟩ := h.section_of_marks hA hmarks
    rw [if_pos hmarks, ht] at hB'
    rw [show own.sectionName = sym.sectionName by rw [e], ht] at hA'
    refine ⟨iff_of_true ?_ hmarks, fun hno => absurd hmarks hno⟩
    rw [hA', hB', e]
  · rw [if_neg hmarks] at hB'
    refine ⟨iff_of_false ?_ hmarks, fun _ => hB'⟩
    rw [hA', hB']
    cases A.findSection own.sectionName with
    | none =>
      intro hok
      cases hok
    | some t =>
      intro hok
      cases hok

/-- The text of an object that imports `x`. -/
def importingText : Bytes :=
  text "Symbols Table\ntitles\nx UND 0 0 1 0 -1 0\ntext text 0 0 0 1 4 1\n" ++
  text "Sections code\nSection: text\n00 00 00 00\nRelocations Table\ntitles\nx SYMBOL 0 text\n"

/-- The text of an object that exports `x` from a section that no symbol stands for. -/
def unmarkedText : Bytes :=
  text "Symbols Table\ntitles\nx data 0 1 0 0 -1 1\nSections code\nSection: data\n07\n"

/-- The same with a symbol for the section. -/
def markedText : Bytes :=
  text "Symbols Table\ntitles\nx data 0 1 0 0 -1 1\ndata data 0 0 0 1 1 1\n" ++
  text "Sections code\nSection: data\n07\n"

/-- The linker that has placed the objects of two texts, the first at 16, and its symbol `x`. -/
def arrangedTexts? (first second : Bytes) : Option (Object × Object × Linker.Progress × Symbol) := do
  let a ← (Object.read (text "a.o") first).toOption
  let b ← (Object.read (text "b.o") second).toOption
  match outcome Linker.arrange { toLinker := Linker.ready [(text "data", 16)] [a, b] } with
  | (.ok _, f) => (f.symbols.get? (text "x")).map fun sym => (a, b, f, sym)
  | (.error _, _) => none

theorem arrangedTexts?_eq_some {first second : Bytes} {a b : Object} {f : Linker.Progress}
    {sym : Symbol} (h : arrangedTexts? first second = some (a, b, f, sym)) :
    Object.read (text "a.o") first = .ok a ∧ Object.read (text "b.o") second = .ok b ∧
      f.symbols.get? (text "x") = some sym ∧
      ∃ refs, Runs Linker.arrange { toLinker := Linker.ready [(text "data", 16)] [a, b] } refs f := by
  unfold arrangedTexts? at h
  obtain ⟨a', ha, h⟩ := Option.bind_eq_some_iff.mp h
  obtain ⟨b', hb, h⟩ := Option.bind_eq_some_iff.mp h
  split at h
  next refs f' hrun =>
    obtain ⟨sym', hsym, h⟩ := Option.map_eq_some_iff.mp h
    cases h
    exact ⟨eq_ok_of_toOption ha, eq_ok_of_toOption hb, hsym, refs, hrun⟩
  next => cases h

theorem tiers_agree_on_marked_sections_marked : ∃ a b refs f sym, ∃ A ∈ f.objects, ∃ B ∈ f.objects,
    Object.read (text "a.o") markedText = .ok a ∧
    Object.read (text "b.o") importingText = .ok b ∧
    Runs Linker.arrange { toLinker := Linker.ready [(text "data", 16)] [a, b] } refs f ∧
    f.symbols.get? (text "x") = some sym ∧ sym.file = A.name ∧
    (B.symbols.get? (text "x")).filter Symbol.isDefined = none ∧
    f.resolve B (text "x") = f.resolve A (text "x") := by
  have h : (arrangedTexts? markedText importingText).map (fun (a, b, f, sym) =>
      decide ([a.name, b.name] = [text "a.o", text "b.o"] ∧
        ∃ A ∈ f.objects, ∃ B ∈ f.objects, sym.file = A.name ∧
        (B.symbols.get? (text "x")).filter Symbol.isDefined = none ∧
        A.Marks sym.sectionName)) = some true := by decide +kernel
  obtain ⟨⟨a, b, f, sym⟩, harranged, h⟩ := Option.map_eq_some_iff.mp h
  obtain ⟨ha, hb, hsym, refs, hrun⟩ := arrangedTexts?_eq_some harranged
  obtain ⟨hnames, A, hA, B, hB, hfile, hnone, hmarks⟩ := of_decide_eq_true h
  have hread (obj : Object) (hobj : obj ∈ [a, b]) :
      ∃ contents, Object.read obj.name contents = .ok obj := by
    simp only [List.cons.injEq] at hnames
    rcases List.mem_pair.mp hobj with rfl | rfl
    · exact ⟨_, hnames.1 ▸ ha⟩
    · exact ⟨_, hnames.2.1 ▸ hb⟩
  have hagree := tiers_agree_on_marked_sections hread (nodup_names_pair hnames (by decide)) hrun hsym
    hA hfile hnone
  exact ⟨a, b, refs, f, sym, A, hA, B, hB, ha, hb, hrun, hsym, hfile, hnone, hagree.1.mpr hmarks⟩

/-- An exported symbol that its own object has at 16 has no address in the object that imports
it. -/
theorem tiers_disagree_on_unmarked_section : ∃ a b refs f sym, ∃ A ∈ f.objects, ∃ B ∈ f.objects,
    Object.read (text "a.o") unmarkedText = .ok a ∧
    Object.read (text "b.o") importingText = .ok b ∧
    Runs Linker.arrange { toLinker := Linker.ready [(text "data", 16)] [a, b] } refs f ∧
    f.symbols.get? (text "x") = some sym ∧ sym.file = A.name ∧
    (B.symbols.get? (text "x")).filter Symbol.isDefined = none ∧
    f.resolve A (text "x") = .ok 16 ∧
    f.resolve B (text "x") = .error (.about .internal (text "x")) := by
  have h : (arrangedTexts? unmarkedText importingText).map (fun (_, _, f, sym) =>
      decide (∃ A ∈ f.objects, ∃ B ∈ f.objects, sym.file = A.name ∧
        (B.symbols.get? (text "x")).filter Symbol.isDefined = none ∧
        f.resolve A (text "x") = .ok 16 ∧
        f.resolve B (text "x") = .error (.about .internal (text "x")))) = some true := by
    decide +kernel
  obtain ⟨⟨a, b, f, sym⟩, harranged, h⟩ := Option.map_eq_some_iff.mp h
  obtain ⟨ha, hb, hsym, refs, hrun⟩ := arrangedTexts?_eq_some harranged
  obtain ⟨A, hA, B, hB, h⟩ := of_decide_eq_true h
  exact ⟨a, b, refs, f, sym, A, hA, B, hB, ha, hb, hrun, hsym, h⟩

end AsmKit
