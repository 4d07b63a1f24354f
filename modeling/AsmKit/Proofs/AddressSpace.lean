import AsmKit.Proofs.Collisions
import AsmKit.Proofs.Memory
import AsmKit.Proofs.RoundTrip

/-
  The addresses of a linked program. The linker keeps the spans of sections apart, and spans are as
  long as the linker counts: in 32 bits. So the bytes of sections are apart where this count is right,
  and only there. An object of two sections, one of them of 2³² bytes, can be read and linked
  (`segments_oversized`), and both sections get the address 0.
-/

namespace AsmKit

/-- The section has a byte at an address. -/
def Section.Occupies (s : Section) (a : Nat) : Prop :=
  s.location.toNat ≤ a ∧ a < s.location.toNat + s.code.length

theorem Section.contains_span {s : Section} (h : s.code.length < 2 ^ 32) (a : Nat) :
    s.span.Contains a ↔ s.Occupies a := by
  unfold Span.Contains Section.span
  dsimp only
  rw [Section.toNat_length h]
  rfl

/-- The sections of a linked program have as many bytes as those of the objects. -/
theorem Executable.Spread.short_iff {objects : List Object} {exe : Executable}
    (h : exe.Spread objects) (hnames : ∀ obj ∈ objects, obj.sectionNames.Nodup) :
    (∀ s ∈ exe.segments, s.body.code.length < 2 ^ 32) ↔ ∀ obj ∈ objects, obj.Short := by
  obtain ⟨refs, hperm, -, hpresent⟩ := h.present
  constructor
  · intro hshort obj hobj s hs
    obtain ⟨n, hn⟩ := List.mem_iff_getElem?.mp hobj
    have href : ⟨n, s.name⟩ ∈ refs :=
      hperm.mem_iff.mpr (mem_allSections.mpr ⟨Nat.zero_le _, obj, hn, List.mem_map_of_mem hs⟩)
    obtain ⟨seg, hseg, obj', s', hobj', hs', -, -, hlength⟩ := exists_mem_of_forall₂ hpresent href
    rw [hn] at hobj'
    cases hobj'
    rw [(Object.findSection_eq_some_iff (hnames obj hobj)).mpr ⟨hs, rfl⟩] at hs'
    cases hs'
    rw [← hlength]
    exact hshort seg hseg
  · intro hshort seg hseg
    obtain ⟨ref, obj, s, hobj, hs, -, -, hlength⟩ := exists_of_forall₂ hpresent hseg
    rw [hlength]
    exact hshort obj (List.mem_of_getElem? hobj) s (Object.mem_of_findSection hs)

theorem Object.Assembled.isShort {obj : Object} (h : obj.Assembled) : obj.Short := by
  intro s hs
  exact h.short s.name s ((Object.findSection_eq_some_iff h.sound.nodup).mpr ⟨hs, rfl⟩)

/-- A linked program has every section of every object once, by address. Every section ends below the
top of the address space and no two share an address, provided that the bytes of each section can be
counted in 32 bits; if there is one of which they cannot, this is not so. -/
theorem sections_share_no_address {tree : IntervalTree Span} (htree : tree.Finds)
    {placements : Placements} {objects : List Object} {exe : Executable}
    (hobjects : ∀ obj ∈ objects, obj.Obtained)
    (h : (Executable.link tree placements objects).1 = .ok exe) :
    (∃ refs : List SectionRef, refs.Perm (allSections 0 objects) ∧ refs.Nodup ∧
      List.Forall₂ (Segment.IsAt objects) refs exe.segments) ∧
    (exe.segments.Pairwise fun s t => s.body.location ≤ t.body.location) ∧
    (((∀ s ∈ exe.segments, s.body.location.toNat + s.body.code.length ≤ 2 ^ 32 - 1) ∧
      ∀ (a : UInt32) (i j : Nat) (s t : Segment), exe.segments[i]? = some s →
        exe.segments[j]? = some t → s.body.Occupies a.toNat → t.body.Occupies a.toNat → i = j) ↔
      ∀ obj ∈ objects, obj.Short) := by
  have hnames : ∀ obj ∈ objects, obj.sectionNames.Nodup := fun obj hobj => (hobjects obj hobj).nodup
  have hspread := Executable.spread_of_link htree hnames h
  refine ⟨hspread.present, hspread.ascending, ⟨fun ⟨hends, _⟩ => ?_, fun hshort => ?_⟩⟩
  · refine (hspread.short_iff hnames).mp fun s hs => ?_
    have hend := hends s hs
    omega
  · have hbytes := (hspread.short_iff hnames).mpr hshort
    refine ⟨fun s hs => ?_, fun a i j s t hs ht hsa hta => ?_⟩
    · have hfits := hspread.fits s hs
      unfold Span.Fits Section.span at hfits
      dsimp only at hfits
      rw [Section.toNat_length (hbytes s hs)] at hfits
      exact hfits
    · have hsa := (Section.contains_span (hbytes s (List.mem_of_getElem? hs)) _).mpr hsa
      have hta := (Section.contains_span (hbytes t (List.mem_of_getElem? ht)) _).mpr hta
      exact Span.index_unique hspread.disjoint (by rw [List.getElem?_map, hs, Option.map_some])
        (by rw [List.getElem?_map, ht, Option.map_some]) hsa hta

/-- A source with two sections. -/
def twoParts : Bytes := text ".section t\nx: jmp x\n.section u\n.skip 3\n.end\n"

/-- An object with a section of a name that the source has as well. -/
def onePart : Bytes := text "Sections code\nSection: t\n01 02\n"

theorem sections_share_no_address_twoParts : ∃ a b exe,
    (Object.assemble (text "a.o") twoParts).1 = .ok a ∧ Object.read (text "b.o") onePart = .ok b ∧
    (Executable.link (.sorted Span) [(text "t", 8)] [a, b]).1 = .ok exe ∧
    exe.segments.map (fun s => (s.file, s.body.name, s.body.location, s.body.code.length)) =
      [(text "a.o", text "t", 8, 8), (text "b.o", text "t", 16, 2),
        (text "a.o", text "u", 18, 3)] ∧
    ∀ (x : UInt32) (i j : Nat) (s t : Segment), exe.segments[i]? = some s →
      exe.segments[j]? = some t → s.body.Occupies x.toNat → t.body.Occupies x.toNat → i = j := by
  have h : ((Object.assemble (text "a.o") twoParts).1.toOption.bind fun a =>
      (Object.read (text "b.o") onePart).toOption.bind fun b =>
        (Executable.link (.sorted Span) [(text "t", 8)] [a, b]).1.toOption.map fun exe =>
          exe.segments.map fun s => (s.file, s.body.name, s.body.location, s.body.code.length)) =
      some [(text "a.o", text "t", 8, 8), (text "b.o", text "t", 16, 2),
        (text "a.o", text "u", 18, 3)] := by
    decide +kernel
  have hbytes : (Object.read (text "b.o") onePart).toOption.map (fun b =>
      b.sections.all fun s => s.code.length < 2 ^ 32) = some true := by
    decide +kernel
  obtain ⟨a, ha, h⟩ := Option.bind_eq_some_iff.mp h
  obtain ⟨b, hb, h⟩ := Option.bind_eq_some_iff.mp h
  obtain ⟨exe, hexe, hsegments⟩ := Option.map_eq_some_iff.mp h
  rw [hb] at hbytes
  have ha := eq_ok_of_toOption ha
  have hb := eq_ok_of_toOption hb
  have hobjects : ∀ obj ∈ [a, b], obj.Obtained := by
    rw [List.forall_mem_cons, List.forall_mem_singleton]
    exact ⟨.inl ⟨_, _, ha⟩, .inr ⟨_, _, hb⟩⟩
  have hshort : ∀ obj ∈ [a, b], obj.Short := by
    rw [List.forall_mem_cons, List.forall_mem_singleton]
    refine ⟨(Object.assembled ha).isShort, fun s hs => ?_⟩
    exact of_decide_eq_true (List.all_eq_true.mp (Option.some.inj hbytes) s hs)
  obtain ⟨-, -, hiff⟩ :=
    sections_share_no_address IntervalTree.sorted_finds hobjects (eq_ok_of_toOption hexe)
  exact ⟨a, b, exe, ha, hb, eq_ok_of_toOption hexe, hsegments, (hiff.mpr hshort).2⟩

/-! ## A section of 2³² bytes -/

/-- The object has sections and nothing else. -/
def Object.Bare (obj : Object) : Prop := obj.symbols.entries = [] ∧ obj.relocations.entries = []

namespace Linker

variable {p q : Progress} {e : Error} {objects : List Object}

theorem offers_ne_nil_of_fails (h : Fails mergeSymbols p e q) : p.offers ≠ [] := by
  obtain ⟨front, n, obj, sym, back, _, _, hsplit, -⟩ :=
    fails_objects (fun obj => obj.symbols.entries) Offer.mk merge h
  change p.offers = front ++ Offer.mk n obj sym :: back at hsplit
  rw [hsplit]
  exact List.append_ne_nil_of_right_ne_nil _ (List.cons_ne_nil _ _)

theorem patches_ne_nil_of_fails (h : Fails relocate p e q) : p.patches ≠ [] := by
  obtain ⟨front, n, obj, rel, back, _, _, hsplit, -⟩ :=
    fails_objects (fun obj => obj.relocations.entries) (fun n _ => Patch.mk n)
      (fun x => relocateOne x.object x.relocation) h
  change p.patches = front ++ Patch.mk n rel :: back at hsplit
  rw [hsplit]
  exact List.append_ne_nil_of_right_ne_nil _ (List.cons_ne_nil _ _)

theorem offers_of_bare {placements : Placements} (hp : p.toLinker = ready placements objects)
    (hbare : ∀ obj ∈ objects, obj.Bare) : p.offers = [] := by
  refine List.eq_nil_iff_forall_not_mem.mpr fun x hx => ?_
  obtain ⟨hobj, hsym⟩ := (mem_offers_of_ready hp).mp hx
  rw [(hbare _ (List.mem_of_getElem? hobj)).1] at hsym
  cases hsym

theorem patches_of_bare (hagree : Agree Section.unplaced objects p.objects)
    (hbare : ∀ obj ∈ objects, obj.Bare) : p.patches = [] := by
  refine List.eq_nil_iff_forall_not_mem.mpr fun x hx => ?_
  obtain ⟨-, obj', hobj', hrel⟩ := mem_patches.mp hx
  obtain ⟨obj, hobj, -, -, hrelocations, -⟩ := hagree.symm.getElem? hobj'
  rw [← hrelocations, (hbare obj (List.mem_of_getElem? hobj)).2] at hrel
  cases hrel

end Linker

/-- Bare objects are linked if there is room for their sections. -/
theorem Executable.exists_link {tree : IntervalTree Span} (hfinds : tree.Finds)
    (haccepts : tree.Accepts) {objects : List Object}
    (hnames : ∀ obj ∈ objects, obj.sectionNames.Nodup) (hbare : ∀ obj ∈ objects, obj.Bare)
    (hplaceable : Linker.Placeable [] objects) :
    ∃ exe, (Executable.link tree [] objects).1 = .ok exe := by
  rcases hlink : (Executable.link tree [] objects).1 with e | exe
  · -- each stage has nothing to fail at
    exfalso
    obtain ⟨q, hfails⟩ := Executable.fails_of_link hlink
    obtain ⟨s, hs, h⟩ := Linker.fails_generate hfails
    change s.toLinker = Linker.ready [] objects at hs
    have hoffers := Linker.offers_of_bare hs hbare
    obtain h | ⟨m, hmerge, h⟩ := h
    · exact Linker.offers_ne_nil_of_fails h hoffers
    have hm := Linker.runs_mergeSymbols hmerge
    rw [hoffers] at hm
    obtain ⟨-, rfl⟩ := runs_pure.mp hm
    obtain h | ⟨-, h⟩ := h
    · obtain ⟨-, sym, hsym, -⟩ := Linker.fails_checkUnresolved h
      rw [hs] at hsym
      cases hsym
    have hnodup := nodup_allSections hnames 0
    obtain h | ⟨refs, f, hform, h⟩ := h
    · exact (Linker.fresh_ready hs).not_allFit hnodup h ((Linker.placeable_iff hnames).mp hplaceable)
    obtain ⟨hagree, hformed, hsort⟩ := (Linker.fresh_ready hs).formed hnodup hform
    obtain h | h := h
    · have hperm : refs.Perm (allSections 0 objects) := by
        rw [hsort]
        exact Ordered.sort_perm ..
      exact e.not_blamesPlacements_nil (Linker.blames_of_checkOverlap hfinds haccepts hformed hagree
        hperm (Linker.fails_checkOverlap.mp h).1)
    · exact Linker.patches_ne_nil_of_fails h (Linker.patches_of_bare hagree hbare)
  · exact ⟨exe, rfl⟩

/-- The object is read from its own text, but for the number of the next symbol. -/
theorem Object.obtained_oversized (code : Bytes) : ∃ next, (oversized next code).Obtained := by
  have hregular : (oversized 0 code).Regular :=
    ⟨SymbolTable.ascending_empty, nodup_oversized 0 code _ (List.mem_singleton_self _),
      List.forall_mem_cons.mpr ⟨rfl, List.forall_mem_singleton.mpr rfl⟩, List.Pairwise.nil⟩
  have ht : IsName Assembler.lineLimit (text "t") := ⟨by decide, by decide⟩
  have hu : IsName Assembler.lineLimit (text "u") := ⟨by decide, by decide⟩
  have hnamed : (oversized 0 code).Named (IsName Assembler.lineLimit) :=
    ⟨List.forall_mem_nil _, List.forall_mem_cons.mpr ⟨ht, List.forall_mem_singleton.mpr hu⟩,
      List.forall_mem_nil _⟩
  obtain ⟨next, hread⟩ := Object.read_print hregular (hnamed.mono fun _ hn => hn.1)
    (ObjectText.length_lt_of_named hnamed) (text "a.o")
  exact ⟨next, .inr ⟨_, _, hread⟩⟩

/-- A section of a linked program is where it was placed. -/
theorem Linker.Stages.exists_location {tree : IntervalTree Span} {objects : List Object}
    {placements : Placements} {refs : List SectionRef} {s m f d : Progress}
    (h : Stages tree objects placements refs s m f d) {seg : Segment} (hseg : seg ∈ d.segments refs) :
    ∃ r ∈ allSections 0 objects, seg.body.location = f.location r := by
  have hspans : (d.segments refs).map (fun s => s.body.span) = f.spans refs :=
    spans_of_agree h.patched.objects refs
  obtain ⟨r, hr, u, hu, hspan⟩ := mem_spans.mp (hspans ▸ List.mem_map_of_mem hseg)
  refine ⟨r, h.perm.mem_iff.mp hr, ?_⟩
  show _ = ((sectionAt f.objects r).map Section.location).getD 0
  rw [hu]
  exact (congrArg Span.start hspan).symm

/-- Linking takes a section of 2³² bytes for an empty one, and the next one goes to its place. -/
theorem Executable.segments_oversized (next : Int64) {code : Bytes} (h : code.length = 2 ^ 32) :
    ∃ exe s t, (Executable.link (.sorted Span) [] [oversized next code]).1 = .ok exe ∧
      exe.segments = [s, t] ∧ s.body.location = 0 ∧ t.body.location = 0 ∧
      s.body.code.length = 2 ^ 32 ∧ t.body.code.length = 1 := by
  have hnames := nodup_oversized next code
  obtain ⟨exe, hexe⟩ := Executable.exists_link IntervalTree.sorted_finds IntervalTree.sorted_accepts
    hnames (List.forall_mem_singleton.mpr ⟨rfl, rfl⟩) (placeable_oversized h)
  obtain ⟨l, refs, log, hrun, rfl⟩ := Executable.link_eq_ok hexe
  obtain ⟨_, m, f, d, hstages, rfl⟩ := Linker.stages_of_run hnames hrun
  have hat : ∀ r ∈ allSections 0 [oversized next code], f.location r = 0 := by
    intro r hr
    obtain ⟨front, back, e⟩ := List.append_of_mem hr
    have hslot := hstages.formed.allAt (nodup_allSections hnames 0) front r back e
    rw [slot_oversized h e] at hslot
    exact UInt32.toNat_inj.mp hslot
  have hzero : ∀ seg ∈ d.segments refs, seg.body.location = 0 := by
    intro seg hseg
    obtain ⟨r, hr, hlocation⟩ := hstages.exists_location hseg
    rw [hlocation, hat r hr]
  have hrefs : refs = [⟨0, text "t"⟩, ⟨0, text "u"⟩] := by
    rw [allSections_oversized, List.forall_mem_cons, List.forall_mem_singleton] at hat
    rw [hstages.order, allSections_oversized]
    simp [Ordered.sort, Ordered.insert, hat]
  have hpresent := hstages.present
  rw [hrefs] at hpresent hzero
  obtain ⟨s, _, hs, hrest, hsegments⟩ := List.forall₂_cons_left_iff.mp hpresent
  obtain ⟨t, _, ht, hnil, rfl⟩ := List.forall₂_cons_left_iff.mp hrest
  obtain rfl := List.forall₂_nil_left_iff.mp hnil
  rw [hsegments, List.forall_mem_cons, List.forall_mem_singleton] at hzero
  have hlength {seg : Segment} {name bytes : Bytes} (hseg : seg.IsAt [oversized next code] ⟨0, name⟩)
      (hfind : (oversized next code).findSection name = some { name, code := bytes }) :
      seg.body.code.length = bytes.length := by
    obtain ⟨obj, sec, hobj, hsec, -, -, hlen⟩ := hseg
    cases hobj
    rw [hfind] at hsec
    cases hsec
    exact hlen
  refine ⟨d.executable refs, s, t, hexe, ?_, hzero.1, hzero.2, ?_, hlength ht rfl⟩
  · rw [hrefs]
    exact hsegments
  · rw [hlength hs rfl, h]

/-- Two sections of a linked program are at the same address, where both have a byte. -/
theorem oversized_section_shares_address : ∃ obj exe s t, obj.Obtained ∧
    (Executable.link (.sorted Span) [] [obj]).1 = .ok exe ∧
    exe.segments[0]? = some s ∧ exe.segments[1]? = some t ∧
    s.body.Occupies 0 ∧ t.body.Occupies 0 ∧
    2 ^ 32 - 1 < s.body.location.toNat + s.body.code.length := by
  obtain ⟨code, h⟩ := Bytes.exists_length (2 ^ 32)
  obtain ⟨next, hobtained⟩ := Object.obtained_oversized code
  obtain ⟨exe, s, t, hlink, hsegments, hs, ht, hlong, hone⟩ :=
    Executable.segments_oversized next h
  refine ⟨oversized next code, exe, s, t, hobtained, hlink, by rw [hsegments]; rfl,
    by rw [hsegments]; rfl, ?_, ?_, by omega⟩
  · unfold Section.Occupies
    rw [hs, hlong]
    decide
  · unfold Section.Occupies
    rw [ht, hone]
    decide

end AsmKit
