import AsmKit.Proofs.ComposedObject

/-
  Section blocks are independent of each other. A source may consist of lines without a section and
  then of blocks, each of which opens a section of its own. Its lines then have places that do not
  depend on the order of the blocks (`Layout.placed_inBlocks`), so the order shows only in the order of
  sections and relocations and in the numbers of symbols.
-/

namespace AsmKit

/-! ## Lines read alone -/

namespace SourceLine

/-- What a line says, if it can be read. -/
def ofRaw (raw : Bytes) : SourceLine := (read 1 raw).toOption.getD ⟨none, .nothing⟩

theorem ofRaw_eq {n : Nat} {raw : Bytes} {l : SourceLine} (h : read n raw = .ok l) : ofRaw raw = l := by
  unfold ofRaw
  rw [read_renumber h 1]
  rfl

/-- A line that opens a section and has no label in front of that. -/
def opensBlock (raw : Bytes) : Bool :=
  (ofRaw raw).label?.isNone && (ofRaw raw).statement.opens?.isSome

/-- A line that neither opens a section nor ends the source. -/
def staysInBlock (raw : Bytes) : Bool :=
  (ofRaw raw).statement.opens?.isNone && (ofRaw raw).statement != .stop

/-- A line that opens a section and lines that stay in it. -/
def isBlock : List Bytes → Bool
  | [] => false
  | head :: rest => opensBlock head && rest.all staysInBlock

/-- A source that does not end early is read line by line. -/
theorem readAll_eq_map {number : Nat} {source : List Bytes} {ls : List SourceLine}
    (h : readAll number source = .ok ls)
    (hgo : ∀ raw ∈ source, (ofRaw raw).statement ≠ .stop) : ls = source.map ofRaw := by
  induction source generalizing number ls with
  | nil =>
    cases h
    rfl
  | cons raw rest ih =>
    obtain ⟨l, hread, ⟨hstop, -⟩ | ⟨-, ls', hrest, rfl⟩⟩ := readAll_cons_eq_ok_iff.mp h
    · exact absurd (ofRaw_eq hread ▸ hstop) (hgo raw (List.mem_cons_self ..))
    · rw [List.map_cons, ofRaw_eq hread,
        ih hrest fun raw hraw => hgo raw (List.mem_cons_of_mem _ hraw)]

end SourceLine

/-! ## Places of blocks -/

/-- Lines that open no section. -/
def Stays (ls : List SourceLine) : Prop := ∀ l ∈ ls, l.statement.opens? = none

/-- A line that opens the section, with no label in front, and lines that stay in it. -/
def IsBlockOf (n : Bytes) (b : List SourceLine) : Prop :=
  ∃ head rest, b = head :: rest ∧ head.label? = none ∧ head.statement.opens? = some n ∧ Stays rest

/-- The section that a block opens. -/
def blockName (b : List SourceLine) : Bytes :=
  (b.head?.bind fun l => l.statement.opens?).getD undefinedSection

namespace PlacedLine

theorem within_lay_self (n : Bytes) (offset : Nat) (ls : List SourceLine) :
    within n (lay n offset ls) = lay n offset ls := by
  induction ls generalizing offset with
  | nil => rfl
  | cons l ls ih =>
    unfold lay
    rw [within_cons_self (x := ⟨n, offset, l⟩) rfl, ih]

theorem within_lay_ne {n m : Bytes} (h : n ≠ m) (offset : Nat) (ls : List SourceLine) :
    within n (lay m offset ls) = [] := by
  induction ls generalizing offset with
  | nil => rfl
  | cons l ls ih =>
    unfold lay
    rw [within_cons_ne h, ih]

theorem within_append (n : Bytes) (xs ys : List PlacedLine) :
    within n (xs ++ ys) = within n xs ++ within n ys := List.filter_append ..

/-- Of blocks that open different sections one at most has lines in a given section. -/
theorem within_blocks (n : Bytes) (blocks : List (List SourceLine)) :
    within n (blocks.flatMap fun b => lay (blockName b) 0 b) =
      (blocks.filter fun b => blockName b == n).flatMap fun b => lay n 0 b := by
  induction blocks with
  | nil => rfl
  | cons b rest ih =>
    rw [List.flatMap_cons, within_append, ih, List.filter_cons]
    split
    · next hb =>
      rw [List.flatMap_cons, beq_iff_eq.mp hb, within_lay_self]
    · next hb =>
      have hne : n ≠ blockName b := fun e => hb (beq_iff_eq.mpr e.symm)
      rw [within_lay_ne hne, List.nil_append]

end PlacedLine

namespace Layout

variable {y : Layout} {ls : List SourceLine} {b : List SourceLine} {n : Bytes}

theorem placed_of_stays (h : Stays ls) :
    y.placed ls = PlacedLine.lay y.current (y.extent y.current) ls ∧
      ∀ m, m ≠ y.current → (ls.foldl step y).extent m = y.extent m := by
  induction ls generalizing y with
  | nil => exact ⟨rfl, fun _ _ => rfl⟩
  | cons l ls ih =>
    have hopens : l.statement.opens? = none := h l (List.mem_cons_self ..)
    obtain ⟨hplaced, hextent⟩ := ih (y := y.step l) fun l hl => h l (List.mem_cons_of_mem _ hl)
    have hcurrent : (y.step l).current = y.current := by
      rw [current_step, place_of_not_opens hopens]
    have hsection : (y.place l).sectionName = y.current := by rw [place_of_not_opens hopens]
    constructor
    · unfold placed PlacedLine.lay
      rw [hplaced, hcurrent, extent_step, hsection, if_pos rfl, place_of_not_opens hopens]
    · intro m hm
      rw [List.foldl_cons, hextent m (hcurrent ▸ hm), extent_step, hsection, if_neg hm, Nat.add_zero]

/-- A block stands in its section, behind what is there, and leaves other sections as they are. -/
theorem placed_of_block (h : IsBlockOf n b) :
    y.placed b = PlacedLine.lay n (y.extent n) b ∧
      ∀ m, m ≠ n → (b.foldl step y).extent m = y.extent m := by
  obtain ⟨head, rest, rfl, -, hopens, hstays⟩ := h
  have hstep : y.step head = { y with current := n } := step_current_of_opens hopens
  obtain ⟨hplaced, hextent⟩ := placed_of_stays (y := y.step head) hstays
  rw [hstep] at hplaced hextent
  constructor
  · unfold placed PlacedLine.lay
    rw [hstep, hplaced, place_of_opens hopens, Statement.size_of_opens hopens, Nat.add_zero]
  · intro m hm
    rw [List.foldl_cons, hstep]
    exact hextent m hm

theorem placed_blocks {blocks : List (List SourceLine)}
    (h : ∀ b ∈ blocks, IsBlockOf (blockName b) b) (hnodup : (blocks.map blockName).Nodup)
    (hempty : ∀ b ∈ blocks, y.extent (blockName b) = 0) :
    y.placed blocks.flatten = blocks.flatMap fun b => PlacedLine.lay (blockName b) 0 b := by
  induction blocks generalizing y with
  | nil => rfl
  | cons b rest ih =>
    obtain ⟨hplaced, hextent⟩ := placed_of_block (y := y) (h b (List.mem_cons_self ..))
    obtain ⟨hnew, hnodup⟩ := List.nodup_cons.mp hnodup
    rw [List.flatten_cons, placed_append, List.flatMap_cons, hplaced,
      hempty b (List.mem_cons_self ..)]
    congr 1
    refine ih (fun b hb => h b (List.mem_cons_of_mem _ hb)) hnodup fun c hc => ?_
    -- another block has another name, so this one added nothing to its section
    rw [hextent (blockName c) fun e => hnew (e ▸ List.mem_map_of_mem hc)]
    exact hempty c (List.mem_cons_of_mem _ hc)

/-- Where the lines of a source in blocks stand, if its sections are different and nothing is placed
outside of them. -/
theorem placed_inBlocks {front : List SourceLine} {blocks : List (List SourceLine)}
    (hfront : Stays front) (h : ∀ b ∈ blocks, IsBlockOf (blockName b) b)
    (hnodup : (blocks.map blockName).Nodup)
    (houtside : (after (front ++ blocks.flatten)).extent undefinedSection = 0) :
    ({} : Layout).placed (front ++ blocks.flatten) =
      PlacedLine.lay undefinedSection 0 front ++
        blocks.flatMap fun b => PlacedLine.lay (blockName b) 0 b := by
  obtain ⟨hplaced, hextent⟩ := placed_of_stays (y := {}) hfront
  have hempty (n : Bytes) : (front.foldl step {}).extent n = 0 := by
    by_cases hn : n = undefinedSection
    · have hafter := extent_after (front.foldl step {}) blocks.flatten undefinedSection
      rw [← List.foldl_append] at hafter
      have hzero : ((front ++ blocks.flatten).foldl step {}).extent undefinedSection = 0 := houtside
      rw [hn]
      omega
    · exact hextent n hn
  rw [placed_append, hplaced, placed_blocks h hnodup fun b _ => hempty _]

end Layout

theorem opens_of_stays {ls : List SourceLine} (h : Stays ls) :
    (ls.filterMap fun l => l.statement.opens?) = [] :=
  List.filterMap_eq_nil_iff.mpr h

/-- A source in blocks opens the sections of its blocks. -/
theorem opens_of_blocks {blocks : List (List SourceLine)}
    (h : ∀ b ∈ blocks, IsBlockOf (blockName b) b) :
    (blocks.flatten.filterMap fun l => l.statement.opens?) = blocks.map blockName := by
  induction blocks with
  | nil => rfl
  | cons b rest ih =>
    obtain ⟨head, lines, hb, -, hopens, hstays⟩ := h b (List.mem_cons_self ..)
    rw [List.flatten_cons, List.filterMap_append, List.map_cons,
      ih fun b hb => h b (List.mem_cons_of_mem _ hb)]
    rw [← List.singleton_append]
    congr 1
    rw [hb] at hopens ⊢
    simp only [List.filterMap_cons, hopens, opens_of_stays hstays]

/-! ## Sources in blocks -/

/-- The lines of a source are some that open no section, and then blocks. -/
structure InBlocks (front : List Bytes) (blocks : List (List Bytes)) : Prop where
  front : ∀ raw ∈ front, SourceLine.staysInBlock raw = true
  blocks : ∀ b ∈ blocks, SourceLine.isBlock b = true

instance (front : List Bytes) (blocks : List (List Bytes)) : Decidable (InBlocks front blocks) :=
  decidable_of_iff
    ((∀ raw ∈ front, SourceLine.staysInBlock raw = true) ∧
      ∀ b ∈ blocks, SourceLine.isBlock b = true)
    ⟨fun h => ⟨h.1, h.2⟩, fun h => ⟨h.1, h.2⟩⟩

namespace InBlocks

variable {front : List Bytes} {blocks blocks' : List (List Bytes)}

theorem of_perm (h : InBlocks front blocks) (hperm : blocks'.Perm blocks) : InBlocks front blocks' :=
  ⟨h.front, fun b hb => h.blocks b (hperm.mem_iff.mp hb)⟩

theorem stays_ofRaw {ls : List Bytes} (h : ∀ raw ∈ ls, SourceLine.staysInBlock raw = true) :
    Stays (ls.map SourceLine.ofRaw) ∧
      ∀ raw ∈ ls, (SourceLine.ofRaw raw).statement ≠ .stop := by
  constructor
  · intro l hl
    obtain ⟨raw, hraw, rfl⟩ := List.mem_map.mp hl
    have hstays := h raw hraw
    unfold SourceLine.staysInBlock at hstays
    rw [Bool.and_eq_true] at hstays
    exact Option.isNone_iff_eq_none.mp hstays.1
  · intro raw hraw
    have hstays := h raw hraw
    unfold SourceLine.staysInBlock at hstays
    rw [Bool.and_eq_true] at hstays
    exact bne_iff_ne.mp hstays.2

theorem isBlock_ofRaw {b : List Bytes} (h : SourceLine.isBlock b = true) :
    IsBlockOf (blockName (b.map SourceLine.ofRaw)) (b.map SourceLine.ofRaw) ∧
      ∀ raw ∈ b, (SourceLine.ofRaw raw).statement ≠ .stop := by
  rcases b with _ | ⟨head, rest⟩
  · cases h
  · unfold SourceLine.isBlock SourceLine.opensBlock at h
    rw [Bool.and_eq_true, Bool.and_eq_true, List.all_eq_true] at h
    obtain ⟨⟨hlabel, hopens⟩, hrest⟩ := h
    obtain ⟨n, hn⟩ := Option.isSome_iff_exists.mp hopens
    obtain ⟨hstays, hgo⟩ := stays_ofRaw hrest
    have hname : blockName ((head :: rest).map SourceLine.ofRaw) = n := by
      show ((SourceLine.ofRaw head).statement.opens?).getD undefinedSection = n
      rw [hn]
      rfl
    constructor
    · rw [hname]
      exact ⟨_, _, rfl, Option.isNone_iff_eq_none.mp hlabel, hn, hstays⟩
    · intro raw hraw
      rcases List.mem_cons.mp hraw with rfl | hraw
      · intro hstop
        rw [hstop] at hn
        cases hn
      · exact hgo raw hraw

/-- An object from a source in blocks is composed of lines that have the same places in whatever
order the blocks come. -/
theorem composedOf (h : InBlocks front blocks) {name source : Bytes} {obj : Object}
    (hsource : sourceLines source = front ++ blocks.flatten)
    (hobj : (Object.assemble name source).1 = .ok obj) :
    ((blocks.map (List.map SourceLine.ofRaw)).map blockName).Nodup ∧
      obj.ComposedOf (PlacedLine.lay undefinedSection 0 (front.map SourceLine.ofRaw) ++
        (blocks.map (List.map SourceLine.ofRaw)).flatMap fun b => PlacedLine.lay (blockName b) 0 b) := by
  obtain ⟨hfront, hgo⟩ := stays_ofRaw h.front
  have hblocks : ∀ b ∈ blocks.map (List.map SourceLine.ofRaw), IsBlockOf (blockName b) b := by
    intro b hb
    obtain ⟨raws, hraws, rfl⟩ := List.mem_map.mp hb
    exact (isBlock_ofRaw (h.blocks raws hraws)).1
  have hread : (front ++ blocks.flatten).map SourceLine.ofRaw =
      front.map SourceLine.ofRaw ++ (blocks.map (List.map SourceLine.ofRaw)).flatten := by
    rw [List.map_append, List.map_flatten]
  obtain ⟨ls, hls, houtside, hcomposed⟩ := Object.composedOf_assemble hobj
  rw [hsource] at hls
  have hlines := SourceLine.readAll_eq_map hls (by
    intro raw hraw
    rcases List.mem_append.mp hraw with hraw | hraw
    · exact hgo raw hraw
    · obtain ⟨b, hb, hraw⟩ := List.mem_flatten.mp hraw
      exact (isBlock_ofRaw (h.blocks b hb)).2 raw hraw)
  rw [hread] at hlines
  -- the only lines that open a section are the heads of blocks, which have no labels
  have hunlabelled : ∀ l ∈ ls, l.statement.opens? ≠ none → l.label? = none := by
    intro l hl hne
    rw [hlines] at hl
    rcases List.mem_append.mp hl with hl | hl
    · exact absurd (hfront l hl) hne
    · obtain ⟨b, hb, hl⟩ := List.mem_flatten.mp hl
      obtain ⟨head, rest, rfl, hlabel, -, hstays⟩ := hblocks b hb
      rcases List.mem_cons.mp hl with rfl | hl
      · exact hlabel
      · exact absurd (hstays l hl) hne
  have hcomposed := hcomposed hunlabelled
  have hnames : obj.sectionNames = (blocks.map (List.map SourceLine.ofRaw)).map blockName := by
    have hopens := congrArg (List.filterMap fun l : SourceLine => l.statement.opens?)
      (Layout.lines_placed {} ls)
    rw [List.filterMap_map] at hopens
    rw [hcomposed.sectionNames, ← opens_of_blocks hblocks]
    refine hopens.trans ?_
    rw [hlines, List.filterMap_append, opens_of_stays hfront, List.nil_append]
  have hnodup := hcomposed.nodup
  rw [hnames] at hnodup
  refine ⟨hnodup, ?_⟩
  rw [hlines] at houtside hcomposed
  rwa [Layout.placed_inBlocks hfront hblocks hnodup houtside] at hcomposed

end InBlocks

/-- Of two orders of blocks with different names, each keeps the lines of every section in order. -/
theorem within_perm {blocks blocks' : List (List SourceLine)} (hperm : blocks'.Perm blocks)
    (hnodup : (blocks.map blockName).Nodup) (front : List PlacedLine) (n : Bytes) :
    PlacedLine.within n (front ++ blocks'.flatMap fun b => PlacedLine.lay (blockName b) 0 b) =
      PlacedLine.within n (front ++ blocks.flatMap fun b => PlacedLine.lay (blockName b) 0 b) := by
  have hone : (blocks'.filter fun b => blockName b == n) = blocks.filter fun b => blockName b == n := by
    have hpairwise {bs : List (List SourceLine)} (h : (bs.map blockName).Nodup) :
        (bs.filter fun b => blockName b == n).Pairwise fun _ _ => False := by
      refine List.Pairwise.imp_of_mem ?_ ((List.pairwise_map.mp h).filter _)
      intro a b ha hb hne
      have hna := beq_iff_eq.mp (List.mem_filter.mp ha).2
      have hnb := beq_iff_eq.mp (List.mem_filter.mp hb).2
      exact hne (hna.trans hnb.symm)
    refine (hperm.filter _).eq_of_pairwise (fun _ _ _ _ hf => hf.elim) (hpairwise ?_)
      (hpairwise hnodup)
    exact (hperm.map blockName).nodup_iff.mpr hnodup
  rw [PlacedLine.within_append, PlacedLine.within_append, PlacedLine.within_blocks,
    PlacedLine.within_blocks, hone]

/-- Section blocks are independent. Two sources with the same lines in front and the same blocks in
another order, if both assemble, give objects with the same sections, the same relocations and, apart
from their numbers, the same symbols. -/
theorem section_blocks_commute {front : List Bytes} {blocks blocks' : List (List Bytes)}
    {name name' source source' : Bytes} {obj obj' : Object} (hblocks : InBlocks front blocks)
    (hperm : blocks'.Perm blocks) (hsource : sourceLines source = front ++ blocks.flatten)
    (hsource' : sourceLines source' = front ++ blocks'.flatten)
    (h : (Object.assemble name source).1 = .ok obj)
    (h' : (Object.assemble name' source').1 = .ok obj') :
    (∀ n, obj'.findSection n = obj.findSection n) ∧ obj'.sections.Perm obj.sections ∧
      obj'.symbols.entries.map Symbol.unnumbered = obj.symbols.entries.map Symbol.unnumbered ∧
      obj'.relocations.entries.Perm obj.relocations.entries := by
  obtain ⟨hnodup, hcomposed⟩ := hblocks.composedOf hsource h
  obtain ⟨-, hcomposed'⟩ := (hblocks.of_perm hperm).composedOf hsource' h'
  have hlines := hperm.map (List.map SourceLine.ofRaw)
  obtain ⟨hsections, hsymbols, hrelocations⟩ := hcomposed.same hcomposed'
    ((hlines.flatMap_right _).append_left _) (within_perm hlines hnodup _)
  refine ⟨fun n => Option.ext fun s => ?_, hsections, hsymbols, hrelocations⟩
  rw [Object.findSection_eq_some_iff hcomposed'.nodup, Object.findSection_eq_some_iff hcomposed.nodup,
    hsections.mem_iff]

/-- Lines that declare the symbols of the two blocks that follow. -/
def declaringLines : List Bytes := [text ".global f, g, h", text ".extern e"]

def callingBlock : List Bytes := [text ".section t", text "f: call $g", text "h: ld e, %r1"]

def answeringBlock : List Bytes := [text ".section d", text "g: jmp $f", text ".word h, g, e"]

def callingFirst : Bytes :=
  text ".global f, g, h\n.extern e\n.section t\nf: call $g\nh: ld e, %r1\n.section d\ng: jmp $f\n.word h, g, e\n"

def answeringFirst : Bytes :=
  text ".global f, g, h\n.extern e\n.section d\ng: jmp $f\n.word h, g, e\n.section t\nf: call $g\nh: ld e, %r1\n"

/-- Two blocks that refer to each other, in both orders. -/
theorem section_blocks_commute_mutual :
    InBlocks declaringLines [callingBlock, answeringBlock] ∧ ∃ obj obj',
      (Object.assemble (text "a.o") callingFirst).1 = .ok obj ∧
      (Object.assemble (text "b.o") answeringFirst).1 = .ok obj' ∧
      obj.sections.length = 2 ∧ obj'.sections.Perm obj.sections ∧
      obj'.symbols.entries.map Symbol.unnumbered = obj.symbols.entries.map Symbol.unnumbered ∧
      obj.relocations.size = 6 ∧ obj'.relocations.entries.Perm obj.relocations.entries := by
  have hblocks : InBlocks declaringLines [callingBlock, answeringBlock] := by decide +kernel
  have hcalling : (Object.assemble (text "a.o") callingFirst).1.toOption.map
      (fun obj => (obj.sections.length, obj.relocations.size)) = some (2, 6) := by
    decide +kernel
  have hanswering : (Object.assemble (text "b.o") answeringFirst).1.toOption.isSome = true := by
    decide +kernel
  obtain ⟨obj, hobj, hcounts⟩ := Option.map_eq_some_iff.mp hcalling
  obtain ⟨obj', hobj'⟩ := Option.isSome_iff_exists.mp hanswering
  have h := eq_ok_of_toOption hobj
  have h' := eq_ok_of_toOption hobj'
  obtain ⟨-, hsections, hsymbols, hrelocations⟩ := section_blocks_commute hblocks
    (List.Perm.swap callingBlock answeringBlock []) (by decide +kernel) (by decide +kernel) h h'
  obtain ⟨htwo, hsix⟩ := Prod.mk.inj hcounts
  exact ⟨hblocks, obj, obj', h, h', htwo, hsections, hsymbols, hsix, hrelocations⟩

end AsmKit
