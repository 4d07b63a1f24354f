import AsmKit.Proofs.AddressSpace

/-
  The two written forms of a linked program. An image is read as blocks until its end, a listing as
  rows of an address and up to eight bytes. Both readers give back what was written
  (`readImage_blocks`, `readListing_lines`), so that both forms say what is in the memory of the
  program: the image as its runs, the listing in rows by address. This rests on the sections having
  fewer than 2³² bytes each. The count of a block is written in 32 bits, so no longer block is read
  back, and a section whose count comes to 0 is left out of the image (`short_of_image`).
-/

namespace AsmKit

/-! ## Images -/

namespace Block

/-- The blocks of an image: of each its address, how many bytes it has, and these. -/
def readImage : Bytes → Option (List Block)
  | [] => some []
  | a₃ :: a₂ :: a₁ :: a₀ :: n₃ :: n₂ :: n₁ :: n₀ :: rest =>
    let count := (Bytes.word n₃ n₂ n₁ n₀).toNat
    if rest.length < count then none
    else (readImage (rest.drop count)).map (⟨Bytes.word a₃ a₂ a₁ a₀, rest.take count⟩ :: ·)
  | _ => none
termination_by s => s.length
decreasing_by
  simp only [List.length_drop, List.length_cons]
  omega

/-- A block as an image has it. -/
def record (b : Block) : Bytes :=
  Bytes.ofWord b.address ++ Bytes.ofWord (UInt32.ofNat b.code.length) ++ b.code

theorem readImage_record {b : Block} (h : b.code.length < 2 ^ 32) (rest : Bytes) :
    readImage (b.record ++ rest) = (readImage rest).map (b :: ·) := by
  unfold record Bytes.ofWord
  simp only [List.cons_append, List.nil_append]
  rw [readImage]
  rw [Bytes.word_ofWord, Bytes.word_ofWord, UInt32.toNat_ofNat_of_lt' h, if_neg (by simp),
    List.drop_left, List.take_left]

theorem readImage_blocks {bs : List Block} (h : ∀ b ∈ bs, b.code.length < 2 ^ 32) :
    readImage (bs.flatMap record) = some bs := by
  induction bs with
  | nil =>
    rw [List.flatMap_nil, readImage]
  | cons b bs ih =>
    obtain ⟨hb, hbs⟩ := List.forall_mem_cons.mp h
    rw [List.flatMap_cons, readImage_record hb, ih hbs]
    rfl

end Block

/-! ## Listings -/

namespace Bytes

theorem isWord_of_mem_upperHex {width n : Nat} {b : UInt8} (h : b ∈ upperHex width n) :
    Ascii.isWord b = true := by
  obtain h | h := List.mem_append.mp h
  · rw [(List.mem_replicate.mp h).2]
    decide
  · obtain ⟨c, hc, rfl⟩ := List.mem_map.mp h
    exact Number.forall_mem_toDigits (P := fun c => Ascii.isWord c.toUpper.toUInt8 = true)
      (by decide) (by decide) n c hc

theorem isCell_upperHex (width n : Nat) : (upperHex width n).IsCell := by
  refine ⟨fun hnil => ?_, fun b hb => Ascii.cell_of_isWord b (isWord_of_mem_upperHex hb)⟩
  exact Nat.toDigits_ne_nil (List.map_eq_nil_iff.mp (List.append_eq_nil_iff.mp hnil).2)

/-- Cells that each have a space in front. -/
theorem fields_spaced {cells : List Bytes} (h : ∀ cell ∈ cells, cell.IsCell) :
    fields (cells.flatMap fun cell => Ascii.space :: cell) = cells := by
  induction cells with
  | nil => rfl
  | cons cell cells ih =>
    obtain ⟨hcell, hcells⟩ := List.forall_mem_cons.mp h
    have hrest := ih hcells
    rw [List.flatMap_cons, List.cons_append, fields_space]
    rcases cells with _ | ⟨next, cells⟩
    · rw [List.flatMap_nil, List.append_nil, hcell.isField.fields]
    · rw [List.flatMap_cons, List.cons_append, fields_space] at hrest
      rw [List.flatMap_cons, List.cons_append, hcell.isField.fields_space, hrest]

end Bytes

namespace Block

def colon : UInt8 := 0x3A

/-- A row of a listing: an address, a colon and up to eight bytes, all in hexadecimal. -/
def readRow (line : Bytes) : Option Block := do
  let address ← (Bytes.readWord 16 (line.takeWhile (· != colon))).toOption
  let code ← (ObjectText.readBytes (Bytes.fields ((line.dropWhile (· != colon)).drop 1))).toOption
  if code.length ≤ 8 then some ⟨address, code⟩ else none

def readListing (s : Bytes) : Option (List Block) := (Lines.cut [] [] s).mapM readRow

/-- A row as a listing has it. -/
def line (b : Block) : Bytes :=
  Bytes.upperHex 4 b.address.toNat ++ colon ::
    (b.code.map fun x => Bytes.upperHex 2 x.toNat).flatMap fun cell => Ascii.space :: cell

theorem readRow_line {b : Block} (h : b.code.length ≤ 8) : readRow b.line = some b := by
  have hdigits : ∀ x ∈ Bytes.upperHex 4 b.address.toNat, (x != colon) = true := by
    intro x hx
    rw [bne_iff_ne]
    rintro rfl
    exact absurd (Bytes.isWord_of_mem_upperHex hx) (by decide)
  have hcells : ∀ cell ∈ b.code.map fun x => Bytes.upperHex 2 x.toNat, cell.IsCell := by
    intro cell hcell
    obtain ⟨x, -, rfl⟩ := List.mem_map.mp hcell
    exact Bytes.isCell_upperHex 2 x.toNat
  unfold readRow line
  rw [List.takeWhile_append_of_pos hdigits, List.dropWhile_append_of_pos hdigits,
    List.takeWhile_cons_of_neg (by decide), List.dropWhile_cons_of_neg (by decide), List.append_nil,
    Bytes.readWord_upperHex, List.drop_one, List.tail_cons, Bytes.fields_spaced hcells,
    ObjectText.readBytes_map Bytes.readHexByte_upperHex]
  show (if b.code.length ≤ 8 then some b else none) = some b
  rw [if_pos h]

theorem newline_not_mem_line (b : Block) : Ascii.newline ∉ b.line := by
  have hcell {width n : Nat} : Ascii.newline ∉ Bytes.upperHex width n := by
    intro hmem
    exact absurd (Bytes.isWord_of_mem_upperHex hmem) (by decide)
  unfold line
  simp only [List.mem_append, List.mem_cons, List.mem_flatMap, List.mem_map, not_or]
  refine ⟨hcell, by decide, ?_⟩
  rintro ⟨_, ⟨x, -, rfl⟩, hmem | hmem⟩
  · exact absurd hmem (by decide)
  · exact hcell hmem

theorem readListing_lines {bs : List Block} (h : ∀ b ∈ bs, b.code.length ≤ 8) :
    readListing (bs.flatMap fun b => b.line ++ [Ascii.newline]) = some bs := by
  have hlines : ∀ l ∈ bs.map line, Ascii.newline ∉ l := by
    intro l hl
    obtain ⟨b, -, rfl⟩ := List.mem_map.mp hl
    exact newline_not_mem_line b
  have hcut := Lines.cut_lines hlines []
  rw [List.flatMap_map, List.reverse_nil, List.nil_append] at hcut
  unfold readListing
  rw [hcut, List.mapM_map]
  clear hlines hcut
  induction bs with
  | nil => rfl
  | cons b bs ih =>
    obtain ⟨hb, hbs⟩ := List.forall_mem_cons.mp h
    rw [List.mapM_cons, ih hbs, Function.comp, readRow_line hb]
    rfl

end Block

namespace Executable

open Block

/-- The rows of the listing. -/
def rows (exe : Executable) : List Block :=
  exe.segments.flatMap fun s => rowsFrom s.body.location 0 s.body.code.rows

theorem image_eq (exe : Executable) : exe.image = exe.blocks.flatMap record := rfl

theorem hexRow_eq (address : UInt32) (row : Bytes) :
    hexRow address row = (⟨address, row⟩ : Block).line ++ [Ascii.newline] := by
  unfold hexRow line
  rw [List.flatMap_map]
  simp only [List.append_assoc, List.cons_append]
  rfl

theorem hexListing_eq (exe : Executable) :
    exe.hexListing = exe.rows.flatMap fun b => b.line ++ [Ascii.newline] := by
  unfold hexListing rows sectionRows rowsFrom
  rw [List.flatMap_assoc]
  congr 1
  funext s
  rw [List.flatMap_map]
  congr 1
  funext ⟨row, n⟩
  exact hexRow_eq _ row

theorem length_of_mem_rows {exe : Executable} {b : Block} (h : b ∈ exe.rows) : b.code.length ≤ 8 := by
  obtain ⟨s, -, hb⟩ := List.mem_flatMap.mp h
  obtain ⟨⟨row, n⟩, hrow, rfl⟩ := List.mem_map.mp hb
  exact (Bytes.of_mem_rows (List.fst_mem_of_mem_zipIdx hrow)).2

/-! ## Memory -/

/-- What is in the memory of a linked program. -/
def memory (exe : Executable) : Nat → Option UInt8 := Block.memory exe.pieces

theorem runsOf_blocks {exe : Executable} (h : Laid exe.pieces) :
    RunsOf exe.memory exe.blocks ∧ ∀ b ∈ exe.blocks, b.code.length < 2 ^ 32 := by
  have hjoins : Joins exe.pieces exe.blocks.reverse := by
    rw [blocks, List.reverse_reverse]
    exact joins_nil.foldl exe.segments h
  have hmem {b : Block} (hb : b ∈ exe.blocks) : b ∈ exe.blocks.reverse := List.mem_reverse.mpr hb
  refine ⟨runsOf_of_apart (fun b hb => hjoins.nonempty b (hmem hb))
    (List.pairwise_reverse.mp hjoins.apart) fun a x => ?_, fun b hb => ?_⟩
  · rw [memory, memory_defines h a x, ← hjoins.holds]
    simp only [Holds, List.mem_reverse]
  · obtain ⟨c, hc, e⟩ := hjoins.reach b (hmem hb)
    have hfits := h.fits c hc
    rw [← e, stop] at hfits
    omega

theorem cuts_segment {exe : Executable} (h : Laid exe.pieces) {s : Segment}
    (hs : s ∈ exe.segments) :
    Cuts s.body.block (rowsFrom s.body.location 0 s.body.code.rows) := by
  have hfits : s.body.location.toNat + s.body.code.length ≤ 2 ^ 32 - 1 :=
    h.fits s.body.block (List.mem_map_of_mem hs)
  have hcuts : Cuts ⟨s.body.location + UInt32.ofNat (8 * 0), s.body.code⟩
    (rowsFrom s.body.location 0 s.body.code.rows) := cuts_rowsFrom fun _ => hfits
  have hstart : s.body.location + UInt32.ofNat (8 * 0) = s.body.location := UInt32.add_zero _
  rw [hstart] at hcuts
  exact hcuts

theorem defines_rows {exe : Executable} (h : Laid exe.pieces) : Defines exe.rows exe.memory := by
  intro a x
  rw [memory, memory_defines h a x]
  constructor
  · intro ⟨b, hb, hx⟩
    obtain ⟨s, hs, rfl⟩ := List.mem_map.mp hb
    obtain ⟨r, hr, hx⟩ := ((cuts_segment h hs).holds a x).mpr hx
    exact ⟨r, List.mem_flatMap.mpr ⟨s, hs, hr⟩, hx⟩
  · intro ⟨r, hr, hx⟩
    obtain ⟨s, hs, hr⟩ := List.mem_flatMap.mp hr
    exact ⟨s.body.block, List.mem_map_of_mem hs, ((cuts_segment h hs).holds a x).mp ⟨r, hr, hx⟩⟩

theorem ascending_rows {exe : Executable} (h : Laid exe.pieces) :
    exe.rows.Pairwise fun r t => r.address < t.address := by
  have hasc := h.ascending
  rw [pieces, List.pairwise_map] at hasc
  have hstep {r t : Block} (hr : r.code ≠ []) (hle : r.stop ≤ t.address.toNat) :
      r.address < t.address := by
    rw [UInt32.lt_iff_toNat_lt]
    exact Nat.lt_of_lt_of_le (lt_stop hr) hle
  refine List.pairwise_flatMap.mpr ⟨fun s hs => ?_, hasc.imp_of_mem fun {s t} hs ht hst r hr u hu => ?_⟩
  · have hcuts := cuts_segment h hs
    exact hcuts.ascending.imp_of_mem fun hr _ hle => hstep (hcuts.nonempty _ hr) hle
  · have hs := cuts_segment h hs
    have ht := cuts_segment h ht
    have hle := hst (ht.ne_nil hu)
    have hr' := (hs.within r hr).2
    have hu' := (ht.within u hu).1
    exact hstep (hs.nonempty r hr) (by omega)

end Executable

/-- The sections of a linked program lie one behind the other. -/
theorem Executable.Spread.laid {objects : List Object} {exe : Executable} (h : exe.Spread objects)
    (hshort : ∀ s ∈ exe.segments, s.body.code.length < 2 ^ 32) : Block.Laid exe.pieces := by
  refine ⟨fun b hb => ?_, ?_⟩
  · obtain ⟨t, ht, rfl⟩ := List.mem_map.mp hb
    have hfits := h.fits t ht
    unfold Span.Fits Section.span at hfits
    dsimp only at hfits
    rw [Section.toNat_length (hshort t ht)] at hfits
    exact hfits
  · have hdisjoint := h.disjoint
    rw [List.pairwise_map] at hdisjoint
    rw [Executable.pieces, List.pairwise_map]
    refine (h.ascending.and hdisjoint).imp_of_mem fun {t u} ht hu h hbytes => ?_
    obtain ⟨hle, hdisjoint⟩ := h
    -- otherwise both would have the first byte of the second
    by_contra hlt
    refine hdisjoint u.body.location.toNat ⟨(Section.contains_span (hshort t ht) _).mpr ?_,
      (Section.contains_span (hshort u hu) _).mpr ?_⟩
    · exact ⟨UInt32.le_iff_toNat_le.mp hle, Nat.lt_of_not_le hlt⟩
    · exact ⟨Nat.le_refl _, Nat.lt_add_of_pos_right (List.length_pos_iff.mpr hbytes)⟩

/-! ## Sections that are not short -/

/-- The count of a block has 32 bits. -/
theorem Block.length_lt_of_readImage {s : Bytes} {bs : List Block} (h : readImage s = some bs) :
    ∀ b ∈ bs, b.code.length < 2 ^ 32 := by
  induction s using readImage.induct generalizing bs with
  | case1 =>
    rw [readImage] at h
    cases h
    exact List.forall_mem_nil _
  | case2 a₃ a₂ a₁ a₀ n₃ n₂ n₁ n₀ rest count =>
    rename_i hcount
    rw [readImage, if_pos hcount] at h
    cases h
  | case3 a₃ a₂ a₁ a₀ n₃ n₂ n₁ n₀ rest count hcount =>
    rename_i ih
    rw [readImage, if_neg hcount] at h
    obtain ⟨tail, htail, rfl⟩ := Option.map_eq_some_iff.mp h
    refine List.forall_mem_cons.mpr ⟨?_, ih htail⟩
    rw [List.length_take]
    exact Nat.lt_of_le_of_lt (Nat.min_le_left ..) (UInt32.toNat_lt _)
  | case4 s hnil hcons =>
    rw [readImage] at h
    · cases h
    · exact hnil
    · exact hcons

/-- A block ends where one of some sections does that is no longer. -/
def Block.EndsWith (sections : List Section) (b : Block) : Prop :=
  ∃ s ∈ sections, s.block.stop = b.stop ∧ s.code.length ≤ b.code.length

theorem Block.endsWith_addBlock {found : List Block} {sections : List Section} {s : Section}
    (hs : s ∈ sections) (h : ∀ b ∈ found, b.EndsWith sections) :
    ∀ b ∈ Executable.addBlock found s, b.EndsWith sections := by
  have hnew : EndsWith sections ⟨s.location, s.code⟩ := ⟨s, hs, rfl, Nat.le_refl _⟩
  unfold Executable.addBlock
  split
  · exact h
  · split
    · next last before =>
      split
      · next hmeets =>
        refine List.forall_mem_cons.mpr ⟨⟨s, hs, ?_, ?_⟩, (List.forall_mem_cons.mp h).2⟩
        · unfold Block.stop Section.block
          dsimp only
          rw [List.length_append]
          omega
        · rw [List.length_append]
          exact Nat.le_add_left ..
      · exact List.forall_mem_cons.mpr ⟨hnew, h⟩
    · exact List.forall_mem_cons.mpr ⟨hnew, h⟩

theorem Executable.endsWith_of_mem_blocks {exe : Executable} {b : Block} (h : b ∈ exe.blocks) :
    b.EndsWith (exe.segments.map Segment.body) := by
  have hfold (front back : List Segment) (found : List Block)
      (hsegments : exe.segments = front ++ back)
      (h : ∀ b ∈ found, b.EndsWith (exe.segments.map Segment.body)) :
      ∀ b ∈ back.foldl (fun found s => addBlock found s.body) found,
        b.EndsWith (exe.segments.map Segment.body) := by
    induction back generalizing front found with
    | nil => exact h
    | cons s back ih =>
      refine ih (front ++ [s]) _ (hsegments.trans (List.append_cons ..)) ?_
      refine Block.endsWith_addBlock (List.mem_map_of_mem ?_) h
      rw [hsegments]
      exact List.mem_append_right _ (List.mem_cons_self ..)
  exact hfold [] exe.segments [] rfl (List.forall_mem_nil _) b (List.mem_reverse.mp h)

/-- If the image is read back as the runs of the memory, every section is short: in a longer one there
is a byte at the last address, and no block that is read back reaches it. -/
theorem Executable.Spread.short_of_image {objects : List Object} {exe : Executable}
    (h : exe.Spread objects) (hread : Block.readImage exe.image = some exe.blocks)
    (hruns : Block.RunsOf exe.memory exe.blocks) :
    ∀ s ∈ exe.segments, s.body.code.length < 2 ^ 32 := by
  intro s hs
  by_contra hlong
  have hlast : s.body.location.toNat < 2 ^ 32 := s.body.location.toNat_lt
  obtain ⟨x, hx⟩ : ∃ x, exe.memory (2 ^ 32 - 1) = some x := by
    unfold Executable.memory Block.memory
    rw [← Option.isSome_iff_exists, List.findSome?_isSome_iff]
    refine ⟨s.body.block, List.mem_map_of_mem hs, ?_⟩
    unfold Block.byteAt Section.block
    dsimp only
    rw [if_pos (by omega), List.getElem?_eq_getElem (by omega)]
    rfl
  obtain ⟨b, hb, hbyte⟩ := (hruns.defines _ x).mp hx
  obtain ⟨_, hmem, hstop, hle⟩ := Executable.endsWith_of_mem_blocks hb
  obtain ⟨t, ht, rfl⟩ := List.mem_map.mp hmem
  have hcount := Block.length_lt_of_readImage hread b hb
  have hfits := h.fits t ht
  unfold Span.Fits Section.span at hfits
  dsimp only at hfits
  rw [Section.toNat_length (by omega)] at hfits
  have hreach := (Block.bounds_of_byteAt hbyte).2
  rw [← hstop] at hreach
  exact absurd hreach (Nat.not_lt_of_le hfits)

/-- Both written forms of a linked program denote its memory. The image is read back as the runs of
that memory, the listing as rows by address that hold the same bytes. The linker keeps lengths in 32
bits, so this is the case exactly if the sections have fewer than 2³² bytes each. -/
theorem outputs_denote_memory {tree : IntervalTree Span} (htree : tree.Finds)
    {placements : Placements} {objects : List Object} {exe : Executable}
    (hnames : ∀ obj ∈ objects, obj.sectionNames.Nodup)
    (h : (Executable.link tree placements objects).1 = .ok exe) :
    (Block.Defines exe.pieces exe.memory ∧
      (Block.readImage exe.image = some exe.blocks ∧ Block.RunsOf exe.memory exe.blocks) ∧
      ∃ rows, Block.readListing exe.hexListing = some rows ∧
        (rows.Pairwise fun r t => r.address < t.address) ∧ Block.Defines rows exe.memory) ↔
    ∀ obj ∈ objects, obj.Short := by
  have hspread := Executable.spread_of_link htree hnames h
  rw [← hspread.short_iff hnames]
  constructor
  · rintro ⟨-, ⟨hread, hruns⟩, -⟩
    exact hspread.short_of_image hread hruns
  · intro hshort
    have hlaid := hspread.laid hshort
    obtain ⟨hruns, hlengths⟩ := Executable.runsOf_blocks hlaid
    refine ⟨Block.memory_defines hlaid, ⟨?_, hruns⟩, exe.rows, ?_, Executable.ascending_rows hlaid,
      Executable.defines_rows hlaid⟩
    · rw [Executable.image_eq]
      exact Block.readImage_blocks hlengths
    · rw [Executable.hexListing_eq]
      exact Block.readListing_lines fun b hb => Executable.length_of_mem_rows hb

/-- A source with sections that will touch, one of them empty, and more than a row of bytes. -/
def threeParts : Bytes :=
  text ".section t\n.word 1, 2, 3\n.section e\n.section u\nhalt\n.section v\n.word 4\n.end\n"

theorem outputs_denote_memory_threeParts : ∃ obj exe,
    (Object.assemble (text "a.o") threeParts).1 = .ok obj ∧
    (Executable.link (.sorted Span) [(text "t", 8), (text "u", 20), (text "v", 64)] [obj]).1 =
      .ok exe ∧
    exe.blocks.map (fun b => (b.address, b.code.length)) = [(8, 13), (64, 4)] ∧
    Block.readImage exe.image = some exe.blocks ∧ Block.RunsOf exe.memory exe.blocks ∧
    ∃ rows, Block.readListing exe.hexListing = some rows ∧
      (rows.Pairwise fun r t => r.address < t.address) ∧ Block.Defines rows exe.memory := by
  have h : ((Object.assemble (text "a.o") threeParts).1.toOption.bind fun obj =>
      (Executable.link (.sorted Span) [(text "t", 8), (text "u", 20), (text "v", 64)]
        [obj]).1.toOption.map fun exe =>
        exe.blocks.map fun b => (b.address, b.code.length)) = some [(8, 13), (64, 4)] := by
    decide +kernel
  obtain ⟨obj, hobj, h⟩ := Option.bind_eq_some_iff.mp h
  obtain ⟨exe, hexe, hblocks⟩ := Option.map_eq_some_iff.mp h
  have hassembled := Object.assembled (eq_ok_of_toOption hobj)
  have hnames : ∀ o ∈ [obj], o.sectionNames.Nodup :=
    List.forall_mem_singleton.mpr hassembled.sound.nodup
  have hshort : ∀ o ∈ [obj], o.Short := by
    rw [List.forall_mem_singleton]
    intro s hs
    exact hassembled.short s.name s
      ((Object.findSection_eq_some_iff hassembled.sound.nodup).mpr ⟨hs, rfl⟩)
  obtain ⟨-, ⟨himage, hruns⟩, hlisting⟩ := (outputs_denote_memory IntervalTree.sorted_finds hnames
    (eq_ok_of_toOption hexe)).mpr hshort
  exact ⟨obj, exe, eq_ok_of_toOption hobj, eq_ok_of_toOption hexe, hblocks, himage, hruns, hlisting⟩

/-- A section of 2³² bytes is in the memory of the program and not in its image. -/
theorem oversized_section_is_left_out : ∃ obj exe x, obj.sectionNames.Nodup ∧
    (Executable.link (.sorted Span) [] [obj]).1 = .ok exe ∧
    Block.readImage exe.image = some exe.blocks ∧
    exe.memory 1 = some x ∧ ∀ y, ¬ Block.Holds exe.blocks 1 y := by
  obtain ⟨code, h⟩ := Bytes.exists_length (2 ^ 32)
  obtain ⟨exe, s, t, hlink, hsegments, hs, ht, hlong, hone⟩ := Executable.segments_oversized 0 h
  have hempty : s.body.length = 0 := by
    rw [Section.length, hlong]
    rfl
  have hbyte : t.body.length ≠ 0 := by
    rw [Section.length, hone]
    decide
  have hblocks : exe.blocks = [t.body.block] := by
    unfold Executable.blocks
    rw [hsegments]
    simp [Executable.addBlock, hempty, hbyte, Section.block]
  obtain ⟨x, hx⟩ : ∃ x, s.body.block.byteAt 1 = some x := by
    unfold Block.byteAt Section.block
    dsimp only
    rw [hs, if_pos (by decide)]
    exact ⟨_, List.getElem?_eq_getElem (hlong ▸ by decide)⟩
  refine ⟨oversized 0 code, exe, x, nodup_oversized 0 code _ (List.mem_singleton_self _), hlink, ?_,
    ?_, fun y hy => ?_⟩
  · rw [Executable.image_eq, hblocks]
    refine Block.readImage_blocks (List.forall_mem_singleton.mpr ?_)
    show t.body.code.length < 2 ^ 32
    omega
  · unfold Executable.memory Block.memory Executable.pieces
    rw [hsegments, List.map_cons, List.findSome?_cons, hx]
  · -- the only block ends at 1
    obtain ⟨b, hb, hyb⟩ := hy
    rw [hblocks] at hb
    obtain rfl := List.mem_singleton.mp hb
    have hbounds := (Block.bounds_of_byteAt hyb).2
    unfold Block.stop Section.block at hbounds
    dsimp only at hbounds
    rw [ht, hone] at hbounds
    exact absurd hbounds (by decide)

end AsmKit
