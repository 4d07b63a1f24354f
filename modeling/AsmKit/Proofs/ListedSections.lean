import AsmKit.Proofs.Completion
import AsmKit.Proofs.Composition
import AsmKit.Proofs.Disassembly
import Mathlib.Data.List.Pairwise

/-
  Listings of assembled sections. A section without data is its instructions one behind the other, so
  its listing has a row for each of them (`exists_rows`). The relocations that reach into such a row
  are those of the symbol operands of its statement (`Lists.reached`), and linking changes no byte
  outside of them (`Linker.outside_of_generate`).
-/

namespace AsmKit

/-! ## Statements -/

namespace Statement

def isInstruction : Statement → Bool
  | .instruction _ _ => true
  | _ => false

/-- A statement that puts bytes into its section that are no instruction. -/
def isData : Statement → Bool
  | .directive .words _ | .directive .skip _ => true
  | _ => false

/-- What a listing notes behind an instruction: the relocation that its symbol operand asks for. -/
def comment (st : Statement) : Bytes :=
  st.symbolOperands.flatMap fun o => text "\t# " ++ o.type.spelling ++ text " " ++ o.symbol

theorem silent_of_not_instruction {st : Statement} (hdata : st.isData = false)
    (hinstruction : st.isInstruction = false) : st.size = 0 ∧ st.symbolOperands = [] := by
  match st with
  | .nothing | .stop | .stray _ | .directive .globals _ | .directive .externs _
  | .directive .openSection _ => exact ⟨rfl, rfl⟩
  | .directive .words _ | .directive .skip _ => cases hdata
  | .instruction _ _ => cases hinstruction

/-- The statement is encoded to the instruction. -/
structure Encodes (symbols : SymbolTable) (st : Statement) (d : Decoded) : Prop where
  faithful : d.Faithful
  named : ∃ arguments, st = .instruction d.instruction.name arguments
  bytes : (st.emission symbols).bytes = d.code
  size : st.size = d.code.length
  operands : st.symbolOperands = [] ∨
    ∃ o, st.symbolOperands = [o] ∧ o.offset = Instruction.wordSize ∧ d.code.length = 8

/-- The symbol operand of an instruction, if it has one, is its literal. -/
theorem operands_of_accepted {symbols : SymbolTable} {name : Bytes} {arguments : List Token}
    {i : Instruction} (hi : Instruction.find? name = some i)
    (hc : (i.emission symbols arguments).complaint? = none) :
    (instruction name arguments).symbolOperands = [] ∨
      ∃ o, (instruction name arguments).symbolOperands = [o] ∧ o.offset = Instruction.wordSize ∧
        i.size.toNat = 8 := by
  have hfits := Instruction.emission_fits hi hc
  have hoffset : ∀ o ∈ (instruction name arguments).symbolOperands, o.offset = Instruction.wordSize := by
    intro o ho
    simp only [symbolOperands, hi] at ho
    obtain ⟨_, -, rfl⟩ := List.mem_map.mp ho
    rfl
  rcases hoperands : (instruction name arguments).symbolOperands with _ | ⟨o, _ | ⟨o', rest⟩⟩
  · exact .inl rfl
  · have ho := hoffset o (by rw [hoperands]; exact List.mem_singleton_self o)
    obtain ⟨s, -, hspell⟩ := hfits.spells o (by rw [hoperands]; exact List.mem_singleton_self o)
    have hlength := hspell.le_length
    rw [hfits.length, ho] at hlength
    have hsize : (instruction name arguments).size = i.size.toNat := by simp only [size, hi]
    have hwhole := (Instruction.shape_of_mem_all i (List.mem_of_find?_eq_some hi)).2.1
    have hmin : i.wordLength ≤ 4 := Nat.min_le_right _ _
    refine .inr ⟨o, rfl, ho, ?_⟩
    change 4 + 4 ≤ _ at hlength
    split at hwhole
    · omega
    · omega
  · -- two operands would have to share the word
    have hapart := hfits.apart
    rw [hoperands] at hapart
    have hle := (List.pairwise_cons.mp hapart).1 o' (List.mem_cons_self ..)
    rw [hoffset o (by rw [hoperands]; exact List.mem_cons_self ..),
      hoffset o' (by rw [hoperands]; exact List.mem_cons_of_mem _ (List.mem_cons_self ..))] at hle
    omega

theorem Accepted.encodes {symbols : SymbolTable} {st : Statement} (h : st.Accepted symbols)
    (hinstruction : st.isInstruction = true) : ∃ d, st.Encodes symbols d := by
  match st with
  | .instruction name arguments =>
    obtain ⟨i, hi, hc⟩ := h name arguments rfl
    have hmem : i ∈ Instruction.all := List.mem_of_find?_eq_some hi
    have hname : i.name = name := by
      have hfound := List.find?_some hi
      exact beq_iff_eq.mp hfound
    obtain ⟨d, hd, rfl, hbytes⟩ := Instruction.exists_decoded hmem hc
    refine ⟨d, hd, ⟨arguments, by rw [hname]⟩, ?_, ?_, ?_⟩
    · rw [emission_instruction hi, hbytes]
    · rw [hd.length_code]
      simp only [size, hi]
    · rw [hd.length_code]
      exact operands_of_accepted hi hc
  | .nothing | .stop | .stray _ | .directive _ _ => cases hinstruction

end Statement

/-! ## Rows -/

namespace PlacedLine

/-- The lines of a section that have an instruction. -/
def instructions (n : Bytes) (xs : List PlacedLine) : List PlacedLine :=
  (within n xs).filter fun x => x.line.statement.isInstruction

theorem le_offset_of_mem_lay {n : Bytes} {offset : Nat} {ls : List SourceLine} {x : PlacedLine}
    (h : x ∈ lay n offset ls) : offset ≤ x.offset := by
  induction ls generalizing offset with
  | nil => cases h
  | cons l ls ih =>
    rcases List.mem_cons.mp h with rfl | h
    · exact Nat.le_refl _
    · exact Nat.le_trans (Nat.le_add_right ..) (ih h)

/-- Lines do not share bytes. -/
theorem pairwise_lay (n : Bytes) (offset : Nat) (ls : List SourceLine) :
    (lay n offset ls).Pairwise fun x y => x.offset + x.size ≤ y.offset := by
  induction ls generalizing offset with
  | nil => exact .nil
  | cons l ls ih => exact .cons (fun y hy => le_offset_of_mem_lay hy) (ih _)

theorem eq_of_apart {xs : List PlacedLine} (h : xs.Pairwise fun x y => x.offset + x.size ≤ y.offset)
    {x y : PlacedLine} (hx : x ∈ xs) (hy : y ∈ xs) (hxy : y.offset < x.offset + x.size)
    (hyx : x.offset < y.offset + y.size) : x = y := by
  have hsymm : Std.Symm fun x y : PlacedLine =>
      x.offset + x.size ≤ y.offset ∨ y.offset + y.size ≤ x.offset := ⟨fun _ _ hab => hab.symm⟩
  have hapart : xs.Pairwise fun x y => x.offset + x.size ≤ y.offset ∨ y.offset + y.size ≤ x.offset :=
    h.imp Or.inl
  by_contra hne
  rcases hapart.forall hx hy hne with hle | hle
  · omega
  · omega

end PlacedLine

namespace Disassembly

/-- The row shows the instruction that the line is encoded to. -/
def IsRowOf (symbols : SymbolTable) (relocations : List Relocation) (x : PlacedLine) (row : Row) :
    Prop :=
  ∃ d, x.line.statement.Encodes symbols d ∧ row = Row.ofInstruction relocations x.offset d

/-- Lines without data leave instructions, with a row for each of them. -/
theorem exists_rows {symbols : SymbolTable} {ls : List SourceLine} (n : Bytes) (offset : Nat)
    (haccepted : ∀ l ∈ ls, l.statement.Accepted symbols)
    (hdata : ∀ l ∈ ls, l.statement.isData = false) :
    ∃ ds : List Decoded, (∀ d ∈ ds, d.Faithful) ∧
      (ls.flatMap fun l => (l.statement.emission symbols).bytes) = ds.flatMap Decoded.code ∧
      (∀ x ∈ PlacedLine.lay n offset ls,
        x.offset + x.size ≤ offset + (ds.flatMap Decoded.code).length) ∧
      ∀ relocations, List.Forall₂ (IsRowOf symbols relocations)
        ((PlacedLine.lay n offset ls).filter fun x => x.line.statement.isInstruction)
        (rowsFrom relocations offset ds) := by
  induction ls generalizing offset with
  | nil => exact ⟨[], List.forall_mem_nil _, rfl, List.forall_mem_nil _, fun _ => .nil⟩
  | cons l ls ih =>
    obtain ⟨hl, hls⟩ := List.forall_mem_cons.mp haccepted
    obtain ⟨hldata, hlsdata⟩ := List.forall_mem_cons.mp hdata
    obtain ⟨ds, hds, hcode, hends, hrows⟩ := ih (offset + l.statement.size) hls hlsdata
    unfold PlacedLine.lay
    rcases hinstruction : l.statement.isInstruction with _ | _
    · obtain ⟨hsize, -⟩ := Statement.silent_of_not_instruction hldata hinstruction
      rw [hsize] at hends hrows
      refine ⟨ds, hds, ?_, List.forall_mem_cons.mpr ⟨?_, by rwa [hsize]⟩, fun relocations => ?_⟩
      · rw [List.flatMap_cons, hcode, Statement.bytes_of_size symbols hsize, List.nil_append]
      · show offset + l.statement.size ≤ _
        omega
      · rw [List.filter_cons_of_neg (by simp [hinstruction]), hsize]
        exact hrows relocations
    · obtain ⟨d, hd⟩ := hl.encodes hinstruction
      rw [hd.size] at hends hrows
      have hlength : ((d :: ds).flatMap Decoded.code).length =
          d.code.length + (ds.flatMap Decoded.code).length := by
        rw [List.flatMap_cons, List.length_append]
      refine ⟨d :: ds, List.forall_mem_cons.mpr ⟨hd.faithful, hds⟩, ?_,
        List.forall_mem_cons.mpr ⟨?_, ?_⟩, fun relocations => ?_⟩
      · rw [List.flatMap_cons, List.flatMap_cons, hcode, hd.bytes]
      · show offset + l.statement.size ≤ _
        rw [hd.size]
        omega
      · intro x hx
        rw [hd.size] at hx
        have hend := hends x hx
        omega
      · rw [List.filter_cons_of_pos (by simp [hinstruction]), hd.size, rowsFrom]
        exact .cons ⟨d, hd, rfl⟩ (hrows relocations)

/-! ## Relocations -/

theorem relocationAt_eq_some_iff {relocations : List Relocation}
    (h : relocations.Pairwise fun a b => a.location ≠ b.location) {location : UInt32} {r : Relocation} :
    relocationAt relocations location = some r ↔ r ∈ relocations ∧ r.location = location := by
  have hmem {a : Relocation} : a ∈ relocations.filter (fun r => r.location == location) ↔
      a ∈ relocations ∧ a.location = location := by
    rw [List.mem_filter, beq_iff_eq]
  unfold relocationAt
  constructor
  · intro hlast
    exact hmem.mp (List.mem_of_getLast? hlast)
  · intro hr
    rcases hlast : (relocations.filter fun r => r.location == location).getLast? with _ | r'
    · rw [List.getLast?_eq_none_iff] at hlast
      have hnil := hmem.mpr hr
      rw [hlast] at hnil
      cases hnil
    · -- no two relocations have one location
      obtain ⟨hr', hlocation⟩ := hmem.mp (List.mem_of_getLast? hlast)
      have : Std.Symm fun a b : Relocation => a.location ≠ b.location := ⟨fun _ _ hab => hab.symm⟩
      by_contra hne
      exact h.forall hr' hr.1 (fun e => hne (hlast.trans (congrArg some e)))
        (hlocation.trans hr.2.symm)

/-- The lines of a section without data, and the relocations in it. -/
structure Lists (obj : Object) (s : Section) (ys : List PlacedLine) : Prop where
  accepted : ∀ y ∈ ys, y.line.statement.Accepted obj.symbols
  instructions : ∀ y ∈ ys, y.line.statement.isData = false
  apart : ys.Pairwise fun x y => x.offset + x.size ≤ y.offset
  ends : ∀ y ∈ ys, y.offset + y.size ≤ s.code.length
  short : s.code.length < 2 ^ 32
  relocations : ∀ r, r ∈ Dump.sectionRelocations obj s ↔
    ∃ y ∈ ys, ∃ site ∈ y.sites, r = site.relocation
  distinct : (Dump.sectionRelocations obj s).Pairwise fun a b => a.location ≠ b.location

namespace Lists

variable {obj : Object} {s : Section} {ys : List PlacedLine} {x : PlacedLine} {d : Decoded}

theorem toNat_offset (h : Lists obj s ys) (hx : x ∈ ys) : (UInt32.ofNat x.offset).toNat = x.offset := by
  have hend := h.ends x hx
  have hshort := h.short
  rw [UInt32.toNat_ofNat']
  omega

/-- A site of a line is its literal, and 32 bits tell where it is. -/
theorem site (h : Lists obj s ys) (hx : x ∈ ys) {site : Site} (hsite : site ∈ x.sites) :
    x.sites = [site] ∧ x.size = 8 ∧ site.relocation.location.toNat = x.offset + 4 := by
  obtain ⟨o, ho, rfl⟩ := List.mem_map.mp hsite
  have hinstruction : x.line.statement.isInstruction = true := by
    by_contra hnot
    have hsilent := Statement.silent_of_not_instruction (h.instructions x hx)
      (Bool.eq_false_iff.mpr hnot)
    rw [hsilent.2] at ho
    cases ho
  obtain ⟨d, hd⟩ := (h.accepted x hx).encodes hinstruction
  rcases hd.operands with hnone | ⟨o', hone, hoffset, hlength⟩
  · rw [hnone] at ho
    cases ho
  · rw [hone, List.mem_singleton] at ho
    have hsize : x.size = 8 := hd.size.trans hlength
    have hend := h.ends x hx
    have hshort := h.short
    refine ⟨?_, hsize, ?_⟩
    · unfold PlacedLine.sites
      rw [hone, ho]
      rfl
    · show (UInt32.ofNat (x.offset + o.offset)).toNat = _
      rw [ho, hoffset, UInt32.toNat_ofNat']
      show (x.offset + 4) % _ = x.offset + 4
      omega

/-- A relocation that reaches into a line is at the site of that line. -/
theorem reached (h : Lists obj s ys) (hx : x ∈ ys) {r : Relocation}
    (hr : r ∈ Dump.sectionRelocations obj s) (hbefore : r.location.toNat < x.offset + x.size)
    (hbehind : x.offset < r.location.toNat + 4) :
    ∃ site, x.sites = [site] ∧ r = site.relocation ∧ r.location.toNat = x.offset + 4 := by
  obtain ⟨y, hy, site, hsite, rfl⟩ := (h.relocations r).mp hr
  obtain ⟨hsites, hsize, hlocation⟩ := h.site hy hsite
  have heq : x = y := PlacedLine.eq_of_apart h.apart hx hy (by omega) (by omega)
  rw [heq]
  exact ⟨site, hsites, rfl, hlocation⟩

/-- The row of an instruction names the relocation at its site, and none without one. -/
theorem relocationOf_eq (h : Lists obj s ys) (hx : x ∈ ys)
    (hd : x.line.statement.Encodes obj.symbols d) :
    relocationOf (Dump.sectionRelocations obj s) (UInt32.ofNat x.offset) d.instruction =
      x.sites.head?.map Site.relocation := by
  have hsize : x.size = d.code.length := hd.size
  have hpos : 0 < d.code.length := List.length_pos_of_ne_nil hd.faithful.code_ne_nil
  have hend := h.ends x hx
  have hshort := h.short
  -- no relocation is at the first byte
  have hown : relocationAt (Dump.sectionRelocations obj s) (UInt32.ofNat x.offset) = none := by
    rw [Option.eq_none_iff_forall_ne_some]
    intro r hr
    obtain ⟨hmem, hlocation⟩ := (relocationAt_eq_some_iff h.distinct).mp hr
    have hat : r.location.toNat = x.offset := by rw [hlocation, h.toNat_offset hx]
    obtain ⟨_, -, -, hnot⟩ := h.reached hx hmem (by omega) (by omega)
    omega
  have hliteral : d.instruction.hasLiteral = true ↔ 4 < d.code.length := by
    rw [hd.faithful.length_code]
    unfold Instruction.hasLiteral
    rw [decide_eq_true_eq, UInt32.lt_iff_toNat_lt]
    rfl
  unfold relocationOf
  rw [hown]
  dsimp only
  rcases hsites : x.sites with _ | ⟨site, rest⟩
  · split
    · next hl =>
      have hnone : relocationAt (Dump.sectionRelocations obj s) (UInt32.ofNat x.offset + 4) = none := by
        rw [Option.eq_none_iff_forall_ne_some]
        intro r hr
        obtain ⟨hmem, hlocation⟩ := (relocationAt_eq_some_iff h.distinct).mp hr
        have hat : r.location.toNat = x.offset + 4 := by
          have hfour := hliteral.mp hl
          rw [hlocation, UInt32.toNat_add, h.toNat_offset hx]
          show (x.offset + 4) % _ = _
          omega
        obtain ⟨site, hsite, -⟩ := h.reached hx hmem (by have := hliteral.mp hl; omega) (by omega)
        rw [hsites] at hsite
        cases hsite
      rw [hnone]
      rfl
    · rfl
  · have hsite : site ∈ x.sites := by
      rw [hsites]
      exact List.mem_cons_self ..
    obtain ⟨-, height, hlocation⟩ := h.site hx hsite
    have hmem : site.relocation ∈ Dump.sectionRelocations obj s :=
      (h.relocations _).mpr ⟨x, hx, site, hsite, rfl⟩
    have hsome : relocationAt (Dump.sectionRelocations obj s) (UInt32.ofNat x.offset + 4) =
        some site.relocation := by
      refine (relocationAt_eq_some_iff h.distinct).mpr ⟨hmem, UInt32.toNat_inj.mp ?_⟩
      rw [hlocation, UInt32.toNat_add, h.toNat_offset hx]
      show _ = (x.offset + 4) % _
      omega
    rw [if_pos (hliteral.mpr (by omega)), hsome]
    rfl

theorem marked (h : Lists obj s ys) (hx : x ∈ ys) (hd : x.line.statement.Encodes obj.symbols d) :
    (Row.ofInstruction (Dump.sectionRelocations obj s) x.offset d).Marked
      (Dump.sectionRelocations obj s) := by
  intro r hr ⟨hbefore, hbehind⟩
  change r.location.toNat < (UInt32.ofNat x.offset).toNat + d.code.length at hbefore
  change (UInt32.ofNat x.offset).toNat < r.location.toNat + 4 at hbehind
  rw [h.toNat_offset hx] at hbefore hbehind
  obtain ⟨site, hsites, rfl, hlocation⟩ := h.reached hx hr (by rwa [← hd.size] at hbefore) hbehind
  constructor
  · refine (h.relocationOf_eq hx hd).trans ?_
    rw [hsites]
    rfl
  · show _ = (UInt32.ofNat x.offset).toNat + 4
    rw [h.toNat_offset hx, hlocation]

end Lists

/-! ## Listings of sections -/

/-- The row shows the instruction of a line: its place, its bytes, its name and, behind the operands,
the relocation of its symbol operand. -/
structure Shows (symbols : SymbolTable) (x : PlacedLine) (row : Row) : Prop where
  offset : row.offset.toNat = x.offset
  bytes : row.bytes = x.bytes symbols
  decodes : ∃ d, row.instruction? = some d ∧ Decoded.ofBytes (x.bytes symbols) = .ok d
  relocation : row.relocation? = x.sites.head?.map Site.relocation
  line : ∃ name arguments operands, x.line.statement = .instruction name arguments ∧
    (operands = [] ∨ ∃ rest, operands = Ascii.space :: rest) ∧ Decoded.IsVisible operands ∧
    row.line = text "  " ++ Bytes.hex 4 x.offset ++ text ": "
      ++ Bytes.joinWith [Ascii.space] ((x.bytes symbols).map fun b => Bytes.hex 2 b.toNat)
      ++ List.replicate (3 * (8 - (x.bytes symbols).length) + 2) Ascii.space
      ++ (name ++ operands ++ x.line.statement.comment)

theorem Lists.shows {obj : Object} {s : Section} {ys : List PlacedLine} {x : PlacedLine} {row : Row}
    (h : Lists obj s ys) (hx : x ∈ ys)
    (hrow : IsRowOf obj.symbols (Dump.sectionRelocations obj s) x row) : Shows obj.symbols x row := by
  obtain ⟨d, hd, rfl⟩ := hrow
  have hoffset := h.toNat_offset hx
  have hbytes : x.bytes obj.symbols = d.code := hd.bytes
  have hrelocation := h.relocationOf_eq hx hd
  obtain ⟨arguments, hstatement⟩ := hd.named
  obtain ⟨operands, hoperands, hspace, hvisible⟩ := Decoded.exists_operands hd.faithful.mem
  have hbody : (Row.ofInstruction (Dump.sectionRelocations obj s) x.offset d).body =
      d.instruction.name ++ operands ++ x.line.statement.comment := by
    unfold Row.ofInstruction Row.body
    dsimp only
    rw [hrelocation, hoperands]
    congr 1
    unfold PlacedLine.sites Statement.comment
    rcases hd.operands with hnone | ⟨o, hone, -⟩
    · rw [hnone]
      rfl
    · rw [hone]
      exact (List.append_nil _).symm
  refine ⟨hoffset, hbytes.symm, ⟨d, rfl, ?_⟩, hrelocation,
    ⟨_, arguments, operands, hstatement, hspace, hvisible, ?_⟩⟩
  · rw [hbytes, hd.faithful.ofBytes_code]
  · unfold Row.line
    rw [hbody, hbytes]
    show text "  " ++ Bytes.hex 4 (UInt32.ofNat x.offset).toNat ++ _ ++ _ ++ _ ++ _ = _
    rw [hoffset]
    rfl

end Disassembly

/-- The sections of an assembled object that have no data are lists of instructions. -/
theorem Object.lists_of_assemble {name source : Bytes} {obj : Object}
    (h : (Object.assemble name source).1 = .ok obj) :
    ∃ ls, SourceLine.readAll 1 (sourceLines source) = .ok ls ∧ ∀ s ∈ obj.sections,
      (∀ x ∈ PlacedLine.within s.name (({} : Layout).placed ls), x.line.statement.isData = false) →
      Disassembly.Lists obj s (PlacedLine.within s.name (({} : Layout).placed ls)) ∧
        ∃ ds : List Decoded, (∀ d ∈ ds, d.Faithful) ∧ s.code = ds.flatMap Decoded.code ∧
          ∀ relocations, List.Forall₂ (Disassembly.IsRowOf obj.symbols relocations)
            (PlacedLine.instructions s.name (({} : Layout).placed ls))
            (Disassembly.rowsFrom relocations 0 ds) := by
  have hassembled := Object.assembled h
  obtain ⟨ls, r, p, hls, hr, hp, rfl⟩ := assemble_steps h
  have ht : FirstPass.Tracks (Layout.after ls) r := (FirstPass.tracks_start name).steps hr
  have hw := ht.measured.writtenBy hp
  refine ⟨ls, hls, fun s hs hdata => ?_⟩
  have hfind : p.object.findSection s.name = some s :=
    (findSection_eq_some_iff hassembled.sound.nodup).mpr ⟨hs, rfl⟩
  have hlay := Layout.within_placed {} ls s.name
  have haccepted : ∀ x ∈ PlacedLine.within s.name (({} : Layout).placed ls),
      x.line.statement.Accepted p.object.symbols :=
    fun x hx => hw.accepted x (PlacedLine.mem_within.mp hx).1
  have hlines : ∀ l ∈ (PlacedLine.within s.name (({} : Layout).placed ls)).map PlacedLine.line,
      l.statement.Accepted p.object.symbols := List.forall_mem_map.mpr haccepted
  obtain ⟨ds, hds, hcode, hends, hrows⟩ := Disassembly.exists_rows s.name 0 hlines
    (List.forall_mem_map.mpr hdata)
  have hwhole : s.code = ds.flatMap Decoded.code := by
    rw [hw.code s hs, ← hcode, List.flatMap_map]
    rfl
  change PlacedLine.within s.name (({} : Layout).placed ls) = PlacedLine.lay s.name 0 _ at hlay
  rw [← hlay] at hends hrows
  refine ⟨?_, ds, hds, hwhole, hrows⟩
  constructor
  case accepted => exact haccepted
  case instructions => exact hdata
  case apart =>
    rw [hlay]
    exact PlacedLine.pairwise_lay ..
  case ends =>
    intro y hy
    have hend := hends y hy
    rw [hwhole]
    omega
  case short => exact hassembled.short _ s hfind
  case relocations =>
    intro r
    unfold Dump.sectionRelocations
    rw [List.mem_filter, hw.relocations.mem_iff, List.mem_map, beq_iff_eq]
    constructor
    · intro ⟨⟨site, hsite, hr⟩, hn⟩
      obtain ⟨y, hy, hsite⟩ := List.mem_flatMap.mp hsite
      obtain ⟨o, ho, rfl⟩ := List.mem_map.mp hsite
      rw [← hr] at hn
      exact ⟨y, PlacedLine.mem_within.mpr ⟨hy, hn⟩, _, List.mem_map_of_mem ho, hr.symm⟩
    · intro ⟨y, hy, site, hsite, hr⟩
      obtain ⟨hy, hn⟩ := PlacedLine.mem_within.mp hy
      refine ⟨⟨site, List.mem_flatMap.mpr ⟨y, hy, hsite⟩, hr.symm⟩, ?_⟩
      obtain ⟨o, ho, rfl⟩ := List.mem_map.mp hsite
      rw [hr]
      exact hn
  case distinct =>
    refine List.Pairwise.imp_of_mem ?_ (hassembled.apart.filter _)
    intro a b ha hb hab hlocation
    have hsame : a.sectionName = b.sectionName :=
      (beq_iff_eq.mp (List.mem_filter.mp ha).2).trans (beq_iff_eq.mp (List.mem_filter.mp hb).2).symm
    have hapart := hab hsame
    rw [hlocation] at hapart
    omega

/-! ## Linked sections -/

/-- Linking changes no byte of a section outside of the object's relocations there. -/
theorem Linker.outside_of_generate {tree : IntervalTree Span} {l l' : Linker} {inputs : List Nat}
    {refs : List SectionRef} {log : List Event}
    (hnodup : ∀ obj ∈ l.objects, obj.sectionNames.Nodup)
    (h : l.run (generate tree inputs) = ⟨l', .ok refs, log⟩) {k : Nat} {obj : Object} {s : Section}
    (hobj : l.objects[k]? = some obj) (hs : obj.findSection s.name = some s) :
    ∃ obj' s', l'.objects[k]? = some obj' ∧ obj'.findSection s.name = some s' ∧
      Dump.sectionRelocations obj' s' = Dump.sectionRelocations obj s ∧
      s'.code.length = s.code.length ∧
      ∀ i, ¬ Disassembly.Covered (Dump.sectionRelocations obj s) i → s'.code[i]? = s.code[i]? := by
  obtain ⟨p, m, f, d, hp, hmerge, hform, -, hrelocate, hd⟩ := runs_generate (runs_of_run h)
  have hm : m.objects = l.objects := by
    rw [merge_frame hmerge]
    dsimp only
    rw [hp]
  have hmoves := observes_formSections.runs _ _ _ hform
  have hplaced : Agree Section.unplaced l.objects f.objects := hm ▸ hmoves.objects
  have hpatched := patched_of_runs (fun _ hx => object_lt_of_mem_patches hx)
    (hplaced.nodup (fun _ => rfl) hnodup) (runs_relocate hrelocate)
  have hobjects : l'.objects = d.objects := congrArg Linker.objects hd
  have hagree : Agree Section.outline l.objects l'.objects := by
    rw [hobjects]
    refine (hplaced.coarsen fun _ => rfl).trans (hpatched.objects.coarsen fun s => ?_)
    simp [Section.outline, Section.blanked, Section.unplaced]
  obtain ⟨obj', hobj', -, -, hrelocations, -⟩ := hagree.getElem? hobj
  have hat : sectionAt l.objects ⟨k, s.name⟩ = some s := (sectionAt_eq hobj).trans hs
  have houtline := hagree.sectionAt (fun _ => rfl) ⟨k, s.name⟩
  rw [hat, sectionAt_eq hobj'] at houtline
  obtain ⟨s', hs', houtline⟩ := Option.map_eq_some_iff.mp houtline
  obtain ⟨hname, hlength⟩ := Section.outline_eq_iff.mp houtline
  refine ⟨obj', s', hobj', hs', ?_, hlength, fun i hi => ?_⟩
  · unfold Dump.sectionRelocations
    rw [hrelocations, hname]
  · have hbyte : byteAt d.objects ⟨k, s.name⟩ i = byteAt l.objects ⟨k, s.name⟩ i := by
      rw [hpatched.outside _ _ ?_, byteAt_of_agree hplaced]
      rintro x hx ⟨href, hle, hlt⟩
      obtain ⟨-, objf, hobjf, hrel⟩ := mem_patches.mp hx
      obtain ⟨hobject, hsection⟩ := SectionRef.mk.inj href
      obtain ⟨objf', hobjf', -, -, hsame, -⟩ := hplaced.getElem? hobj
      rw [hobject, hobjf'] at hobjf
      cases hobjf
      rw [hsame] at hrel
      exact hi ⟨x.relocation, List.mem_filter.mpr ⟨hrel, beq_iff_eq.mpr hsection⟩, hle, hlt⟩
    unfold byteAt at hbyte
    rw [hat, ← hobjects, sectionAt_eq hobj', hs'] at hbyte
    exact hbyte

/-- Disassembly stays in step with assembly. A section without data is listed in one row for each of
its instructions, in order. Linking the object, with any others that have no two sections of one name,
leaves the rows but for the literals of those that name a relocation. -/
theorem disassembly_in_step {name source : Bytes} {obj : Object}
    (h : (Object.assemble name source).1 = .ok obj) :
    ∃ ls, SourceLine.readAll 1 (sourceLines source) = .ok ls ∧ ∀ s ∈ obj.sections,
      (∀ x ∈ PlacedLine.within s.name (({} : Layout).placed ls), x.line.statement.isData = false) →
      List.Forall₂ (Disassembly.Shows obj.symbols)
        (PlacedLine.instructions s.name (({} : Layout).placed ls))
        (Disassembly.rows (Dump.sectionRelocations obj s) s.code) ∧
      ∀ {tree : IntervalTree Span} {l l' : Linker} {inputs : List Nat} {refs : List SectionRef}
        {log : List Event} {k : Nat},
        (∀ o ∈ l.objects, o.sectionNames.Nodup) → l.objects[k]? = some obj →
        l.run (Linker.generate tree inputs) = ⟨l', .ok refs, log⟩ →
        ∃ obj' s', l'.objects[k]? = some obj' ∧ obj'.findSection s.name = some s' ∧
          List.Forall₂ Disassembly.Row.Relinked
            (Disassembly.rows (Dump.sectionRelocations obj s) s.code)
            (Disassembly.rows (Dump.sectionRelocations obj' s') s'.code) := by
  obtain ⟨ls, hls, hlists⟩ := Object.lists_of_assemble h
  refine ⟨ls, hls, fun s hs hdata => ?_⟩
  obtain ⟨hlist, ds, hds, hcode, hrows⟩ := hlists s hs hdata
  have hplaced := (List.forall₂_and_left _ _).mpr
    ⟨fun x hx => (List.mem_filter.mp hx).1, hrows (Dump.sectionRelocations obj s)⟩
  have hshort := hlist.short
  rw [hcode] at hshort
  rw [hcode, Disassembly.rows_code hds hshort]
  refine ⟨hplaced.imp fun x row hx => hlist.shows hx.1 hx.2, ?_⟩
  intro tree l l' inputs refs log k hnodup hobj hrun
  have hfind : obj.findSection s.name = some s :=
    (Object.findSection_eq_some_iff (hnodup obj (List.mem_of_getElem? hobj))).mpr ⟨hs, rfl⟩
  obtain ⟨obj', s', hobj', hs', hrelocations, hlength, houtside⟩ :=
    Linker.outside_of_generate hnodup hrun hobj hfind
  have hmarked : ∀ row ∈ Disassembly.rowsFrom (Dump.sectionRelocations obj s) 0 ds,
      row.Marked (Dump.sectionRelocations obj s) := by
    intro row hrow
    obtain ⟨x, hx, d, hd, rfl⟩ := exists_of_forall₂ hplaced hrow
    exact hlist.marked hx hd
  rw [hcode] at hlength houtside
  obtain ⟨ds', hds', hcode', hrelinked⟩ := Disassembly.relinked_rows hds (by omega) hmarked hlength
    (by simpa using houtside)
  refine ⟨obj', s', hobj', hs', ?_⟩
  rw [hcode'] at hlength
  rw [hcode', hrelocations, Disassembly.rows_code hds' (hlength ▸ hshort)]
  exact hrelinked

/-- Instructions of every size, two of them with a symbol operand, and some data elsewhere. -/
def everySize : Bytes := text
  ".section t\nx: jmp $x\nld y, %r1\nhalt\nnot %r2\nadd %r1, %r2\npush %r3\n.section d\ny: .word 5\n"

theorem disassembly_in_step_everySize : ∃ obj ls s l' obj' s',
    (Object.assemble (text "a.o") everySize).1 = .ok obj ∧
    SourceLine.readAll 1 (sourceLines everySize) = .ok ls ∧ obj.sections.head? = some s ∧
    (PlacedLine.instructions s.name (({} : Layout).placed ls)).length = 6 ∧
    List.Forall₂ (Disassembly.Shows obj.symbols)
      (PlacedLine.instructions s.name (({} : Layout).placed ls))
      (Disassembly.rows (Dump.sectionRelocations obj s) s.code) ∧
    (({ objects := [obj] } : Linker).run (Linker.generate (.sorted Span) [0])).linker = l' ∧
    l'.objects[0]? = some obj' ∧ obj'.findSection s.name = some s' ∧
    List.Forall₂ Disassembly.Row.Relinked
      (Disassembly.rows (Dump.sectionRelocations obj s) s.code)
      (Disassembly.rows (Dump.sectionRelocations obj' s') s'.code) := by
  have hlinks : (Object.assemble (text "a.o") everySize).1.toOption.map (fun obj =>
      (obj.sections.head?.map Section.name,
        (({ objects := [obj] } : Linker).run (Linker.generate (.sorted Span) [0])).result.toOption.isSome)) =
      some (some (text "t"), true) := by
    decide +kernel
  have hlines : (SourceLine.readAll 1 (sourceLines everySize)).toOption.map (fun ls =>
      ((PlacedLine.within (text "t") (({} : Layout).placed ls)).all
        fun x => !x.line.statement.isData,
        (PlacedLine.instructions (text "t") (({} : Layout).placed ls)).length)) = some (true, 6) := by
    decide +kernel
  obtain ⟨obj, hobj, hlinked⟩ := Option.map_eq_some_iff.mp hlinks
  obtain ⟨hhead, hlinked⟩ := Prod.mk.inj hlinked
  obtain ⟨s, hs, hname⟩ := Option.map_eq_some_iff.mp hhead
  obtain ⟨refs, hrefs⟩ := Option.isSome_iff_exists.mp hlinked
  have hok := eq_ok_of_toOption hobj
  obtain ⟨ls, hls, hsections⟩ := disassembly_in_step hok
  rw [hls] at hlines
  obtain ⟨hdata, hsix⟩ := Prod.mk.inj (Option.some.inj hlines)
  obtain ⟨hshows, hlink⟩ := hsections s (List.mem_of_head? hs) (by
    rw [hname]
    intro x hx
    simpa using List.all_eq_true.mp hdata x hx)
  rcases hrun : ({ objects := [obj] } : Linker).run (Linker.generate (.sorted Span) [0]) with ⟨l', result, log⟩
  rw [hrun] at hrefs
  obtain rfl : result = .ok refs := eq_ok_of_toOption hrefs
  obtain ⟨obj', s', hobj', hs', hrelinked⟩ := hlink (k := 0) (by
    intro o ho
    rw [List.mem_singleton.mp ho]
    exact (Object.assembled hok).sound.nodup) rfl hrun
  refine ⟨obj, ls, s, l', obj', s', hok, hls, hs, ?_, hshows, ?_, hobj', hs', hrelinked⟩
  · rw [hname]
    exact hsix
  · rw [hrun]

end AsmKit
