import AsmKit.Proofs.Resolution
import AsmKit.Proofs.Substitution

/-
  Statements in linked programs. What a line emits stands in the section it was written to, and only
  the relocations of its own symbols reach into it (`Statement.Stands`). Linking puts addresses into
  the words of these symbols and leaves the other bytes (`Stages.resolves`), and a statement with the
  addresses written in place of the symbols emits the same bytes (`Statement.emission_resolve`). So
  the linker and the assembler meet: a symbol stands for its address.
-/

namespace AsmKit

/-! ## Statements in assembled objects -/

namespace Layout

/-- A site is behind what its section holds before the lines are read. -/
theorem extent_le_offset {y : Layout} {ls : List SourceLine} {site : Site} (h : site ∈ y.sites ls) :
    y.extent site.sectionName ≤ site.offset := by
  induction ls generalizing y with
  | nil => cases h
  | cons l ls ih =>
    rcases List.mem_append.mp h with h | h
    · obtain ⟨o, -, rfl⟩ := List.mem_map.mp h
      exact Nat.le_add_right _ _
    · exact Nat.le_trans (y.extent_le_step l _) (ih h)

end Layout

/-- The bytes of a statement stand in a section of an object from `start` on. Each of its symbol
operands has a relocation, and no other relocation reaches into them. -/
structure Statement.Stands (obj : Object) (st : Statement) (name : Bytes) (start : Nat)
    (bytes : Bytes) : Prop where
  code : ∃ s, obj.findSection name = some s ∧ ∀ i < bytes.length, s.code[start + i]? = bytes[i]?
  within : ∀ o ∈ st.symbolOperands, o.offset + 4 ≤ bytes.length
  sites : ∀ o ∈ st.symbolOperands, ∃ r ∈ obj.relocations.entries, r.symbol = o.symbol ∧
    r.sectionName = name ∧ r.location.toNat = start + o.offset
  only : ∀ r ∈ obj.relocations.entries, r.sectionName = name →
    r.location.toNat + 4 ≤ start ∨ start + bytes.length ≤ r.location.toNat ∨
      ∃ o ∈ st.symbolOperands, r.location.toNat = start + o.offset

namespace SecondPass

variable {start : Object} {y : Layout} {sites : List Site} {p q r : Progress}

/-- What pass two emits stands in the object that it leaves in the end. -/
theorem Follows.stands (h : Follows start y sites p) (hz : start.symbols.ZeroUnlessDefined)
    {number number' : Nat} {l : SourceLine} {ls : List SourceLine}
    (hl : Runs (SecondPass.line number l) p () q)
    (hls : Runs (Pass.steps SecondPass.line number' ls) q () r)
    (hopens : l.statement.opens? = none)
    (hc : (l.statement.emission p.object.symbols).complaint? = none)
    (hq : q = { p with object := p.object.emit p.sectionName (l.statement.emission p.object.symbols) })
    (hshort : ∀ n s, r.object.findSection n = some s → s.code.length < 2 ^ 32) {s : Section}
    (hs : p.object.findSection p.sectionName = some s) :
    l.statement.Stands r.object p.sectionName s.code.length
      (l.statement.emission p.object.symbols).bytes := by
  have hr := (h.line hz hl).steps hz hls
  have hfits : (l.statement.emission p.object.symbols).Fits p.object.symbols l.statement :=
    Statement.emission_fits (by rw [h.symbols]; exact hz) hc
  have hlength : s.code.length = y.extent y.current := by
    rw [← h.current]
    exact h.lengths _ s hs
  have hstep : (y.step l).extent y.current = s.code.length + l.statement.size := by
    rw [Layout.step_of_not_opens hopens, hlength]
    exact if_pos rfl
  have hsection : q.object.findSection p.sectionName =
      some (s.append (l.statement.emission p.object.symbols).bytes) := by
    rw [hq, Object.findSection_emit, if_pos rfl, hs]
    rfl
  constructor
  · obtain ⟨s', hs', hprefix⟩ := extends_steps hls _ _ hsection
    refine ⟨s', hs', fun i hi => ?_⟩
    obtain ⟨rest, hrest⟩ := hprefix
    have hcode : s'.code = s.code ++ ((l.statement.emission p.object.symbols).bytes ++ rest) := by
      rw [← hrest]
      exact List.append_assoc ..
    rw [hcode, List.getElem?_append_right (Nat.le_add_right _ _), Nat.add_sub_cancel_left,
      List.getElem?_append_left hi]
  · intro o ho
    obtain ⟨sym, -, hspell⟩ := hfits.spells o ho
    exact hspell.le_length
  · intro o ho
    have hsite : Site.mk y.current (y.extent y.current + o.offset) o.symbol o.type ∈
        sites ++ y.sitesOfLine l ++ (y.step l).sites ls :=
      List.mem_append_left _ (List.mem_append_right _ (List.mem_map.mpr ⟨o, ho, rfl⟩))
    refine ⟨_, hr.relocations.mem_iff.mpr (List.mem_map_of_mem hsite), rfl, h.current.symm, ?_⟩
    rw [hr.location_toNat hshort hsite, hlength]
  · intro rel hrel hname
    obtain ⟨site, hsite, rfl⟩ := List.mem_map.mp (hr.relocations.mem_iff.mp hrel)
    rw [hr.location_toNat hshort hsite, hfits.length]
    have hcurrent : site.sectionName = y.current := Eq.trans hname h.current
    -- earlier lines end before the statement, later ones begin behind it
    rcases List.mem_append.mp hsite with hsite | hsite
    · rcases List.mem_append.mp hsite with hsite | hsite
      · have hle := h.le_extent hsite
        rw [hcurrent, ← hlength] at hle
        exact .inl hle
      · obtain ⟨o, ho, rfl⟩ := List.mem_map.mp hsite
        refine .inr (.inr ⟨o, ho, ?_⟩)
        rw [hlength]
    · have hle := Layout.extent_le_offset hsite
      rw [hcurrent, hstep] at hle
      exact .inr (.inl hle)

end SecondPass

/-! ## Statements in linked programs -/

/-- The address of a name, as the object with the number `n` sees it: the value of what the name
means there and the location of its section in the linked program. -/
def HasAddress (objects linked : List Object) (n : Nat) (name : Bytes) (a : UInt32) : Prop :=
  ∃ k sym home, Means objects n name k sym ∧ sectionAt linked ⟨k, sym.sectionName⟩ = some home ∧
    a.toNat = sym.value.toNat + home.location.toNat

theorem HasAddress.unique {objects linked : List Object} {n : Nat} {name : Bytes} {a b : UInt32}
    (ha : HasAddress objects linked n name a) (hb : HasAddress objects linked n name b) : a = b := by
  obtain ⟨k, sym, home, hmeans, hhome, ha⟩ := ha
  obtain ⟨k', sym', home', hmeans', hhome', hb⟩ := hb
  obtain ⟨rfl, rfl⟩ := hmeans.unique hmeans'
  rw [hhome] at hhome'
  cases hhome'
  exact UInt32.toNat_inj.mp (ha.trans hb.symm)

namespace Linker

variable {tree : IntervalTree Span} {objects : List Object} {placements : Placements}
  {refs : List SectionRef} {s m f d : Progress} {n : Nat} {obj : Object} {st : Statement}
  {name bytes : Bytes} {start : Nat}

theorem Stages.hasAddress (h : Stages tree objects placements refs s m f d) (hin : Inputs objects)
    (hobj : objects[n]? = some obj) {r : Relocation} (hr : r ∈ obj.relocations.entries) :
    ∃ a, HasAddress objects d.objects n r.symbol a ∧ Patch.Holds d.objects ⟨n, r⟩ a := by
  obtain ⟨k, sym, home, w, hmeans, hhome, hholds, hw⟩ := h.holds hin hobj hr
  exact ⟨w, ⟨k, sym, home, hmeans, hhome, hw⟩, hholds⟩

/-- Linking puts the addresses into the words of the symbols of a statement and leaves its other
bytes as they are. -/
theorem Stages.resolves (h : Stages tree objects placements refs s m f d) (hin : Inputs objects)
    (hobj : objects[n]? = some obj) (hst : st.Stands obj name start bytes)
    {address : Bytes → UInt32}
    (haddress : ∀ o ∈ st.symbolOperands, HasAddress objects d.objects n o.symbol (address o.symbol)) :
    ∃ t, sectionAt d.objects ⟨n, name⟩ = some t ∧
      st.Resolves address bytes (t.code.extract start (start + bytes.length)) := by
  obtain ⟨s₀, hs₀, hcode⟩ := hst.code
  have hat : sectionAt objects ⟨n, name⟩ = some s₀ := (sectionAt_eq hobj).trans hs₀
  have houtline := h.outlined.sectionAt (fun _ => rfl) ⟨n, name⟩
  rw [hat] at houtline
  obtain ⟨t, ht, houtline⟩ := Option.map_eq_some_iff.mp houtline
  have hlength : t.code.length = s₀.code.length := (Section.outline_eq_iff.mp houtline).2
  have hbyte (i : Nat) : byteAt d.objects ⟨n, name⟩ i = t.code[i]? := by
    unfold byteAt
    rw [ht]
    rfl
  have hbyte₀ (i : Nat) : byteAt objects ⟨n, name⟩ i = s₀.code[i]? := by
    unfold byteAt
    rw [hat]
    rfl
  have hslice {i : Nat} (hi : i < bytes.length) :
      (t.code.extract start (start + bytes.length))[i]? = t.code[start + i]? := by
    rw [List.extract_eq_take_drop, Nat.add_sub_cancel_left, List.getElem?_take_of_lt hi,
      List.getElem?_drop]
  have hslices : (t.code.extract start (start + bytes.length)).length = bytes.length := by
    rw [List.extract_eq_take_drop, Nat.add_sub_cancel_left, List.length_take, List.length_drop,
      hlength]
    rcases Nat.eq_zero_or_pos bytes.length with hzero | hpos
    · omega
    · have hlast := hcode (bytes.length - 1) (by omega)
      rw [List.getElem?_eq_getElem (by omega : bytes.length - 1 < bytes.length)] at hlast
      have hlt := (List.getElem?_eq_some_iff.mp hlast).1
      omega
  refine ⟨t, ht, hslices, ?_, ?_⟩
  · intro o ho i hi
    have hwithin := hst.within o ho
    obtain ⟨r, hr, hsymbol, hname, hlocation⟩ := hst.sites o ho
    obtain ⟨a, ha, hholds⟩ := h.hasAddress hin hobj hr
    rw [hsymbol] at ha
    rw [ha.unique (haddress o ho)] at hholds
    have hword : byteAt d.objects ⟨n, r.sectionName⟩ (r.location.toNat + i) = _ := hholds i hi
    rw [hname, hlocation, hbyte, Nat.add_assoc] at hword
    rw [hslice (by omega)]
    exact hword
  · intro i hout
    rcases Nat.lt_or_ge i bytes.length with hi | hi
    · have huncovered : ∀ r ∈ obj.relocations.entries,
          ¬ Patch.Covers ⟨n, r⟩ ⟨n, name⟩ (start + i) := by
        rintro r hr ⟨href, hle, hlt⟩
        change r.location.toNat ≤ start + i at hle
        change start + i < r.location.toNat + 4 at hlt
        rcases hst.only r hr (congrArg SectionRef.name href) with hbefore | hbehind | ⟨o, ho, ho'⟩
        · omega
        · omega
        · exact hout o ho (by omega)
      rw [hslice hi, ← hbyte, h.byte hobj huncovered, hbyte₀, hcode i hi]
    · rw [List.getElem?_eq_none hi, List.getElem?_eq_none (by omega)]

end Linker

/-! ## Symbols and addresses -/

namespace SecondPass

variable {p : Progress}

/-- A statement that refers to symbols emits, and so it does with numbers in their place. -/
theorem runs_resolve {l : SourceLine} (huses : l.statement.symbolOperands ≠ [])
    {address : Bytes → UInt32} {bytes : Bytes}
    (hbytes : ∀ symbols, (l.statement.resolve address).emission symbols = { bytes })
    (hopen : p.isOpen = true) (number : Nat) :
    Runs (SecondPass.line number (l.resolve address)) p ()
      { p with object := p.object.emit p.sectionName { bytes } } := by
  have hemits := hbytes p.object.symbols
  unfold SecondPass.line SourceLine.resolve
  dsimp only
  match hst : l.statement with
  | .directive .words arguments =>
    rw [hst] at hemits
    have hwords :
        Emission.words p.object.symbols (arguments.map (Token.resolve address)) = { bytes } :=
      hemits
    simp only [Statement.resolve, statement, runs_bind, runs_get]
    refine ⟨_, _, ⟨rfl, rfl⟩, ?_⟩
    rw [hwords]
    exact runs_emit_of_open hopen rfl number
  | .instruction name arguments =>
    rw [hst] at hemits huses
    rcases hi : Instruction.find? name with _ | i
    · exact absurd (by simp [Statement.symbolOperands, hi]) huses
    · have hinstruction := (Statement.emission_instruction hi p.object.symbols _).symm.trans hemits
      simp only [Statement.resolve, statement, instruction, hi, runs_bind, runs_get]
      refine ⟨_, _, ⟨rfl, rfl⟩, ?_⟩
      rw [if_neg (by simp [hopen]), hinstruction]
      exact runs_emit_of_open hopen rfl number
  | .nothing | .stop | .directive .globals _ | .directive .externs _ | .directive .openSection _
  | .directive .skip _ | .stray _ =>
    rw [hst] at huses
    exact absurd rfl huses

end SecondPass

/-- What pass two emits at a line that refers to symbols stands in the object that is assembled. -/
theorem Object.stands_of_stateAt {name source : Bytes} {obj : Object}
    (h : (Object.assemble name source).1 = .ok obj) {m p : Progress}
    (hfirst : Runs (FirstPass.run (sourceLines source)) { object := { name } } () m) {k : Nat}
    (hp : Pass.stateAt SecondPass.line 1 { object := m.object } (sourceLines source) k = some p)
    {raw : Bytes} (hraw : (sourceLines source)[k]? = some raw) {l : SourceLine}
    (hread : SourceLine.read (k + 1) raw = .ok l) (huses : l.statement.symbolOperands ≠ []) :
    (l.statement.emission p.object.symbols).complaint? = none ∧
    ∃ q s, Runs (SecondPass.line (k + 1) l) p () q ∧
      p.object.findSection p.sectionName = some s ∧
      q.object.findSection p.sectionName =
        some (s.append (l.statement.emission p.object.symbols).bytes) ∧
      l.statement.Stands obj p.sectionName s.code.length
        (l.statement.emission p.object.symbols).bytes := by
  have hshort := (Object.assembled h).short
  obtain ⟨_, q₂, hfirst', hsecond, rfl⟩ := Object.assemble_runs h
  obtain ⟨-, rfl⟩ := hfirst.unique hfirst'
  obtain ⟨ls, -, hls, -, -, hm⟩ := FirstPass.runs_run hfirst
  obtain ⟨_, _, hlines, hcheck⟩ := runs_bind.mp hsecond
  obtain ⟨rfl, -⟩ := SecondPass.runs_checkSizes.mp hcheck
  obtain ⟨ls', last, hls', hsteps, hlast⟩ := Pass.runs_eachLine hlines
  rw [hls] at hls'
  cases hls'
  have hobject : q₂.object = last.object := by rw [hlast]
  rw [hobject] at hshort ⊢
  obtain ⟨hk, hgo, hfront⟩ := (Pass.stateAt_eq_some_iff hls).mp hp
  rw [Nat.add_comm] at hread
  obtain ⟨l', hread', hl⟩ := SourceLine.exists_of_readAll hls hgo hraw
  rw [hread] at hread'
  cases hread'
  obtain ⟨hlt, hget⟩ := List.getElem?_eq_some_iff.mp hl
  -- the lines before, the line itself and the lines behind it
  rw [← List.take_append_drop k ls] at hsteps
  obtain ⟨_, hfront', hrest⟩ := Pass.runs_steps_append.mp hsteps
  obtain ⟨-, rfl⟩ := hfront.unique hfront'
  rw [List.drop_eq_getElem_cons hlt, hget, List.length_take, Nat.min_eq_left hk,
    Nat.add_comm] at hrest
  obtain ⟨_, q, hline, hback⟩ := runs_bind.mp hrest
  have hfollows := hm.follows.steps hm.zeroUnlessDefined hfront
  cases SecondPass.runs_line hline with
  | opens hopens _ _ => exact absurd (Statement.symbolOperands_of_opens hopens) huses
  | silent _ _ hops _ => exact absurd hops huses
  | emits hopens hopen hc hq =>
    obtain ⟨s, hs⟩ := Object.exists_findSection (hfollows.found hopen)
    refine ⟨hc, q, s, hline, hs, ?_, ?_⟩
    · rw [hq, Object.findSection_emit, if_pos rfl, hs]
      rfl
    · exact hfollows.stands hm.zeroUnlessDefined hline hback hopens hc hq hshort hs

/-- A symbol stands for its address. In a program that is linked from assembled objects, let a line
refer to symbols, other than by a store to a bare one. Each of them has an address as its object
sees it. The line with these addresses in place of the symbols, spelled in hexadecimal, is read as
such, and wherever it is assembled it emits, without any relocation, exactly the bytes that the
linked section holds where the line put its own. -/
theorem symbols_stand_for_addresses {tree : IntervalTree Span} {placements : Placements}
    {objects : List Object} {l : Linker} {refs : List SectionRef} {log : List Event}
    (hobjects : ∀ obj ∈ objects, ∃ name source, (Object.assemble name source).1 = .ok obj)
    (hnames : (objects.map Object.name).Nodup)
    (h : ({ objects, placements } : Linker).run
      (Linker.generate tree (List.range objects.length)) = ⟨l, .ok refs, log⟩)
    {n : Nat} {obj : Object} (hobj : objects[n]? = some obj) {name source : Bytes}
    (hassemble : (Object.assemble name source).1 = .ok obj) {m p : Progress}
    (hfirst : Runs (FirstPass.run (sourceLines source)) { object := { name } } () m) {k : Nat}
    (hp : Pass.stateAt SecondPass.line 1 { object := m.object } (sourceLines source) k = some p)
    {raw : Bytes} (hraw : (sourceLines source)[k]? = some raw) {line : SourceLine}
    (hread : SourceLine.read (k + 1) raw = .ok line)
    (huses : line.statement.symbolOperands ≠ []) (hform : line.statement.storesToSymbol = false) :
    (∀ o ∈ line.statement.symbolOperands, ∃ a, HasAddress objects l.objects n o.symbol a) ∧
    ∀ address : Bytes → UInt32,
      (∀ o ∈ line.statement.symbolOperands,
        HasAddress objects l.objects n o.symbol (address o.symbol)) →
      SourceLine.read (k + 1) (line.resolve address).spelling = .ok (line.resolve address) ∧
      ∃ bytes q s s' t,
        (∀ number r, r.isOpen = true → Runs (SecondPass.line number (line.resolve address)) r ()
          { r with object := r.object.emit r.sectionName { bytes } }) ∧
        Runs (SecondPass.line (k + 1) line) p () q ∧
        p.object.findSection p.sectionName = some s ∧
        q.object.findSection p.sectionName = some s' ∧
        sectionAt l.objects ⟨n, p.sectionName⟩ = some t ∧
        t.code.extract s.code.length s'.code.length = bytes := by
  have hin := Inputs.of_assemble hobjects hnames
  obtain ⟨start, mid, f, d, hstages, rfl⟩ :=
    Linker.stages_of_run (fun obj hobj => (hin.assembled obj hobj).sound.nodup) h
  obtain ⟨hc, q, s, hline, hs, hs', hstands⟩ :=
    Object.stands_of_stateAt hassemble hfirst hp hraw hread huses
  refine ⟨fun o ho => ?_, fun address haddress => ?_⟩
  · obtain ⟨r, hr, hsymbol, -⟩ := hstands.sites o ho
    obtain ⟨a, ha, -⟩ := hstages.hasAddress hin hobj hr
    exact ⟨a, hsymbol ▸ ha⟩
  · have hstray : ∀ w, line.statement ≠ .stray w := by
      intro w hw
      rw [hw] at huses
      exact huses rfl
    obtain ⟨bytes, hbytes, hresolves⟩ := Statement.emission_resolve address hc hform
    obtain ⟨t, ht, hlinked⟩ := hstages.resolves hin hobj hstands haddress
    refine ⟨SourceLine.read_resolve hread hstray address, bytes, q, s, _, t,
      fun number r hr => SecondPass.runs_resolve huses hbytes hr number, hline, hs, hs', ht, ?_⟩
    rw [← hlinked.unique hresolves]
    congr 1
    exact List.length_append

theorem symbols_stand_for_addresses_everyForm : ∃ a b l refs log m p line x bytes t,
    (Object.assemble (text "a.o") everyForm).1 = .ok a ∧
    (Object.assemble (text "b.o") exporting).1 = .ok b ∧
    ({ objects := [a, b], placements := [(text "u", 100)] } : Linker).run
      (Linker.generate (.sorted Span) (List.range 2)) = ⟨l, .ok refs, log⟩ ∧
    Runs (FirstPass.run (sourceLines everyForm)) { object := { name := text "a.o" } } () m ∧
    Pass.stateAt SecondPass.line 1 { object := m.object } (sourceLines everyForm) 4 = some p ∧
    (sourceLines everyForm)[4]? = some (text "st %r1, [%r2 + x]") ∧
    SourceLine.read 5 (text "st %r1, [%r2 + x]") = .ok line ∧
    HasAddress [a, b] l.objects 0 (text "x") x ∧
    SourceLine.read 5 (line.resolve fun _ => x).spelling = .ok (line.resolve fun _ => x) ∧
    (∀ number r, r.isOpen = true → Runs (SecondPass.line number (line.resolve fun _ => x)) r ()
      { r with object := r.object.emit r.sectionName { bytes } }) ∧
    sectionAt l.objects ⟨0, text "t"⟩ = some t ∧ t.code.extract 16 24 = bytes ∧
    bytes = [0x82, 0x20, 0x10, 0, 0, 0, 0, 0x6B] := by
  have h : ((Object.assemble (text "a.o") everyForm).1.toOption.bind fun a =>
      (Object.assemble (text "b.o") exporting).1.toOption.bind fun b =>
        let done := ({ objects := [a, b], placements := [(text "u", 100)] } : Linker).run
          (Linker.generate (.sorted Span) (List.range 2))
        done.result.toOption.map fun _ => ([a.name, b.name],
          (sectionAt done.linker.objects ⟨0, text "t"⟩).map fun t => t.code.extract 16 24)) =
      some ([text "a.o", text "b.o"], some [0x82, 0x20, 0x10, 0, 0, 0, 0, 0x6B]) := by
    decide +kernel
  have hfirst : Runs (FirstPass.run (sourceLines everyForm)) { object := { name := text "a.o" } } ()
      (outcome (FirstPass.run (sourceLines everyForm)) { object := { name := text "a.o" } }).2 := by
    decide +kernel
  have hreach : (Pass.stateAt SecondPass.line 1 { object := (outcome
      (FirstPass.run (sourceLines everyForm)) { object := { name := text "a.o" } }).2.object }
      (sourceLines everyForm) 4).bind (fun p =>
        (SourceLine.read 5 (text "st %r1, [%r2 + x]")).toOption.map fun line =>
          (p.sectionName, (p.object.findSection p.sectionName).map fun s => s.code.length,
            ((outcome (SecondPass.line 5 line) p).2.object.findSection p.sectionName).map fun s =>
              s.code.length,
            line.statement.symbolOperands, line.statement.storesToSymbol)) =
      some (text "t", some 16, some 24, [⟨4, text "x", .symbol⟩], false) := by
    decide +kernel
  obtain ⟨a, ha, h⟩ := Option.bind_eq_some_iff.mp h
  obtain ⟨b, hb, h⟩ := Option.bind_eq_some_iff.mp h
  have ha := eq_ok_of_toOption ha
  have hb := eq_ok_of_toOption hb
  rcases hrun : ({ objects := [a, b], placements := [(text "u", 100)] } : Linker).run
    (Linker.generate (.sorted Span) (List.range 2)) with ⟨l, result, log⟩
  rw [hrun] at h
  obtain ⟨refs, hresult, h⟩ := Option.map_eq_some_iff.mp h
  obtain rfl : result = .ok refs := eq_ok_of_toOption hresult
  obtain ⟨p, hp, hreach⟩ := Option.bind_eq_some_iff.mp hreach
  obtain ⟨line, hread, hreach⟩ := Option.map_eq_some_iff.mp hreach
  have hread := eq_ok_of_toOption hread
  simp only [Prod.mk.injEq] at h hreach
  obtain ⟨hname, hlength, hlength', hoperands, hform⟩ := hreach
  have hraw : (sourceLines everyForm)[4]? = some (text "st %r1, [%r2 + x]") := by decide +kernel
  obtain ⟨hexists, hall⟩ := symbols_stand_for_addresses (assembled_pair ha hb)
    (nodup_names_pair h.1 (by decide)) hrun (n := 0) rfl ha hfirst hp hraw hread
    (by rw [hoperands]; exact List.cons_ne_nil _ _) hform
  rw [hoperands, List.forall_mem_singleton] at hexists
  obtain ⟨x, hx⟩ := hexists
  obtain ⟨hliteral, bytes, q, s, s', t, hemits, hline, hs, hs', ht, hbytes⟩ :=
    hall (fun _ => x) (by rw [hoperands, List.forall_mem_singleton]; exact hx)
  have hq : (outcome (SecondPass.line 5 line) p).2 = q := congrArg Prod.snd hline
  rw [hq, hs', Option.map_some] at hlength'
  rw [hs, Option.map_some] at hlength
  rw [Option.some.inj hlength, Option.some.inj hlength'] at hbytes
  rw [hname] at ht
  have hlinked := h.2
  rw [ht, Option.map_some, hbytes] at hlinked
  exact ⟨a, b, l, refs, log, _, p, line, x, bytes, t, ha, hb, hrun, hfirst, hp, hraw, hread, hx,
    hliteral, hemits, ht, hbytes, Option.some.inj hlinked⟩

end AsmKit
