import AsmKit.Proofs.ListedSections
import AsmKit.Proofs.ListingSyntax
import AsmKit.Proofs.Substitution

/-
  Listings assemble. Of an accepted statement a listing shows all that its fields and its literal come
  from (`Instruction.isShown_of_operands`), so what it shows is encoded to the same bytes and refers to
  no symbol (`Decoded.IsShown.isRestated`). Such a line can be assembled in a section of its own
  (`Object.assemble_statement`).
-/

namespace AsmKit

/-! ## Operands of listings -/

namespace Decoded

variable {d : Decoded}

/-- Whether the assembler's language has what a listing shows. There are no jumps to brackets in it,
and no loads or stores of a sum outside of brackets. -/
def hasSpelling (d : Decoded) : Bool :=
  match d.instruction.shape with
  | .jump | .branch => !d.isIndirect
  | .load | .store => d.isIndirect
  | _ => true

theorem opcode_of_direct (h : d.isIndirect = false)
    (hopcode : d.fields.opcode = d.instruction.opcode ∨ d.fields.opcode = d.instruction.indirect) :
    d.fields.opcode = d.instruction.opcode := by
  rcases hopcode with e | e
  · exact e
  · unfold isIndirect at h
    rw [e, BEq.rfl, Bool.true_and, bne_eq_false_iff_eq] at h
    rw [e, h]

theorem opcode_of_indirect (h : d.isIndirect = true) : d.fields.opcode = d.instruction.indirect :=
  eq_of_beq (Bool.and_eq_true_iff.mp h).1

theorem jump_target (h : d.isIndirect = false) (symbols : SymbolTable) :
    Operand.jump symbols (Token.ofText d.target) = .ok { mode := .immediate, value := d.literal } := by
  rw [(of_target h).1]
  exact except_bind_eq_ok.mpr ⟨d.literal, Token.number_prefixedHex .hex d.literal, rfl⟩

theorem data_place {register : UInt8} (h : register.toNat < 16) (hindirect : d.isIndirect = true)
    (symbols : SymbolTable) : Operand.data symbols (Token.ofText (d.place register)) =
      .ok { mode := .registerIndirectLiteral, register, value := d.literal } := by
  obtain ⟨hsign, hregister⟩ := Register.bracketed_spelling register.toNat h
  rw [UInt8.ofNat_toNat] at hsign hregister
  obtain ⟨-, hnumber, -⟩ := Token.of_spelling .general h
  rw [(of_place h hindirect).1]
  refine Operand.bracket_of_number (Bracket.read?_spelling hregister (Bracket.isOffset_prefixedHex _))
    (by rw [Bytes.not_isIdentifier_prefixedHex]; nofun) ?_ (Token.number_prefixedHex _ _) symbols
  show Token.register ⟨_, 0x25 :: (Register.spelling .general register).tail⟩ = _
  rw [← hsign]
  exact hnumber

/-- The fields as a listing tells them. Those that it does not show are the same in all statements. -/
def listedFields (i : Instruction) (f : Fields) : Fields :=
  match i.shape with
  | .none | .jump => { opcode := i.opcode }
  | .branch => { opcode := i.opcode, b := f.b, c := f.c }
  | .stack =>
    if i.mnemonic = .push then
      { opcode := i.opcode, a := Register.stackPointer, c := f.c, displacement := 1 }
    else { opcode := i.opcode, a := f.a, b := Register.stackPointer, displacement := -1 }
  | .twoRegisters =>
    if i.mnemonic = .xchg then { opcode := i.opcode, b := f.b, c := f.c }
    else { opcode := i.opcode, a := f.a, b := f.a, c := f.c }
  | .oneRegister => { opcode := i.opcode, a := f.a, b := f.a }
  | .load => { opcode := i.indirect, a := f.a, b := f.b }
  | .store => { opcode := i.indirect, a := f.a, c := f.c }
  | .controlRead | .controlWrite => { opcode := i.opcode, a := f.a, b := f.b }

/-- A listing shows all of the instruction, in the assembler's language. -/
structure IsShown (d : Decoded) : Prop where
  spelled : d.hasSpelling = true
  faithful : d.Faithful
  narrow : d.fields.Narrow
  fields : d.fields = listedFields d.instruction d.fields
  source : d.instruction.shape = .controlRead → d.fields.b.toNat < RegisterKind.control.count
  destination : d.instruction.shape = .controlWrite → d.fields.a.toNat < RegisterKind.control.count

end Decoded

namespace Instruction

variable {symbols : SymbolTable} {i : Instruction} {arguments : List Token} {f : Fields}
  {operand? : Option Operand}

theorem checkArguments_one {s : Bytes} {k : TokenKind → Bool} (hs : i.shape.arguments = [k])
    (hk : k (Token.ofText s).kind = true) : checkArguments i [Token.ofText s] = .ok () := by
  refine checkArguments_of_kinds (by rw [hs]; rfl) ?_
  rw [hs]
  exact List.forall_mem_singleton.mpr hk

theorem checkArguments_two {s s' : Bytes} {k k' : TokenKind → Bool}
    (hs : i.shape.arguments = [k, (· = .comma), k']) (hk : k (Token.ofText s).kind = true)
    (hk' : k' (Token.ofText s').kind = true) :
    checkArguments i [Token.ofText s, Token.comma, Token.ofText s'] = .ok () := by
  refine checkArguments_of_kinds (by rw [hs]; rfl) ?_
  rw [hs]
  exact List.forall_mem_cons.mpr ⟨hk, List.forall_mem_cons.mpr ⟨rfl, List.forall_mem_singleton.mpr hk'⟩⟩

theorem fields_of_operands (h : operands symbols i arguments = .ok (f, operand?)) {literal : UInt32}
    (hspelled : Decoded.hasSpelling ⟨i, f, literal⟩ = true) : f = Decoded.listedFields i f := by
  have hopcode := (operands_narrow h).2.1
  -- an instruction with two first bytes is spelled for one of them
  have hjump (hs : i.shape = .jump ∨ i.shape = .branch) : f.opcode = i.opcode := by
    refine @Decoded.opcode_of_direct ⟨i, f, literal⟩ ?_ hopcode
    rcases hs with hs | hs
    all_goals
      simp only [Decoded.hasSpelling, hs] at hspelled
      exact (Bool.not_eq_true' _).mp hspelled
  have hdata (hs : i.shape = .load ∨ i.shape = .store) : f.opcode = i.indirect := by
    refine @Decoded.opcode_of_indirect ⟨i, f, literal⟩ ?_
    rcases hs with hs | hs
    all_goals
      simp only [Decoded.hasSpelling, hs] at hspelled
      exact hspelled
  unfold Decoded.listedFields
  cases fills_of_operands h with
  | none hs => rw [hs]
  | jump hs ho =>
    have e := hjump (.inl hs)
    dsimp only at e
    rw [hs, e, Operand.register_of_jump ho]
  | branch hs hleft hright ho =>
    have e := hjump (.inr hs)
    dsimp only at e
    rw [hs, e, Operand.register_of_jump ho]
  | push hs hm hr =>
    rw [hs]
    exact (if_pos hm).symm
  | pop hs hm hr =>
    rw [hs]
    exact (if_neg hm).symm
  | exchange hs hm hsource hdestination =>
    rw [hs]
    exact (if_pos hm).symm
  | twoRegisters hs hm hsource hdestination =>
    rw [hs]
    exact (if_neg hm).symm
  | oneRegister hs hr => rw [hs]
  | load hs ha ho =>
    have e := hdata (.inl hs)
    dsimp only at e
    rw [hs, e]
  | store hs hr ho =>
    have e := hdata (.inr hs)
    dsimp only at e
    rw [hs, e]
  | control hs hb ha => rcases hs with hs | hs <;> rw [hs]

/-- A move of a control register names it, and a general register. -/
theorem control_of_operands (hs : i.shape = .controlRead ∨ i.shape = .controlWrite)
    (h : operands symbols i arguments = .ok (f, operand?)) : ∃ source separator destination,
      arguments = [source, separator, destination] ∧ source.register = .ok f.b ∧
        destination.register = .ok f.a := by
  cases fills_of_operands h with
  | control _ hb ha => exact ⟨_, _, _, rfl, hb, ha⟩
  | none hs' | jump hs' | branch hs' | push hs' | pop hs' | exchange hs' | twoRegisters hs'
  | oneRegister hs' | load hs' | store hs' =>
    rw [hs'] at hs
    exact absurd hs (by decide)

/-- A listing shows what a statement fills. -/
theorem isShown_of_operands (hi : i ∈ all) (hc : checkArguments i arguments = .ok ())
    (hread : ∀ t ∈ arguments, t.IsReadable) (h : operands symbols i arguments = .ok (f, operand?))
    (hspelled : Decoded.hasSpelling ⟨i, f, (operand?.map Operand.value).getD 0⟩ = true) :
    Decoded.IsShown ⟨i, f, (operand?.map Operand.value).getD 0⟩ := by
  have hkinds := (checkArguments_kinds hc).2
  constructor
  case spelled => exact hspelled
  case faithful => exact operands_faithful hi h
  case narrow => exact (operands_narrow h).1
  case fields => exact fields_of_operands h hspelled
  case source =>
    intro hs
    change i.shape = _ at hs
    obtain ⟨source, separator, destination, rfl, hb, -⟩ := control_of_operands (.inl hs) h
    rw [hs] at hkinds
    exact Token.register_of_isControl (hread source (by simp))
      (hkinds (source, TokenKind.isControl) (by simp [Shape.arguments])) hb
  case destination =>
    intro hs
    change i.shape = _ at hs
    obtain ⟨source, separator, destination, rfl, -, ha⟩ := control_of_operands (.inr hs) h
    rw [hs] at hkinds
    exact Token.register_of_isControl (hread destination (by simp))
      (hkinds (destination, TokenKind.isControl) (by simp [Shape.arguments])) ha

end Instruction

namespace Decoded

variable {d : Decoded}

/-- The assembler reads the statement that a listing shows, and encodes it to the instruction. -/
structure IsRestated (d : Decoded) : Prop where
  read : ∀ s ∈ d.operands, Token.IsRead s
  check : d.instruction.checkArguments d.arguments = .ok ()
  operands : ∀ symbols, ∃ operand?,
    d.instruction.operands symbols d.arguments = .ok (d.fields, operand?) ∧
      (operand?.map Operand.value).getD 0 = d.literal ∧ operand?.bind Operand.reference? = none

theorem IsRestated.of_operands {texts : List Bytes} (h : d.operands = texts)
    (hread : ∀ s ∈ texts, Token.IsRead s)
    (hcheck : d.instruction.checkArguments ((texts.map Token.ofText).intersperse Token.comma) = .ok ())
    (hoperands : ∀ symbols, ∃ operand?, d.instruction.operands symbols
        ((texts.map Token.ofText).intersperse Token.comma) = .ok (d.fields, operand?) ∧
      (operand?.map Operand.value).getD 0 = d.literal ∧ operand?.bind Operand.reference? = none) :
    d.IsRestated := by
  constructor
  · rw [h]
    exact hread
  · unfold arguments
    rw [h]
    exact hcheck
  · unfold arguments
    rw [h]
    exact hoperands

theorem IsRestated.emission (h : d.IsRestated) (symbols : SymbolTable) :
    d.instruction.emission symbols d.arguments = { bytes := d.code } := by
  obtain ⟨operand?, hops, hvalue, hreference⟩ := h.operands symbols
  rw [Instruction.emission_of_operands h.check hops, hvalue, hreference]
  rfl

/-- What a listing shows is encoded to what it was made from. -/
theorem IsShown.isRestated (h : d.IsShown) : d.IsRestated := by
  obtain ⟨hka, hra, hta⟩ := Token.of_spelling .general (UInt8.lt_iff_toNat_lt.mp h.narrow.a)
  obtain ⟨hkb, hrb, htb⟩ := Token.of_spelling .general (UInt8.lt_iff_toNat_lt.mp h.narrow.b)
  obtain ⟨hkc, hrc, htc⟩ := Token.of_spelling .general (UInt8.lt_iff_toNat_lt.mp h.narrow.c)
  have hzero (hs : d.instruction.shape.hasOperand = false) : 0 = d.literal :=
    (h.faithful.literal ((Instruction.wordLength_of_shape _ h.faithful.mem).2.trans hs)).symm
  have hfields (operand? : Option Operand) :
      (Except.ok (listedFields d.instruction d.fields, operand?) : Except Error.Complaint _) =
        .ok (d.fields, operand?) := by
    rw [← h.fields]
  have two {α : Type} {p : α → Prop} {x y : α} (hx : p x) (hy : p y) : ∀ z ∈ [x, y], p z :=
    List.forall_mem_cons.mpr ⟨hx, List.forall_mem_singleton.mpr hy⟩
  obtain ⟨⟨name, mnemonic, shape, opcode, indirect, size⟩, f, literal⟩ := d
  cases shape with
  | none => exact ⟨List.forall_mem_nil _, rfl, fun _ => ⟨none, hfields none, hzero rfl, rfl⟩⟩
  | jump =>
    have hdirect := (Bool.not_eq_true' _).mp h.spelled
    obtain ⟨htoken, ht⟩ := of_target hdirect
    refine ⟨List.forall_mem_singleton.mpr ht, ?_, fun symbols =>
      ⟨some { mode := .immediate, value := literal }, ?_, rfl, rfl⟩⟩
    · exact Instruction.checkArguments_one rfl (by rw [htoken]; rfl)
    · exact (Instruction.Fills.jump rfl (jump_target hdirect symbols)).operands_eq.trans (hfields _)
  | branch =>
    have hdirect := (Bool.not_eq_true' _).mp h.spelled
    obtain ⟨htoken, ht⟩ := of_target hdirect
    refine ⟨List.forall_mem_cons.mpr ⟨htb, two htc ht⟩, ?_, fun symbols =>
      ⟨some { mode := .immediate, value := literal }, ?_, rfl, rfl⟩⟩
    · exact Instruction.checkArguments_of_kinds rfl (List.forall_mem_cons.mpr ⟨hkb,
        List.forall_mem_cons.mpr ⟨rfl, List.forall_mem_cons.mpr ⟨hkc, two rfl (by rw [htoken]; rfl)⟩⟩⟩)
    · exact (Instruction.Fills.branch rfl hrb hrc (jump_target hdirect symbols)).operands_eq.trans
        (hfields _)
  | stack =>
    by_cases hm : mnemonic = .push
    · cases hm
      refine ⟨List.forall_mem_singleton.mpr htc, ?_, fun _ => ⟨none, ?_, hzero rfl, rfl⟩⟩
      · exact Instruction.checkArguments_one rfl hkc
      · exact (Instruction.Fills.push rfl rfl hrc).operands_eq.trans (hfields none)
    · have hlisted := hfields none
      change Except.ok ((if mnemonic = .push then _ else _), none) = _ at hlisted
      rw [if_neg hm] at hlisted
      refine .of_operands (if_neg hm) (List.forall_mem_singleton.mpr hta) ?_ fun _ =>
        ⟨none, ?_, hzero rfl, rfl⟩
      · exact Instruction.checkArguments_one rfl hka
      · exact (Instruction.Fills.pop rfl hm hra).operands_eq.trans hlisted
  | twoRegisters =>
    by_cases hm : mnemonic = .xchg
    · cases hm
      refine ⟨two htb htc, ?_, fun _ => ⟨none, ?_, hzero rfl, rfl⟩⟩
      · exact Instruction.checkArguments_two rfl hkb hkc
      · exact (Instruction.Fills.exchange rfl rfl hrb hrc).operands_eq.trans (hfields none)
    · have hlisted := hfields none
      change Except.ok ((if mnemonic = .xchg then _ else _), none) = _ at hlisted
      rw [if_neg hm] at hlisted
      refine .of_operands (if_neg hm) (two htc hta) ?_ fun _ => ⟨none, ?_, hzero rfl, rfl⟩
      · exact Instruction.checkArguments_two rfl hkc hka
      · exact (Instruction.Fills.twoRegisters rfl hm hrc hra).operands_eq.trans hlisted
  | oneRegister =>
    refine ⟨List.forall_mem_singleton.mpr hta, ?_, fun _ => ⟨none, ?_, hzero rfl, rfl⟩⟩
    · exact Instruction.checkArguments_one rfl hka
    · exact (Instruction.Fills.oneRegister rfl hra).operands_eq.trans (hfields none)
  | load =>
    have hb := UInt8.lt_iff_toNat_lt.mp h.narrow.b
    obtain ⟨htoken, ht⟩ := of_place hb h.spelled
    refine ⟨two ht hta, ?_, fun symbols =>
      ⟨some { mode := .registerIndirectLiteral, register := f.b, value := literal }, ?_, rfl, rfl⟩⟩
    · exact Instruction.checkArguments_two rfl (by rw [htoken]; rfl) hka
    · exact (Instruction.Fills.load rfl hra (data_place hb h.spelled symbols)).operands_eq.trans
        (hfields _)
  | store =>
    have ha := UInt8.lt_iff_toNat_lt.mp h.narrow.a
    obtain ⟨htoken, ht⟩ := of_place ha h.spelled
    refine ⟨two htc ht, ?_, fun symbols =>
      ⟨some { mode := .registerIndirectLiteral, register := f.a, value := literal }, ?_, rfl, rfl⟩⟩
    · exact Instruction.checkArguments_two rfl hkc (by rw [htoken]; rfl)
    · exact (Instruction.Fills.store rfl hrc (data_place ha h.spelled symbols)).operands_eq.trans
        (hfields _)
  | controlRead =>
    obtain ⟨hk, hr, ht⟩ := Token.of_spelling .control (h.source rfl)
    refine ⟨two ht hta, ?_, fun _ => ⟨none, ?_, hzero rfl, rfl⟩⟩
    · exact Instruction.checkArguments_two rfl hk hka
    · exact (Instruction.Fills.control (.inl rfl) hr hra).operands_eq.trans (hfields none)
  | controlWrite =>
    obtain ⟨hk, hr, ht⟩ := Token.of_spelling .control (h.destination rfl)
    refine ⟨two htb ht, ?_, fun _ => ⟨none, ?_, hzero rfl, rfl⟩⟩
    · exact Instruction.checkArguments_two rfl hkb hk
    · exact (Instruction.Fills.control (.inr rfl) hrb hr).operands_eq.trans (hfields none)

end Decoded

/-! ## A section of one statement -/

/-- The line that opens the section `t`. -/
def SourceLine.opening : SourceLine := ⟨none, .directive .openSection [⟨.symbol, text "t"⟩]⟩

theorem SourceLine.read_opening (number : Nat) : read number (text ".section t") = .ok opening := by
  have hspelling : opening.spelling = text ".section t" := by decide
  rw [← hspelling]
  refine read_spelling (List.forall_mem_cons.mpr ⟨?_, List.forall_mem_singleton.mpr ?_⟩) number
  · exact .of_classify (by decide) nofun nofun nofun
  · exact .of_classify (by decide +kernel) nofun nofun nofun

namespace Object

variable {raw name : Bytes} {arguments : List Token} {i : Instruction} {b : Bytes}

/-- An object of one section, with its code and the size that pass one gives it. -/
def ofCode (file code : Bytes) (size : Int64) : Object where
  name := file
  symbols := ⟨[⟨text "t", text "t", 0, false, false, 0, size, true, []⟩], 1⟩
  sections := [{ name := text "t", code }]

theorem runs_first (file : Bytes)
    (hread : SourceLine.read 2 raw = .ok ⟨none, .instruction name arguments⟩)
    (hi : Instruction.find? name = some i) :
    ∃ q, Runs (FirstPass.run [text ".section t", raw]) { object := { name := file } } () q ∧
      q.object = ofCode file [] (Int64.ofNat (0 + i.size).toNat) := by
  unfold FirstPass.run
  rw [Pass.eachLine_cons (SourceLine.read_opening 1) nofun, Pass.eachLine_cons hread nofun]
  simp only [FirstPass.line, FirstPass.statement, FirstPass.instruction, hi]
  exact ⟨_, rfl, rfl⟩

theorem runs_second (file : Bytes)
    (hread : SourceLine.read 2 raw = .ok ⟨none, .instruction name arguments⟩)
    (hi : Instruction.find? name = some i)
    (hemission : ∀ symbols, i.emission symbols arguments = { bytes := b }) {size : Int64}
    (hsize : size.toInt = b.length) :
    ∃ q, Runs (SecondPass.run [text ".section t", raw]) { object := ofCode file [] size } () q ∧
      q.object = ofCode file b size := by
  have hlines : Runs (Pass.eachLine SecondPass.line 1 [text ".section t", raw])
      { object := ofCode file [] size } ()
      { object := ofCode file b size, sectionName := text "t", isOpen := true } := by
    rw [Pass.eachLine_cons (SourceLine.read_opening 1) nofun, Pass.eachLine_cons hread nofun]
    simp only [SecondPass.line, SecondPass.statement, SecondPass.instruction, hi, hemission]
    rfl
  refine ⟨_, runs_bind.mpr ⟨(), _, hlines, SecondPass.runs_checkSizes.mpr ⟨rfl, ?_⟩⟩, rfl⟩
  exact List.forall_mem_singleton.mpr (decide_eq_true hsize)

/-- An instruction whose bytes do not depend on symbols can be assembled in a section of its own. -/
theorem assemble_statement (file : Bytes) (hi : i ∈ Instruction.all)
    (hline : Lines.IsLine raw ∧ raw.length < Assembler.lineLimit)
    (hread : ∀ number, SourceLine.read number raw = .ok ⟨none, .instruction i.name arguments⟩)
    (hemission : ∀ symbols, i.emission symbols arguments = { bytes := b })
    (hlength : b.length = i.size.toNat) :
    ∃ obj, (assemble file (text ".section t\n" ++ raw ++ [Ascii.newline])).1 = .ok obj ∧
      obj.sections = [{ name := text "t", code := b }] ∧ obj.relocations.entries = [] := by
  have hfind : ∀ i ∈ Instruction.all, Instruction.find? i.name = some i := by decide +kernel
  have hsize : ∀ i ∈ Instruction.all, (Int64.ofNat (0 + i.size).toNat).toInt = i.size.toNat := by
    decide +kernel
  have hopening : Lines.IsLine (text ".section t") ∧
      (text ".section t").length < Assembler.lineLimit := by
    unfold Lines.IsLine
    decide
  have hsource : Assembler.readSource (text ".section t\n" ++ raw ++ [Ascii.newline]) =
      .ok [text ".section t", raw] := by
    have hlines : Lines.read Assembler.lineLimit
        ([text ".section t", raw].flatMap fun l => l ++ [Ascii.newline]) =
          ⟨[text ".section t", raw], false⟩ :=
      Lines.read_lines (List.forall_mem_cons.mpr ⟨hopening, List.forall_mem_singleton.mpr hline⟩)
    have htext : text ".section t\n" ++ raw ++ [Ascii.newline] =
        [text ".section t", raw].flatMap fun l => l ++ [Ascii.newline] := by
      rw [List.flatMap_cons, List.flatMap_singleton, List.append_assoc]
      rfl
    unfold Assembler.readSource
    rw [htext, hlines]
    rfl
  obtain ⟨q₁, hfirst, hq₁⟩ := runs_first file (hread 2) (hfind i hi)
  obtain ⟨q₂, hsecond, hq₂⟩ := runs_second file (hread 2) (hfind i hi) hemission
    ((hsize i hi).trans (congrArg Nat.cast hlength.symm))
  rw [← hq₁] at hsecond
  refine ⟨q₂.object, assemble_of_runs hsource hfirst hsecond, ?_⟩
  rw [hq₂]
  exact ⟨rfl, rfl⟩

end Object

/-- What a listing shows can be assembled. If pass two accepts an instruction, then what it emits
decodes. Unless that is a jump through memory or a load or a store without brackets, its line in a
listing, in a section of its own, assembles to the same bytes and no relocation. -/
theorem listing_reassembles {number : Nat} {raw : Bytes} {l : SourceLine} {p q : Progress}
    (file : Bytes) (hread : SourceLine.read number raw = .ok l)
    (hinstruction : l.statement.isInstruction = true)
    (hruns : Runs (SecondPass.line number l) p () q) :
    q.object = p.object.emit p.sectionName (l.statement.emission p.object.symbols) ∧
    ∃ d, Decoded.ofBytes (l.statement.emission p.object.symbols).bytes = .ok d ∧
      (d.hasSpelling = true → ∃ obj,
        (Object.assemble file (text ".section t\n" ++ d.statement ++ [Ascii.newline])).1 = .ok obj ∧
        obj.sections = [{ name := text "t", code := (l.statement.emission p.object.symbols).bytes }] ∧
        obj.relocations.entries = []) := by
  obtain ⟨label?, st⟩ := l
  match st with
  | .instruction name arguments =>
    obtain ⟨i, hi, -, hc, rfl⟩ := SecondPass.accepted_of_runs hruns
    have hmem : i ∈ Instruction.all := List.mem_of_find?_eq_some hi
    obtain ⟨f, operand?, hcheck, hops⟩ := Instruction.operands_of_emission hc
    have hfaithful := Instruction.operands_faithful hmem hops
    have hbytes : (i.emission p.object.symbols arguments).bytes =
        Decoded.code ⟨i, f, (operand?.map Operand.value).getD 0⟩ := by
      rw [Instruction.emission_of_operands hcheck hops]
      rfl
    have hdecode := hfaithful.ofBytes_code
    have hreadable := SourceLine.isReadable_of_read hread nofun
    dsimp only
    rw [Statement.emission_instruction hi, hbytes]
    refine ⟨rfl, _, hdecode, fun hspelled => ?_⟩
    have hrestated := (Instruction.isShown_of_operands hmem hcheck
      (fun t ht => hreadable t (List.mem_append_right _ (List.mem_cons_of_mem _ ht))) hops
      hspelled).isRestated
    have hshort := Decoded.length_statement_le hfaithful.mem
    have hlimit : 108 < Assembler.lineLimit := by decide
    exact Object.assemble_statement file hfaithful.mem
      ⟨Decoded.isLine_of_isVisible (Decoded.isVisible_statement hfaithful.mem), by omega⟩
      (Decoded.read_statement hfaithful.mem hrestated.read) hrestated.emission hfaithful.length_code
  | .nothing | .stop | .stray _ | .directive _ _ => cases hinstruction

/-- A load behind a label, through a register and a symbol. -/
def loadLine : SourceLine := ⟨some (text "f"), .instruction (text "ld")
  [⟨.bracket, text "[%r14 + x]"⟩, ⟨.comma, text ","⟩, ⟨.register, text "%r15"⟩]⟩

/-- Pass two, in a section of a source that defines the symbol. -/
def midway : Progress where
  object :=
    { name := text "a.o"
      symbols := ⟨[⟨text "x", text "t", 40, false, false, 0, Symbol.noSize, true, []⟩], 1⟩
      sections := [{ name := text "t" }] }
  sectionName := text "t"
  isOpen := true

theorem listing_reassembles_loadLine : ∃ q obj,
    SourceLine.read 3 (text "f: ld [%r14 + x], %r15 # next") = .ok loadLine ∧
    Runs (SecondPass.line 3 loadLine) midway () q ∧
    (Object.assemble (text "b.o") (text ".section t\nld [%sp + 0x28], %pc\n")).1 = .ok obj ∧
    obj.sections = [{ name := text "t", code := [0x92, 0xFE, 0, 0, 0, 0, 0, 40] }] ∧
    obj.relocations.entries = [] := by
  have hread : SourceLine.read 3 (text "f: ld [%r14 + x], %r15 # next") = .ok loadLine :=
    eq_ok_of_toOption (by decide +kernel)
  have hruns : Runs (SecondPass.line 3 loadLine) midway ()
      (outcome (SecondPass.line 3 loadLine) midway).2 := by
    decide +kernel
  have hcode : (loadLine.statement.emission midway.object.symbols).bytes =
      [0x92, 0xFE, 0, 0, 0, 0, 0, 40] := by
    decide +kernel
  obtain ⟨-, d, hd, hassemble⟩ := listing_reassembles (text "b.o") hread rfl hruns
  rw [hcode] at hd hassemble
  have hlisted : (Decoded.ofBytes [0x92, 0xFE, 0, 0, 0, 0, 0, 40]).toOption.map
      (fun d => (d.hasSpelling, d.statement)) = some (true, text "ld [%sp + 0x28], %pc") := by
    decide +kernel
  rw [hd] at hlisted
  obtain ⟨hspelled, hstatement⟩ := Prod.mk.inj (Option.some.inj hlisted)
  obtain ⟨obj, hobj, hsections, hrelocations⟩ := hassemble hspelled
  rw [hstatement] at hobj
  exact ⟨_, obj, hread, hruns, hobj, hsections, hrelocations⟩

end AsmKit
