import AsmKit.Proofs.Safety
import AsmKit.Proofs.SectionBlocks
import AsmKit.Proofs.Simulation

/-
  When pass one complains that there is no section. A line needs one for its label, or for a
  statement that takes bytes (`SourceLine.needs?`), and nothing else on it brings up that complaint
  (`Undemanding`). The section that is open is that of the last line that opens one
  (`FirstPass.sectionName_stateAt`). Since having none is told by a name, a section that has this name
  does not count.
-/

namespace AsmKit

open Error (Kind)

/-! ## What needs a section -/

/-- What a statement needs a section for. -/
def Statement.needs? : Statement → Option Bytes
  | .directive .words _ => some Directive.words.spelling
  | .directive .skip _ => some Directive.skip.spelling
  | .instruction name _ => (Instruction.find? name).map fun _ => name
  | _ => none

/-- What a line needs a section for, first of all its label. -/
def SourceLine.needs? (l : SourceLine) : Option Bytes := l.label? <|> l.statement.needs?

/-- The sections that some lines of a source open, in order. -/
def SourceLine.sectionsOpened (source : List Bytes) : List Bytes :=
  source.filterMap fun raw => (ofRaw raw).statement.opens?

/-! ## Other complaints -/

/-- The complaint that there is no section. -/
def Abort.LacksSection (e : Abort) : Prop := ∃ err, e = .failed err ∧ .noSection ∈ err.kinds

theorem lacksSection_atLine {kind : Kind} {line : Int} {name : Bytes} :
    Abort.LacksSection (.failed (.atLine kind line name)) ↔ kind = .noSection := by
  unfold Abort.LacksSection Error.atLine
  simp [Error.kinds, eq_comm]

/-- Nothing that is wrong with operands is that there is no section. -/
theorem Refuses.not_lacksSection {α : Type} {x : Except Error.Complaint α} {c : Error.Complaint}
    (h : Refuses x) (hc : x = .error c) (line : Int) :
    ¬ Abort.LacksSection (.failed (c.onLine line)) := by
  intro hlacks
  have hkind := h c hc
  rw [lacksSection_atLine.mp hlacks] at hkind
  revert hkind
  decide

theorem Token.not_lacksSection_of_mapM {number : Int} {lexemes : List Bytes} {e : Error}
    (h : lexemes.mapM (ofLexeme number) = .error e) : ¬ Abort.LacksSection (.failed e) := by
  induction lexemes with
  | nil => cases h
  | cons lexeme rest ih =>
    rw [List.mapM_cons] at h
    obtain h | ⟨t, -, h⟩ := except_bind_eq_error.mp h
    · unfold ofLexeme at h
      split at h
      · cases h
        intro hlacks
        cases lacksSection_atLine.mp hlacks
      · cases h
    · obtain h | ⟨ts, -, h⟩ := except_bind_eq_error.mp h
      · exact ih h
      · cases h

namespace SourceLine

theorem refuses_closing (label? : Option Bytes) (tokens : List Token) :
    Refuses (closing label? tokens) := by
  unfold closing
  split
  · exact refuses_ok _
  · exact refuses_error (by decide) _

theorem refuses_ofTokens (tokens : List Token) : Refuses (ofTokens tokens) := by
  unfold ofTokens
  split
  · exact refuses_ok _
  · split
    · exact refuses_closing none _
    · split
      · exact refuses_closing _ _
      · exact refuses_ok _
    · exact refuses_ok _

theorem not_lacksSection_of_read {number : Nat} {raw : Bytes} {e : Error}
    (h : read number raw = .error e) : ¬ Abort.LacksSection (.failed e) := by
  unfold read at h
  rcases htokens : Token.ofLine number (Lexeme.stripComment raw) with e' | tokens
  · rw [htokens] at h
    cases h
    exact Token.not_lacksSection_of_mapM htokens
  · rw [htokens] at h
    dsimp only at h
    rcases hl : ofTokens tokens with c | l
    · rw [hl] at h
      cases h
      exact (refuses_ofTokens tokens).not_lacksSection hl number
    · rw [hl] at h
      cases h

end SourceLine

/-- A part of pass one that does not ask for a section. -/
abbrev Undemanding {α : Type} (m : Pass α) : Prop :=
  Observes (fun _ _ => True) (fun e => ¬ e.LacksSection) m

section

variable {α β : Type} {line : Nat}

theorem Undemanding.then {m : Pass α} {f : α → Pass β} (hm : Undemanding m)
    (hf : ∀ a, Undemanding (f a)) : Undemanding (m >>= f) :=
  hm.bind (fun _ _ _ _ _ => trivial) hf

theorem undemanding_get : Undemanding (get : Pass Progress) := observes_get fun _ => trivial

theorem undemanding_set (p : Progress) : Undemanding (set p : Pass Unit) :=
  observes_set fun _ => trivial

theorem undemanding_modify {f : Progress → Progress} : Undemanding (modify f : Pass Unit) :=
  observes_modify fun _ => trivial

theorem undemanding_complain {kind : Kind} (h : kind ≠ .noSection) (name : Bytes) :
    Undemanding (Pass.complain line ⟨kind, name⟩ : Pass α) :=
  observes_throw (fun _ => trivial) fun hlacks => h (lacksSection_atLine.mp hlacks)

theorem undemanding_check {x : Except Error.Complaint α} (h : Refuses x) :
    Undemanding (Pass.check line x) := by
  refine ⟨fun _ _ _ _ => trivial, fun p e q hfails => ⟨trivial, ?_⟩⟩
  obtain ⟨c, hc, rfl, -⟩ := Pass.fails_check_iff.mp hfails
  exact h.not_lacksSection hc line

end

namespace FirstPass

variable {p q r : Progress} {number : Nat} {e : Abort}

theorem undemanding_changeSymbols {name : Bytes}
    {change : SymbolTable → Except Kind SymbolTable} (h : ∀ t, change t ≠ .error .noSection) :
    Undemanding (changeSymbols number name change) := by
  refine ⟨fun _ _ _ _ => trivial, fun p e q hfails => ⟨trivial, fun hlacks => ?_⟩⟩
  obtain ⟨kind, hkind, rfl, -⟩ := fails_changeSymbols_iff.mp hfails
  rw [lacksSection_atLine.mp hlacks] at hkind
  exact h _ hkind

theorem declare_ne_noSection (t : SymbolTable) (d : Declaration) :
    t.declare d ≠ .error .noSection := by
  cases d with
  | mentioned name => simp [SymbolTable.declare]
  | exported name =>
    simp only [SymbolTable.declare, SymbolTable.declareGlobal]
    split <;> simp
  | imported name =>
    simp only [SymbolTable.declare, SymbolTable.declareExtern]
    split
    · simp
    · split <;> simp
  | labelled name sectionName address =>
    simp only [SymbolTable.declare, SymbolTable.defineLabel]
    split
    · simp
    · split <;> simp
  | opened name =>
    simp only [SymbolTable.declare, SymbolTable.defineSection]
    split
    · split <;> simp
    · simp

theorem undemanding_declare {name : Bytes} (d : Declaration) :
    Undemanding (changeSymbols number name fun t => t.declare d) :=
  undemanding_changeSymbols fun t => declare_ne_noSection t d

theorem undemanding_forM {tokens : List Token} {body : Token → Pass Unit}
    (h : ∀ t, Undemanding (body t)) : Undemanding (tokens.forM body) :=
  observes_forM (fun _ => trivial) (fun _ _ _ _ _ => trivial) fun t _ => h t

theorem undemanding_openSection (arguments : List Token) :
    Undemanding (openSection number arguments) := by
  have hname : Refuses (newSection arguments) := by
    unfold newSection
    split
    · exact refuses_ok _
    · exact refuses_whole _ _
  refine (undemanding_check hname).then fun name => ?_
  refine (undemanding_declare (.opened name)).then fun _ => undemanding_modify.then fun _ => ?_
  refine undemanding_get.then fun p => ?_
  split
  · exact (undemanding_complain (by decide) name).then fun _ => undemanding_modify
  · exact (undemanding_set _).then fun _ => undemanding_modify

theorem undemanding_names {arguments : List Token} {head : Bytes}
    (declaration : Bytes → Declaration) {event : Bytes → Nat → Bytes → Event} :
    Undemanding (names number head (fun name symbols => symbols.declare (declaration name)) event
      arguments) := by
  refine (undemanding_check (refuses_listOf head arguments)).then fun names => ?_
  refine undemanding_forM fun t => (undemanding_declare (declaration t.word)).then fun _ => ?_
  exact undemanding_get.then fun _ => undemanding_modify

/-- A statement asks for a section at first or not at all. -/
theorem statement_needs (number : Nat) (st : Statement) :
    (st.needs? = none ∧ Undemanding (statement number st)) ∨
      ∃ what m, st.needs? = some what ∧ Undemanding m ∧
        statement number st = (do needSection number what; m) := by
  match st with
  | .nothing | .stop => exact .inl ⟨rfl, observes_pure (fun _ => trivial) ()⟩
  | .directive .globals arguments => exact .inl ⟨rfl, undemanding_names .exported⟩
  | .directive .externs arguments => exact .inl ⟨rfl, undemanding_names .imported⟩
  | .directive .openSection arguments => exact .inl ⟨rfl, undemanding_openSection arguments⟩
  | .directive .words arguments =>
    refine .inr ⟨_, _, rfl, ?_, rfl⟩
    refine (undemanding_check (refuses_listOf _ arguments)).then fun items => ?_
    refine Undemanding.then (undemanding_forM fun t => ?_) fun _ => undemanding_modify
    unfold item
    split
    · exact undemanding_modify
    · exact (undemanding_check (refuses_number t)).then fun _ => observes_pure (fun _ => trivial) ()
  | .directive .skip arguments =>
    refine .inr ⟨_, _, rfl, ?_, rfl⟩
    exact (undemanding_check (refuses_skipCount arguments)).then fun _ => undemanding_modify
  | .instruction name arguments =>
    simp only [Statement.needs?, statement, instruction]
    rcases Instruction.find? name with _ | i
    · exact .inl ⟨rfl, undemanding_complain (by decide) name⟩
    · exact .inr ⟨name, _, rfl, undemanding_modify, rfl⟩
  | .stray word => exact .inl ⟨rfl, undemanding_complain (by decide) word⟩

/-- What asks for a section at first lacks it where none is open. -/
theorem fails_needSection_then_iff {what : Bytes} {m : Pass Unit} (hm : Undemanding m) :
    ((∃ q, Fails (do needSection number what; m) p e q) ∧ e.LacksSection) ↔
      p.sectionName = undefinedSection ∧ e = .failed (.atLine .noSection number what) := by
  constructor
  · rintro ⟨⟨q, hq⟩, he⟩
    obtain hneed | ⟨_, r, -, hrest⟩ := fails_bind.mp hq
    · obtain ⟨hs, he, -⟩ := fails_needSection_iff.mp hneed
      exact ⟨hs, he⟩
    · exact absurd he (hm.fails r e q hrest).2
  · rintro ⟨hs, rfl⟩
    refine ⟨⟨p, fails_bind.mpr (.inl ?_)⟩, lacksSection_atLine.mpr rfl⟩
    exact fails_needSection_iff.mpr ⟨hs, rfl, rfl⟩

theorem fails_statement_lacking_iff {st : Statement} :
    ((∃ q, Fails (statement number st) p e q) ∧ e.LacksSection) ↔
      ∃ what, st.needs? = some what ∧ p.sectionName = undefinedSection ∧
        e = .failed (.atLine .noSection number what) := by
  obtain ⟨hneeds, hm⟩ | ⟨what, m, hneeds, hm, hst⟩ := statement_needs number st
  · rw [hneeds]
    constructor
    · rintro ⟨⟨q, hq⟩, he⟩
      exact absurd he (hm.fails p e q hq).2
    · rintro ⟨_, hnone, -⟩
      cases hnone
  · rw [hneeds, hst, fails_needSection_then_iff hm]
    simp

/-- A line lacks a section where none is open and it needs one. -/
theorem fails_line_lacking_iff {l : SourceLine} :
    ((∃ q, Fails (line number l) p e q) ∧ e.LacksSection) ↔
      ∃ what, l.needs? = some what ∧ p.sectionName = undefinedSection ∧
        e = .failed (.atLine .noSection number what) := by
  unfold line SourceLine.needs?
  rcases l.label? with _ | name
  · exact fails_statement_lacking_iff
  · have hlabel : ((∃ q, Fails (label number name) p e q) ∧ e.LacksSection) ↔
        p.sectionName = undefinedSection ∧ e = .failed (.atLine .noSection number name) := by
      refine fails_needSection_then_iff (undemanding_get.then fun p => ?_)
      exact (undemanding_declare (.labelled name p.sectionName p.counter)).then fun _ =>
        undemanding_modify
    constructor
    · rintro ⟨⟨q, hq⟩, he⟩
      obtain hq | ⟨_, r, hr, hq⟩ := fails_bind.mp hq
      · exact ⟨name, rfl, hlabel.mp ⟨⟨q, hq⟩, he⟩⟩
      · -- The label has a section, and so has what stands behind it.
        obtain ⟨hs, hdeclares, -⟩ := runs_label hr
        obtain ⟨_, -, hs', -⟩ := fails_statement_lacking_iff.mp ⟨⟨q, hq⟩, he⟩
        rw [hdeclares.frame] at hs'
        exact absurd hs' hs
    · rintro ⟨what, hwhat, h⟩
      cases hwhat
      obtain ⟨⟨q, hq⟩, he⟩ := hlabel.mpr h
      exact ⟨⟨q, fails_bind.mpr (.inl hq)⟩, he⟩

/-! ## The section that is open -/

theorem sectionName_line {l : SourceLine} (h : Runs (line number l) p () q) :
    q.sectionName = l.statement.opens?.getD p.sectionName := by
  obtain ⟨r, hdeclares, hcompletes, -⟩ := runs_line h
  cases hcompletes with
  | opens hopens _ _ hq => rw [hq, hopens, Option.getD_some]
  | advances hopens _ hq => rw [hq, hopens, hdeclares.frame, Option.getD_none]

/-- Pass one comes to a line in the section that was opened last. -/
theorem sectionName_stateAt {source : List Bytes} {k : Nat}
    (h : Pass.stateAt line number p source k = some q) :
    q.sectionName = (SourceLine.sectionsOpened (source.take k)).getLast?.getD p.sectionName := by
  induction source generalizing number p k with
  | nil =>
    cases k with
    | zero =>
      cases h
      rfl
    | succ k => cases h
  | cons raw rest ih =>
    cases k with
    | zero =>
      cases h
      rfl
    | succ k =>
      obtain ⟨l, r, hl, hr, -, h⟩ := Pass.stateAt_succ_eq_some_iff.mp h
      rw [ih h, sectionName_line hr, List.take_succ_cons]
      unfold SourceLine.sectionsOpened
      rw [List.filterMap_cons, SourceLine.ofRaw_eq hl]
      rcases l.statement.opens? with _ | n
      · rfl
      · rw [List.getLast?_cons, Option.getD_some, Option.getD_some]

theorem fails_run_iff {source : List Bytes} :
    Fails (run source) p e q ↔ Fails (Pass.eachLine line 1 source) p e q := by
  simp [run, closeSection]

end FirstPass

/-- Pass one complains that there is no section if and only if it comes to a line that needs one, and
no section was opened before, or the last one has the name that stands for none. -/
theorem lacks_section_iff_last_is_undefined (name : Bytes) (source : List Bytes) (e : Abort) :
    ((∃ q, Fails (FirstPass.run source) { object := { name } } e q) ∧ e.LacksSection) ↔
      ∃ k p raw l what, Pass.stateAt FirstPass.line 1 { object := { name } } source k = some p ∧
        source[k]? = some raw ∧ SourceLine.read (k + 1) raw = .ok l ∧ l.needs? = some what ∧
        (∀ n, (SourceLine.sectionsOpened (source.take k)).getLast? = some n →
          n = undefinedSection) ∧
        e = .failed (.atLine .noSection (k + 1 : Nat) what) := by
  have hlast {k : Nat} {p : Progress}
      (hp : Pass.stateAt FirstPass.line 1 { object := { name } } source k = some p) :
      p.sectionName = undefinedSection ↔
        ∀ n, (SourceLine.sectionsOpened (source.take k)).getLast? = some n → n = undefinedSection := by
    rw [FirstPass.sectionName_stateAt hp]
    rcases (SourceLine.sectionsOpened (source.take k)).getLast? with _ | n <;> simp
  simp only [FirstPass.fails_run_iff]
  constructor
  · rintro ⟨⟨q, hq⟩, he⟩
    obtain ⟨k, raw, p, hraw, hp, ⟨err, hread, rfl, -⟩ | ⟨l, hl, hq⟩⟩ := Pass.fails_eachLine hq
    · exact absurd he (SourceLine.not_lacksSection_of_read hread)
    · obtain ⟨what, hneeds, hs, he⟩ := FirstPass.fails_line_lacking_iff.mp ⟨⟨q, hq⟩, he⟩
      rw [Nat.add_comm 1 k] at hl he
      exact ⟨k, p, raw, l, what, hp, hraw, hl, hneeds, (hlast hp).mp hs, he⟩
  · rintro ⟨k, p, raw, l, what, hp, hraw, hl, hneeds, hs, rfl⟩
    rw [Nat.add_comm k 1] at hl ⊢
    obtain ⟨⟨q, hq⟩, he⟩ := FirstPass.fails_line_lacking_iff.mpr
      ⟨what, hneeds, (hlast hp).mpr hs, rfl⟩
    exact ⟨⟨q, Pass.fails_eachLine_of_stateAt hp hraw hl hq⟩, he⟩

/-- A section of that name is opened, and yet the next line is told that it has none. -/
theorem section_named_undefined_is_none :
    (∃ q, Runs (FirstPass.run ([".section UND"].map text)) { object := { name := text "a.o" } } () q ∧
      q.object.sectionNames = [undefinedSection]) ∧
    ∃ q, Fails (FirstPass.run ([".section UND", "halt"].map text)) { object := { name := text "a.o" } }
      (.failed (.atLine .noSection 2 (text "halt"))) q := by
  refine ⟨⟨(outcome (FirstPass.run ([".section UND"].map text))
    { object := { name := text "a.o" } }).2, ?_⟩,
    (outcome (FirstPass.run ([".section UND", "halt"].map text))
      { object := { name := text "a.o" } }).2, ?_⟩
  · decide +kernel
  · decide +kernel

end AsmKit
