import AsmKit.Proofs.Declarations
import AsmKit.Proofs.Emission
import AsmKit.Proofs.SourceLines

/-
  Pass one, line by line. `runs_line` says all that a line that succeeds can do: it declares
  symbols where it stands (`Declares`) and then opens a section or takes its bytes (`Completes`).
  Where names are gone through one by one, a line may fail half-way; what is kept then is said once,
  for any relation between states (`Steady`).
-/

namespace AsmKit

namespace Pass

variable {p q : Progress}

theorem runs_check {α : Type} {line : Nat} {x : Except Error.Complaint α} {a : α} :
    Runs (check line x) p a q ↔ x = .ok a ∧ q = p := by
  rcases x with c | b
  · simp [check, complain]
  · simp [check, eq_comm]

theorem runs_record {e : Event} {u : Unit} :
    Runs (record e) p u q ↔ q = { p with log := p.log ++ [e] } := by
  simp [record]

theorem fails_check_iff {α : Type} {line : Nat} {x : Except Error.Complaint α} {e : Abort} :
    Fails (check line x) p e q ↔ ∃ c, x = .error c ∧ e = .failed (c.onLine line) ∧ q = p := by
  rcases x with c | a
  · simp [check, complain]
  · simp [check]

theorem fails_check {α : Type} {line : Nat} {x : Except Error.Complaint α} {e : Abort}
    (h : Fails (check line x) p e q) : q = p := by
  obtain ⟨_, -, -, hq⟩ := fails_check_iff.mp h
  exact hq

theorem fails_record {event : Event} {e : Abort} : ¬ Fails (record event) p e q := fails_modify

end Pass

namespace FirstPass

variable {p q r : Progress}

theorem runs_changeSymbols {line : Nat} {name : Bytes}
    {change : SymbolTable → Except Error.Kind SymbolTable} {u : Unit} :
    Runs (changeSymbols line name change) p u q ↔
      ∃ t, change p.object.symbols = .ok t ∧
        q = { p with object := { p.object with symbols := t } } := by
  unfold changeSymbols
  simp only [runs_bind, runs_get]
  rcases h : change p.object.symbols with k | t
  · constructor
    · rintro ⟨_, _, ⟨rfl, rfl⟩, hq⟩
      rw [h] at hq
      exact absurd hq runs_throw
    · rintro ⟨t, ht, -⟩
      cases ht
  · constructor
    · rintro ⟨_, _, ⟨rfl, rfl⟩, hq⟩
      rw [h] at hq
      exact ⟨t, rfl, runs_set.mp hq⟩
    · rintro ⟨t', ht, rfl⟩
      cases ht
      refine ⟨p, p, ⟨rfl, rfl⟩, ?_⟩
      rw [h]
      exact runs_set.mpr rfl

theorem runs_needSection {line : Nat} {name : Bytes} {u : Unit} :
    Runs (needSection line name) p u q ↔ p.sectionName ≠ undefinedSection ∧ q = p := by
  unfold needSection
  simp only [runs_bind, runs_get]
  constructor
  · rintro ⟨_, _, ⟨rfl, rfl⟩, h⟩
    split at h
    · exact absurd h runs_throw
    · next hs => exact ⟨hs, (runs_pure.mp h).2⟩
  · rintro ⟨hs, rfl⟩
    refine ⟨q, q, ⟨rfl, rfl⟩, ?_⟩
    rw [if_neg hs]
    exact runs_pure.mpr ⟨rfl, rfl⟩

theorem fails_changeSymbols_iff {line : Nat} {name : Bytes}
    {change : SymbolTable → Except Error.Kind SymbolTable} {e : Abort} :
    Fails (changeSymbols line name change) p e q ↔
      ∃ kind, change p.object.symbols = .error kind ∧ e = .failed (.atLine kind line name) ∧
        q = p := by
  simp only [changeSymbols, fails_bind, fails_get, runs_get, false_or]
  constructor
  · rintro ⟨_, _, ⟨rfl, rfl⟩, h⟩
    split at h
    · next kind hkind => exact ⟨kind, hkind, fails_throw.mp h⟩
    · exact absurd h fails_set
  · rintro ⟨kind, hkind, h⟩
    refine ⟨p, p, ⟨rfl, rfl⟩, ?_⟩
    rw [hkind]
    exact fails_throw.mpr h

theorem fails_changeSymbols {line : Nat} {name : Bytes}
    {change : SymbolTable → Except Error.Kind SymbolTable} {e : Abort}
    (h : Fails (changeSymbols line name change) p e q) : q = p := by
  obtain ⟨_, -, -, hq⟩ := fails_changeSymbols_iff.mp h
  exact hq

theorem fails_needSection_iff {line : Nat} {name : Bytes} {e : Abort} :
    Fails (needSection line name) p e q ↔ p.sectionName = undefinedSection ∧
      e = .failed (.atLine .noSection line name) ∧ q = p := by
  simp only [needSection, fails_bind, fails_get, runs_get, false_or]
  constructor
  · rintro ⟨_, _, ⟨rfl, rfl⟩, h⟩
    split at h
    · next hs => exact ⟨hs, fails_throw.mp h⟩
    · exact absurd h fails_pure
  · rintro ⟨hs, h⟩
    refine ⟨p, p, ⟨rfl, rfl⟩, ?_⟩
    rw [if_pos hs]
    exact fails_throw.mpr h

theorem fails_needSection {line : Nat} {name : Bytes} {e : Abort}
    (h : Fails (needSection line name) p e q) : q = p := (fails_needSection_iff.mp h).2.2

/-! ## Changes of symbols, whatever comes of them -/

/-- A relation between states that recording keeps to. -/
structure Steady (R : Progress → Progress → Prop) : Prop where
  record : ∀ p log, R p { p with log }
  trans : ∀ p q r, R p q → R q r → R p r

variable {R : Progress → Progress → Prop}

theorem Steady.refl (hR : Steady R) (p : Progress) : R p p := hR.record p p.log

theorem Steady.observes_check {α β : Type} {line : Nat} (hR : Steady R)
    {x : Except Error.Complaint α} {f : α → Pass β}
    (hf : ∀ a, x = .ok a → Observes R (fun _ => True) (f a)) :
    Observes R (fun _ => True) (Pass.check line x >>= f) := by
  refine ⟨fun p b q h => ?_, fun p e q h => ⟨?_, trivial⟩⟩
  · obtain ⟨a, p, hcheck, hnext⟩ := runs_bind.mp h
    obtain ⟨hx, rfl⟩ := Pass.runs_check.mp hcheck
    exact (hf a hx).runs p b q hnext
  · obtain hcheck | ⟨a, p, hcheck, hnext⟩ := fails_bind.mp h
    · rw [Pass.fails_check hcheck]
      exact hR.refl p
    · obtain ⟨hx, rfl⟩ := Pass.runs_check.mp hcheck
      exact ((hf a hx).fails p e q hnext).1

theorem Steady.observes_changeSymbols {line : Nat} {name : Bytes}
    {change : SymbolTable → Except Error.Kind SymbolTable} (hR : Steady R)
    (hchange : ∀ (p : Progress) t, change p.object.symbols = .ok t →
      R p { p with object := { p.object with symbols := t } }) :
    Observes R (fun _ => True) (changeSymbols line name change) := by
  refine ⟨fun p _ q h => ?_, fun p e q h => ⟨?_, trivial⟩⟩
  · obtain ⟨t, ht, rfl⟩ := runs_changeSymbols.mp h
    exact hchange p t ht
  · rw [fails_changeSymbols h]
    exact hR.refl p

theorem Steady.observes_record (hR : Steady R) (event : Event) :
    Observes R (fun _ => True) (Pass.record event) :=
  observes_modify fun p => hR.record p _

theorem Steady.observes_label {line : Nat} {name : Bytes} (hR : Steady R)
    (hchange : ∀ (p : Progress) sectionName address t,
      p.object.symbols.defineLabel name sectionName address = .ok t →
      R p { p with object := { p.object with symbols := t } }) :
    Observes R (fun _ => True) (label line name) := by
  refine .bind hR.trans ⟨fun p _ q h => ?_, fun p e q h => ⟨?_, trivial⟩⟩ fun _ => ?_
  · rw [(runs_needSection.mp h).2]
    exact hR.refl p
  · rw [fails_needSection h]
    exact hR.refl p
  · refine (observes_get hR.refl).bind hR.trans fun p₀ => ?_
    refine (hR.observes_changeSymbols fun p t => ?_).bind hR.trans fun _ => hR.observes_record _
    exact hchange p p₀.sectionName p₀.counter t

/-- A directive that goes through a list of names and changes the symbols for each. It may fail on
any of them, with the changes for those before it made. -/
theorem Steady.observes_names {line : Nat} {arguments : List Token} (hR : Steady R) {head : Bytes}
    {change : Bytes → SymbolTable → Except Error.Kind SymbolTable}
    {event : Bytes → Nat → Bytes → Event}
    (hchange : ∀ t ∈ arguments, t.kind = .symbol → ∀ (p : Progress) symbols,
      change t.word p.object.symbols = .ok symbols →
      R p { p with object := { p.object with symbols } }) :
    Observes R (fun _ => True) (names line head change event arguments) := by
  refine hR.observes_check fun names hnames => observes_forM hR.refl hR.trans fun t ht => ?_
  obtain ⟨hmem, hkind⟩ := Token.of_mem_listOf hnames ht
  refine (hR.observes_changeSymbols (hchange t hmem (of_decide_eq_true hkind))).bind hR.trans ?_
  exact fun _ => (observes_get hR.refl).bind hR.trans fun _ => hR.observes_record _

/-- The items of a list of words: symbols are mentioned, and numbers only read. -/
theorem Steady.observes_items {line : Nat} (hR : Steady R) {items : List Token}
    (hmention : ∀ t ∈ items, t.kind = .symbol → ∀ p : Progress,
      R p { p with object := { p.object with symbols := p.object.symbols.mention t.word } }) :
    Observes R (fun _ => True) (items.forM (item line)) := by
  refine observes_forM hR.refl hR.trans fun t ht => ?_
  unfold item
  split
  · next hkind => exact observes_modify (hmention t ht hkind)
  · exact hR.observes_check fun _ _ => observes_pure hR.refl ()

/-! ## What a line does -/

/-- Symbols are declared at the place the pass is at, and nothing else changes but the log. -/
structure Declares (p q : Progress) : Prop where
  frame : q = { p with object := { p.object with symbols := q.object.symbols }, log := q.log }
  symbols : p.object.symbols.DeclaresAll p.sectionName p.counter q.object.symbols

theorem Declares.refl (p : Progress) : Declares p p := ⟨rfl, .refl⟩

theorem Declares.trans (h : Declares p q) (h' : Declares q r) : Declares p r := by
  obtain ⟨hf, hs⟩ := h
  obtain ⟨hf', hs'⟩ := h'
  have hsection : q.sectionName = p.sectionName := by rw [hf]
  have hcounter : q.counter = p.counter := by rw [hf]
  rw [hsection, hcounter] at hs'
  refine ⟨?_, hs.trans hs'⟩
  rw [hf', hf]

theorem Declares.record (p : Progress) (log : List Event) : Declares p { p with log } :=
  ⟨rfl, .refl⟩

theorem Declares.single {t : SymbolTable}
    (h : SymbolTable.Declares p.sectionName p.counter p.object.symbols t) :
    Declares p { p with object := { p.object with symbols := t } } :=
  ⟨rfl, .single h⟩

/-- What a statement does once its symbols are declared. -/
inductive Completes (st : Statement) (p q : Progress) : Prop where
  | opens {name : Bytes} {t : SymbolTable} (hopens : st.opens? = some name)
      (ht : p.object.symbols.defineSection name = .ok t) (hnew : name ∉ p.object.sectionNames)
      (hq : q = { p with
        object := { p.object with
          symbols := t.closeSection p.sectionName p.counter
          sections := p.object.sections ++ [{ name }] }
        sectionName := name
        counter := 0
        log := q.log })
  | advances (hopens : st.opens? = none)
      (hsize : st.size ≠ 0 → p.sectionName ≠ undefinedSection)
      (hq : q = { p with counter := p.counter + UInt32.ofNat st.size, log := q.log })

theorem completes_nothing {st : Statement} (hopens : st.opens? = none) (hsize : st.size = 0) :
    Completes st p p := by
  refine .advances hopens (fun h => absurd hsize h) ?_
  rw [hsize]
  simp

theorem steady_declares : Steady Declares := ⟨Declares.record, fun _ _ _ => .trans⟩

theorem observes_globals (line : Nat) (arguments : List Token) :
    Observes Declares (fun _ => True) (globals line arguments) :=
  steady_declares.observes_names fun _ _ _ _ _ h => .single (SymbolTable.declares_global h)

theorem observes_externs (line : Nat) (arguments : List Token) :
    Observes Declares (fun _ => True) (externs line arguments) :=
  steady_declares.observes_names fun _ _ _ _ _ h => .single (SymbolTable.declares_extern h)

/-- A state in a new section, behind the one it was in. -/
def opening (p : Progress) (name : Bytes) (symbols : SymbolTable) : Progress :=
  { p with
    object := { p.object with
      symbols := symbols.closeSection p.sectionName p.counter
      sections := p.object.sections ++ [{ name }] }
    sectionName := name
    counter := 0 }

theorem runs_openSection_iff {line : Nat} {arguments : List Token} {u : Unit} :
    Runs (openSection line arguments) p u q ↔
      ∃ name t, newSection arguments = .ok name ∧ p.object.symbols.defineSection name = .ok t ∧
        name ∉ p.object.sectionNames ∧
        q = { opening p name t with log := p.log ++ [.sectionOpened p.object.name line name] } := by
  simp only [openSection, closeSection, runs_bind, runs_changeSymbols, runs_modify, runs_get,
    Pass.runs_check]
  constructor
  · rintro ⟨name, _, ⟨hname, rfl⟩, _, _, ⟨t, ht, rfl⟩, _, _, rfl, _, _, ⟨rfl, rfl⟩, hadd⟩
    refine ⟨name, t, hname, ht, ?_⟩
    split at hadd
    · obtain ⟨_, _, hthrow, -⟩ := runs_bind.mp hadd
      exact absurd hthrow runs_throw
    · next obj hobj =>
      obtain ⟨hnew, rfl⟩ := Object.addSection_eq_ok_iff.mp hobj
      simp only [runs_bind, runs_set, Pass.runs_record] at hadd
      obtain ⟨_, _, rfl, rfl⟩ := hadd
      exact ⟨hnew, rfl⟩
  · rintro ⟨name, t, hname, ht, hnew, rfl⟩
    refine ⟨name, p, ⟨hname, rfl⟩, (), _, ⟨t, ht, rfl⟩, (), _, rfl, _, _, ⟨rfl, rfl⟩, ?_⟩
    split
    · next hadd =>
      have hok := hadd.symm.trans (Object.addSection_eq_ok_iff.mpr ⟨hnew, rfl⟩)
      cases hok
    · next obj hobj =>
      obtain ⟨-, rfl⟩ := Object.addSection_eq_ok_iff.mp hobj
      simp only [runs_bind, runs_set, Pass.runs_record]
      exact ⟨(), _, rfl, rfl⟩

theorem opens_of_newSection {arguments : List Token} {name : Bytes}
    (h : newSection arguments = .ok name) :
    (Statement.directive .openSection arguments).opens? = some name := by
  unfold newSection at h
  split at h
  · cases h
    rfl
  · cases h

theorem runs_openSection {line : Nat} {arguments : List Token}
    (h : Runs (openSection line arguments) p () q) :
    Completes (.directive .openSection arguments) p q := by
  obtain ⟨name, t, hname, ht, hnew, rfl⟩ := runs_openSection_iff.mp h
  exact .opens (opens_of_newSection hname) ht hnew rfl

theorem runs_words {line : Nat} {arguments : List Token}
    (h : Runs (words line arguments) p () q) :
    ∃ r, Declares p r ∧ Completes (.directive .words arguments) r q := by
  simp only [words, advance, runs_bind, runs_needSection, Pass.runs_check, runs_modify] at h
  obtain ⟨_, _, ⟨hs, rfl⟩, items, p, ⟨hitems, rfl⟩, _, r, hloop, rfl⟩ := h
  have hdecl : Declares p r := by
    refine (steady_declares.observes_items fun t _ _ p => ?_).runs p () r hloop
    exact .single (SymbolTable.declares_mention _ t.word)
  refine ⟨r, hdecl, .advances rfl (fun _ => ?_) ?_⟩
  · rw [hdecl.frame]
    exact hs
  · have e : items = Token.listed arguments := Token.listOf_eq_ok rfl hitems
    have hsize : (Statement.directive .words arguments).size = 4 * items.length := by
      rw [e]
      rfl
    rw [hsize, UInt32.ofNat_mul]
    rfl

theorem runs_skip {line : Nat} {arguments : List Token} (h : Runs (skip line arguments) p () q) :
    Completes (.directive .skip arguments) p q := by
  simp only [skip, advance, runs_bind, runs_needSection, Pass.runs_check, runs_modify] at h
  obtain ⟨_, _, ⟨hs, rfl⟩, n, _, ⟨hn, rfl⟩, rfl⟩ := h
  have hsize : (Statement.directive .skip arguments).size = n.toNat := by
    simp [Statement.size, hn]
  refine .advances rfl (fun _ => hs) ?_
  rw [hsize, UInt32.ofNat_toNat]

theorem runs_instruction {line : Nat} {name : Bytes} {arguments : List Token}
    (h : Runs (instruction line name) p () q) : Completes (.instruction name arguments) p q := by
  unfold instruction at h
  rcases hi : Instruction.find? name with _ | i
  · rw [hi] at h
    exact absurd h runs_throw
  · rw [hi] at h
    simp only [advance, runs_bind, runs_needSection, runs_modify] at h
    obtain ⟨_, _, ⟨hs, rfl⟩, rfl⟩ := h
    have hsize : (Statement.instruction name arguments).size = i.size.toNat := by
      simp [Statement.size, hi]
    refine .advances rfl (fun _ => hs) ?_
    rw [hsize, UInt32.ofNat_toNat]

theorem runs_statement {line : Nat} {st : Statement} (h : Runs (statement line st) p () q) :
    ∃ r, Declares p r ∧ Completes st r q := by
  match st with
  | .nothing | .stop =>
    obtain ⟨-, rfl⟩ := runs_pure.mp h
    exact ⟨q, .refl q, completes_nothing rfl rfl⟩
  | .directive .globals arguments =>
    exact ⟨q, (observes_globals line arguments).runs p () q h, completes_nothing rfl rfl⟩
  | .directive .externs arguments =>
    exact ⟨q, (observes_externs line arguments).runs p () q h, completes_nothing rfl rfl⟩
  | .directive .openSection arguments => exact ⟨p, .refl p, runs_openSection h⟩
  | .directive .words arguments => exact runs_words h
  | .directive .skip arguments => exact ⟨p, .refl p, runs_skip h⟩
  | .instruction name arguments => exact ⟨p, .refl p, runs_instruction h⟩
  | .stray word => exact absurd h runs_throw

/-- The symbol of a label has its place in the section that is being measured. -/
def Placed (p : Progress) (name : Bytes) : Prop :=
  ∃ s, p.object.symbols.get? name = some s ∧ s.isDefined = true ∧
    s.sectionName = p.sectionName ∧ s.value = p.counter

theorem runs_label {line : Nat} {name : Bytes} (h : Runs (label line name) p () q) :
    p.sectionName ≠ undefinedSection ∧ Declares p q ∧ Placed q name := by
  simp only [label, runs_bind, runs_needSection, runs_get, runs_changeSymbols,
    Pass.runs_record] at h
  obtain ⟨_, _, ⟨hs, rfl⟩, _, _, ⟨rfl, rfl⟩, _, _, ⟨t, ht, rfl⟩, rfl⟩ := h
  refine ⟨hs, (Declares.single (SymbolTable.declares_label hs ht)).trans (.record _ _), ?_⟩
  exact SymbolTable.get?_defineLabel ht

theorem Placed.declares {name : Bytes} (h : Placed p name) (hd : Declares p q) : Placed q name := by
  obtain ⟨s, hs, hdef, hsection, hvalue⟩ := h
  obtain ⟨s', hs', hk⟩ := hd.symbols.keeps name s hs
  obtain ⟨hdef', hsection', hvalue'⟩ := hk.definition hdef
  refine ⟨s', hs', hdef', ?_, ?_⟩
  · rw [hd.frame, hsection', hsection]
  · rw [hd.frame, hvalue', hvalue]

/-- What a line that succeeds does. -/
theorem runs_line {number : Nat} {l : SourceLine} (h : Runs (line number l) p () q) :
    ∃ r, Declares p r ∧ Completes l.statement r q ∧
      ∀ name, l.label? = some name → p.sectionName ≠ undefinedSection ∧ Placed r name := by
  unfold line at h
  rcases hl : l.label? with _ | name
  · rw [hl] at h
    obtain ⟨r, hr, hq⟩ := runs_statement h
    exact ⟨r, hr, hq, fun _ hname => nomatch hname⟩
  · rw [hl] at h
    obtain ⟨_, r₀, hlabel, hst⟩ := runs_bind.mp h
    obtain ⟨hs, hdecl, hplaced⟩ := runs_label hlabel
    obtain ⟨r, hr, hq⟩ := runs_statement hst
    refine ⟨r, hdecl.trans hr, hq, ?_⟩
    rintro _ ⟨⟩
    exact ⟨hs, hplaced.declares hr⟩

end FirstPass

end AsmKit
