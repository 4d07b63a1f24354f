import AsmKit.Proofs.DeclaredSymbols
import AsmKit.Proofs.Safety
import AsmKit.Proofs.SymbolInvariant

/-
  What the operands of a source may refer to. Pass two has one symbol table from its first line to
  its last, or to where it fails (`SecondPass.Visits.symbols`). Pass one has told that table of every
  line of the source (`FirstPass.exists_tells_run`), so a name is found in it if and only if a line
  declares it, be it before the reference or behind it. A `.word` that refers to a name puts it into
  the table, which does not have it found.
-/

namespace AsmKit

/-! ## Declaring and mentioning -/

namespace Statement

/-- The statement is a section of this name, or shares the name with other files. -/
def Declares (n : Bytes) : Statement → Prop
  | .directive .openSection arguments => arguments.head?.map Token.word = some n
  | .directive .globals arguments | .directive .externs arguments =>
    ∃ t ∈ Token.listed arguments, t.word = n
  | _ => False

/-- The statement is a list of words with this name among them. -/
def Mentions (n : Bytes) : Statement → Prop
  | .directive .words arguments => ∃ t ∈ Token.listed arguments, t.kind = .symbol ∧ t.word = n
  | _ => False

instance (n : Bytes) : (st : Statement) → Decidable (st.Declares n)
  | .directive .openSection arguments =>
    inferInstanceAs (Decidable (arguments.head?.map Token.word = some n))
  | .directive .globals arguments | .directive .externs arguments =>
    inferInstanceAs (Decidable (∃ t ∈ Token.listed arguments, t.word = n))
  | .directive .words _ | .directive .skip _ | .nothing | .instruction _ _ | .stray _ | .stop =>
    inferInstanceAs (Decidable False)

instance (n : Bytes) : (st : Statement) → Decidable (st.Mentions n)
  | .directive .words arguments =>
    inferInstanceAs (Decidable (∃ t ∈ Token.listed arguments, t.kind = .symbol ∧ t.word = n))
  | .directive .openSection _ | .directive .globals _ | .directive .externs _ | .directive .skip _
  | .nothing | .instruction _ _ | .stray _ | .stop => inferInstanceAs (Decidable False)

end Statement

/-- The line has this label, or its statement declares the name. -/
def SourceLine.Declares (n : Bytes) (l : SourceLine) : Prop :=
  l.label? = some n ∨ l.statement.Declares n

instance (n : Bytes) (l : SourceLine) : Decidable (l.Declares n) :=
  inferInstanceAs (Decidable (_ ∨ _))

namespace Declaration

/-- All but a mention of the name. -/
def Grants (n : Bytes) (d : Declaration) : Prop := d.name = n ∧ d ≠ .mentioned n

theorem grants_iff {n : Bytes} {d : Declaration} :
    d.Grants n ↔ d = .exported n ∨ d = .imported n ∨ d.name = n ∧ d.place?.isSome = true := by
  unfold Grants
  cases d <;> simp [name, place?]

end Declaration

namespace Statement

variable {n : Bytes}

theorem declares_iff (st : Statement) : st.Declares n ↔ ∃ d ∈ st.declarations, d.Grants n := by
  match st with
  | .nothing | .stop | .instruction _ _ | .stray _ | .directive .skip _ =>
    simp [Declares, declarations]
  | .directive .openSection [] => simp [Declares, declarations]
  | .directive .openSection (t :: _) =>
    simp [Declares, declarations, Declaration.Grants, Declaration.name]
  | .directive .globals _ | .directive .externs _ =>
    simp [Declares, declarations, Declaration.Grants, Declaration.name]
  | .directive .words arguments =>
    simp only [Declares, declarations, List.mem_flatMap, false_iff, not_exists, not_and]
    intro d ⟨t, _, hd⟩ ⟨hname, hne⟩
    split at hd
    · obtain rfl := List.mem_singleton.mp hd
      exact hne (congrArg _ hname)
    · cases hd

theorem mentions_iff (st : Statement) : st.Mentions n ↔ .mentioned n ∈ st.declarations := by
  match st with
  | .nothing | .stop | .instruction _ _ | .stray _ | .directive .skip _ =>
    simp [Mentions, declarations]
  | .directive .openSection [] => simp [Mentions, declarations]
  | .directive .openSection (t :: _) => simp [Mentions, declarations]
  | .directive .globals _ | .directive .externs _ => simp [Mentions, declarations]
  | .directive .words arguments =>
    simp only [Mentions, declarations, List.mem_flatMap]
    refine exists_congr fun t => and_congr_right fun _ => ?_
    split
    · next hkind => simp [hkind, eq_comm]
    · next hkind => simp [hkind]

end Statement

/-! ## What pass one leaves -/

namespace SymbolTable

variable {t : SymbolTable} {ds : List Declaration} {n : Bytes}

/-- What is declared is found. -/
theorem Reflects.lookup_iff (h : t.Reflects ds) :
    (∃ s, t.lookup n = .ok s) ↔ ∃ d ∈ ds, d.Grants n := by
  simp only [lookup_eq_ok_iff, Declaration.grants_iff]
  constructor
  · intro ⟨s, hs, hdeclared⟩
    have hr := h.symbols n s hs
    obtain rfl := name_of_get? hs
    rw [hr.defined, hr.imported, hr.exported] at hdeclared
    obtain ⟨d, hd, hplace⟩ | hd | hd := hdeclared
    · exact ⟨d, hd, .inr (.inr hplace)⟩
    · exact ⟨_, hd, .inr (.inl rfl)⟩
    · exact ⟨_, hd, .inl rfl⟩
  · intro ⟨d, hd, hgrants⟩
    have hname : d.name = n := (Declaration.grants_iff.mpr hgrants).1
    obtain ⟨s, hs⟩ := Option.isSome_iff_exists.mp ((h.known n).mpr ⟨d, hd, hname⟩)
    have hr := h.symbols n s hs
    obtain rfl := name_of_get? hs
    refine ⟨s, hs, ?_⟩
    rw [hr.defined, hr.imported, hr.exported]
    obtain rfl | rfl | hplace := hgrants
    · exact .inr (.inr hd)
    · exact .inr (.inl hd)
    · exact .inl ⟨d, hd, hplace⟩

theorem lookup_of_not_exists (h : ¬ ∃ s, t.lookup n = .ok s) :
    t.lookup n = .error ⟨.undefinedSymbol, n⟩ := by
  unfold lookup at h ⊢
  split
  · split
    · next s hs hdeclared => exact absurd ⟨s, by rw [hs]; exact if_pos hdeclared⟩ h
    · rfl
  · rfl

end SymbolTable

namespace FirstPass

variable {p q : Progress} {ds : List Declaration}

/-- The declarations are made by the lines. -/
structure Tells (ls : List SourceLine) (ds : List Declaration) : Prop where
  declared : ∀ n, (∃ d ∈ ds, d.Grants n) ↔ ∃ l ∈ ls, l.Declares n
  mentioned : ∀ n, .mentioned n ∈ ds ↔ ∃ l ∈ ls, l.statement.Mentions n

theorem Tells.append {ls ls' : List SourceLine} {ds ds' : List Declaration} (h : Tells ls ds)
    (h' : Tells ls' ds') : Tells (ls ++ ls') (ds ++ ds') := by
  constructor
  · intro n
    simp only [List.mem_append, or_and_right, exists_or, h.declared, h'.declared]
  · intro n
    simp only [List.mem_append, or_and_right, exists_or, h.mentioned, h'.mentioned]

theorem tells_line (l : SourceLine) (sectionName : Bytes) (address : UInt32) :
    Tells [l] ((l.label?.map fun name => .labelled name sectionName address).toList ++
      l.statement.declarations) := by
  constructor
  · intro n
    have hlabel : (∃ d ∈ (l.label?.map fun name => Declaration.labelled name sectionName address).toList,
        d.Grants n) ↔ l.label? = some n := by
      rcases l.label? with _ | name
      · simp
      · simp [Declaration.Grants, Declaration.name]
    simp only [List.mem_append, or_and_right, exists_or, hlabel, ← l.statement.declares_iff,
      List.mem_singleton, exists_eq_left, SourceLine.Declares]
  · intro n
    have hlabel : .mentioned n ∉
        (l.label?.map fun name => Declaration.labelled name sectionName address).toList := by
      rcases l.label? with _ | name
      · simp
      · simp
    simp only [List.mem_append, hlabel, false_or, ← l.statement.mentions_iff, List.mem_singleton,
      exists_eq_left]

/-- After some lines, the table reflects what they tell. -/
theorem exists_tells_steps {number : Nat} {ls : List SourceLine}
    (h : Runs (Pass.steps line number ls) p () q) (hp : p.object.symbols.Reflects ds) :
    ∃ more, Tells ls more ∧ q.object.symbols.Reflects (ds ++ more) := by
  induction ls generalizing p number ds with
  | nil =>
    obtain ⟨-, rfl⟩ := runs_pure.mp h
    exact ⟨[], ⟨by simp, by simp⟩, (List.append_nil ds).symm ▸ hp⟩
  | cons l ls ih =>
    obtain ⟨_, r, hr, hq⟩ := runs_bind.mp h
    obtain ⟨more, htells, hreflects⟩ := ih hq (reflects_numbered hr hp)
    refine ⟨_, (tells_line l p.sectionName p.counter).append htells, ?_⟩
    rw [← List.append_assoc]
    exact hreflects

theorem exists_tells_run {source : List Bytes} {name : Bytes}
    (h : Runs (run source) { object := { name } } () q) :
    ∃ ls ds, SourceLine.readAll 1 source = .ok ls ∧ Tells ls ds ∧ q.object.symbols.Reflects ds := by
  simp only [run, closeSection, runs_bind, runs_modify] at h
  obtain ⟨_, r', hlines, rfl⟩ := h
  obtain ⟨ls, r, hls, hr, hr'⟩ := Pass.runs_eachLine hlines
  obtain ⟨ds, htells, hreflects⟩ := exists_tells_steps hr SymbolTable.reflects_empty
  refine ⟨ls, ds, hls, htells, ?_⟩
  rw [hr']
  exact SymbolTable.Reflects.closeSection hreflects _ _

end FirstPass

/-! ## What pass two keeps -/

namespace SecondPass

variable {p q : Progress} {e : Abort} {number : Nat}

theorem Writes.symbols {st : Statement} (h : Writes st p q) : q.object.symbols = p.object.symbols := by
  cases h with
  | opens _ _ hq => rw [hq]
  | emits _ _ _ hq =>
    rw [hq]
    rfl
  | silent _ _ _ hq => rw [hq]

theorem symbols_of_fails_emit {emission : Emission} (h : Fails (emit number emission) p e q) :
    q.object.symbols = p.object.symbols := by
  unfold emit at h
  simp only [fails_bind, fails_get, runs_get, false_or] at h
  obtain ⟨_, _, ⟨rfl, rfl⟩, h⟩ := h
  split at h
  · simp only [fails_bind, fails_set, runs_set, false_or] at h
    obtain ⟨_, _, rfl, h⟩ := h
    split at h
    · rw [(fails_throw.mp h).2]
      rfl
    · exact absurd h fails_pure
  · split at h
    · simp only [fails_bind, fails_throw, runs_throw, false_and, exists_false, or_false] at h
      rw [h.2]
    · split at h
      · rw [(fails_throw.mp h).2]
      · exact absurd h fails_pure

theorem symbols_of_fails_openSection {arguments : List Token}
    (h : Fails (openSection number arguments) p e q) : q.object.symbols = p.object.symbols := by
  rcases arguments with _ | ⟨t, rest⟩
  · rw [(fails_throw.mp h).2]
  · simp only [openSection, fails_bind, fails_get, fails_set, runs_get, runs_set, false_or] at h
    obtain ⟨_, _, ⟨rfl, rfl⟩, _, _, rfl, h⟩ := h
    split at h
    · rw [(fails_throw.mp h).2]
    · exact absurd h fails_pure

theorem symbols_of_fails_instruction {name : Bytes} {arguments : List Token}
    (h : Fails (instruction number name arguments) p e q) : q.object.symbols = p.object.symbols := by
  unfold instruction at h
  split at h
  · rw [(fails_throw.mp h).2]
  · simp only [fails_bind, fails_get, runs_get, false_or] at h
    obtain ⟨_, _, ⟨rfl, rfl⟩, h⟩ := h
    split at h
    · simp only [fails_bind] at h
      obtain h | ⟨_, _, h, -⟩ := h
      · rw [(fails_throw.mp h).2]
      · exact absurd h runs_throw
    · exact symbols_of_fails_emit h

theorem symbols_of_fails_statement {st : Statement} (h : Fails (statement number st) p e q) :
    q.object.symbols = p.object.symbols := by
  match st with
  | .nothing | .stop | .directive .globals _ | .directive .externs _ => exact absurd h fails_pure
  | .directive .openSection arguments => exact symbols_of_fails_openSection h
  | .directive .words arguments =>
    simp only [statement, fails_bind, fails_get, runs_get, false_or] at h
    obtain ⟨_, _, ⟨rfl, rfl⟩, h⟩ := h
    exact symbols_of_fails_emit h
  | .directive .skip arguments => exact symbols_of_fails_emit h
  | .instruction name arguments => exact symbols_of_fails_instruction h
  | .stray word => rw [(fails_throw.mp h).2]

/-- Both states have the same symbols. -/
def SameSymbols (p q : Progress) : Prop := q.object.symbols = p.object.symbols

theorem steady_sameSymbols : FirstPass.Steady SameSymbols where
  record _ _ := rfl
  trans _ _ _ hpq hqr := hqr.trans hpq

theorem observes_line (number : Nat) (l : SourceLine) :
    Observes SameSymbols (fun _ => True) (line number l) :=
  ⟨fun _ _ _ h => (runs_line h).symbols, fun _ _ _ h => ⟨symbols_of_fails_statement h, trivial⟩⟩

theorem observes_run (source : List Bytes) : Observes SameSymbols (fun _ => True) (run source) := by
  refine .bind steady_sameSymbols.trans (steady_sameSymbols.observes_eachLine observes_line 1 source)
    fun _ => ⟨fun p _ q h => ?_, fun p e q h => ⟨?_, trivial⟩⟩
  · rw [(runs_checkSizes.mp h).1]
    exact steady_sameSymbols.refl p
  · rw [(fails_checkSizes h).1]
    exact steady_sameSymbols.refl p

/-- The states that pass two goes through with an object: before any line, when it is done with the
lines or fails on one, and at its end. -/
inductive Visits (obj : Object) (source : List Bytes) (p : Progress) : Prop where
  | line {n : Nat} (h : Pass.stateAt SecondPass.line 1 { object := obj } source n = some p)
  | lines {result : Except Abort Unit}
      (h : outcome (Pass.eachLine SecondPass.line 1 source) { object := obj } = (result, p))
  | run {result : Except Abort Unit}
      (h : outcome (SecondPass.run source) { object := obj } = (result, p))

theorem Visits.symbols {obj : Object} {source : List Bytes} (h : Visits obj source p) :
    p.object.symbols = obj.symbols := by
  cases h with
  | line h => exact steady_sameSymbols.stateAt observes_line h
  | lines h => exact (steady_sameSymbols.observes_eachLine observes_line 1 source).outcome h
  | run h => exact (observes_run source).outcome h

end SecondPass

/-- Wherever pass two gets to, whether it fails there or not, it has the symbols that pass one left.
A name is found among them if and only if a line of the source declares it. A list of words that
mentions a name puts it there and does not have it found. -/
theorem references_ignore_position {source : List Bytes} {name : Bytes} {q : Progress}
    (h : Runs (FirstPass.run source) { object := { name } } () q) :
    ∃ ls, SourceLine.readAll 1 source = .ok ls ∧
      ∀ p, SecondPass.Visits q.object source p →
        p.object.symbols = q.object.symbols ∧
        ∀ n, ((∃ s, p.object.symbols.lookup n = .ok s) ↔ ∃ l ∈ ls, l.Declares n) ∧
          ((∃ l ∈ ls, l.statement.Mentions n) → (p.object.symbols.get? n).isSome = true ∧
            ((∀ l ∈ ls, ¬ l.Declares n) →
              p.object.symbols.lookup n = .error ⟨.undefinedSymbol, n⟩)) := by
  obtain ⟨ls, ds, hls, htells, hreflects⟩ := FirstPass.exists_tells_run h
  refine ⟨ls, hls, fun p hp => ⟨hp.symbols, fun n => ?_⟩⟩
  rw [hp.symbols]
  have hfound := hreflects.lookup_iff.trans (htells.declared n)
  refine ⟨hfound, fun hmentioned => ⟨?_, fun hnone => ?_⟩⟩
  · exact (hreflects.known n).mpr ⟨_, (htells.mentioned n).mpr hmentioned, rfl⟩
  · refine SymbolTable.lookup_of_not_exists fun hsome => ?_
    obtain ⟨l, hl, hdeclares⟩ := hfound.mp hsome
    exact hnone l hl hdeclares

/-- A source that jumps to a section and stores a label before it has come to them, and then a name
that stands only behind its end. -/
def aheadOfItself : List Bytes :=
  [".section t", "jmp u", ".word late, beyond", "late: halt", ".section u", ".end",
    "beyond: halt"].map text

theorem references_ignore_position_aheadOfItself : ∃ q p,
    Runs (FirstPass.run aheadOfItself) { object := { name := text "a.o" } } () q ∧
    Fails (SecondPass.run aheadOfItself) { object := q.object }
      (.failed (.atLine .undefinedSymbol 3 (text "beyond"))) p ∧
    p.object.symbols = q.object.symbols ∧
    (∃ s, p.object.symbols.lookup (text "late") = .ok s) ∧
    (∃ s, p.object.symbols.lookup (text "u") = .ok s) ∧
    (p.object.symbols.get? (text "beyond")).isSome = true ∧
    p.object.symbols.lookup (text "beyond") = .error ⟨.undefinedSymbol, text "beyond"⟩ := by
  have hfirst : Runs (FirstPass.run aheadOfItself) { object := { name := text "a.o" } } ()
      (outcome (FirstPass.run aheadOfItself) { object := { name := text "a.o" } }).2 := by
    decide +kernel
  have hsecond : Fails (SecondPass.run aheadOfItself)
      { object := (outcome (FirstPass.run aheadOfItself) { object := { name := text "a.o" } }).2.object }
      (.failed (.atLine .undefinedSymbol 3 (text "beyond")))
      (outcome (SecondPass.run aheadOfItself) { object :=
        (outcome (FirstPass.run aheadOfItself) { object := { name := text "a.o" } }).2.object }).2 := by
    decide +kernel
  obtain ⟨ls, hls, hvisits⟩ := references_ignore_position hfirst
  obtain ⟨hsame, hfound⟩ := hvisits _ (.run hsecond)
  have hlines : ∀ ls', (SourceLine.readAll 1 aheadOfItself).toOption = some ls' →
      (∃ l ∈ ls', l.Declares (text "late")) ∧ (∃ l ∈ ls', l.Declares (text "u")) ∧
      (∃ l ∈ ls', l.statement.Mentions (text "beyond")) ∧ ∀ l ∈ ls', ¬ l.Declares (text "beyond") := by
    decide +kernel
  obtain ⟨hlate, hu, hmentioned, hnone⟩ := hlines ls (by rw [hls]; rfl)
  obtain ⟨hknown, hrefused⟩ := (hfound (text "beyond")).2 hmentioned
  exact ⟨_, _, hfirst, hsecond, hsame, (hfound _).1.mpr hlate, (hfound _).1.mpr hu, hknown,
    hrefused hnone⟩

end AsmKit
