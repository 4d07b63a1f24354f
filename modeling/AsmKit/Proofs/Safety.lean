import AsmKit.Proofs.Lockstep

/-
  Pass two is safe behind pass one. Whatever a statement emits is refused only for its operands
  (`Refuses`), and what else a statement needs, pass one has seen to: a section to write to, a name
  for a section, an instruction there is (`Statement.Checked`). Pass two stands in the section pass
  one stood in, so all this still holds when it comes to the line (`fails_line`).
-/

namespace AsmKit

open Error (Complaint Kind)

/-! ## Why statements are refused -/

/-- What can be wrong with the operands of a statement. -/
def Statement.refusals : List Kind :=
  [.syntaxError, .operandTooLarge, .undefinedSymbol, .unsupportedJumpOperand]

/-- A check of operands complains of nothing else. -/
def Refuses {α : Type} (x : Except Complaint α) : Prop :=
  ∀ c, x = .error c → c.kind ∈ Statement.refusals

section

variable {α β : Type} {symbols : SymbolTable}

theorem refuses_ok (a : α) : Refuses (.ok a) := by
  intro c h
  cases h

theorem refuses_error {kind : Kind} (h : kind ∈ Statement.refusals) (name : Bytes) :
    Refuses (.error ⟨kind, name⟩ : Except Complaint α) := by
  intro c hc
  cases hc
  exact h

theorem Refuses.bind {x : Except Complaint α} {f : α → Except Complaint β} (hx : Refuses x)
    (hf : ∀ a, Refuses (f a)) : Refuses (x >>= f) := by
  rcases x with c | a
  · exact refuses_error (hx c rfl) c.name
  · exact hf a

theorem refuses_whole (head : Bytes) (arguments : List Token) :
    Refuses (.error (Token.whole head arguments) : Except Complaint α) :=
  refuses_error (by decide) _

theorem refuses_number (t : Token) : Refuses t.number := by
  unfold Token.number
  rcases Bytes.readNumeral t.word with e | n
  · exact refuses_error (by decide) _
  · exact refuses_ok n

theorem refuses_lookup (name : Bytes) : Refuses (symbols.lookup name) := by
  unfold SymbolTable.lookup
  split
  · split
    · exact refuses_ok _
    · exact refuses_error (by decide) _
  · exact refuses_error (by decide) _

theorem refuses_register (t : Token) : Refuses t.register := by
  unfold Token.register
  dsimp only
  split
  · exact refuses_ok _
  · exact refuses_error (by decide) _

theorem refuses_items {accepts : TokenKind → Bool} (found arguments : List Token) :
    Refuses (Token.items accepts found arguments) := by
  fun_induction Token.items accepts found arguments with
  | case1 found => exact refuses_ok _
  | case2 found item rest h => exact refuses_error (by decide) _
  | case3 found item h => exact refuses_ok _
  | case4 found item h separator rest hcomma => exact refuses_error (by decide) _
  | case5 found item h separator rest hcomma ih => exact ih

theorem refuses_listOf {accepts : TokenKind → Bool} (head : Bytes) (arguments : List Token) :
    Refuses (Token.listOf head accepts arguments) := by
  unfold Token.listOf
  split
  · exact refuses_whole head arguments
  · exact refuses_items [] arguments

theorem refuses_skipCount (arguments : List Token) : Refuses (Emission.skipCount arguments) := by
  unfold Emission.skipCount
  split
  · split
    · exact refuses_number _
    · exact refuses_whole _ _
  · exact refuses_whole _ _

theorem refuses_wordItem (t : Token) : Refuses (Emission.wordItem symbols t) := by
  unfold Emission.wordItem
  split
  · exact (refuses_lookup _).bind fun s => refuses_ok _
  · exact (refuses_number t).bind fun n => refuses_ok _

theorem refuses_jump (t : Token) : Refuses (Operand.jump symbols t) := by
  unfold Operand.jump
  split
  · exact (refuses_number t).bind fun _ => refuses_ok _
  · exact (refuses_number t).bind fun _ => refuses_ok _
  · exact (refuses_number t).bind fun _ => refuses_ok _
  · exact (refuses_number t).bind fun _ => refuses_ok _
  · exact (refuses_lookup _).bind fun _ => refuses_ok _
  · exact (refuses_lookup _).bind fun _ => refuses_ok _
  · exact refuses_error (by decide) _

theorem refuses_bracket (t : Token) : Refuses (Operand.bracket symbols t) := by
  unfold Operand.bracket
  split
  · exact refuses_error (by decide) _
  · refine (refuses_register _).bind fun register => ?_
    split
    · exact refuses_ok _
    · split
      · refine (refuses_lookup _).bind fun s => ?_
        split
        · exact refuses_error (by decide) _
        · exact refuses_ok _
      · exact (refuses_number _).bind fun _ => refuses_ok _

theorem refuses_data (t : Token) : Refuses (Operand.data symbols t) := by
  unfold Operand.data
  split
  · exact refuses_bracket t
  · exact (refuses_number t).bind fun _ => refuses_ok _
  · exact (refuses_number t).bind fun _ => refuses_ok _
  · exact (refuses_number t).bind fun _ => refuses_ok _
  · exact (refuses_number t).bind fun _ => refuses_ok _
  · exact (refuses_register t).bind fun _ => refuses_ok _
  · exact (refuses_register t).bind fun _ => refuses_ok _
  · exact (refuses_lookup _).bind fun _ => refuses_ok _
  · exact (refuses_lookup _).bind fun _ => refuses_ok _
  · exact refuses_error (by decide) _

theorem refuses_checkArguments (i : Instruction) (arguments : List Token) :
    Refuses (i.checkArguments arguments) := by
  unfold Instruction.checkArguments
  split
  · exact refuses_whole _ _
  · split
    · exact refuses_error (by decide) _
    · exact refuses_ok _

theorem refuses_operands (i : Instruction) (arguments : List Token) :
    Refuses (Instruction.operands symbols i arguments) := by
  unfold Instruction.operands
  split
  · exact refuses_ok _
  · exact (refuses_jump _).bind fun _ => refuses_ok _
  · exact (refuses_register _).bind fun _ => (refuses_register _).bind fun _ =>
      (refuses_jump _).bind fun _ => refuses_ok _
  · refine (refuses_register _).bind fun _ => ?_
    split
    · exact refuses_ok _
    · exact refuses_ok _
  · refine (refuses_register _).bind fun _ => (refuses_register _).bind fun _ => ?_
    split
    · exact refuses_ok _
    · exact refuses_ok _
  · exact (refuses_register _).bind fun _ => refuses_ok _
  · exact (refuses_register _).bind fun _ => (refuses_data _).bind fun _ => refuses_ok _
  · exact (refuses_register _).bind fun _ => (refuses_data _).bind fun _ => refuses_ok _
  · exact (refuses_register _).bind fun _ => (refuses_register _).bind fun _ => refuses_ok _
  · exact (refuses_register _).bind fun _ => (refuses_register _).bind fun _ => refuses_ok _
  · exact refuses_whole _ _

end

/-! ## What emissions complain of -/

theorem Emission.mem_of_untilFailure {α : Type} {found : List α} {xs : List (Except Complaint α)}
    {c : Complaint} (h : (untilFailure found xs).2 = some c) : .error c ∈ xs := by
  fun_induction untilFailure found xs with
  | case1 found => cases h
  | case2 found c' rest =>
    cases h
    exact List.mem_cons_self ..
  | case3 found a rest ih => exact List.mem_cons_of_mem _ (ih h)

theorem Statement.emission_refused {symbols : SymbolTable} {st : Statement} {c : Complaint}
    (h : (st.emission symbols).complaint? = some c) : c.kind ∈ Statement.refusals := by
  match st with
  | .directive .words arguments =>
    rcases hitems : Token.listOf Directive.words.spelling TokenKind.isWordItem arguments with c' | items
    · simp only [emission, Emission.words, hitems, Option.some.injEq] at h
      subst h
      exact refuses_listOf _ _ c' hitems
    · simp only [emission, Emission.words, hitems] at h
      obtain ⟨t, -, ht⟩ := List.mem_map.mp (Emission.mem_of_untilFailure h)
      exact refuses_wordItem t c ht
  | .directive .skip arguments =>
    rcases hcount : Emission.skipCount arguments with c' | n
    · simp only [emission, Emission.skip, hcount, Option.some.injEq] at h
      subst h
      exact refuses_skipCount arguments c' hcount
    · simp [emission, Emission.skip, hcount] at h
  | .instruction name arguments =>
    rcases hi : Instruction.find? name with _ | i
    · simp [emission, hi] at h
    · simp only [emission, hi, Instruction.emission] at h
      split at h
      · next c' hc =>
        cases h
        exact (refuses_checkArguments i arguments).bind (fun _ => refuses_operands i arguments) c hc
      · cases h
  | .nothing | .stop | .directive .globals _ | .directive .externs _ | .directive .openSection _
  | .stray _ => cases h

/-! ## What pass one sees to -/

/-- What pass two takes for granted of a statement in the section `current` of an object with
sections of the given names. -/
def Statement.Checked (current : Bytes) (names : List Bytes) (st : Statement) : Prop :=
  match st with
  | .directive .openSection _ => ∃ name ∈ names, st.opens? = some name
  | .directive .words _ | .directive .skip _ => current ≠ undefinedSection
  | .instruction name _ => current ≠ undefinedSection ∧ (Instruction.find? name).isSome = true
  | .stray _ => False
  | .nothing | .stop | .directive .globals _ | .directive .externs _ => True

theorem Statement.Checked.mono {current : Bytes} {names more : List Bytes} {st : Statement}
    (h : st.Checked current names) (hmore : ∀ n ∈ names, n ∈ more) : st.Checked current more := by
  match st with
  | .directive .openSection _ =>
    obtain ⟨name, hname, hopens⟩ := h
    exact ⟨name, hmore name hname, hopens⟩
  | .directive .words _ | .directive .skip _ | .instruction _ _ | .stray _ | .nothing | .stop
  | .directive .globals _ | .directive .externs _ => exact h

namespace FirstPass

variable {p q : Progress}

theorem checked_of_runs_statement {line : Nat} {st : Statement}
    (h : Runs (statement line st) p () q) : st.Checked p.sectionName q.object.sectionNames := by
  match st with
  | .directive .openSection arguments =>
    cases runs_openSection h with
    | @opens name t hopens ht hnew hq =>
      refine ⟨name, ?_, hopens⟩
      rw [hq]
      simp [Object.sectionNames]
    | advances hopens hsize hq =>
      rcases arguments with _ | ⟨t, rest⟩
      · obtain ⟨_, _, hname, -⟩ := runs_bind.mp h
        cases (Pass.runs_check.mp hname).1
      · cases hopens
  | .directive .words arguments =>
    obtain ⟨_, _, hneed, -⟩ := runs_bind.mp h
    exact (runs_needSection.mp hneed).1
  | .directive .skip arguments =>
    obtain ⟨_, _, hneed, -⟩ := runs_bind.mp h
    exact (runs_needSection.mp hneed).1
  | .instruction name arguments =>
    simp only [statement, instruction] at h
    split at h
    · exact absurd h runs_throw
    · next i hi =>
      obtain ⟨_, _, hneed, -⟩ := runs_bind.mp h
      exact ⟨(runs_needSection.mp hneed).1, by rw [hi]; rfl⟩
  | .stray _ => exact absurd h runs_throw
  | .nothing | .stop | .directive .globals _ | .directive .externs _ => exact trivial

theorem checked_of_runs_line {number : Nat} {l : SourceLine} (h : Runs (line number l) p () q) :
    l.statement.Checked p.sectionName q.object.sectionNames := by
  unfold line at h
  rcases hl : l.label? with _ | name
  · rw [hl] at h
    exact checked_of_runs_statement h
  · rw [hl] at h
    obtain ⟨_, r, hlabel, hst⟩ := runs_bind.mp h
    have hsection : r.sectionName = p.sectionName := by rw [(runs_label hlabel).2.1.frame]
    rw [← hsection]
    exact checked_of_runs_statement hst

end FirstPass

/-- Sections are kept as their symbols are. -/
theorem Object.Sound.sectionNames_subset {obj obj' : Object} (h : obj.Sound) (h' : obj'.Sound)
    (hkeeps : obj.symbols.Keeps obj'.symbols) : ∀ n ∈ obj.sectionNames, n ∈ obj'.sectionNames := by
  intro n hn
  obtain ⟨s, hs, hsec⟩ := h.sections n hn
  obtain ⟨s', hs', hk⟩ := hkeeps n s hs
  have hmem := ((h'.symbols n s' hs').ofSection (hk.isSection.trans hsec)).1
  rw [SymbolTable.name_of_get? hs'] at hmem
  exact hmem

/-! ## Failures of pass two -/

namespace SecondPass

variable {p q : Progress}

theorem fails_emit {line : Nat} {emission : Emission} {e : Abort} (hopen : p.isOpen = true)
    (h : Fails (emit line emission) p e q) :
    ∃ c, emission.complaint? = some c ∧ e = .failed (c.onLine line) := by
  unfold emit at h
  simp only [fails_bind, fails_get, runs_get, false_or] at h
  obtain ⟨_, _, ⟨rfl, rfl⟩, h⟩ := h
  rw [if_pos hopen] at h
  simp only [fails_bind, fails_set, false_or] at h
  obtain ⟨_, _, -, h⟩ := h
  split at h
  · next c hc => exact ⟨c, hc, (fails_throw.mp h).1⟩
  · exact absurd h fails_pure

theorem not_fails_openSection {number : Nat} {arguments : List Token} {name : Bytes} {e : Abort}
    (hopens : (Statement.directive .openSection arguments).opens? = some name)
    (hname : name ∈ p.object.sectionNames) : ¬ Fails (openSection number arguments) p e q := by
  intro h
  rcases arguments with _ | ⟨t, rest⟩
  · cases hopens
  · cases hopens
    have hfound : (p.object.findSection t.word).isSome = true := Object.findSection_isSome_iff.mpr hname
    simp only [openSection, fails_bind, fails_get, fails_set, runs_get, false_or] at h
    obtain ⟨_, _, ⟨rfl, rfl⟩, _, _, -, h⟩ := h
    rw [hfound] at h
    exact absurd h fails_pure

theorem fails_instruction {number : Nat} {name : Bytes} {arguments : List Token} {e : Abort}
    (hopen : p.isOpen = true) (hi : (Instruction.find? name).isSome = true)
    (h : Fails (instruction number name arguments) p e q) :
    Fails (emit number ((Statement.instruction name arguments).emission p.object.symbols)) p e q := by
  obtain ⟨i, hi⟩ := Option.isSome_iff_exists.mp hi
  simp only [instruction, hi, fails_bind, fails_get, runs_get, false_or] at h
  obtain ⟨_, _, ⟨rfl, rfl⟩, h⟩ := h
  rw [hopen] at h
  simp only [Statement.emission, hi]
  exact h

/-- A checked line fails only for its operands. -/
theorem fails_line {number : Nat} {l : SourceLine} {e : Abort}
    (hopen : p.sectionName ≠ undefinedSection → p.isOpen = true)
    (hchecked : l.statement.Checked p.sectionName p.object.sectionNames)
    (h : Fails (line number l) p e q) :
    ∃ c : Complaint, e = .failed (c.onLine number) ∧ c.kind ∈ Statement.refusals := by
  have hemits (hne : p.sectionName ≠ undefinedSection)
      (h : Fails (emit number (l.statement.emission p.object.symbols)) p e q) :
      ∃ c : Complaint, e = .failed (c.onLine number) ∧ c.kind ∈ Statement.refusals := by
    obtain ⟨c, hc, e⟩ := fails_emit (hopen hne) h
    exact ⟨c, e, Statement.emission_refused hc⟩
  unfold line at h
  generalize l.statement = st at *
  match st with
  | .nothing | .stop | .directive .globals _ | .directive .externs _ => exact absurd h fails_pure
  | .directive .openSection arguments =>
    obtain ⟨name, hname, hopens⟩ := hchecked
    exact absurd h (not_fails_openSection hopens hname)
  | .directive .words arguments =>
    simp only [statement, fails_bind, fails_get, runs_get, false_or] at h
    obtain ⟨_, _, ⟨rfl, rfl⟩, h⟩ := h
    exact hemits hchecked h
  | .directive .skip arguments => exact hemits hchecked h
  | .instruction name arguments =>
    exact hemits hchecked.1 (fails_instruction (hopen hchecked.1) hchecked.2 h)
  | .stray word => exact absurd hchecked id

theorem fails_checkSizes {e : Abort} (h : Fails checkSizes p e q) :
    q = p ∧ ∃ s ∈ p.object.sections, isMeasured p.object.symbols s = false ∧
      e = .failed (.about .internal s.name) := by
  unfold checkSizes at h
  simp only [fails_bind, fails_get, runs_get, false_or] at h
  obtain ⟨_, _, ⟨rfl, rfl⟩, h⟩ := h
  split at h
  · next s hs =>
    obtain ⟨rfl, rfl⟩ := fails_throw.mp h
    refine ⟨rfl, s, List.mem_of_find?_eq_some hs, ?_, rfl⟩
    simpa using List.find?_some hs
  · exact absurd h fails_pure

end SecondPass

/-- Where pass two stops on a line, pass one has checked that line, in the same section. -/
theorem checked_at_line {name : Bytes} {q r : Progress} {ls : List SourceLine}
    (hfirst : Runs (Pass.steps FirstPass.line 1 ls) { object := { name } } () r)
    (hkeeps : r.object.symbols.Keeps q.object.symbols)
    (hm : q.object.Measured (Layout.after ls)) {n : Nat} {l : SourceLine} (hl : ls[n]? = some l) :
    l.statement.Checked (Layout.after (ls.take n)).current q.object.sectionNames := by
  obtain ⟨hlt, hget⟩ := List.getElem?_eq_some_iff.mp hl
  rw [← List.take_append_drop n ls, List.drop_eq_getElem_cons hlt, hget] at hfirst
  obtain ⟨p₁, hp₁, hrest⟩ := Pass.runs_steps_append.mp hfirst
  obtain ⟨_, p₂, hline, hrest⟩ := runs_bind.mp hrest
  have htracks := (FirstPass.tracks_start name).steps hp₁
  have hchecked := FirstPass.checked_of_runs_line hline
  rw [htracks.current] at hchecked
  have htracks' := htracks.line hline
  exact hchecked.mono
    (htracks'.sound.sectionNames_subset hm.sound ((htracks'.keeps_steps hrest).trans hkeeps))

/-- Pass two is safe on every source that pass one accepts. It never finds itself without what a
statement works on, and it fails only for the operands of a line of the source, or in the end for a
section of `2 ^ 32` bytes or more. -/
theorem second_pass_is_safe {source : List Bytes} {name : Bytes} {q : Progress}
    (h : Runs (FirstPass.run source) { object := { name } } () q) (e : Abort) (p : Progress)
    (hfails : Fails (SecondPass.run source) { object := q.object } e p) :
    (∃ kind word, ∃ line : Nat, e = .failed (.atLine kind line word) ∧
      kind ∈ [Kind.syntaxError, .operandTooLarge, .undefinedSymbol, .unsupportedJumpOperand] ∧
      1 ≤ line ∧ line ≤ source.length) ∨
    ∃ s ∈ p.object.sections, e = .failed (.about .internal s.name) ∧ 2 ^ 32 ≤ s.code.length := by
  obtain ⟨ls, r, hls, hr, hkeeps, hm⟩ := FirstPass.runs_run h
  obtain hfails | ⟨_, p₂, hlines, hfails⟩ := fails_bind.mp hfails
  · left
    obtain ⟨n, raw, p₂, hraw, hp₂, hstop⟩ := Pass.fails_eachLine hfails
    obtain ⟨-, hgo, hsteps⟩ := (Pass.stateAt_eq_some_iff hls).mp hp₂
    obtain ⟨l, hread, hl⟩ := SourceLine.exists_of_readAll hls hgo hraw
    have hfollows := hm.follows.steps hm.zeroUnlessDefined hsteps
    have hchecked : l.statement.Checked p₂.sectionName p₂.object.sectionNames := by
      rw [hfollows.current, hfollows.sectionNames]
      exact checked_at_line hr hkeeps hm hl
    obtain ⟨err, herr, -⟩ | ⟨l', hl', hfails⟩ := hstop
    · rw [hread] at herr
      cases herr
    · rw [hread] at hl'
      cases hl'
      obtain ⟨c, hc, hkind⟩ := SecondPass.fails_line hfollows.opened hchecked hfails
      have hlt : n < source.length := (List.getElem?_eq_some_iff.mp hraw).1
      exact ⟨c.kind, c.name, 1 + n, hc, hkind, by omega, by omega⟩
  · right
    obtain ⟨ls', p₃, hls', hsteps, hlog⟩ := Pass.runs_eachLine hlines
    rw [hls] at hls'
    cases hls'
    have hfollows := hm.follows.steps hm.zeroUnlessDefined hsteps
    obtain ⟨rfl, s, hs, hmeasured, he⟩ := SecondPass.fails_checkSizes hfails
    rw [hlog] at hs hmeasured ⊢
    refine ⟨s, hs, he, ?_⟩
    by_contra hlt
    rw [(SecondPass.isMeasured_iff hm hfollows hs).mpr (Nat.lt_of_not_le hlt)] at hmeasured
    cases hmeasured

/-- A source that pass one accepts and pass two refuses, for a symbol that is nowhere. -/
def nowhereToJump : List Bytes := [".section t", ".skip 0", "x: jmp nowhere"].map text

theorem second_pass_is_safe_nowhereToJump : ∃ q p,
    Runs (FirstPass.run nowhereToJump) { object := { name := text "a.o" } } () q ∧
    Fails (SecondPass.run nowhereToJump) { object := q.object }
      (.failed (.atLine .undefinedSymbol 3 (text "nowhere"))) p ∧
    ((∃ kind word, ∃ line : Nat, Abort.failed (.atLine .undefinedSymbol 3 (text "nowhere")) =
        .failed (.atLine kind line word) ∧
      kind ∈ [Kind.syntaxError, .operandTooLarge, .undefinedSymbol, .unsupportedJumpOperand] ∧
      1 ≤ line ∧ line ≤ 3) ∨
    ∃ s ∈ p.object.sections, Abort.failed (.atLine .undefinedSymbol 3 (text "nowhere")) =
      .failed (.about .internal s.name) ∧ 2 ^ 32 ≤ s.code.length) := by
  have hfirst : Runs (FirstPass.run nowhereToJump) { object := { name := text "a.o" } } ()
      (outcome (FirstPass.run nowhereToJump) { object := { name := text "a.o" } }).2 := by
    decide +kernel
  have hsecond : Fails (SecondPass.run nowhereToJump)
      { object := (outcome (FirstPass.run nowhereToJump) { object := { name := text "a.o" } }).2.object }
      (.failed (.atLine .undefinedSymbol 3 (text "nowhere")))
      (outcome (SecondPass.run nowhereToJump) { object :=
        (outcome (FirstPass.run nowhereToJump) { object := { name := text "a.o" } }).2.object }).2 := by
    decide +kernel
  exact ⟨_, _, hfirst, hsecond, second_pass_is_safe hfirst _ _ hsecond⟩

end AsmKit
