import Mathlib.Logic.Relation
import AsmKit.Proofs.Assembled
import AsmKit.Proofs.LineTexts
import AsmKit.Proofs.Simulation

/-
  Sources in another layout. What a source comes to depends on its labels and statements, in order
  (`SourceLine.parts`), and not on how they are spread over lines: both passes do for a line what
  they do for its parts, whatever number it has (`Pass.Layoutless`). A label may be put on a line of
  its own, blanks and comments may be added, and so may anything behind the end (`Relaid`); none of
  this changes the parts.
-/

namespace AsmKit

/-! ## Parts of lines -/

namespace Statement

/-- Statements that no pass does anything for. -/
def isIdle : Statement → Bool
  | .nothing | .stop => true
  | _ => false

end Statement

namespace SourceLine

/-- A line taken apart: its label and its statement, as lines of their own. -/
def parts (l : SourceLine) : List SourceLine :=
  (l.label?.map fun name => ⟨some name, .nothing⟩).toList ++
    if l.statement.isIdle then [] else [⟨none, l.statement⟩]

theorem parts_label (name : Bytes) (st : Statement) :
    parts ⟨some name, st⟩ = parts ⟨some name, .nothing⟩ ++ parts ⟨none, st⟩ := by
  simp [parts, Statement.isIdle]

end SourceLine

namespace Progress

/-- The states differ at most in what was recorded. -/
def SameButLog (p p' : Progress) : Prop := ∃ log, p' = { p with log }

theorem SameButLog.refl (p : Progress) : SameButLog p p := ⟨p.log, rfl⟩

theorem SameButLog.trans {p q r : Progress} (h : SameButLog p q) (h' : SameButLog q r) :
    SameButLog p r := by
  obtain ⟨log, rfl⟩ := h
  obtain ⟨log', rfl⟩ := h'
  exact ⟨log', rfl⟩

theorem SameButLog.object {p q : Progress} (h : SameButLog p q) : q.object = p.object := by
  obtain ⟨log, rfl⟩ := h
  rfl

end Progress

open Progress (SameButLog)

namespace Pass

/-- A step of a pass that does for a line what it does for its label and then for its statement, and
for which the number of the line only matters in what it reports. -/
structure Layoutless (step : Nat → SourceLine → Pass Unit) : Prop where
  apart : ∀ {n l p q}, Runs (step n l) p () q ↔
    ∃ r, Runs (step n ⟨l.label?, .nothing⟩) p () r ∧ Runs (step n ⟨none, l.statement⟩) r () q
  idle : ∀ {n st p q}, st.isIdle = true → (Runs (step n ⟨none, st⟩) p () q ↔ q = p)
  renumber : ∀ n m l, Simulates SameButLog SameButLog (step n l) (step m l)

variable {step : Nat → SourceLine → Pass Unit} {p q : Progress} {n : Nat} {l : SourceLine}

namespace Layoutless

theorem runs_parts (h : Layoutless step) :
    Runs (step n l) p () q ↔ Runs (forM l.parts (step n)) p () q := by
  have hlabel (r : Progress) : Runs (step n ⟨l.label?, .nothing⟩) p () r ↔
      Runs (forM (l.label?.map fun name => ⟨some name, .nothing⟩).toList (step n)) p () r := by
    rcases l.label? with _ | name
    · simpa using h.idle rfl
    · simp
  have hstatement (r : Progress) : Runs (step n ⟨none, l.statement⟩) r () q ↔
      Runs (forM (if l.statement.isIdle then [] else [⟨none, l.statement⟩]) (step n)) r () q := by
    split
    · next hidle => simpa using h.idle hidle
    · simp
  unfold SourceLine.parts
  rw [h.apart, runs_forM_append]
  simp only [hlabel, hstatement]

/-- What a step does for a line, it does for the parts under any number, and the other way round. -/
theorem simulates_line (h : Layoutless step) (n m : Nat) (l : SourceLine) :
    Simulates SameButLog SameButLog (step n l) (forM l.parts (step m)) ∧
      Simulates SameButLog SameButLog (forM l.parts (step m)) (step n l) := by
  constructor
  · intro p p' _ q hp hq
    obtain ⟨q', hq', hsame⟩ := h.renumber n m l p p' () q hp hq
    exact ⟨q', h.runs_parts.mp hq', hsame⟩
  · intro p p' _ q hp hq
    exact h.renumber m n l p p' () q hp (h.runs_parts.mpr hq)

theorem simulates_parts (h : Layoutless step) (n : Nat) (ls : List SourceLine) :
    Simulates SameButLog SameButLog (steps step n ls) (forM (ls.flatMap SourceLine.parts) (step 0)) ∧
      Simulates SameButLog SameButLog (forM (ls.flatMap SourceLine.parts) (step 0))
        (steps step n ls) := by
  induction ls generalizing n with
  | nil => exact ⟨simulates_pure (), simulates_pure ()⟩
  | cons l ls ih =>
    rw [List.flatMap_cons, List.forM_append, steps]
    exact ⟨(h.simulates_line n 0 l).1.bind fun _ => (ih (n + 1)).1,
      (h.simulates_line n 0 l).2.bind fun _ => (ih (n + 1)).2⟩

/-- Lines that have the same parts do the same. -/
theorem simulates_steps (h : Layoutless step) (n m : Nat) {ls ls' : List SourceLine}
    (hparts : ls'.flatMap SourceLine.parts = ls.flatMap SourceLine.parts) :
    Simulates SameButLog SameButLog (steps step n ls) (steps step m ls') := by
  intro p p' _ q hp hq
  obtain ⟨r, hr, hsame⟩ := (h.simulates_parts n ls).1 p p' () q hp hq
  rw [← hparts] at hr
  obtain ⟨q', hq', hsame'⟩ := (h.simulates_parts m ls').2 p' p' () r (.refl p') hr
  exact ⟨q', hq', hsame.trans hsame'⟩

end Layoutless

end Pass

/-! ## The passes -/

namespace FirstPass

theorem parallel_sameButLog : Parallel SameButLog where
  record log log' h := by
    obtain ⟨_, rfl⟩ := h
    exact ⟨log', rfl⟩
  place h := by
    obtain ⟨_, rfl⟩ := h
    exact ⟨rfl, rfl⟩
  advance n h := by
    obtain ⟨log, rfl⟩ := h
    exact ⟨log, rfl⟩
  declare d _ h t ht := by
    obtain ⟨log, rfl⟩ := h
    exact ⟨t, ht, log, rfl⟩

theorem opens_sameButLog (name : Bytes) : Opens SameButLog name := by
  intro p p' h t ht hnew
  obtain ⟨log, rfl⟩ := h
  exact ⟨t, ht, hnew, log, rfl⟩

theorem layoutless_line : Pass.Layoutless line where
  apart {n l p q} := by
    obtain ⟨label?, st⟩ := l
    rcases label? with _ | name
    · simp [line, statement]
    · unfold line
      constructor
      · intro h
        obtain ⟨_, r, hlabel, hst⟩ := runs_bind.mp h
        exact ⟨r, runs_bind.mpr ⟨(), r, hlabel, runs_pure.mpr ⟨rfl, rfl⟩⟩, hst⟩
      · rintro ⟨r, h, hst⟩
        obtain ⟨_, s, hlabel, hpure⟩ := runs_bind.mp h
        obtain ⟨-, rfl⟩ := runs_pure.mp hpure
        exact runs_bind.mpr ⟨(), r, hlabel, hst⟩
  idle {n st p q} hst := by
    cases st <;> simp [Statement.isIdle, line, statement] at hst ⊢
  renumber n m l := by
    have hR := parallel_sameButLog
    refine hR.simulates_line rfl (hR.simulates_statement l.statement fun name _ => ?_)
    exact opens_sameButLog name

end FirstPass

namespace SecondPass

variable {n m : Nat}

theorem simulates_emit (e : Emission) :
    Simulates SameButLog SameButLog (emit n e) (emit m e) := by
  intro p p' _ q hp hq
  obtain ⟨log, rfl⟩ := hp
  obtain ⟨hopen, hc, rfl⟩ := runs_emit hq
  have hq' := runs_emit_of_open (p := { p with log }) hopen hc m
  exact ⟨_, hq', log, rfl⟩

theorem simulates_statement (st : Statement) :
    Simulates SameButLog SameButLog (statement n st) (statement m st) := by
  match st with
  | .nothing | .stop | .directive .globals _ | .directive .externs _ => exact simulates_pure ()
  | .directive .openSection [] => exact simulates_throw _ _
  | .directive .openSection (t :: _) =>
    refine simulates_get fun p p' hp => ?_
    obtain ⟨log, rfl⟩ := hp
    refine (simulates_set (S := SameButLog) ⟨log, rfl⟩).bind fun _ => ?_
    split
    · exact simulates_throw _ _
    · exact simulates_pure ()
  | .directive .words arguments =>
    refine simulates_get fun p p' hp => ?_
    rw [hp.object]
    exact simulates_emit _
  | .directive .skip arguments => exact simulates_emit _
  | .instruction name arguments =>
    simp only [statement, instruction]
    split
    · exact simulates_throw _ _
    · refine simulates_get fun p p' hp => ?_
      obtain ⟨log, rfl⟩ := hp
      split
      · exact (simulates_throw _ _).bind fun _ => simulates_emit _
      · exact simulates_emit _
  | .stray word => exact simulates_throw _ _

theorem layoutless_line : Pass.Layoutless line where
  apart {n l p q} := by simp [line, statement]
  idle {n st p q} hst := by
    cases st <;> simp [Statement.isIdle, line, statement] at hst ⊢
  renumber n m l := simulates_statement l.statement

end SecondPass

/-! ## Sources in another layout -/

/-- The lines of a source, and those after one change of layout. -/
inductive Relaid : List Bytes → List Bytes → Prop
  /-- A label gets a line of its own. -/
  | label {name label : Bytes} (h : Lexeme.IsLabelText name label) (rest : Bytes)
      (back : List Bytes) : Relaid ((label ++ rest) :: back) (label :: rest :: back)
  /-- A line is put in that has nothing but blanks and a comment. -/
  | blank {line : Bytes} (h : ∀ b ∈ Lexeme.stripComment line, Lexeme.isSeparator b = true)
      (back : List Bytes) : Relaid back (line :: back)
  /-- A comment is put behind a line. -/
  | comment (line comment : Bytes) (back : List Bytes) :
      Relaid (line :: back) ((line ++ Lexeme.hash :: comment) :: back)
  /-- Any lines are put behind the end. -/
  | beyond {line : Bytes} {l : SourceLine} (h : SourceLine.read 1 line = .ok l)
      (hstop : l.statement = .stop) (back back' : List Bytes) : Relaid (line :: back) (line :: back')
  /-- The end is marked behind the last line. -/
  | ending {line : Bytes} (h : SourceLine.read 1 line = .ok ⟨none, .stop⟩) : Relaid [] [line]
  /-- The change is made behind the first line. -/
  | further (line : Bytes) {source source' : List Bytes} (h : Relaid source source') :
      Relaid (line :: source) (line :: source')

/-- A change of layout keeps the parts of the lines. -/
theorem Relaid.readAll {source source' : List Bytes} {number : Nat} {ls : List SourceLine}
    (h : Relaid source source') (hls : SourceLine.readAll number source = .ok ls)
    (hstray : ∀ l ∈ ls, ∀ w, l.statement ≠ .stray w) :
    ∃ ls', SourceLine.readAll number source' = .ok ls' ∧
      ls'.flatMap SourceLine.parts = ls.flatMap SourceLine.parts := by
  induction h generalizing number ls with
  | label hlabel rest back =>
    obtain ⟨l, hl, hls⟩ := SourceLine.readAll_cons_eq_ok_iff.mp hls
    have hmem : l ∈ ls := by
      obtain ⟨-, rfl⟩ | ⟨-, _, -, rfl⟩ := hls <;> exact List.mem_cons_self
    obtain ⟨hname, st, hst, rfl⟩ := SourceLine.read_label hlabel hl (hstray l hmem)
    have hst := SourceLine.read_renumber hst (number + 1)
    obtain ⟨hstop, rfl⟩ | ⟨hgo, more, hmore, rfl⟩ := hls
    · have hend := SourceLine.readAll_stop hst hstop back
      refine ⟨_, SourceLine.readAll_cons hname (by simp) hend, ?_⟩
      simp [SourceLine.parts_label _ st]
    · have hend := SourceLine.readAll_cons hst hgo (SourceLine.readAll_renumber hmore _)
      refine ⟨_, SourceLine.readAll_cons hname (by simp) hend, ?_⟩
      simp [SourceLine.parts_label _ st]
  | blank hblank back =>
    have hback := SourceLine.readAll_renumber hls (number + 1)
    exact ⟨_, SourceLine.readAll_cons (SourceLine.read_blank hblank number) (by simp) hback, rfl⟩
  | comment line comment back =>
    refine ⟨ls, ?_, rfl⟩
    rw [SourceLine.readAll, SourceLine.read_comment]
    exact hls
  | beyond hl hstop back back' =>
    have hl := SourceLine.read_renumber hl number
    cases hls.symm.trans (SourceLine.readAll_stop hl hstop back)
    exact ⟨_, SourceLine.readAll_stop hl hstop back', rfl⟩
  | ending hl =>
    cases hls
    exact ⟨_, SourceLine.readAll_stop (SourceLine.read_renumber hl number) rfl [], rfl⟩
  | further line _ ih =>
    obtain ⟨l, hl, ⟨hstop, rfl⟩ | ⟨hgo, more, hmore, rfl⟩⟩ :=
      SourceLine.readAll_cons_eq_ok_iff.mp hls
    · exact ⟨[l], SourceLine.readAll_stop hl hstop _, rfl⟩
    · obtain ⟨more', hmore', hparts⟩ := ih hmore fun k hk => hstray k (List.mem_cons_of_mem _ hk)
      refine ⟨_, SourceLine.readAll_cons hl hgo hmore', ?_⟩
      rw [List.flatMap_cons, List.flatMap_cons, hparts]

/-- So a pass that goes through the source goes through it in the other layout. -/
theorem Relaid.runs_eachLine {source source' : List Bytes} {ls : List SourceLine}
    {step : Nat → SourceLine → Pass Unit} {p q : Progress} (h : Relaid source source')
    (hstep : Pass.Layoutless step) (hls : SourceLine.readAll 1 source = .ok ls)
    (hstray : ∀ l ∈ ls, ∀ w, l.statement ≠ .stray w)
    (hq : Runs (Pass.eachLine step 1 source) p () q) :
    ∃ q', Runs (Pass.eachLine step 1 source') p () q' ∧ SameButLog q q' := by
  obtain ⟨ls', hls', hparts⟩ := h.readAll hls hstray
  obtain ⟨lines, r, hlines, hr, hlog⟩ := Pass.runs_eachLine hq
  cases hls.symm.trans hlines
  obtain ⟨r', hr', hsame⟩ := hstep.simulates_steps 1 1 hparts p p () r (.refl p) hr
  obtain ⟨log, hq'⟩ := Pass.runs_eachLine_of_steps hls' hr'
  obtain ⟨log', rfl⟩ := hsame
  refine ⟨_, hq', log, ?_⟩
  rw [hlog]

theorem FirstPass.not_stray_of_runs {number : Nat} {ls : List SourceLine} {p q : Progress}
    (h : Runs (Pass.steps line number ls) p () q) :
    ∀ l ∈ ls, ∀ w, l.statement ≠ .stray w := by
  induction ls generalizing number p with
  | nil => exact List.forall_mem_nil _
  | cons l ls ih =>
    obtain ⟨_, r, hr, hq⟩ := runs_bind.mp h
    refine List.forall_mem_cons.mpr ⟨fun w hw => ?_, ih hq⟩
    obtain ⟨s, -, hs⟩ := layoutless_line.apart.mp hr
    rw [hw] at hs
    exact absurd hs runs_throw

/-- The two passes take the lines of a source to an object. -/
def Assembles (name : Bytes) (source : List Bytes) (obj : Object) : Prop :=
  ∃ q₁ q₂, Runs (FirstPass.run source) { object := { name } } () q₁ ∧
    Runs (SecondPass.run source) { object := q₁.object } () q₂ ∧ q₂.object = obj

theorem Relaid.assembles {name : Bytes} {source source' : List Bytes} {obj : Object}
    (h : Relaid source source') (hobj : Assembles name source obj) : Assembles name source' obj := by
  obtain ⟨q₁, q₂, hfirst, hsecond, rfl⟩ := hobj
  obtain ⟨_, r₁, hlines₁, hclose⟩ := runs_bind.mp hfirst
  obtain ⟨_, r₂, hlines₂, hsizes⟩ := runs_bind.mp hsecond
  obtain ⟨ls, r, hls, hr, -⟩ := Pass.runs_eachLine hlines₁
  have hstray := FirstPass.not_stray_of_runs hr
  obtain ⟨r₁', hlines₁', log, rfl⟩ :=
    h.runs_eachLine FirstPass.layoutless_line hls hstray hlines₁
  obtain ⟨r₂', hlines₂', log', rfl⟩ :=
    h.runs_eachLine SecondPass.layoutless_line hls hstray hlines₂
  -- What is left of each pass does not look at what was recorded.
  obtain rfl := runs_modify.mp hclose
  obtain ⟨rfl, hsizes⟩ := SecondPass.runs_checkSizes.mp hsizes
  exact ⟨_, _, runs_bind.mpr ⟨(), _, hlines₁', runs_modify.mpr rfl⟩,
    runs_bind.mpr ⟨(), _, hlines₂', SecondPass.runs_checkSizes.mpr ⟨rfl, hsizes⟩⟩, rfl⟩

theorem Assembles.of_relaid {name : Bytes} {source source' : List Bytes} {obj : Object}
    (h : Assembles name source obj) (hrelaid : Relation.ReflTransGen Relaid source source') :
    Assembles name source' obj := by
  induction hrelaid with
  | refl => exact h
  | tail _ hstep ih => exact hstep.assembles ih

/-- A source that assembles to an object assembles to the same one in any other layout: with labels
on lines of their own, with blank lines and comments put in, with any lines behind its end, and with
the end marked where it was not. -/
theorem assemble_ignores_layout {name source source' : Bytes} {lines : List Bytes} {obj : Object}
    (h : (Object.assemble name source).1 = .ok obj)
    (hlines : Assembler.readSource source' = .ok lines)
    (hrelaid : Relation.ReflTransGen Relaid (sourceLines source) lines) :
    (Object.assemble name source').1 = .ok obj := by
  have hobj : Assembles name (sourceLines source) obj := Object.assemble_runs h
  obtain ⟨q₁, q₂, hfirst, hsecond, rfl⟩ := hobj.of_relaid hrelaid
  exact Object.assemble_of_runs hlines hfirst hsecond

def denseLoop : Bytes := text ".section t\nf: jmp $f\n"

def spacedLoop : Bytes := text "# a loop\n.section t\nf:\n jmp $f# again\n.end\njmp\n"

/-- Every change of layout at once. The line behind the end would be refused in front of it. -/
theorem assemble_ignores_layout_spacedLoop : ∃ obj,
    (Object.assemble (text "a.o") denseLoop).1 = .ok obj ∧
    Relation.ReflTransGen Relaid (sourceLines denseLoop) (sourceLines spacedLoop) ∧
    obj.relocations.size = 1 ∧ (Object.assemble (text "a.o") spacedLoop).1 = .ok obj := by
  have hdense : (Object.assemble (text "a.o") denseLoop).1.toOption.map
      (fun obj => obj.relocations.size) = some 1 := by decide +kernel
  obtain ⟨obj, hobj, hsize⟩ := Option.map_eq_some_iff.mp hdense
  have h := eq_ok_of_toOption hobj
  have hlines : (Assembler.readSource spacedLoop).toOption = some (sourceLines spacedLoop) := by
    decide +kernel
  have hlabel : Lexeme.IsLabelText (text "f") (text "f:") :=
    ⟨by decide +kernel, [], [], by simp, by simp, by decide +kernel⟩
  have hblank : ∀ b ∈ Lexeme.stripComment (text "# a loop"), Lexeme.isSeparator b = true := by
    decide +kernel
  have hend : (SourceLine.read 1 (text ".end")).toOption = some ⟨none, .stop⟩ := by decide +kernel
  have hend := eq_ok_of_toOption hend
  have hrelaid : Relation.ReflTransGen Relaid
      [text ".section t", text "f:" ++ text " jmp $f"]
      [text "# a loop", text ".section t", text "f:", text " jmp $f" ++ Lexeme.hash :: text " again",
        text ".end", text "jmp"] :=
    .head (.further _ (.label hlabel _ _)) <| .head (.blank hblank _) <|
      .head (.further _ (.further _ (.further _ (.comment _ (text " again") _)))) <|
      .head (.further _ (.further _ (.further _ (.further _ (.ending hend))))) <|
      .single (.further _ (.further _ (.further _ (.further _ (.beyond hend rfl _ _)))))
  have hsource : sourceLines denseLoop = [text ".section t", text "f:" ++ text " jmp $f"] := by
    decide +kernel
  have hsource' : sourceLines spacedLoop = [text "# a loop", text ".section t", text "f:",
      text " jmp $f" ++ Lexeme.hash :: text " again", text ".end", text "jmp"] := by decide +kernel
  rw [← hsource, ← hsource'] at hrelaid
  exact ⟨obj, h, hrelaid, hsize,
    assemble_ignores_layout h (eq_ok_of_toOption hlines) hrelaid⟩

end AsmKit
