import AsmKit.Proofs.DeclaredSymbols

/-
  Two runs side by side. `Simulates R S m m'` says that whatever `m` does from a state, `m'` does
  from any state that `R` relates to it, and that `S` relates what they leave. Pass one asks little
  of a state: where it stands, and what is declared. So a relation that agrees on these
  (`FirstPass.Parallel`) is kept through every statement; what opening a section takes is asked for
  apart.
-/

namespace AsmKit

section

variable {ε σ α β : Type} {R S T : σ → σ → Prop} {m m' : ExceptT ε (StateM σ) α}

/-- What the first stage does from a state, the second does from any related one. They come to the
same value and leave related states. -/
def Simulates (R S : σ → σ → Prop) (m m' : ExceptT ε (StateM σ) α) : Prop :=
  ∀ p p' a q, R p p' → Runs m p a q → ∃ q', Runs m' p' a q' ∧ S q q'

theorem simulates_pure (a : α) : Simulates R R (pure a : ExceptT ε (StateM σ) α) (pure a) := by
  intro p p' b q hp h
  obtain ⟨rfl, rfl⟩ := runs_pure.mp h
  exact ⟨p', runs_pure.mpr ⟨rfl, rfl⟩, hp⟩

theorem simulates_throw (e : ε) (m' : ExceptT ε (StateM σ) α) : Simulates R S (throw e) m' :=
  fun _ _ _ _ _ h => absurd h runs_throw

theorem simulates_modify {f f' : σ → σ} (h : ∀ p p', R p p' → S (f p) (f' p')) :
    Simulates R S (modify f : ExceptT ε (StateM σ) Unit) (modify f') := by
  intro p p' _ q hp hq
  rw [runs_modify.mp hq]
  exact ⟨f' p', runs_modify.mpr rfl, h p p' hp⟩

theorem simulates_set {s s' : σ} (h : S s s') :
    Simulates R S (set s : ExceptT ε (StateM σ) Unit) (set s') := by
  intro p p' _ q _ hq
  rw [runs_set.mp hq]
  exact ⟨s', runs_set.mpr rfl, h⟩

theorem Simulates.bind {f f' : α → ExceptT ε (StateM σ) β} (hm : Simulates R S m m')
    (hf : ∀ a, Simulates S T (f a) (f' a)) : Simulates R T (m >>= f) (m' >>= f') := by
  intro p p' b q hp h
  obtain ⟨a, r, hr, hq⟩ := runs_bind.mp h
  obtain ⟨r', hr', hrel⟩ := hm p p' a r hp hr
  obtain ⟨q', hq', hrel'⟩ := hf a r r' b q hrel hq
  exact ⟨q', runs_bind.mpr ⟨a, r', hr', hq'⟩, hrel'⟩

/-- The state that a stage looks at differs, so each goes on with its own. -/
theorem simulates_get {f f' : σ → ExceptT ε (StateM σ) β}
    (h : ∀ p p', R p p' → Simulates R S (f p) (f' p')) : Simulates R S (get >>= f) (get >>= f') := by
  intro p p' b q hp hq
  obtain ⟨_, _, hget, hq⟩ := runs_bind.mp hq
  obtain ⟨rfl, rfl⟩ := runs_get.mp hget
  obtain ⟨q', hq', hrel⟩ := h _ p' hp _ p' b q hp hq
  exact ⟨q', runs_bind.mpr ⟨p', p', runs_get.mpr ⟨rfl, rfl⟩, hq'⟩, hrel⟩

theorem simulates_forM {γ : Type} {f : α → ExceptT ε (StateM σ) Unit}
    {f' : γ → ExceptT ε (StateM σ) Unit} {xs : List α} {xs' : List γ}
    (h : List.Forall₂ (fun x x' => Simulates R R (f x) (f' x')) xs xs') :
    Simulates R R (forM xs f) (forM xs' f') := by
  induction h with
  | nil => exact simulates_pure ()
  | cons hx _ ih =>
    rw [List.forM_cons, List.forM_cons]
    exact hx.bind fun _ => ih

end

/-! ## Pass one -/

/-- The table after a declaration, unless it is refused. -/
def SymbolTable.declare (t : SymbolTable) : Declaration → Except Error.Kind SymbolTable
  | .mentioned name => .ok (t.mention name)
  | .exported name => t.declareGlobal name
  | .imported name => t.declareExtern name
  | .labelled name sectionName address => t.defineLabel name sectionName address
  | .opened name => t.defineSection name

/-- A state with other symbols. -/
def Progress.withSymbols (p : Progress) (symbols : SymbolTable) : Progress :=
  { p with object := { p.object with symbols } }

namespace FirstPass

/-- States that stand at the same place and between which no declaration tells a difference, other
than that of a section. What they have recorded does not matter. -/
structure Parallel (R : Progress → Progress → Prop) : Prop where
  record : ∀ {p p'} log log', R p p' → R { p with log } { p' with log := log' }
  place : ∀ {p p'}, R p p' → p'.sectionName = p.sectionName ∧ p'.counter = p.counter
  advance : ∀ {p p'} n, R p p' →
    R { p with counter := p.counter + n } { p' with counter := p'.counter + n }
  declare : ∀ {p p'} d, (∀ name, d ≠ .opened name) → R p p' →
    ∀ t, p.object.symbols.declare d = .ok t →
      ∃ t', p'.object.symbols.declare d = .ok t' ∧ R (p.withSymbols t) (p'.withSymbols t')

/-- Between the states it does not matter either that a section of this name is opened. -/
def Opens (R : Progress → Progress → Prop) (name : Bytes) : Prop :=
  ∀ p p', R p p' → ∀ t, p.object.symbols.defineSection name = .ok t →
    name ∉ p.object.sectionNames → ∃ t', p'.object.symbols.defineSection name = .ok t' ∧
      name ∉ p'.object.sectionNames ∧ R (opening p name t) (opening p' name t')

variable {R : Progress → Progress → Prop} {line line' : Nat} {arguments arguments' : List Token}

theorem simulates_check {α : Type} {x x' : Except Error.Complaint α}
    (h : ∀ a, x = .ok a → x' = .ok a) : Simulates R R (Pass.check line x) (Pass.check line' x') := by
  intro p p' a q hp hq
  obtain ⟨hx, rfl⟩ := Pass.runs_check.mp hq
  exact ⟨p', Pass.runs_check.mpr ⟨h a hx, rfl⟩, hp⟩

namespace Parallel

theorem simulates_record (hR : Parallel R) (e e' : Event) :
    Simulates R R (Pass.record e) (Pass.record e') :=
  simulates_modify fun _ _ => hR.record _ _

theorem simulates_advance (hR : Parallel R) (n : UInt32) :
    Simulates R R (FirstPass.advance n) (FirstPass.advance n) :=
  simulates_modify fun _ _ => hR.advance n

theorem simulates_needSection (hR : Parallel R) (name name' : Bytes) :
    Simulates R R (needSection line name) (needSection line' name') := by
  intro p p' _ q hp hq
  obtain ⟨hs, rfl⟩ := runs_needSection.mp hq
  rw [← (hR.place hp).1] at hs
  exact ⟨p', runs_needSection.mpr ⟨hs, rfl⟩, hp⟩

theorem simulates_declare (hR : Parallel R) {name name' : Bytes} (d : Declaration)
    (hd : ∀ name, d ≠ .opened name) :
    Simulates R R (changeSymbols line name fun t => t.declare d)
      (changeSymbols line' name' fun t => t.declare d) := by
  intro p p' _ q hp hq
  obtain ⟨t, ht, rfl⟩ := runs_changeSymbols.mp hq
  obtain ⟨t', ht', hrel⟩ := hR.declare d hd hp t ht
  exact ⟨_, runs_changeSymbols.mpr ⟨t', ht', rfl⟩, hrel⟩

theorem simulates_label (hR : Parallel R) (name : Bytes) :
    Simulates R R (label line name) (label line' name) := by
  refine (hR.simulates_needSection name name).bind fun _ => simulates_get fun p p' hp => ?_
  rw [(hR.place hp).1, (hR.place hp).2]
  exact (hR.simulates_declare (.labelled name p.sectionName p.counter) nofun).bind fun _ =>
    hR.simulates_record _ _

/-- A directive that goes through a list of names and declares each. -/
theorem simulates_names (hR : Parallel R) {head : Bytes} (declaration : Bytes → Declaration)
    {event : Bytes → Nat → Bytes → Event} (hd : ∀ n name, declaration n ≠ .opened name) :
    Simulates R R (names line head (fun name symbols => symbols.declare (declaration name)) event
      arguments) (names line' head (fun name symbols => symbols.declare (declaration name)) event
      arguments) := by
  refine (simulates_check fun _ h => h).bind fun names => simulates_forM ?_
  refine List.forall₂_same.mpr fun t _ => ?_
  refine (hR.simulates_declare (declaration t.word) (hd t.word)).bind fun _ => ?_
  exact simulates_get fun _ _ _ => hR.simulates_record _ _

/-- A list of words whose items are simulated one by one. -/
theorem simulates_words (hR : Parallel R)
    (h : ∀ items, Token.listOf Directive.words.spelling TokenKind.isWordItem arguments = .ok items →
      ∃ items', Token.listOf Directive.words.spelling TokenKind.isWordItem arguments' = .ok items' ∧
        List.Forall₂ (fun t t' => Simulates R R (item line t) (item line' t')) items items') :
    Simulates R R (words line arguments) (words line' arguments') := by
  refine (hR.simulates_needSection _ _).bind fun _ => ?_
  intro p p' _ q hp hq
  obtain ⟨items, p, hcheck, hloop⟩ := runs_bind.mp hq
  obtain ⟨hitems, rfl⟩ := Pass.runs_check.mp hcheck
  obtain ⟨items', hitems', hforall⟩ := h items hitems
  have hitem := (simulates_forM hforall).bind fun _ =>
    hR.simulates_advance (4 * UInt32.ofNat items.length)
  obtain ⟨q', hq', hrel⟩ := hitem p p' () q hp hloop
  rw [hforall.length_eq] at hq'
  exact ⟨q', runs_bind.mpr ⟨items', p', Pass.runs_check.mpr ⟨hitems', rfl⟩, hq'⟩, hrel⟩

theorem simulates_item (hR : Parallel R) (t : Token) :
    Simulates R R (item line t) (item line' t) := by
  unfold item
  split
  · refine simulates_modify fun p p' hp => ?_
    obtain ⟨t', ht', hrel⟩ := hR.declare (.mentioned t.word) nofun hp _ rfl
    cases ht'
    exact hrel
  · exact (simulates_check fun _ h => h).bind fun _ => simulates_pure ()

theorem simulates_openSection (hR : Parallel R)
    (hopens : ∀ name, newSection arguments = .ok name → Opens R name) :
    Simulates R R (openSection line arguments) (openSection line' arguments) := by
  intro p p' _ q hp hq
  obtain ⟨name, t, hname, ht, hnew, rfl⟩ := runs_openSection_iff.mp hq
  obtain ⟨t', ht', hnew', hrel⟩ := hopens name hname p p' hp t ht hnew
  exact ⟨_, runs_openSection_iff.mpr ⟨name, t', hname, ht', hnew', rfl⟩, hR.record _ _ hrel⟩

theorem simulates_skip (hR : Parallel R) :
    Simulates R R (skip line arguments) (skip line' arguments) := by
  refine (hR.simulates_needSection _ _).bind fun _ => ?_
  exact (simulates_check fun _ h => h).bind fun n => hR.simulates_advance n

theorem simulates_instruction (hR : Parallel R) (name : Bytes) :
    Simulates R R (instruction line name) (instruction line' name) := by
  unfold instruction
  split
  · exact simulates_throw _ _
  · next i _ => exact (hR.simulates_needSection _ _).bind fun _ => hR.simulates_advance i.size

/-- Every statement is simulated by itself. -/
theorem simulates_statement (hR : Parallel R) (st : Statement)
    (hopens : ∀ name, st.opens? = some name → Opens R name) :
    Simulates R R (statement line st) (statement line' st) := by
  match st with
  | .nothing | .stop => exact simulates_pure ()
  | .directive .globals arguments => exact hR.simulates_names .exported nofun
  | .directive .externs arguments => exact hR.simulates_names .imported nofun
  | .directive .openSection arguments =>
    exact hR.simulates_openSection fun name hname => hopens name (opens_of_newSection hname)
  | .directive .words arguments =>
    exact hR.simulates_words fun items hitems =>
      ⟨items, hitems, List.forall₂_same.mpr fun t _ => hR.simulates_item t⟩
  | .directive .skip arguments => exact hR.simulates_skip
  | .instruction name arguments => exact hR.simulates_instruction name
  | .stray word => exact simulates_throw _ _

/-- A line is simulated by one that has the same label, if the statements are. -/
theorem simulates_line (hR : Parallel R) {l l' : SourceLine} (hlabel : l'.label? = l.label?)
    (hstatement : Simulates R R (statement line l.statement) (statement line' l'.statement)) :
    Simulates R R (FirstPass.line line l) (FirstPass.line line' l') := by
  unfold FirstPass.line
  rw [hlabel]
  rcases l.label? with _ | name
  · exact hstatement
  · exact (hR.simulates_label name).bind fun _ => hstatement

end Parallel

end FirstPass

end AsmKit
