import AsmKit.Proofs.Assembled
import AsmKit.Proofs.Placement
import AsmKit.Proofs.Tokens

/-
  How objects are made. `Object.Change P` is one operation on an object, of which every symbol it
  stores satisfies `P`. Whatever is made of an empty object in this way is in order
  (`Built.regular`): symbols and relocations are sorted, and no section is there twice or has a
  place. Both passes only work through these operations, on the names of the source
  (`Object.makes_of_assemble`).
-/

namespace AsmKit

open Relation (ReflTransGen)

namespace Object

/-- The operations that objects are made with. -/
inductive Change (P : Symbol → Prop) (obj : Object) : Object → Prop where
  | addSection (name : Bytes) {obj' : Object} (h : obj.addSection name = .ok obj') :
      Change P obj obj'
  | append (name bytes : Bytes) : Change P obj (obj.modifySection name (·.append bytes))
  | createSymbol (name sectionName : Bytes) (value : UInt32) (size : Int64)
      (h : P { name, sectionName, value, number := obj.symbols.next, size }) :
      Change P obj { obj with symbols := obj.symbols.create name sectionName value size }
  | insertSymbol (sym : Symbol) (h : P sym) :
      Change P obj { obj with symbols := obj.symbols.insert sym }
  | modifySymbol (name : Bytes) (f : Symbol → Symbol)
      (h : ∀ s, s.name = name → P s → P { f s with name }) :
      Change P obj { obj with symbols := obj.symbols.modify name f }
  | addRelocation (r : Relocation) : Change P obj (obj.addRelocation r)

/-- An object is made of an empty one. -/
def Built (obj : Object) : Prop := ∃ name, ReflTransGen (Change fun _ => True) { name } obj

variable {P : Symbol → Prop} {obj obj' : Object}

theorem Change.built (h : Change P obj obj') : Change (fun _ => True) obj obj' := by
  cases h with
  | addSection name h => exact .addSection name h
  | append name bytes => exact .append name bytes
  | createSymbol name sectionName value size h =>
    exact .createSymbol name sectionName value size trivial
  | insertSymbol sym h => exact .insertSymbol sym trivial
  | modifySymbol name f h => exact .modifySymbol name f fun _ _ _ => trivial
  | addRelocation r => exact .addRelocation r

/-! ## Order -/

/-- The parts of an object are in order. -/
structure Regular (obj : Object) : Prop where
  symbols : obj.symbols.Ascending
  sections : obj.sectionNames.Nodup
  unplaced : ∀ s ∈ obj.sections, s.unplaced = s
  relocations : obj.relocations.entries.Pairwise fun a b => a.symbol ≤ b.symbol

theorem regular_empty (name : Bytes) : Regular { name } where
  symbols := SymbolTable.ascending_empty
  sections := List.nodup_nil
  unplaced _ hs := nomatch hs
  relocations := List.Pairwise.nil

theorem Regular.with_symbols (h : obj.Regular) {t : SymbolTable} (ht : t.Ascending) :
    Regular { obj with symbols := t } :=
  ⟨ht, h.sections, h.unplaced, h.relocations⟩

theorem Regular.addSection {name : Bytes} (h : obj.Regular)
    (hadd : obj.addSection name = .ok obj') : obj'.Regular := by
  obtain ⟨hnew, rfl⟩ := addSection_eq_ok_iff.mp hadd
  refine ⟨h.symbols, ?_, fun s hs => ?_, h.relocations⟩
  · unfold sectionNames at hnew ⊢
    rw [List.map_append]
    refine List.nodup_append.mpr ⟨h.sections, List.nodup_singleton name, fun n hn m hm he => ?_⟩
    rw [he, List.mem_singleton.mp hm] at hn
    exact hnew hn
  · obtain hs | hs := List.mem_append.mp hs
    · exact h.unplaced s hs
    · rw [List.mem_singleton.mp hs]
      rfl

theorem Regular.append (h : obj.Regular) (name bytes : Bytes) :
    (obj.modifySection name (·.append bytes)).Regular := by
  refine ⟨h.symbols, ?_, fun s hs => ?_, h.relocations⟩
  · rw [sectionNames_modifySection]
    exact h.sections
  · obtain ⟨old, hold, rfl⟩ := List.mem_map.mp hs
    have hplace := h.unplaced old hold
    split
    · have hlocation := congrArg Section.location hplace
      have hplaced := congrArg Section.isPlaced hplace
      unfold Section.unplaced Section.append
      dsimp only [Section.unplaced] at hlocation hplaced ⊢
      rw [hlocation, hplaced]
    · exact hplace

theorem Regular.addRelocation (h : obj.Regular) (r : Relocation) :
    (obj.addRelocation r).Regular :=
  ⟨h.symbols, h.sections, h.unplaced, RelocationTable.pairwise_add h.relocations r⟩

theorem Change.regular (h : Change P obj obj') (hobj : obj.Regular) : obj'.Regular := by
  cases h with
  | addSection name h => exact hobj.addSection h
  | append name bytes => exact hobj.append name bytes
  | createSymbol name sectionName value size h =>
    exact hobj.with_symbols (hobj.symbols.create name sectionName value size)
  | insertSymbol sym h => exact hobj.with_symbols (hobj.symbols.insert sym)
  | modifySymbol name f h => exact hobj.with_symbols (hobj.symbols.modify name f)
  | addRelocation r => exact hobj.addRelocation r

theorem Built.regular (h : obj.Built) : obj.Regular := by
  obtain ⟨name, h⟩ := h
  induction h with
  | refl => exact regular_empty name
  | tail _ hstep ih => exact hstep.regular ih

/-! ## Symbols -/

theorem Change.symbols (h : Change P obj obj') (hP : ∀ s ∈ obj.symbols.entries, P s) :
    ∀ s ∈ obj'.symbols.entries, P s := by
  intro s hs
  cases h with
  | addSection name h =>
    rw [(addSection_eq_ok_iff.mp h).2] at hs
    exact hP s hs
  | append name bytes => exact hP s hs
  | createSymbol name sectionName value size h =>
    obtain rfl | hs := Symbol.mem_put hs
    · exact h
    · exact hP s hs
  | insertSymbol sym h =>
    obtain rfl | hs := Symbol.mem_put hs
    · exact h
    · exact hP s hs
  | modifySymbol name f h =>
    obtain ⟨old, hold, rfl⟩ := List.mem_map.mp hs
    split
    · next hname => exact h old hname (hP old hold)
    · exact hP old hold
  | addRelocation r => exact hP s hs

/-! ## Names of the source -/

/-- An object is made of another, with symbols whose names satisfy a condition. -/
def Makes (N : Bytes → Prop) : Object → Object → Prop :=
  ReflTransGen (Change fun s => N s.name ∧ s.file = [])

variable {N : Bytes → Prop}

theorem Makes.built {name : Bytes} (h : Makes N { name } obj) : obj.Built :=
  ⟨name, ReflTransGen.mono (fun _ _ hstep => Change.built hstep) _ _ h⟩

theorem Makes.symbols (h : Makes N obj obj')
    (hobj : ∀ s ∈ obj.symbols.entries, N s.name ∧ s.file = []) :
    ∀ s ∈ obj'.symbols.entries, N s.name ∧ s.file = [] := by
  induction h with
  | refl => exact hobj
  | tail _ hstep ih => exact hstep.symbols ih

theorem makes_mention (obj : Object) {name : Bytes} (hname : N name) :
    Makes N obj { obj with symbols := obj.symbols.mention name } := by
  unfold SymbolTable.mention
  split
  · exact .refl
  · exact .single (.createSymbol name undefinedSection 0 Symbol.noSize ⟨hname, rfl⟩)

theorem makes_modify (obj : Object) (name : Bytes) {f : Symbol → Symbol}
    (hf : ∀ s, (f s).file = s.file) :
    Makes N obj { obj with symbols := obj.symbols.modify name f } := by
  refine .single (.modifySymbol name f fun s hname hs => ⟨?_, ?_⟩)
  · exact hname ▸ hs.1
  · exact (hf s).trans hs.2

variable {name sectionName : Bytes} {t : SymbolTable}

theorem makes_declare (obj : Object) (hname : N name) {f : Symbol → Symbol}
    (hf : ∀ s, (f s).file = s.file) :
    Makes N obj { obj with symbols := (obj.symbols.mention name).modify name f } :=
  (makes_mention obj hname).trans (makes_modify _ name hf)

theorem makes_global (hname : N name) (h : obj.symbols.declareGlobal name = .ok t) :
    Makes N obj { obj with symbols := t } := by
  unfold SymbolTable.declareGlobal at h
  split at h
  · cases h
  · cases h
    exact makes_declare obj hname fun _ => rfl

theorem makes_extern (hname : N name) (h : obj.symbols.declareExtern name = .ok t) :
    Makes N obj { obj with symbols := t } := by
  unfold SymbolTable.declareExtern at h
  split at h
  · cases h
  · split at h
    · cases h
    · cases h
      exact makes_declare obj hname fun _ => rfl

theorem makes_label {value : UInt32} (hname : N name)
    (h : obj.symbols.defineLabel name sectionName value = .ok t) :
    Makes N obj { obj with symbols := t } := by
  unfold SymbolTable.defineLabel at h
  split at h
  · cases h
  · split at h
    · cases h
    · cases h
      exact makes_declare obj hname fun _ => rfl

theorem makes_section (hname : N name) (h : obj.symbols.defineSection name = .ok t) :
    Makes N obj { obj with symbols := t } := by
  unfold SymbolTable.defineSection at h
  split at h
  · cases h
  · cases h
    exact .head (.createSymbol name name 0 0 ⟨hname, rfl⟩) (makes_modify _ name fun _ => rfl)

theorem makes_closeSection (obj : Object) (name : Bytes) (length : UInt32) :
    Makes N obj { obj with symbols := obj.symbols.closeSection name length } := by
  unfold SymbolTable.closeSection
  split
  · exact .refl
  · exact makes_modify obj name fun _ => rfl

theorem makes_emit (obj : Object) (name : Bytes) (e : Emission) :
    Makes N obj (obj.emit name e) := by
  have hrelocations (rels : List Relocation) (obj : Object) :
      Makes N obj { obj with relocations := rels.foldl RelocationTable.add obj.relocations } := by
    induction rels generalizing obj with
    | nil => exact .refl
    | cons r rels ih => exact .head (.addRelocation r) (ih (obj.addRelocation r))
  have hrels := hrelocations (e.references.map fun r =>
    ⟨r.symbol, r.type, ((obj.findSection name).map Section.length).getD 0 + r.offset, name⟩)
    (obj.modifySection name (·.append e.bytes))
  rw [List.foldl_map] at hrels
  exact .head (.append name e.bytes) hrels

end Object

/-! ## Pass one -/

namespace FirstPass

open Object (Makes)

variable {N : Bytes → Prop} {p q : Progress} {line : Nat} {arguments : List Token}

theorem steady_makes (N : Bytes → Prop) : Steady fun p q => Makes N p.object q.object where
  record _ _ := .refl
  trans _ _ _ hpq hqr := hpq.trans hqr

theorem makes_globals (hN : ∀ t ∈ arguments, t.kind = .symbol → N t.word)
    (h : Runs (globals line arguments) p () q) : Makes N p.object q.object :=
  ((steady_makes N).observes_names fun t ht hkind _ _ hchange =>
    Object.makes_global (hN t ht hkind) hchange).runs p () q h

theorem makes_externs (hN : ∀ t ∈ arguments, t.kind = .symbol → N t.word)
    (h : Runs (externs line arguments) p () q) : Makes N p.object q.object :=
  ((steady_makes N).observes_names fun t ht hkind _ _ hchange =>
    Object.makes_extern (hN t ht hkind) hchange).runs p () q h

theorem makes_openSection (hN : ∀ t ∈ arguments, t.kind = .symbol → N t.word)
    (h : Runs (openSection line arguments) p () q) : Makes N p.object q.object := by
  simp only [openSection, closeSection, runs_bind, runs_changeSymbols, runs_modify, runs_get,
    Pass.runs_check] at h
  obtain ⟨name, _, ⟨hname, rfl⟩, _, _, ⟨t, ht, rfl⟩, _, _, rfl, _, _, ⟨rfl, rfl⟩, hadd⟩ := h
  have hN' : N name := by
    unfold newSection at hname
    split at hname
    · cases hname
      exact hN _ (List.mem_singleton_self _) rfl
    · cases hname
  split at hadd
  · obtain ⟨_, _, hthrow, -⟩ := runs_bind.mp hadd
    exact absurd hthrow runs_throw
  · next obj hobj =>
    simp only [runs_bind, runs_set, Pass.runs_record] at hadd
    obtain ⟨_, _, rfl, rfl⟩ := hadd
    exact ((Object.makes_section hN' ht).trans (Object.makes_closeSection _ _ _)).tail
      (.addSection name hobj)

theorem makes_words (hN : ∀ t ∈ arguments, t.kind = .symbol → N t.word)
    (h : Runs (words line arguments) p () q) : Makes N p.object q.object := by
  simp only [words, advance, runs_bind, runs_needSection, Pass.runs_check, runs_modify] at h
  obtain ⟨_, _, ⟨-, rfl⟩, items, p, ⟨hitems, rfl⟩, _, r, hloop, rfl⟩ := h
  refine ((steady_makes N).observes_items fun t ht hkind p => ?_).runs p () r hloop
  exact Object.makes_mention _ (hN t (Token.of_mem_listOf hitems ht).1 hkind)

/-- Once its symbols are declared, a statement that opens no section leaves the object alone. -/
theorem Completes.object_eq {st : Statement} (h : Completes st p q) (hopens : st.opens? = none) :
    q.object = p.object := by
  cases h with
  | opens hsome => exact absurd (hsome.symm.trans hopens) (by simp)
  | advances _ _ hq => rw [hq]

theorem makes_statement {st : Statement} (hN : ∀ t ∈ st.arguments, t.kind = .symbol → N t.word)
    (h : Runs (statement line st) p () q) : Makes N p.object q.object := by
  match st with
  | .nothing | .stop =>
    obtain ⟨-, rfl⟩ := runs_pure.mp h
    exact .refl
  | .directive .globals arguments => exact makes_globals hN h
  | .directive .externs arguments => exact makes_externs hN h
  | .directive .openSection arguments => exact makes_openSection hN h
  | .directive .words arguments => exact makes_words hN h
  | .directive .skip arguments =>
    rw [(runs_skip h).object_eq rfl]
    exact .refl
  | .instruction name arguments =>
    have hdone : Completes (.instruction name arguments) p q := runs_instruction h
    rw [hdone.object_eq rfl]
    exact .refl
  | .stray word => exact absurd h runs_throw

theorem makes_line {number : Nat} {l : SourceLine} (hl : l.Mentions N)
    (h : Runs (FirstPass.line number l) p () q) : Makes N p.object q.object := by
  unfold FirstPass.line at h
  rcases hlabel : l.label? with _ | name
  · rw [hlabel] at h
    exact makes_statement hl.symbols h
  · rw [hlabel] at h
    obtain ⟨_, r, hr, hst⟩ := runs_bind.mp h
    have hdefine := ((steady_makes N).observes_label fun p _ _ _ ht =>
      Object.makes_label (hl.label name hlabel) ht).runs p () r hr
    exact hdefine.trans (makes_statement hl.symbols hst)

end FirstPass

/-! ## Both passes -/

open Object (Makes)

variable {N : Bytes → Prop} {p q : Progress}

theorem SecondPass.makes_line {number : Nat} {l : SourceLine}
    (h : Runs (SecondPass.line number l) p () q) : Makes N p.object q.object := by
  cases runs_line h with
  | opens _ _ hq =>
    rw [hq]
    exact .refl
  | emits _ _ _ hq =>
    rw [hq]
    exact Object.makes_emit ..
  | silent _ _ _ hq =>
    rw [hq]
    exact .refl

theorem Pass.makes_steps {step : Nat → SourceLine → Pass Unit} {number : Nat} {ls : List SourceLine}
    (hstep : ∀ l ∈ ls, ∀ number p q, Runs (step number l) p () q → Makes N p.object q.object)
    (h : Runs (steps step number ls) p () q) : Makes N p.object q.object := by
  induction ls generalizing number p with
  | nil =>
    obtain ⟨-, rfl⟩ := runs_pure.mp h
    exact .refl
  | cons l ls ih =>
    obtain ⟨_, r, hr, hrest⟩ := runs_bind.mp h
    exact (hstep l (List.mem_cons_self ..) number p r hr).trans
      (ih (fun l' hl' => hstep l' (List.mem_cons_of_mem l hl')) hrest)

/-- An assembled object is made of an empty one with the names of its source, which are shorter than
its lines may be. -/
theorem Object.makes_of_assemble {name source : Bytes} {obj : Object}
    (h : (Object.assemble name source).1 = .ok obj) :
    Makes (IsName Assembler.lineLimit) { name } obj := by
  obtain ⟨q₁, q₂, hfirst, hsecond, rfl⟩ := assemble_runs h
  simp only [FirstPass.run, FirstPass.closeSection, runs_bind, runs_modify] at hfirst
  obtain ⟨_, r, hr, rfl⟩ := hfirst
  obtain ⟨ls, r', hls, hr', hlog⟩ := Pass.runs_eachLine hr
  have hnames := SourceLine.mentions_of_readAll hls fun raw hraw => Lines.length_lt_of_mem_read hraw
  have hlines : Makes (IsName Assembler.lineLimit) { name } r.object := by
    rw [hlog]
    exact Pass.makes_steps (fun l hl _ _ _ h => FirstPass.makes_line (hnames l hl) h) hr'
  obtain ⟨_, q, hwritten, hcheck⟩ := runs_bind.mp hsecond
  obtain ⟨rfl, -⟩ := SecondPass.runs_checkSizes.mp hcheck
  obtain ⟨ls', p, -, hp, hlog'⟩ := Pass.runs_eachLine hwritten
  have hbytes := Pass.makes_steps (N := IsName Assembler.lineLimit)
    (fun l _ _ _ _ h => SecondPass.makes_line h) hp
  rw [hlog']
  exact (hlines.trans (Object.makes_closeSection _ _ _)).trans hbytes

end AsmKit
