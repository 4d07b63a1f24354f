import AsmKit.Proofs.Composition
import AsmKit.Proofs.Measure

/-
  The symbol table that pass one leaves, told from the declarations of the source. A line mentions,
  exports, imports, labels or opens names (`PlacedLine.declarations`), and a symbol is what all
  declarations of its name make of it together (`Symbol.Reflects`). No part of this depends on the
  order in which they come: only the numbers of the symbols do.
-/

namespace AsmKit

/-! ## Declarations -/

/-- What a line says about one name. -/
inductive Declaration where
  | mentioned (name : Bytes)
  | exported (name : Bytes)
  | imported (name : Bytes)
  | labelled (name sectionName : Bytes) (address : UInt32)
  | opened (name : Bytes)
deriving DecidableEq

namespace Declaration

def name : Declaration → Bytes
  | .mentioned name | .exported name | .imported name | .labelled name _ _ | .opened name => name

/-- The section and the address that a declaration gives its symbol. -/
def place? : Declaration → Option (Bytes × UInt32)
  | .labelled _ sectionName address => some (sectionName, address)
  | .opened name => some (name, 0)
  | _ => none

/-- What a declaration makes of a symbol. -/
def apply (s : Symbol) : Declaration → Symbol
  | .mentioned _ => s
  | .exported _ => { s with isGlobal := true }
  | .imported _ => { s with isExtern := true }
  | .labelled _ sectionName value => { s with sectionName, value, isDefined := true }
  | .opened name => { s with sectionName := name, value := 0, size := 0, isDefined := true }

theorem name_apply (s : Symbol) (d : Declaration) : (d.apply s).name = s.name := by
  cases d <;> rfl

end Declaration

namespace Statement

/-- The declarations that a statement makes. -/
def declarations : Statement → List Declaration
  | .directive .globals arguments => (Token.listed arguments).map fun t => .exported t.word
  | .directive .externs arguments => (Token.listed arguments).map fun t => .imported t.word
  | .directive .words arguments =>
    (Token.listed arguments).flatMap fun t => if t.kind = .symbol then [.mentioned t.word] else []
  | .directive .openSection (t :: _) => [.opened t.word]
  | _ => []

end Statement

namespace PlacedLine

/-- The declarations that a line makes where it stands. -/
def declarations (x : PlacedLine) : List Declaration :=
  (x.line.label?.map fun name => .labelled name x.sectionName (UInt32.ofNat x.offset)).toList ++
    x.line.statement.declarations

end PlacedLine

/-! ## Symbols that reflect declarations -/

/-- The symbol is what the declarations of its name say. -/
structure Symbol.Reflects (ds : List Declaration) (s : Symbol) : Prop where
  exported : s.isGlobal = true ↔ .exported s.name ∈ ds
  imported : s.isExtern = true ↔ .imported s.name ∈ ds
  defined : s.isDefined = true ↔ ∃ d ∈ ds, d.name = s.name ∧ d.place?.isSome = true
  place : ∀ d ∈ ds, d.name = s.name → ∀ x, d.place? = some x → (s.sectionName, s.value) = x
  blank : s.isDefined = false → (s.sectionName, s.value) = (undefinedSection, 0)
  file : s.file = []

namespace Symbol

/-- A symbol apart from its number, which tells when it came up first. -/
def unnumbered (s : Symbol) : Symbol := { s with number := 0 }

variable {ds ds' : List Declaration} {s s' : Symbol}

theorem reflects_blank {name : Bytes} (number : Int64) (h : ∀ d ∈ ds, d.name ≠ name) :
    (Symbol.blank name number).Reflects ds := by
  constructor
  · exact ⟨fun e => (nomatch e), fun hd => absurd rfl (h _ hd)⟩
  · exact ⟨fun e => (nomatch e), fun hd => absurd rfl (h _ hd)⟩
  · refine ⟨fun e => (nomatch e), ?_⟩
    intro ⟨d, hd, hname, _⟩
    exact absurd hname (h d hd)
  · intro d hd hname
    exact absurd hname (h d hd)
  · exact fun _ => rfl
  · rfl

/-- Declarations of other names do not matter. -/
theorem Reflects.skip (h : s.Reflects ds) {d : Declaration} (hd : d.name ≠ s.name) :
    s.Reflects (ds ++ [d]) := by
  have hmem (d' : Declaration) (hd' : d'.name = s.name) : d' ∈ ds ++ [d] ↔ d' ∈ ds := by
    rw [List.mem_append, List.mem_singleton]
    constructor
    · intro hor
      exact hor.resolve_right fun e => hd (e ▸ hd')
    · exact .inl
  constructor
  · rw [hmem _ rfl]
    exact h.exported
  · rw [hmem _ rfl]
    exact h.imported
  · rw [h.defined]
    constructor
    · intro ⟨d', hd', hname, hplace⟩
      exact ⟨d', (hmem d' hname).mpr hd', hname, hplace⟩
    · intro ⟨d', hd', hname, hplace⟩
      exact ⟨d', (hmem d' hname).mp hd', hname, hplace⟩
  · intro d' hd' hname
    exact h.place d' ((hmem d' hname).mp hd') hname
  · exact h.blank
  · exact h.file

/-- A declaration that does not define its symbol leaves it where it is. -/
theorem Reflects.place_append (h : s.Reflects ds) {d : Declaration} (hd : d.place? = none) :
    (s.isDefined = true ↔ ∃ d' ∈ ds ++ [d], d'.name = s.name ∧ d'.place?.isSome = true) ∧
      ∀ d' ∈ ds ++ [d], d'.name = s.name → ∀ x, d'.place? = some x → (s.sectionName, s.value) = x := by
  have hmem (d' : Declaration) (hplace : d'.place?.isSome = true) : d' ∈ ds ++ [d] ↔ d' ∈ ds := by
    rw [List.mem_append, List.mem_singleton]
    constructor
    · refine fun hor => hor.resolve_right fun e => ?_
      rw [e, hd] at hplace
      cases hplace
    · exact .inl
  constructor
  · rw [h.defined]
    constructor
    · intro ⟨d', hd', hname, hplace⟩
      exact ⟨d', (hmem d' hplace).mpr hd', hname, hplace⟩
    · intro ⟨d', hd', hname, hplace⟩
      exact ⟨d', (hmem d' hplace).mp hd', hname, hplace⟩
  · intro d' hd' hname x hx
    exact h.place d' ((hmem d' (by rw [hx]; rfl)).mp hd') hname x hx

/-- One that does puts it where it says, if nothing did before. -/
theorem Reflects.defines (h : s.Reflects ds) (hs : s.isDefined = false) {d : Declaration}
    (hname : d.name = s.name) {x : Bytes × UInt32} (hx : d.place? = some x) :
    (∃ d' ∈ ds ++ [d], d'.name = s.name ∧ d'.place?.isSome = true) ∧
      ∀ d' ∈ ds ++ [d], d'.name = s.name → ∀ x', d'.place? = some x' → x = x' := by
  constructor
  · exact ⟨d, List.mem_append_right _ (List.mem_singleton_self d), hname, by rw [hx]; rfl⟩
  · intro d' hd' hname' x' hx'
    rcases List.mem_append.mp hd' with hd' | hd'
    · have hdef := h.defined.mpr ⟨d', hd', hname', by rw [hx']; rfl⟩
      rw [hs] at hdef
      cases hdef
    · rw [List.mem_singleton.mp hd', hx] at hx'
      exact Option.some.inj hx'

theorem Reflects.apply (h : s.Reflects ds) {d : Declaration} (hname : d.name = s.name)
    (hfree : d.place?.isSome = true → s.isDefined = false) : (d.apply s).Reflects (ds ++ [d]) := by
  have hother (d' : Declaration) (hne : d' ≠ d) : d' ∈ ds ++ [d] ↔ d' ∈ ds := by
    rw [List.mem_append, List.mem_singleton]
    exact ⟨fun hor => hor.resolve_right hne, .inl⟩
  have hlast : d ∈ ds ++ [d] := List.mem_append_right _ (List.mem_singleton_self d)
  cases d with
  | mentioned name =>
    obtain ⟨hdef, hplace⟩ := h.place_append (d := .mentioned name) rfl
    refine ⟨?_, ?_, hdef, hplace, h.blank, h.file⟩
    · exact h.exported.trans (hother _ (by intro e; cases e)).symm
    · exact h.imported.trans (hother _ (by intro e; cases e)).symm
  | exported name =>
    obtain ⟨hdef, hplace⟩ := h.place_append (d := .exported name) rfl
    obtain rfl : name = s.name := hname
    refine ⟨?_, ?_, hdef, hplace, h.blank, h.file⟩
    · exact ⟨fun _ => hlast, fun _ => rfl⟩
    · exact h.imported.trans (hother _ (by intro e; cases e)).symm
  | imported name =>
    obtain ⟨hdef, hplace⟩ := h.place_append (d := .imported name) rfl
    obtain rfl : name = s.name := hname
    refine ⟨?_, ?_, hdef, hplace, h.blank, h.file⟩
    · exact h.exported.trans (hother _ (by intro e; cases e)).symm
    · exact ⟨fun _ => hlast, fun _ => rfl⟩
  | labelled name sectionName address =>
    obtain ⟨hdef, hplace⟩ := h.defines (hfree rfl) hname rfl
    refine ⟨?_, ?_, ⟨fun _ => hdef, fun _ => rfl⟩, hplace, fun e => (nomatch e), h.file⟩
    · exact h.exported.trans (hother _ (by intro e; cases e)).symm
    · exact h.imported.trans (hother _ (by intro e; cases e)).symm
  | opened name =>
    obtain ⟨hdef, hplace⟩ := h.defines (hfree rfl) hname rfl
    refine ⟨?_, ?_, ⟨fun _ => hdef, fun _ => rfl⟩, hplace, fun e => (nomatch e), h.file⟩
    · exact h.exported.trans (hother _ (by intro e; cases e)).symm
    · exact h.imported.trans (hother _ (by intro e; cases e)).symm

/-- Declarations determine a symbol up to its size and its number. -/
theorem Reflects.unique (h : s.Reflects ds) (h' : s'.Reflects ds') (hds : ∀ d, d ∈ ds ↔ d ∈ ds')
    (hname : s.name = s'.name) (hsize : s.size = s'.size) : s.unnumbered = s'.unnumbered := by
  have hglobal : s.isGlobal = s'.isGlobal := by
    rw [Bool.eq_iff_iff, h.exported, h'.exported, hname, hds]
  have hextern : s.isExtern = s'.isExtern := by
    rw [Bool.eq_iff_iff, h.imported, h'.imported, hname, hds]
  have hdefined : s.isDefined = s'.isDefined := by
    rw [Bool.eq_iff_iff, h.defined, h'.defined, hname]
    simp only [hds]
  have hplace : (s.sectionName, s.value) = (s'.sectionName, s'.value) := by
    rcases hd : s'.isDefined with _ | _
    · rw [h.blank (hdefined.trans hd), h'.blank hd]
    · obtain ⟨d, hmem, hdname, hsome⟩ := h'.defined.mp hd
      obtain ⟨x, hx⟩ := Option.isSome_iff_exists.mp hsome
      rw [h'.place d hmem hdname x hx]
      exact h.place d ((hds d).mpr hmem) (hdname.trans hname.symm) x hx
  have hsection : s.sectionName = s'.sectionName := congrArg Prod.fst hplace
  have hvalue : s.value = s'.value := congrArg Prod.snd hplace
  unfold unnumbered
  rw [hname, hsection, hvalue, hglobal, hextern, hsize, hdefined, h.file, h'.file]

end Symbol

/-! ## Tables -/

namespace SymbolTable

/-- The table has a symbol for each name that is declared and for no other, and each is what the
declarations say. -/
structure Reflects (ds : List Declaration) (t : SymbolTable) : Prop where
  known : ∀ n, (t.get? n).isSome = true ↔ ∃ d ∈ ds, d.name = n
  symbols : ∀ n s, t.get? n = some s → s.Reflects ds

/-- The table after one more declaration, which does not define what is defined already. -/
structure Enters (d : Declaration) (t t' : SymbolTable) : Prop where
  free : d.place?.isSome = true → ∀ s, t.get? d.name = some s → s.isDefined = false
  change : ∀ n, t'.get? n =
    if n = d.name then some (d.apply ((t.get? n).getD (Symbol.blank n t.next))) else t.get? n

variable {t t' : SymbolTable} {ds : List Declaration} {d : Declaration} {name : Bytes}

theorem reflects_empty : Reflects [] {} where
  known n := by simp [get?]
  symbols _ _ h := nomatch h

theorem Reflects.enters (h : Reflects ds t) (he : Enters d t t') : Reflects (ds ++ [d]) t' := by
  constructor
  · intro n
    rw [he.change]
    split
    · next hn =>
      refine ⟨fun _ => ⟨d, ?_, hn.symm⟩, fun _ => rfl⟩
      exact List.mem_append_right _ (List.mem_singleton_self d)
    · next hn =>
      rw [h.known]
      constructor
      · intro ⟨d', hd', hname⟩
        exact ⟨d', List.mem_append_left _ hd', hname⟩
      · intro ⟨d', hd', hname⟩
        refine ⟨d', (List.mem_append.mp hd').resolve_right fun e => ?_, hname⟩
        rw [List.mem_singleton.mp e] at hname
        exact hn hname.symm
  · intro n s hs
    rw [he.change] at hs
    split at hs
    · next hn =>
      cases hs
      rcases hget : t.get? n with _ | s₀
      · have hnew : ∀ d' ∈ ds, d'.name ≠ n := by
          intro d' hd' hname
          have hsome := (h.known n).mpr ⟨d', hd', hname⟩
          rw [hget] at hsome
          cases hsome
        exact (Symbol.reflects_blank t.next hnew).apply hn.symm fun _ => rfl
      · have hname : d.name = s₀.name := by rw [name_of_get? hget, hn]
        refine (h.symbols n s₀ hget).apply hname fun hplace => ?_
        exact he.free hplace s₀ (hn ▸ hget)
    · next hn =>
      refine (h.symbols n s hs).skip ?_
      rw [name_of_get? hs]
      exact Ne.symm hn

theorem enters_modify {f : Symbol → Symbol} (hf : ∀ s, f s = d.apply s)
    (hfree : d.place?.isSome = true → (t.get? d.name).any Symbol.isDefined = false) :
    Enters d t ((t.mention d.name).modify d.name f) := by
  constructor
  · intro hplace s hs
    have hfalse := hfree hplace
    rw [hs] at hfalse
    exact hfalse
  · intro n
    rw [get?_modify, get?_mention]
    split
    · next hn =>
      subst hn
      rw [Option.map_some, hf]
      congr 1
      refine Symbol.with_name ?_
      rw [Declaration.name_apply]
      exact t.name_getD_blank d.name
    · rfl

theorem enters_mention (t : SymbolTable) (name : Bytes) :
    Enters (.mentioned name) t (t.mention name) := by
  constructor
  · intro hplace
    cases hplace
  · intro n
    rw [get?_mention]
    show (if n = name then _ else _) = if n = name then _ else _
    split
    · next hn =>
      subst hn
      rfl
    · rfl

theorem enters_global (h : t.declareGlobal name = .ok t') : Enters (.exported name) t t' := by
  unfold declareGlobal at h
  split at h
  · cases h
  · cases h
    exact enters_modify (d := .exported name) (fun _ => rfl) fun hplace => nomatch hplace

theorem enters_extern (h : t.declareExtern name = .ok t') : Enters (.imported name) t t' := by
  unfold declareExtern at h
  split at h
  · cases h
  · split at h
    · cases h
    · cases h
      exact enters_modify (d := .imported name) (fun _ => rfl) fun hplace => nomatch hplace

theorem enters_label {sectionName : Bytes} {address : UInt32}
    (h : t.defineLabel name sectionName address = .ok t') :
    Enters (.labelled name sectionName address) t t' := by
  unfold defineLabel at h
  split at h
  · cases h
  · next hdefined =>
    split at h
    · cases h
    · cases h
      refine enters_modify (d := .labelled name sectionName address) (fun _ => rfl) fun _ => ?_
      exact Bool.eq_false_iff.mpr hdefined

theorem enters_section (h : t.defineSection name = .ok t') : Enters (.opened name) t t' := by
  obtain ⟨hnone, -, hget⟩ := defineSection_eq_ok h
  constructor
  · intro _ s hs
    rw [show t.get? name = some s from hs] at hnone
    cases hnone
  · intro n
    rw [hget]
    show (if n = name then _ else _) = if n = name then _ else _
    split
    · next hn =>
      rw [hn, hnone]
      rfl
    · rfl

/-- The size of a section is not a matter of declarations. -/
theorem Reflects.closeSection (h : Reflects ds t) (name : Bytes) (length : UInt32) :
    Reflects ds (t.closeSection name length) := by
  constructor
  · intro n
    rw [get?_closeSection, ← h.known]
    split
    · rw [Option.isSome_map]
    · rfl
  · intro n s hs
    rw [get?_closeSection] at hs
    split at hs
    · obtain ⟨s₀, hs₀, rfl⟩ := Option.map_eq_some_iff.mp hs
      obtain ⟨h₁, h₂, h₃, h₄, h₅, h₆⟩ := h.symbols n s₀ hs₀
      exact ⟨h₁, h₂, h₃, h₄, h₅, h₆⟩
    · exact h.symbols n s hs

end SymbolTable

/-! ## Lines -/

namespace FirstPass

variable {p q : Progress} {ds : List Declaration}

/-- Steps that each make declarations make them all. -/
theorem reflects_forM {tokens : List Token} {body : Token → Pass Unit} {f : Token → List Declaration}
    (hbody : ∀ t ∈ tokens, ∀ p q ds, Runs (body t) p () q → p.object.symbols.Reflects ds →
      q.object.symbols.Reflects (ds ++ f t))
    (h : Runs (tokens.forM body) p () q) (hp : p.object.symbols.Reflects ds) :
    q.object.symbols.Reflects (ds ++ tokens.flatMap f) := by
  induction tokens generalizing p ds with
  | nil =>
    rw [runs_forM_nil.mp h, List.flatMap_nil, List.append_nil]
    exact hp
  | cons t rest ih =>
    obtain ⟨r, hr, hq⟩ := runs_forM_cons.mp h
    have hmid := hbody t (List.mem_cons_self ..) p r ds hr hp
    rw [List.flatMap_cons, ← List.append_assoc]
    exact ih (fun t ht => hbody t (List.mem_cons_of_mem _ ht)) hq hmid

/-- A directive that goes through a list of names declares each of them. -/
theorem reflects_names {line : Nat} {head : Bytes} {arguments : List Token}
    {change : SymbolTable → Bytes → Except Error.Kind SymbolTable}
    {event : Bytes → Nat → Bytes → Event} {declaration : Bytes → Declaration}
    (hchange : ∀ t t' name, change t name = .ok t' → t.Enters (declaration name) t')
    (h : Runs (do
      let names ← Pass.check line (Token.listOf head (· = .symbol) arguments)
      names.forM fun t => do
        changeSymbols line t.word fun symbols => change symbols t.word
        Pass.record (event (← get).object.name line t.word)) p () q)
    (hp : p.object.symbols.Reflects ds) :
    q.object.symbols.Reflects (ds ++ (Token.listed arguments).map fun t => declaration t.word) := by
  obtain ⟨names, _, hcheck, hloop⟩ := runs_bind.mp h
  obtain ⟨hnames, rfl⟩ := Pass.runs_check.mp hcheck
  rw [← Token.listOf_eq_ok (by decide) hnames, List.map_eq_flatMap]
  refine reflects_forM (fun t _ p q ds hbody hp => ?_) hloop hp
  simp only [runs_bind, runs_changeSymbols, runs_get, Pass.runs_record] at hbody
  obtain ⟨_, _, ⟨t', ht', rfl⟩, _, _, ⟨rfl, rfl⟩, rfl⟩ := hbody
  exact hp.enters (hchange _ _ _ ht')

theorem reflects_openSection {line : Nat} {arguments : List Token}
    (h : Runs (openSection line arguments) p () q) (hp : p.object.symbols.Reflects ds) :
    q.object.symbols.Reflects (ds ++ (Statement.directive .openSection arguments).declarations) := by
  obtain ⟨name, t, hname, ht, -, rfl⟩ := runs_openSection_iff.mp h
  have hdeclares : (Statement.directive .openSection arguments).declarations = [.opened name] := by
    unfold newSection at hname
    split at hname
    · cases hname
      rfl
    · cases hname
  rw [hdeclares]
  exact (hp.enters (SymbolTable.enters_section ht)).closeSection _ _

theorem reflects_words {line : Nat} {arguments : List Token} (h : Runs (words line arguments) p () q)
    (hp : p.object.symbols.Reflects ds) :
    q.object.symbols.Reflects (ds ++ (Statement.directive .words arguments).declarations) := by
  simp only [words, advance, runs_bind, runs_needSection, Pass.runs_check, runs_modify] at h
  obtain ⟨_, _, ⟨-, rfl⟩, items, p, ⟨hitems, rfl⟩, _, r, hloop, rfl⟩ := h
  obtain rfl : items = Token.listed arguments := Token.listOf_eq_ok rfl hitems
  have hitem (t : Token) (p q : Progress) (ds : List Declaration)
      (hbody : Runs (if t.kind = .symbol then
          modify fun p => { p with object := { p.object with
            symbols := p.object.symbols.mention t.word } }
        else discard (Pass.check line t.number)) p () q) (hp : p.object.symbols.Reflects ds) :
      q.object.symbols.Reflects (ds ++ if t.kind = .symbol then [.mentioned t.word] else []) := by
    split at hbody
    · next hkind =>
      obtain rfl := runs_modify.mp hbody
      rw [if_pos hkind]
      exact hp.enters (SymbolTable.enters_mention _ t.word)
    · next hkind =>
      obtain ⟨_, hcheck⟩ := runs_discard.mp hbody
      obtain ⟨-, rfl⟩ := Pass.runs_check.mp hcheck
      rw [if_neg hkind, List.append_nil]
      exact hp
  exact reflects_forM (q := r) (fun t _ => hitem t) hloop hp

theorem reflects_statement {line : Nat} {st : Statement} (h : Runs (statement line st) p () q)
    (hp : p.object.symbols.Reflects ds) : q.object.symbols.Reflects (ds ++ st.declarations) := by
  have silent {st : Statement} (hst : st.declarations = [])
      (hsymbols : q.object.symbols = p.object.symbols) :
      q.object.symbols.Reflects (ds ++ st.declarations) := by
    rw [hst, List.append_nil, hsymbols]
    exact hp
  match st with
  | .nothing | .stop =>
    obtain ⟨-, hq⟩ := runs_pure.mp h
    exact silent rfl (by rw [hq])
  | .directive .globals arguments =>
    exact reflects_names (fun _ _ _ hc => SymbolTable.enters_global hc) h hp
  | .directive .externs arguments =>
    exact reflects_names (fun _ _ _ hc => SymbolTable.enters_extern hc) h hp
  | .directive .openSection arguments => exact reflects_openSection h hp
  | .directive .words arguments => exact reflects_words h hp
  | .directive .skip arguments =>
    cases runs_skip h with
    | opens hopens => cases hopens
    | advances _ _ hq => exact silent rfl (by rw [hq])
  | .instruction name arguments =>
    have hc : Completes (.instruction name arguments) p q := runs_instruction h
    cases hc with
    | opens hopens => cases hopens
    | advances _ _ hq => exact silent rfl (by rw [hq])
  | .stray word => exact absurd h runs_throw

theorem reflects_label {line : Nat} {name : Bytes} (h : Runs (label line name) p () q)
    (hp : p.object.symbols.Reflects ds) :
    q.object.symbols.Reflects (ds ++ [.labelled name p.sectionName p.counter]) := by
  simp only [label, runs_bind, runs_needSection, runs_get, runs_changeSymbols,
    Pass.runs_record] at h
  obtain ⟨_, _, ⟨-, rfl⟩, _, _, ⟨rfl, rfl⟩, _, _, ⟨t, ht, rfl⟩, rfl⟩ := h
  exact hp.enters (SymbolTable.enters_label ht)

/-- A line makes the declarations that it holds, of which a label is defined where the pass stands. -/
theorem reflects_numbered {number : Nat} {l : SourceLine} (h : Runs (line number l) p () q)
    (hp : p.object.symbols.Reflects ds) :
    q.object.symbols.Reflects (ds ++
      ((l.label?.map fun name => .labelled name p.sectionName p.counter).toList ++
        l.statement.declarations)) := by
  unfold line at h
  rw [← List.append_assoc]
  rcases hl : l.label? with _ | name
  · rw [hl] at h
    rw [Option.map_none, Option.toList_none, List.append_nil]
    exact reflects_statement h hp
  · rw [hl] at h
    obtain ⟨_, r, hlabel, hst⟩ := runs_bind.mp h
    exact reflects_statement hst (reflects_label hlabel hp)

/-- In the layout, a line makes the declarations of its place. One that opens a section must have no
label, which would stand at the end of the section before. -/
theorem reflects_line {number : Nat} {l : SourceLine} {y : Layout} (ht : Tracks y p)
    (hunlabelled : l.statement.opens? ≠ none → l.label? = none)
    (h : Runs (line number l) p () q) (hp : p.object.symbols.Reflects ds) :
    q.object.symbols.Reflects (ds ++ (y.place l).declarations) := by
  have hnumbered := reflects_numbered h hp
  unfold PlacedLine.declarations
  rw [Layout.line_place]
  rcases hl : l.label? with _ | name
  · rw [hl] at hnumbered
    exact hnumbered
  · have hopens : l.statement.opens? = none := by
      apply Classical.byContradiction
      intro hne
      rw [hunlabelled hne] at hl
      cases hl
    have hcounter : p.counter = UInt32.ofNat (y.extent y.current) := ht.counter
    rw [hl, hcounter, ht.current] at hnumbered
    rw [Layout.place_of_not_opens hopens]
    exact hnumbered

theorem reflects_steps {number : Nat} {ls : List SourceLine} {y : Layout} (ht : Tracks y p)
    (hunlabelled : ∀ l ∈ ls, l.statement.opens? ≠ none → l.label? = none)
    (h : Runs (Pass.steps line number ls) p () q) (hp : p.object.symbols.Reflects ds) :
    q.object.symbols.Reflects (ds ++ (y.placed ls).flatMap PlacedLine.declarations) := by
  induction ls generalizing y p number ds with
  | nil =>
    obtain ⟨-, rfl⟩ := runs_pure.mp h
    rw [Layout.placed, List.flatMap_nil, List.append_nil]
    exact hp
  | cons l ls ih =>
    obtain ⟨_, r, hr, hq⟩ := runs_bind.mp h
    have hline := reflects_line ht (hunlabelled l (List.mem_cons_self ..)) hr hp
    rw [Layout.placed, List.flatMap_cons, ← List.append_assoc]
    exact ih (ht.line hr) (fun l hl => hunlabelled l (List.mem_cons_of_mem _ hl)) hq hline

/-- The sections of an object are those that its lines open, in order. -/
theorem sectionNames_steps {number : Nat} {ls : List SourceLine}
    (h : Runs (Pass.steps line number ls) p () q) :
    q.object.sectionNames = p.object.sectionNames ++ ls.filterMap fun l => l.statement.opens? := by
  induction ls generalizing p number with
  | nil =>
    obtain ⟨-, rfl⟩ := runs_pure.mp h
    exact (List.append_nil _).symm
  | cons l ls ih =>
    obtain ⟨_, r, hr, hq⟩ := runs_bind.mp h
    obtain ⟨m, hd, hc, -⟩ := runs_line hr
    rw [ih hq]
    cases hc with
    | opens hopens _ _ hr =>
      rw [hr, Object.sectionNames_opened, hd.sectionNames, List.append_assoc]
      simp only [List.filterMap_cons, hopens, List.singleton_append]
    | advances hopens _ hr =>
      have hsame : r.object.sectionNames = p.object.sectionNames := by
        rw [hr]
        exact hd.sectionNames
      rw [hsame]
      simp only [List.filterMap_cons, hopens]

end FirstPass

end AsmKit
