import AsmKit.Proofs.References
import AsmKit.Proofs.Simulation
import AsmKit.Proofs.Substitution

/-
  What a `.word` that refers to a name does to the lines behind it. The name gets into the symbol
  table, and labels, exports and imports of it take no notice: they look only at what is declared
  (`SymbolTable.standing`). A section does, for it wants a name that is not in the table at all. So a
  source with zeros in place of such names passes where the source does, except that a section may
  come behind a `.word` that refers to it (`mentions_restrict_only_sections`).
-/

namespace AsmKit

/-! ## Zeros in place of symbols -/

/-- The token as it was, or a zero in place of a symbol. -/
inductive Token.Zeroed : Token → Token → Prop
  | same (t : Token) : Zeroed t t
  | zero {t : Token} (h : t.kind = .symbol) : Zeroed t ⟨.decimal, text "0"⟩

/-- The line as it was, or a list of words with zeros in place of some symbols. -/
inductive SourceLine.Zeroed : SourceLine → SourceLine → Prop
  | same (l : SourceLine) : Zeroed l l
  | words (label? : Option Bytes) {arguments arguments' : List Token}
      (h : List.Forall₂ Token.Zeroed arguments arguments') :
      Zeroed ⟨label?, .directive .words arguments⟩ ⟨label?, .directive .words arguments'⟩

/-- The same for a line as it stands in a source. -/
def SourceLine.ZeroedText (raw raw' : Bytes) : Prop :=
  raw' = raw ∨ ∃ l l', read 1 raw = .ok l ∧ read 1 raw' = .ok l' ∧ l.Zeroed l'

namespace Token

variable {arguments arguments' its : List Token} {head : Bytes}

theorem listOf_zeroed (h : List.Forall₂ Zeroed arguments arguments')
    (hits : listOf head TokenKind.isWordItem arguments = .ok its) :
    ∃ its', listOf head TokenKind.isWordItem arguments' = .ok its' ∧
      List.Forall₂ Zeroed its its' := by
  refine listOf_forall₂ (fun t t' ht hk => ?_) (fun t t' ht hk => ?_) h hits
  · cases ht with
    | same => exact hk
    | zero => rfl
  · cases ht with
    | same => exact hk
    | zero hsymbol =>
      rw [hsymbol] at hk
      cases hk

theorem listOf_of_zeroed (h : List.Forall₂ Zeroed arguments' arguments)
    (hits : listOf head TokenKind.isWordItem arguments = .ok its) :
    ∃ its', listOf head TokenKind.isWordItem arguments' = .ok its' ∧
      List.Forall₂ (flip Zeroed) its its' := by
  refine listOf_forall₂ (fun t t' ht hk => ?_) (fun t t' ht hk => ?_) h.flip hits
  · cases ht with
    | same => exact hk
    | zero hsymbol =>
      rw [hsymbol]
      rfl
  · cases ht with
    | same => exact hk
    | zero => cases hk

end Token

namespace SourceLine

variable {l l' : SourceLine}

theorem Zeroed.stop_iff (h : l.Zeroed l') : l.statement = .stop ↔ l'.statement = .stop := by
  cases h with
  | same => rfl
  | words => simp

theorem read_zeroed {raw raw' : Bytes} {number : Nat} (h : ZeroedText raw raw')
    (hl : read number raw = .ok l) : ∃ l', read number raw' = .ok l' ∧ l.Zeroed l' := by
  obtain rfl | ⟨k, k', hk, hk', hzeroed⟩ := h
  · exact ⟨l, hl, .same l⟩
  · cases hl.symm.trans (read_renumber hk number)
    exact ⟨k', read_renumber hk' number, hzeroed⟩

theorem read_of_zeroed {raw raw' : Bytes} {number : Nat} (h : ZeroedText raw' raw)
    (hl : read number raw = .ok l) : ∃ l', read number raw' = .ok l' ∧ l'.Zeroed l := by
  obtain rfl | ⟨k, k', hk, hk', hzeroed⟩ := h
  · exact ⟨l, hl, .same l⟩
  · cases hl.symm.trans (read_renumber hk' number)
    exact ⟨k, read_renumber hk number, hzeroed⟩

/-- Where a source is read up to its end, so is one whose lines are related to its lines. -/
theorem readAll_forall₂ {P : Bytes → Bytes → Prop} {Q : SourceLine → SourceLine → Prop}
    {source source' : List Bytes} {number : Nat} {ls : List SourceLine}
    (hread : ∀ raw raw' number l, P raw raw' → read number raw = .ok l →
      ∃ l', read number raw' = .ok l' ∧ Q l l')
    (hstop : ∀ l l', Q l l' → (l.statement = .stop ↔ l'.statement = .stop))
    (h : List.Forall₂ P source source') (hls : readAll number source = .ok ls) :
    ∃ ls', readAll number source' = .ok ls' ∧ List.Forall₂ Q ls ls' := by
  induction h generalizing number ls with
  | nil =>
    cases hls
    exact ⟨[], rfl, .nil⟩
  | cons hraw _ ih =>
    obtain ⟨l, hl, hls⟩ := readAll_cons_eq_ok_iff.mp hls
    obtain ⟨l', hl', hrel⟩ := hread _ _ number l hraw hl
    obtain ⟨hl, rfl⟩ | ⟨hl, rest, hrest, rfl⟩ := hls
    · have hl'' := (hstop l l' hrel).mp hl
      exact ⟨[l'], readAll_stop hl' hl'' _, .cons hrel .nil⟩
    · obtain ⟨rest', hrest', hrels⟩ := ih hrest
      have hl'' := mt (hstop l l' hrel).mpr hl
      exact ⟨l' :: rest', readAll_cons hl' hl'' hrest', .cons hrel hrels⟩

/-- No section has a name that a line before it mentions. -/
def MentionsNoLaterSection (ls : List SourceLine) : Prop :=
  ls.Pairwise fun l k => ∀ n, l.statement.Mentions n → k.statement.opens? ≠ some n

end SourceLine

theorem Statement.not_mentions_of_opens {st : Statement} {n : Bytes} (h : st.opens? = some n) :
    ¬ st.Mentions n := by
  unfold opens? at h
  split at h
  · exact not_false
  · cases h

/-! ## Tables that differ by mentions -/

/-- What is declared of a symbol. -/
def Symbol.standing (s : Symbol) : Bool × Bool × Bool := (s.isDefined, s.isExtern, s.isGlobal)

/-- What a declaration makes of a symbol depends on what was declared of it before. -/
theorem Declaration.standing_apply {s s' : Symbol} (d : Declaration)
    (h : s.standing = s'.standing) : (d.apply s).standing = (d.apply s').standing := by
  simp only [Symbol.standing, Prod.mk.injEq] at h ⊢
  cases d <;> simp [Declaration.apply, h]

namespace SymbolTable

/-- What is declared of a name. Of one that is only mentioned that is nothing, as of one that is not
in the table. -/
def standing (t : SymbolTable) (n : Bytes) : Bool × Bool × Bool :=
  ((t.get? n).map Symbol.standing).getD (false, false, false)

/-- The same is declared in both tables. The first may have other names besides, all among `M`. -/
structure Ahead (M : Bytes → Prop) (t t' : SymbolTable) : Prop where
  standing : ∀ n, t'.standing n = t.standing n
  known : ∀ n, t.get? n = none → t'.get? n = none
  mentioned : ∀ n, t'.get? n = none → t.get? n = none ∨ M n

variable {M : Bytes → Prop} {t t' u u' : SymbolTable} {d : Declaration} {name : Bytes}

theorem standing_getD_blank (t : SymbolTable) (n : Bytes) (number : Int64) :
    ((t.get? n).getD (Symbol.blank n number)).standing = t.standing n := by
  unfold standing
  rcases t.get? n with _ | s <;> rfl

theorem standing_of_enters (h : Enters d t u) (n : Bytes) :
    u.standing n =
      if n = d.name then (d.apply ((t.get? n).getD (Symbol.blank n t.next))).standing
      else t.standing n := by
  unfold standing
  rw [h.change]
  split <;> rfl

theorem get?_eq_none_of_enters (h : Enters d t u) (n : Bytes) :
    u.get? n = none ↔ n ≠ d.name ∧ t.get? n = none := by
  rw [h.change]
  split
  · next hn => simp [hn]
  · next hn => simp [hn]

/-- A declaration that both tables take leaves them as far apart as they were. -/
theorem Ahead.enters (h : Ahead M t t') (hu : Enters d t u) (hu' : Enters d t' u') :
    Ahead M u u' := by
  constructor
  · intro n
    rw [standing_of_enters hu, standing_of_enters hu']
    split
    · apply d.standing_apply
      rw [standing_getD_blank, standing_getD_blank, h.standing]
    · exact h.standing n
  · intro n hn
    obtain ⟨hne, hnone⟩ := (get?_eq_none_of_enters hu n).mp hn
    exact (get?_eq_none_of_enters hu' n).mpr ⟨hne, h.known n hnone⟩
  · intro n hn
    obtain ⟨hne, hnone⟩ := (get?_eq_none_of_enters hu' n).mp hn
    exact (h.mentioned n hnone).imp_left fun hnone => (get?_eq_none_of_enters hu n).mpr ⟨hne, hnone⟩

/-- The first table may mention a name that is among `M`. -/
theorem Ahead.mention (h : Ahead M t t') (hname : M name) : Ahead M (t.mention name) t' := by
  have hu := enters_mention t name
  constructor
  · intro n
    rw [standing_of_enters hu, h.standing]
    split
    · exact (t.standing_getD_blank n t.next).symm
    · rfl
  · intro n hn
    exact h.known n ((get?_eq_none_of_enters hu n).mp hn).2
  · intro n hn
    by_cases hne : n = name
    · exact .inr (hne ▸ hname)
    · exact (h.mentioned n hn).imp_left fun hnone =>
        (get?_eq_none_of_enters hu n).mpr ⟨hne, hnone⟩

theorem Ahead.closeSection (h : Ahead M t t') (name : Bytes) (length : UInt32) :
    Ahead M (t.closeSection name length) (t'.closeSection name length) := by
  have hstanding (t : SymbolTable) (n : Bytes) :
      (t.closeSection name length).standing n = t.standing n := by
    unfold SymbolTable.standing
    rw [get?_closeSection]
    split
    · rcases t.get? n with _ | s <;> rfl
    · rfl
  have hnone (t : SymbolTable) (n : Bytes) :
      (t.closeSection name length).get? n = none ↔ t.get? n = none := by
    rw [get?_closeSection]
    split
    · exact Option.map_eq_none_iff
    · rfl
  constructor
  · intro n
    rw [hstanding, hstanding, h.standing]
  · intro n hn
    exact (hnone t' n).mpr (h.known n ((hnone t n).mp hn))
  · intro n hn
    exact (h.mentioned n ((hnone t' n).mp hn)).imp_left (hnone t n).mpr

theorem enters_declare (h : t.declare d = .ok u) : Enters d t u := by
  cases d with
  | mentioned name =>
    cases h
    exact enters_mention t name
  | exported name => exact enters_global h
  | imported name => exact enters_extern h
  | labelled name sectionName address => exact enters_label h
  | opened name => exact enters_section h

/-- Other than a section, what one table takes the other does. -/
theorem exists_declare (hd : ∀ name, d ≠ .opened name)
    (hstanding : t'.standing d.name = t.standing d.name) (h : t.declare d = .ok u) :
    ∃ u', t'.declare d = .ok u' := by
  have hany (t : SymbolTable) (n : Bytes) : t.standing n =
      ((t.get? n).any Symbol.isDefined, (t.get? n).any Symbol.isExtern,
        (t.get? n).any Symbol.isGlobal) := by
    unfold standing
    rcases t.get? n with _ | s <;> rfl
  rw [hany, hany] at hstanding
  simp only [Prod.mk.injEq] at hstanding
  obtain ⟨hdefined, himports, hglobal⟩ := hstanding
  cases d with
  | mentioned name => exact ⟨_, rfl⟩
  | exported name =>
    simp only [declare, declareGlobal, Declaration.name] at h himports ⊢
    rw [himports]
    split at h
    · cases h
    · next hrefused => exact ⟨_, if_neg hrefused⟩
  | imported name =>
    simp only [declare, declareExtern, Declaration.name] at h hglobal hdefined ⊢
    rw [hglobal, hdefined]
    split at h
    · cases h
    · next hrefused =>
      rw [if_neg hrefused]
      split at h
      · cases h
      · next hrefused => exact ⟨_, if_neg hrefused⟩
  | labelled name sectionName address =>
    simp only [declare, defineLabel, Declaration.name] at h hdefined himports ⊢
    rw [hdefined, himports]
    split at h
    · cases h
    · next hrefused =>
      rw [if_neg hrefused]
      split at h
      · cases h
      · next hrefused => exact ⟨_, if_neg hrefused⟩
  | opened name => exact absurd rfl (hd name)

end SymbolTable

/-! ## Pass one on both sources -/

namespace FirstPass

open SourceLine (MentionsNoLaterSection)
open SymbolTable (exists_declare enters_declare enters_section)

/-- Both states stand at the same place, and the first is ahead by mentions among `M`. -/
structure Ahead (M : Bytes → Prop) (p p' : Progress) : Prop where
  symbols : p.object.symbols.Ahead M p'.object.symbols
  sectionNames : p'.object.sectionNames = p.object.sectionNames
  sectionName : p'.sectionName = p.sectionName
  counter : p'.counter = p.counter

variable {M M' : Bytes → Prop} {p p' q q' : Progress} {number : Nat} {name : Bytes}
  {l l' : SourceLine} {ls ls' : List SourceLine} {ds : List Declaration}

theorem Ahead.refl (M : Bytes → Prop) (p : Progress) : Ahead M p p :=
  ⟨⟨fun _ => rfl, fun _ => id, fun _ => .inl⟩, rfl, rfl, rfl⟩

theorem Ahead.mono (h : Ahead M p p') (hM : ∀ n, M n → M' n) : Ahead M' p p' where
  symbols :=
    { standing := h.symbols.standing
      known := h.symbols.known
      mentioned n hn := (h.symbols.mentioned n hn).imp_right (hM n) }
  sectionNames := h.sectionNames
  sectionName := h.sectionName
  counter := h.counter

theorem Ahead.withSymbols {t t' : SymbolTable} (h : Ahead M p p') (ht : t.Ahead M t') :
    Ahead M (p.withSymbols t) (p'.withSymbols t') :=
  ⟨ht, h.sectionNames, h.sectionName, h.counter⟩

theorem Ahead.advance (h : Ahead M p p') (n : UInt32) :
    Ahead M { p with counter := p.counter + n } { p' with counter := p'.counter + n } :=
  ⟨h.symbols, h.sectionNames, h.sectionName, congrArg (· + n) h.counter⟩

theorem Ahead.opening {t t' : SymbolTable} (h : Ahead M p p')
    (ht : p.object.symbols.defineSection name = .ok t)
    (ht' : p'.object.symbols.defineSection name = .ok t') :
    Ahead M (opening p name t) (opening p' name t') := by
  have hsymbols := h.symbols.enters (enters_section ht) (enters_section ht')
  refine ⟨?_, ?_, rfl, rfl⟩
  · have hclosed := hsymbols.closeSection p.sectionName p.counter
    unfold FirstPass.opening
    rw [h.sectionName, h.counter]
    exact hclosed
  · unfold FirstPass.opening
    rw [Object.sectionNames_opened, Object.sectionNames_opened, h.sectionNames]

theorem parallel_ahead (M : Bytes → Prop) : Parallel (Ahead M) where
  record _ _ h := ⟨h.symbols, h.sectionNames, h.sectionName, h.counter⟩
  place h := ⟨h.sectionName, h.counter⟩
  advance n h := h.advance n
  declare d hd h t ht := by
    obtain ⟨t', ht'⟩ := exists_declare hd (h.symbols.standing d.name) ht
    exact ⟨t', ht', h.withSymbols (h.symbols.enters (enters_declare ht) (enters_declare ht'))⟩

theorem parallel_behind (M : Bytes → Prop) : Parallel fun p' p => Ahead M p p' where
  record _ _ h := ⟨h.symbols, h.sectionNames, h.sectionName, h.counter⟩
  place h := ⟨h.sectionName.symm, h.counter.symm⟩
  advance n h := h.advance n
  declare d hd h t' ht' := by
    obtain ⟨t, ht⟩ := exists_declare hd (h.symbols.standing d.name).symm ht'
    exact ⟨t, ht, h.withSymbols (h.symbols.enters (enters_declare ht) (enters_declare ht'))⟩

theorem exists_defineSection {t : SymbolTable} (h : t.get? name = none) :
    ∃ u, t.defineSection name = .ok u := by
  unfold SymbolTable.defineSection
  rw [h]
  exact ⟨_, rfl⟩

theorem opens_ahead (M : Bytes → Prop) (name : Bytes) : Opens (Ahead M) name := by
  intro p p' h t ht hnew
  obtain ⟨hnone, -, -⟩ := SymbolTable.defineSection_eq_ok ht
  obtain ⟨t', ht'⟩ := exists_defineSection (h.symbols.known name hnone)
  exact ⟨t', ht', h.sectionNames ▸ hnew, h.opening ht ht'⟩

/-- The other way a section must not be among the names that are mentioned ahead. -/
theorem opens_behind (hname : ¬ M name) : Opens (fun p' p => Ahead M p p') name := by
  intro p' p h t' ht' hnew
  obtain ⟨hnone, -, -⟩ := SymbolTable.defineSection_eq_ok ht'
  obtain ⟨t, ht⟩ := exists_defineSection ((h.symbols.mentioned name hnone).resolve_right hname)
  exact ⟨t, ht, h.sectionNames ▸ hnew, h.opening ht ht'⟩

theorem runs_item_zero : Runs (item number ⟨.decimal, text "0"⟩) p () p := by
  have hzero : Token.number ⟨.decimal, text "0"⟩ = .ok 0 := eq_ok_of_toOption (by decide)
  exact runs_discard.mpr ⟨0, Pass.runs_check.mpr ⟨hzero, rfl⟩⟩

theorem runs_item_symbol {t : Token} (ht : t.kind = .symbol) : Runs (item number t) p () q ↔
    q = p.withSymbols (p.object.symbols.mention t.word) := by
  unfold item
  rw [if_pos ht]
  exact runs_modify

theorem simulates_item_ahead {t t' : Token} (h : t.Zeroed t') (ht : t.kind = .symbol → M t.word) :
    Simulates (Ahead M) (Ahead M) (item number t) (item number t') := by
  cases h with
  | same => exact (parallel_ahead M).simulates_item t
  | zero hsymbol =>
    intro p p' _ q hp hq
    rw [(runs_item_symbol hsymbol).mp hq]
    exact ⟨p', runs_item_zero, hp.withSymbols (hp.symbols.mention (ht hsymbol))⟩

theorem simulates_item_behind {t t' : Token} (h : t.Zeroed t') (ht : t.kind = .symbol → M t.word) :
    Simulates (fun p' p => Ahead M p p') (fun p' p => Ahead M p p') (item number t')
      (item number t) := by
  cases h with
  | same => exact (parallel_behind M).simulates_item t
  | zero hsymbol =>
    intro p' p _ q' hp hq'
    obtain ⟨-, rfl⟩ := hq'.unique runs_item_zero
    exact ⟨_, (runs_item_symbol hsymbol).mpr rfl,
      hp.withSymbols (hp.symbols.mention (ht hsymbol))⟩

/-- The symbols among the items of a list are those that its line mentions. -/
theorem forall₂_mentioned {arguments items items' : List Token}
    (hitems : Token.listOf Directive.words.spelling TokenKind.isWordItem arguments = .ok items)
    (hM : ∀ n, (Statement.directive .words arguments).Mentions n → M n)
    (h : List.Forall₂ Token.Zeroed items items') :
    List.Forall₂ (fun t t' => (t.kind = .symbol → M t.word) ∧ t.Zeroed t') items items' := by
  refine (List.forall₂_and_left ..).mpr ⟨fun t ht hsymbol => ?_, h⟩
  rw [Token.listOf_eq_ok rfl hitems] at ht
  exact hM t.word ⟨t, ht, hsymbol, rfl⟩

theorem simulates_line_ahead (h : l.Zeroed l') (hM : ∀ n, l.statement.Mentions n → M n) :
    Simulates (Ahead M) (Ahead M) (line number l) (line number l') := by
  have hR := parallel_ahead M
  cases h with
  | same => exact hR.simulates_line rfl (hR.simulates_statement _ fun name _ => opens_ahead M name)
  | words label? harguments =>
    refine hR.simulates_line rfl (hR.simulates_words fun items hitems => ?_)
    obtain ⟨items', hitems', hzeroed⟩ := Token.listOf_zeroed harguments hitems
    refine ⟨items', hitems', (forall₂_mentioned hitems hM hzeroed).imp fun t t' ht => ?_⟩
    exact simulates_item_ahead ht.2 ht.1

theorem simulates_line_behind (h : l.Zeroed l') (hM : ∀ n, l.statement.Mentions n → M n)
    (hopens : ∀ n, l.statement.opens? = some n → ¬ M n) :
    Simulates (fun p' p => Ahead M p p') (fun p' p => Ahead M p p') (line number l')
      (line number l) := by
  have hR := parallel_behind M
  cases h with
  | same =>
    refine hR.simulates_line rfl (hR.simulates_statement _ fun name hname => ?_)
    exact opens_behind (hopens name hname)
  | words label? harguments =>
    refine hR.simulates_line rfl (hR.simulates_words fun items' hitems' => ?_)
    obtain ⟨items, hitems, hzeroed⟩ := Token.listOf_of_zeroed harguments hitems'
    refine ⟨items, hitems, ((forall₂_mentioned hitems hM hzeroed.flip).imp fun t t' ht => ?_).flip⟩
    exact simulates_item_behind ht.2 ht.1

/-- A source that passes still does with zeros in it. -/
theorem simulates_steps_zeroed (h : List.Forall₂ SourceLine.Zeroed ls ls') :
    Simulates (Ahead fun _ => True) (Ahead fun _ => True) (Pass.steps line number ls)
      (Pass.steps line number ls') := by
  induction h generalizing number with
  | nil => exact simulates_pure ()
  | cons hl _ ih => exact (simulates_line_ahead hl fun _ _ => trivial).bind fun _ => ih

/-- The other way round it takes sections that are not mentioned before. What is mentioned adds up
from line to line. -/
theorem exists_runs_of_zeroed (h : List.Forall₂ SourceLine.Zeroed ls ls') (hp : Ahead M p p')
    (hnew : ∀ l ∈ ls, ∀ n, l.statement.opens? = some n → ¬ M n) (hls : MentionsNoLaterSection ls)
    (hq : Runs (Pass.steps line number ls') p' () q') :
    ∃ q, Runs (Pass.steps line number ls) p () q := by
  induction h generalizing M number p p' with
  | nil => exact ⟨p, runs_pure.mpr ⟨rfl, rfl⟩⟩
  | @cons l l' ls ls' hl _ ih =>
    obtain ⟨hfirst, hrest⟩ := List.pairwise_cons.mp hls
    obtain ⟨_, r', hr', hq⟩ := runs_bind.mp hq
    have hopens (n : Bytes) (hn : l.statement.opens? = some n) :
        ¬ (M n ∨ l.statement.Mentions n) := by
      exact not_or.mpr ⟨hnew l (List.mem_cons_self ..) n hn, Statement.not_mentions_of_opens hn⟩
    obtain ⟨r, hr, hrel⟩ := simulates_line_behind hl (fun _ => .inr) hopens p' p () r'
      (hp.mono fun _ => .inl) hr'
    obtain ⟨q, hq⟩ := ih hrel (fun k hk n hn => not_or.mpr
      ⟨hnew k (List.mem_cons_of_mem _ hk) n hn, fun hmentions => hfirst k hk n hmentions hn⟩) hrest hq
    exact ⟨q, runs_bind.mpr ⟨(), r, hr, hq⟩⟩

/-- And a source passes only if its sections are not mentioned before, for the table still has all
that was. -/
theorem mentionsNoLaterSection_of_runs (h : Runs (Pass.steps line number ls) p () q)
    (hp : p.object.symbols.Reflects ds) :
    (∀ l ∈ ls, ∀ n, .mentioned n ∈ ds → l.statement.opens? ≠ some n) ∧
      MentionsNoLaterSection ls := by
  induction ls generalizing p number ds with
  | nil => exact ⟨List.forall_mem_nil _, .nil⟩
  | cons l ls ih =>
    obtain ⟨_, r, hr, hq⟩ := runs_bind.mp h
    obtain ⟨hlater, hrest⟩ := ih hq (reflects_numbered hr hp)
    refine ⟨List.forall_mem_cons.mpr ⟨fun n hn hopens => ?_, fun k hk n hn => ?_⟩,
      List.pairwise_cons.mpr ⟨fun k hk n hn => ?_, hrest⟩⟩
    · obtain ⟨m, hdeclares, hcompletes, -⟩ := runs_line hr
      obtain ⟨s, hs⟩ := Option.isSome_iff_exists.mp ((hp.known n).mpr ⟨_, hn, rfl⟩)
      obtain ⟨s', hs', -⟩ := hdeclares.symbols.keeps n s hs
      cases hcompletes with
      | opens hopens' ht =>
        cases hopens.symm.trans hopens'
        rw [(SymbolTable.defineSection_eq_ok ht).1] at hs'
        cases hs'
      | advances hnone => cases hopens.symm.trans hnone
    · exact hlater k hk n (List.mem_append_left _ hn)
    · apply hlater k hk n
      exact List.mem_append_right _ (List.mem_append_right _ (l.statement.mentions_iff.mp hn))

theorem exists_runs_run {source : List Bytes} : (∃ q, Runs (run source) p () q) ↔
    ∃ ls q, SourceLine.readAll 1 source = .ok ls ∧ Runs (Pass.steps line 1 ls) p () q := by
  constructor
  · rintro ⟨q, hq⟩
    obtain ⟨_, _, hlines, -⟩ := runs_bind.mp hq
    obtain ⟨ls, r, hls, hr, -⟩ := Pass.runs_eachLine hlines
    exact ⟨ls, r, hls, hr⟩
  · rintro ⟨ls, q, hls, hq⟩
    obtain ⟨log, hlog⟩ := Pass.runs_eachLine_of_steps hls hq
    exact ⟨_, runs_bind.mpr ⟨(), _, hlog, runs_modify.mpr rfl⟩⟩

end FirstPass

/-! ## What mentions restrict -/

open SourceLine (MentionsNoLaterSection)

/-- Pass one takes a source if and only if it takes it with zeros in place of symbols among its
words, and no section has a name that stands in a list of words before it. So mentions restrict
neither labels nor exports nor imports, and among the sections only those that come later. -/
theorem mentions_restrict_only_sections {source source' : List Bytes} (name : Bytes)
    (h : List.Forall₂ SourceLine.ZeroedText source source') :
    (∃ q, Runs (FirstPass.run source) { object := { name } } () q) ↔
      (∃ q, Runs (FirstPass.run source') { object := { name } } () q) ∧
        ∀ ls, SourceLine.readAll 1 source = .ok ls → MentionsNoLaterSection ls := by
  rw [FirstPass.exists_runs_run, FirstPass.exists_runs_run]
  constructor
  · rintro ⟨ls, q, hls, hq⟩
    obtain ⟨ls', hls', hzeroed⟩ := SourceLine.readAll_forall₂
      (fun _ _ _ _ => SourceLine.read_zeroed) (fun _ _ => SourceLine.Zeroed.stop_iff) h hls
    obtain ⟨q', hq', -⟩ := FirstPass.simulates_steps_zeroed hzeroed _ _ () q (.refl _ _) hq
    refine ⟨⟨ls', q', hls', hq'⟩, fun lines hlines => ?_⟩
    cases hls.symm.trans hlines
    exact (FirstPass.mentionsNoLaterSection_of_runs hq SymbolTable.reflects_empty).2
  · rintro ⟨⟨ls', q', hls', hq'⟩, hsections⟩
    obtain ⟨ls, hls, hzeroed⟩ := SourceLine.readAll_forall₂ (Q := flip SourceLine.Zeroed)
      (fun _ _ _ _ => SourceLine.read_of_zeroed) (fun _ _ h => h.stop_iff.symm) h.flip hls'
    obtain ⟨q, hq⟩ := FirstPass.exists_runs_of_zeroed hzeroed.flip (.refl (fun _ => False) _)
      (fun _ _ _ _ => id) (hsections ls hls) hq'
    exact ⟨ls, q, hls, hq⟩

/-- A source that exports a name, refers to it and then has it as a label. -/
def usedBeforeLabel : List Bytes := [".section t", ".global n", ".word n", "n: halt"].map text

/-- The same with a section in place of the label, and without the export. -/
def usedBeforeSection : List Bytes := [".section t", ".word n", ".section n"].map text

theorem zeroedText_word_n : SourceLine.ZeroedText (text ".word n") (text ".word 0") := by
  refine .inr ⟨⟨none, .directive .words [⟨.symbol, text "n"⟩]⟩,
    ⟨none, .directive .words [⟨.decimal, text "0"⟩]⟩, eq_ok_of_toOption (by decide +kernel),
    eq_ok_of_toOption (by decide +kernel), .words none (.cons (.zero rfl) .nil)⟩

theorem mentions_restrict_only_sections_usedBeforeLabel :
    List.Forall₂ SourceLine.ZeroedText usedBeforeLabel
      ([".section t", ".global n", ".word 0", "n: halt"].map text) ∧
    (∃ q, Runs (FirstPass.run ([".section t", ".global n", ".word 0", "n: halt"].map text))
      { object := { name := text "a.o" } } () q) ∧
    ∃ q, Runs (FirstPass.run usedBeforeLabel) { object := { name := text "a.o" } } () q := by
  have hzeroed : List.Forall₂ SourceLine.ZeroedText usedBeforeLabel
      ([".section t", ".global n", ".word 0", "n: halt"].map text) :=
    .cons (.inl rfl) (.cons (.inl rfl) (.cons zeroedText_word_n (.cons (.inl rfl) .nil)))
  have hruns : Runs (FirstPass.run usedBeforeLabel) { object := { name := text "a.o" } } ()
      (outcome (FirstPass.run usedBeforeLabel) { object := { name := text "a.o" } }).2 := by
    decide +kernel
  exact ⟨hzeroed, ((mentions_restrict_only_sections _ hzeroed).mp ⟨_, hruns⟩).1, _, hruns⟩

/-- A section is refused where the name stands in a list of words before it, though with a zero in
place of the name it is not. -/
theorem section_refused_after_mention :
    List.Forall₂ SourceLine.ZeroedText usedBeforeSection
      ([".section t", ".word 0", ".section n"].map text) ∧
    (∃ q, Runs (FirstPass.run ([".section t", ".word 0", ".section n"].map text))
      { object := { name := text "a.o" } } () q) ∧
    ∃ q, Fails (FirstPass.run usedBeforeSection) { object := { name := text "a.o" } }
      (.failed (.atLine .labelSectionConflict 3 (text "n"))) q := by
  refine ⟨.cons (.inl rfl) (.cons zeroedText_word_n (.cons (.inl rfl) .nil)), ⟨(outcome
    (FirstPass.run ([".section t", ".word 0", ".section n"].map text))
      { object := { name := text "a.o" } }).2, ?_⟩,
    (outcome (FirstPass.run usedBeforeSection) { object := { name := text "a.o" } }).2, ?_⟩
  · decide +kernel
  · decide +kernel

end AsmKit
