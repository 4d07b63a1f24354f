import AsmKit.Proofs.Tables
import Mathlib.Data.List.Dedup

/-
  The order of the relocation table. However relocations come in, the table has them by symbol and
  those of one symbol as they came (`Files.add`, `files_ofList`). That leaves only one table
  (`Files.unique`), so a table that is listed and filled again from its list is the same. Buckets
  that are listed by symbol give that list in whatever order their symbols are gone through
  (`RelocationBuckets.Holds.all_eq`).
-/

namespace AsmKit

/-- What holds of a table and the relocations added to it, if adding one keeps it, holds after any
number of them. -/
theorem holds_foldl {τ : Type} {add : τ → Relocation → τ} {P : τ → List Relocation → Prop}
    (hadd : ∀ {t rs}, P t rs → ∀ r, P (add t r) (rs ++ [r])) {t : τ} {rs : List Relocation}
    (h : P t rs) (added : List Relocation) : P (added.foldl add t) (rs ++ added) := by
  induction added generalizing t rs with
  | nil =>
    rw [List.append_nil]
    exact h
  | cons r added ih =>
    have hrest := ih (hadd h r)
    rw [List.append_assoc] at hrest
    exact hrest

namespace RelocationTable

/-- The table that relocations give when they are added one after the other. -/
def ofList (rs : List Relocation) : RelocationTable := rs.foldl add {}

/-- A table has the relocations `rs`, each as often as it was added, in ascending order of symbols
and, for one symbol, in the order they were added in. -/
structure Files (t : RelocationTable) (rs : List Relocation) : Prop where
  perm : t.entries.Perm rs
  ascending : t.entries.Pairwise fun a b => a.symbol ≤ b.symbol
  stable : ∀ symbol, t.get symbol = rs.filter fun r => r.symbol == symbol

variable {t t' : RelocationTable} {rs : List Relocation}

theorem get_add (h : t.entries.Pairwise fun a b => a.symbol ≤ b.symbol) (r : Relocation)
    (symbol : Bytes) :
    (t.add r).get symbol = t.get symbol ++ [r].filter fun r => r.symbol == symbol := by
  have hclass (a b : Relocation) (ha : (a.symbol == symbol) = true)
      (hb : (b.symbol == symbol) = true) : decide (a.symbol ≤ b.symbol) = true := by
    have hsame : a.symbol = b.symbol := (beq_iff_eq.mp ha).trans (beq_iff_eq.mp hb).symm
    exact decide_eq_true (hsame ▸ List.le_refl a.symbol)
  have hinsert := Ordered.filter_insert Relocation.le_trans hclass r
    (h.imp fun hab => decide_eq_true hab)
  rw [List.filter_append] at hinsert
  exact hinsert

theorem Files.add (h : t.Files rs) (r : Relocation) : (t.add r).Files (rs ++ [r]) where
  perm := (t.add_perm r).trans (h.perm.append_right [r])
  ascending := pairwise_add h.ascending r
  stable symbol := by rw [get_add h.ascending, h.stable, List.filter_append]

theorem files_ofList (rs : List Relocation) : (ofList rs).Files rs := by
  have hempty : ({} : RelocationTable).Files [] :=
    ⟨.refl _, List.Pairwise.nil, fun _ => rfl⟩
  exact holds_foldl (fun h r => h.add r) hempty rs

/-- Ascending lists with the same relocations of each symbol are the same. -/
theorem eq_of_ascending {as bs : List Relocation} (has : as.Pairwise fun a b => a.symbol ≤ b.symbol)
    (hbs : bs.Pairwise fun a b => a.symbol ≤ b.symbol)
    (h : ∀ symbol, (as.filter fun r => r.symbol == symbol) = bs.filter fun r => r.symbol == symbol) :
    as = bs := by
  have has' : as.Pairwise fun a b => decide (a.symbol ≤ b.symbol) = true :=
    has.imp fun hab => decide_eq_true hab
  have hbs' : bs.Pairwise fun a b => decide (a.symbol ≤ b.symbol) = true :=
    hbs.imp fun hab => decide_eq_true hab
  refine Ordered.eq_of_filter_eq (fun a b hab hba => ?_) has' hbs' h
  exact List.le_antisymm (of_decide_eq_true hab) (of_decide_eq_true hba)

theorem Files.unique (h : t.Files rs) (h' : t'.Files rs) : t = t' := by
  have hentries := eq_of_ascending h.ascending h'.ascending fun symbol =>
    (h.stable symbol).trans (h'.stable symbol).symm
  cases t
  cases t'
  exact congrArg RelocationTable.mk hentries

/-! ## Symbol by symbol -/

theorem pairwise_sort (symbols : List Bytes) :
    (Ordered.sort (fun a b => decide (a ≤ b)) symbols).Pairwise fun a b => a ≤ b := by
  have hsorted : (Ordered.sort (fun a b => decide (a ≤ b)) symbols).Pairwise
      fun a b => decide (a ≤ b) = true := by
    refine Ordered.sort_pairwise (fun a b => ?_) (fun a b c hab hbc => ?_) _
    · exact (List.le_total a b).imp decide_eq_true decide_eq_true
    · exact decide_eq_true (List.le_trans (of_decide_eq_true hab) (of_decide_eq_true hbc))
  exact hsorted.imp fun hab => of_decide_eq_true hab

/-- The relocations of one symbol after those of another. -/
def grouped (symbols : List Bytes) (rs : List Relocation) : List Relocation :=
  symbols.flatMap fun symbol => rs.filter fun r => r.symbol == symbol

variable {symbols : List Bytes}

theorem pairwise_grouped (h : symbols.Pairwise fun a b => a ≤ b) (rs : List Relocation) :
    (grouped symbols rs).Pairwise fun a b => a.symbol ≤ b.symbol := by
  have hsymbol {symbol : Bytes} {r : Relocation}
      (hr : r ∈ rs.filter fun r => r.symbol == symbol) : r.symbol = symbol :=
    beq_iff_eq.mp (List.mem_filter.mp hr).2
  refine List.pairwise_flatMap.mpr ⟨fun symbol _ => ?_, h.imp ?_⟩
  · refine List.pairwise_of_forall_mem_list fun a ha b hb => ?_
    have hsame : a.symbol = b.symbol := (hsymbol ha).trans (hsymbol hb).symm
    exact hsame ▸ List.le_refl a.symbol
  · intro x y hxy a ha b hb
    rw [hsymbol ha, hsymbol hb]
    exact hxy

theorem filter_grouped (hnodup : symbols.Nodup) (hall : ∀ r ∈ rs, r.symbol ∈ symbols)
    (symbol : Bytes) : ((grouped symbols rs).filter fun r => r.symbol == symbol) =
      rs.filter fun r => r.symbol == symbol := by
  have hother {name : Bytes} (hname : name ≠ symbol) :
      ((rs.filter fun r => r.symbol == name).filter fun r => r.symbol == symbol) = [] := by
    refine List.filter_eq_nil_iff.mpr fun r hr hsymbol => hname ?_
    exact (beq_iff_eq.mp (List.mem_filter.mp hr).2).symm.trans (beq_iff_eq.mp hsymbol)
  have hown : ((rs.filter fun r => r.symbol == symbol).filter fun r => r.symbol == symbol) =
      rs.filter fun r => r.symbol == symbol :=
    List.filter_eq_self.mpr fun r hr => (List.mem_filter.mp hr).2
  rw [grouped, List.filter_flatMap]
  by_cases hmem : symbol ∈ symbols
  · -- the symbol comes up once, and the relocations of all others are left out
    obtain ⟨front, back, hsplit⟩ := List.append_of_mem hmem
    rw [hsplit, List.nodup_append, List.nodup_cons] at hnodup
    obtain ⟨-, ⟨hback, -⟩, hfront⟩ := hnodup
    rw [hsplit, List.flatMap_append, List.flatMap_cons, hown,
      List.flatMap_eq_nil_iff.mpr fun name hname => hother (hfront name hname symbol List.mem_cons_self),
      List.flatMap_eq_nil_iff.mpr fun name hname => hother fun he => hback (he ▸ hname),
      List.nil_append, List.append_nil]
  · have hnone : (rs.filter fun r => r.symbol == symbol) = [] :=
      List.filter_eq_nil_iff.mpr fun r hr hsymbol => hmem (beq_iff_eq.mp hsymbol ▸ hall r hr)
    rw [hnone]
    exact List.flatMap_eq_nil_iff.mpr fun name hname => hother fun he => hmem (he ▸ hname)

/-- A table lists the groups of its symbols in ascending order. -/
theorem Files.entries_eq (h : t.Files rs) (hnodup : symbols.Nodup)
    (hall : ∀ r ∈ rs, r.symbol ∈ symbols) :
    t.entries = grouped (Ordered.sort (fun a b => decide (a ≤ b)) symbols) rs := by
  have hperm : (Ordered.sort (fun a b => decide (a ≤ b)) symbols).Perm symbols := Ordered.sort_perm _ _
  refine eq_of_ascending h.ascending (pairwise_grouped (pairwise_sort symbols) rs) fun symbol => ?_
  refine (h.stable symbol).trans (filter_grouped (hperm.nodup_iff.mpr hnodup) ?_ symbol).symm
  exact fun r hr => hperm.mem_iff.mpr (hall r hr)

/-- The symbols that relocations name, each once and in ascending order. -/
def symbolsOf (rs : List Relocation) : List Bytes :=
  Ordered.sort (fun a b => decide (a ≤ b)) (rs.map Relocation.symbol).dedup

/-- The relocations of one symbol after those of another, the symbols in ascending order. -/
def bySymbol (rs : List Relocation) : List Relocation :=
  (symbolsOf rs).flatMap fun symbol => rs.filter fun r => r.symbol == symbol

theorem Files.entries_eq_bySymbol (h : t.Files rs) : t.entries = bySymbol rs := by
  refine h.entries_eq (List.nodup_dedup _) fun r hr => ?_
  exact List.mem_dedup.mpr (List.mem_map_of_mem hr)

end RelocationTable

/-! ## Buckets -/

namespace RelocationBuckets

variable {t : RelocationBuckets} {rs : List Relocation}

/-- The buckets that relocations give when they are added one after the other. -/
def ofList (rs : List Relocation) : RelocationBuckets := rs.foldl add {}

/-- The buckets have the relocations `rs`, and one bucket is for one symbol. -/
structure Holds (t : RelocationBuckets) (rs : List Relocation) : Prop where
  nodup : t.symbols.Nodup
  get : ∀ symbol, t.get symbol = rs.filter fun r => r.symbol == symbol
  count : t.count = rs.length

theorem map_file (r : Relocation) (buckets : List (Bytes × List Relocation)) :
    (file r buckets).map Prod.fst = buckets.map Prod.fst ++
      if r.symbol ∈ buckets.map Prod.fst then [] else [r.symbol] := by
  induction buckets with
  | nil => rfl
  | cons bucket rest ih =>
    rw [file, List.map_cons]
    split
    · next hsame =>
      rw [if_pos (List.mem_cons.mpr (.inl hsame.symm)), List.append_nil]
      rfl
    · next hother =>
      have hmem : r.symbol ∈ bucket.1 :: rest.map Prod.fst ↔ r.symbol ∈ rest.map Prod.fst :=
        List.mem_cons.trans (or_iff_right (Ne.symm hother))
      rw [List.map_cons, ih, List.cons_append]
      simp only [hmem]

theorem find?_file_self (r : Relocation) (buckets : List (Bytes × List Relocation)) :
    ((file r buckets).find? fun bucket => bucket.1 == r.symbol).elim [] Prod.snd =
      (buckets.find? fun bucket => bucket.1 == r.symbol).elim [] Prod.snd ++ [r] := by
  induction buckets with
  | nil => simp [file]
  | cons bucket rest ih =>
    rw [file]
    split
    · next hsame => simp [hsame]
    · next hother => simpa [hother] using ih

theorem find?_file_of_ne {r : Relocation} {symbol : Bytes} (h : r.symbol ≠ symbol)
    (buckets : List (Bytes × List Relocation)) :
    ((file r buckets).find? fun bucket => bucket.1 == symbol) =
      buckets.find? fun bucket => bucket.1 == symbol := by
  induction buckets with
  | nil => simp [file, h]
  | cons bucket rest ih =>
    rw [file]
    split
    · next hsame => simp [hsame, h]
    · rw [List.find?_cons, List.find?_cons, ih]

theorem get_add (t : RelocationBuckets) (r : Relocation) (symbol : Bytes) :
    (t.add r).get symbol = t.get symbol ++ [r].filter fun r => r.symbol == symbol := by
  by_cases h : r.symbol = symbol
  · have hown : ([r].filter fun r => r.symbol == symbol) = [r] := by simp [h]
    rw [hown, ← h]
    exact find?_file_self r t.buckets
  · have hother : ([r].filter fun r => r.symbol == symbol) = [] := by simp [h]
    rw [hother, List.append_nil]
    exact congrArg (Option.elim · [] Prod.snd) (find?_file_of_ne h t.buckets)

theorem Holds.add (h : t.Holds rs) (r : Relocation) : (t.add r).Holds (rs ++ [r]) where
  nodup := by
    show ((file r t.buckets).map Prod.fst).Nodup
    rw [map_file]
    split
    · rw [List.append_nil]
      exact h.nodup
    · next hnew => exact List.nodup_append.mpr ⟨h.nodup, List.nodup_singleton _, by
        rintro a ha b hb rfl
        exact hnew (List.mem_singleton.mp hb ▸ ha)⟩
  get symbol := by rw [get_add, h.get, List.filter_append]
  count := by rw [List.length_append, ← h.count]; rfl

theorem holds_ofList (rs : List Relocation) : (ofList rs).Holds rs := by
  have hempty : ({} : RelocationBuckets).Holds [] := ⟨List.nodup_nil, fun _ => rfl, rfl⟩
  exact holds_foldl (fun h r => h.add r) hempty rs

/-- A symbol that has relocations has a bucket. -/
theorem Holds.mem_symbols (h : t.Holds rs) {r : Relocation} (hr : r ∈ rs) : r.symbol ∈ t.symbols := by
  have hget : r ∈ t.get r.symbol := by
    rw [h.get]
    exact List.mem_filter.mpr ⟨hr, beq_self_eq_true _⟩
  unfold RelocationBuckets.get at hget
  rcases hfind : t.buckets.find? fun bucket => bucket.1 == r.symbol with _ | bucket
  · rw [hfind] at hget
    cases hget
  · have hsymbol : bucket.1 = r.symbol := by simpa using List.find?_some hfind
    exact hsymbol ▸ List.mem_map_of_mem (List.mem_of_find?_eq_some hfind)

/-- Buckets and a table of the same relocations have the same list. -/
theorem Holds.all_eq (h : t.Holds rs) {table : RelocationTable} (htable : table.Files rs)
    {symbols : List Bytes} (hsymbols : symbols.Perm t.symbols) : t.all symbols = table.entries := by
  rw [htable.entries_eq (hsymbols.nodup_iff.mpr h.nodup) fun r hr =>
    hsymbols.mem_iff.mpr (h.mem_symbols hr)]
  unfold all RelocationTable.grouped
  rw [funext h.get]

end RelocationBuckets

open RelocationTable in
/-- Whatever the order in which relocations are added, their table lists them symbol by symbol as a
stable sort does, loses none and is the same when it is filled again from its list. Buckets answer
the same, whatever the order of their symbols. -/
theorem relocations_are_sorted_stably (rs : List Relocation) :
    ((ofList rs).Files rs ∧ (ofList rs).entries = bySymbol rs ∧ (ofList rs).size = rs.length ∧
      ofList (ofList rs).entries = ofList rs) ∧
    (∀ symbols : List Bytes, symbols.Perm (RelocationBuckets.ofList rs).symbols →
      (RelocationBuckets.ofList rs).all symbols = (ofList rs).entries) ∧
    (∀ symbol, (RelocationBuckets.ofList rs).get symbol = (ofList rs).get symbol) ∧
    (RelocationBuckets.ofList rs).count = (ofList rs).size := by
  have h := files_ofList rs
  have hbuckets := RelocationBuckets.holds_ofList rs
  refine ⟨⟨h, h.entries_eq_bySymbol, h.perm.length_eq, ?_⟩, fun symbols => hbuckets.all_eq h,
    fun symbol => (hbuckets.get symbol).trans (h.stable symbol).symm,
    hbuckets.count.trans h.perm.length_eq.symm⟩
  -- a table files its own list
  exact (files_ofList _).unique ⟨.refl _, h.ascending, fun _ => rfl⟩

end AsmKit
