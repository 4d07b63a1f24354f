import AsmKit.Linker.Overlap
import AsmKit.Proofs.IntervalTree
import Mathlib.Algebra.Ring.Nat

/-
  The check for overlaps against the definition of one. Two spans collide if they have different
  names and an address in common. The check looks at each span against those before it, and of spans
  with the same ends the tree keeps only the last. A span that is dropped so has the name of the one
  that takes its place, or the check would have failed; so no collision is lost with it (`Keeps`), and
  the check finds the first one there is (`check_cases`). How much of this rests on which law of the
  tree is told by the hypotheses: that the check misses nothing on `Finds`, that it fails for a
  collision only on `Accepts`, and which one it names on `InOrder`.
-/

namespace AsmKit

namespace Span

variable {s t u : Span} {before seen spans : List Span} {tree : IntervalTree Span} {kept : tree.Tree}

/-- The span ends below the top of the address space. -/
def Fits (s : Span) : Prop := s.start.toNat + s.length.toNat ≤ 2 ^ 32 - 1

/-- An address lies in the span. -/
def Contains (s : Span) (a : Nat) : Prop :=
  s.start.toNat ≤ a ∧ a < s.start.toNat + s.length.toNat

/-- No address lies in both. -/
def Disjoint (s t : Span) : Prop := ∀ a, ¬ (s.Contains a ∧ t.Contains a)

/-- The two have different names and an address in common. -/
def Collides (s t : Span) : Prop := s.name ≠ t.name ∧ ∃ a, s.Contains a ∧ t.Contains a

theorem toNat_stop (h : s.Fits) : s.stop.toNat = s.start.toNat + s.length.toNat := by
  unfold Fits at h
  unfold stop
  rw [UInt32.toNat_add]
  omega

theorem toNat_length_pos (h : s.length ≠ 0) : 0 < s.length.toNat := by
  rcases Nat.eq_zero_or_pos s.length.toNat with e | hpos
  · exact absurd (UInt32.toNat_inj.mp e) h
  · exact hpos

/-- Spans collide if neither is empty, their names differ and each starts before the other ends. -/
theorem collides_iff : s.Collides t ↔ s.length ≠ 0 ∧ t.length ≠ 0 ∧ s.name ≠ t.name ∧
    s.start.toNat < t.start.toNat + t.length.toNat ∧
    t.start.toNat < s.start.toNat + s.length.toNat := by
  unfold Collides Contains
  constructor
  · intro ⟨hname, a, hs, ht⟩
    refine ⟨fun hempty => ?_, fun hempty => ?_, hname, by omega, by omega⟩
    · rw [hempty, UInt32.toNat_zero] at hs
      omega
    · rw [hempty, UInt32.toNat_zero] at ht
      omega
  · intro ⟨hs, ht, hname, hst, hts⟩
    have hspos := toNat_length_pos hs
    have htpos := toNat_length_pos ht
    -- the higher of the two starts lies in both
    exact ⟨hname, max s.start.toNat t.start.toNat, by omega, by omega⟩

instance (s t : Span) : Decidable (s.Collides t) := decidable_of_iff _ collides_iff.symm

theorem Collides.symm (h : s.Collides t) : t.Collides s := by
  obtain ⟨hname, a, hs, ht⟩ := h
  exact ⟨hname.symm, a, ht, hs⟩

theorem overlaps_iff (hs : s.Fits) (ht : t.Fits) : s.overlaps t = true ↔
    s.start.toNat < t.start.toNat + t.length.toNat ∧
      t.start.toNat < s.start.toNat + s.length.toNat := by
  unfold overlaps
  rw [Bool.and_eq_true, decide_eq_true_iff, decide_eq_true_iff, UInt32.lt_iff_toNat_lt,
    UInt32.lt_iff_toNat_lt, toNat_stop hs, toNat_stop ht]

theorem touches_of_overlaps (hs : s.Fits) (ht : t.Fits) (h : s.overlaps t = true) :
    s.interval.Touches t.interval := by
  rw [overlaps_iff hs ht] at h
  unfold Interval.Touches interval
  dsimp only
  rw [UInt32.le_iff_toNat_le, UInt32.le_iff_toNat_le, toNat_stop hs, toNat_stop ht]
  omega

/-- The tree has no reason to refuse a span that is not empty and does not wrap. -/
theorem start_lt_stop (hs : s.Fits) (hne : s.length ≠ 0) : s.start < s.stop := by
  have hpos := toNat_length_pos hne
  rw [UInt32.lt_iff_toNat_lt, toNat_stop hs]
  omega

theorem contains_iff (hs : s.Fits) (ht : t.Fits) (hsame : s.interval = t.interval) (a : Nat) :
    s.Contains a ↔ t.Contains a := by
  obtain ⟨hstart, hstop⟩ := Interval.mk.inj hsame
  unfold Contains
  rw [← toNat_stop hs, ← toNat_stop ht, hstart, hstop]

/-- An address lies in at most one of spans that are disjoint. -/
theorem index_unique (h : spans.Pairwise Disjoint) {i j a : Nat} (hs : spans[i]? = some s)
    (ht : spans[j]? = some t) (has : s.Contains a) (hat : t.Contains a) : i = j := by
  obtain ⟨hi, rfl⟩ := List.getElem?_eq_some_iff.mp hs
  obtain ⟨hj, rfl⟩ := List.getElem?_eq_some_iff.mp ht
  rw [List.pairwise_iff_getElem] at h
  rcases Nat.lt_trichotomy i j with hlt | rfl | hlt
  · exact absurd ⟨has, hat⟩ (h i j hi hj hlt a)
  · rfl
  · exact absurd ⟨hat, has⟩ (h j i hj hi hlt a)

/-- A collision is a matter of the name and the ends. -/
theorem Collides.of_same (h : s.Collides u) (hs : s.Fits) (ht : t.Fits) (hname : s.name = t.name)
    (hsame : s.interval = t.interval) : t.Collides u := by
  obtain ⟨hne, a, hsa, hua⟩ := h
  exact ⟨hname ▸ hne, a, (contains_iff hs ht hsame a).mp hsa, hua⟩

/-- Spans with the same ends collide unless they have one name. -/
theorem name_eq_of_same (hs : s.Fits) (ht : t.Fits) (hne : s.length ≠ 0)
    (hsame : s.interval = t.interval) (h : ¬ s.Collides t) : s.name = t.name := by
  apply Classical.byContradiction
  intro hname
  have hpos := toNat_length_pos hne
  have hin : s.Contains s.start.toNat := ⟨Nat.le_refl _, by omega⟩
  exact h ⟨hname, _, hin, (contains_iff hs ht hsame _).mp hin⟩

/-! ## The spans kept -/

/-- What the tree has kept of the spans that were looked at: for each that is not empty one of the same
name, under the same interval. -/
structure Keeps (tree : IntervalTree Span) (seen : List Span) (kept : tree.Tree) : Prop where
  source : ∀ i t, tree.find? kept i = some t → t ∈ seen ∧ t.length ≠ 0 ∧ t.interval = i
  cover : ∀ t ∈ seen, t.length ≠ 0 → ∃ u, tree.find? kept t.interval = some u ∧ u.name = t.name

theorem keeps_empty (htree : tree.Finds) : Keeps tree [] tree.empty := by
  refine ⟨fun i t h => ?_, fun t h => ?_⟩
  · rw [htree.find?_empty] at h
    cases h
  · cases h

theorem Keeps.skip (h : Keeps tree seen kept) (hs : s.length = 0) : Keeps tree (seen ++ [s]) kept := by
  refine ⟨fun i t ht => ?_, fun t ht hne => ?_⟩
  · obtain ⟨hmem, hrest⟩ := h.source i t ht
    exact ⟨List.mem_append_left _ hmem, hrest⟩
  · rcases List.mem_append.mp ht with ht | ht
    · exact h.cover t ht hne
    · rw [List.mem_singleton.mp ht] at hne
      exact absurd hs hne

theorem Keeps.insert (htree : tree.Finds) (h : Keeps tree seen kept) (hfits : ∀ t ∈ seen, t.Fits)
    (hs : s.Fits) (hne : s.length ≠ 0) (hclear : ∀ t ∈ seen, ¬ t.Collides s) {after : tree.Tree}
    (hinsert : tree.insert kept s.interval s = .ok after) : Keeps tree (seen ++ [s]) after := by
  have hfind := htree.find?_insert hinsert
  refine ⟨fun i t ht => ?_, fun t ht htne => ?_⟩
  · rw [hfind] at ht
    split at ht
    · next hi =>
      cases ht
      exact ⟨List.mem_append_right _ (List.mem_singleton_self _), hne, hi.symm⟩
    · obtain ⟨hmem, hrest⟩ := h.source i t ht
      exact ⟨List.mem_append_left _ hmem, hrest⟩
  · rw [hfind]
    split
    · next hsame =>
      refine ⟨s, rfl, ?_⟩
      rcases List.mem_append.mp ht with ht | ht
      · -- the span is gone, but one of the same name is in its place
        exact (name_eq_of_same (hfits t ht) hs htne hsame (hclear t ht)).symm
      · rw [List.mem_singleton.mp ht]
    · next hother =>
      rcases List.mem_append.mp ht with ht | ht
      · exact h.cover t ht htne
      · exact absurd (congrArg interval (List.mem_singleton.mp ht)) hother

/-- No collision is lost with what is not kept. -/
theorem Keeps.exists_kept (h : Keeps tree seen kept) (hfits : ∀ t ∈ seen, t.Fits) (ht : t ∈ seen)
    (hcollides : t.Collides s) : ∃ u, tree.find? kept t.interval = some u ∧ u.Collides s := by
  obtain ⟨u, hu, hname⟩ := h.cover t ht (collides_iff.mp hcollides).1
  obtain ⟨hmem, -, hsame⟩ := h.source _ u hu
  exact ⟨u, hu, hcollides.of_same (hfits t ht) (hfits u hmem) hname.symm hsame.symm⟩

/-! ## The check -/

/-- What the check looks for among the intersections. -/
def isForeign (s t : Span) : Bool := t.name != s.name && s.overlaps t

theorem isForeign_iff (hs : s.Fits) (ht : t.Fits) (hsne : s.length ≠ 0) (htne : t.length ≠ 0) :
    s.isForeign t = true ↔ t.Collides s := by
  unfold isForeign
  rw [Bool.and_eq_true, bne_iff_ne, overlaps_iff hs ht, collides_iff]
  constructor
  · rintro ⟨hname, hst, hts⟩
    exact ⟨htne, hsne, hname, hts, hst⟩
  · rintro ⟨-, -, hname, hts, hst⟩
    exact ⟨hname, hst, hts⟩

/-- Of some spans without a collision, `t` is one that collides with `s`. -/
structure Collision (before : List Span) (t s : Span) : Prop where
  clear : before.Pairwise fun u v => ¬ u.Collides v
  mem : t ∈ before
  collides : t.Collides s

/-- It is the first of these by start and end. -/
structure FirstCollision (before : List Span) (t s : Span) : Prop extends Collision before t s where
  least : ∀ u ∈ before, u.Collides s → ¬ u.interval.Precedes t.interval

theorem Keeps.isForeign_iff (h : Keeps tree seen kept) (hfits : ∀ t ∈ seen, t.Fits) (hs : s.Fits)
    (hne : s.length ≠ 0) {i : Interval} (ht : tree.find? kept i = some t) :
    s.isForeign t = true ↔ t.Collides s := by
  obtain ⟨hmem, htne, -⟩ := h.source i t ht
  exact Span.isForeign_iff hs (hfits t hmem) hne htne

theorem Keeps.collision (htree : tree.Finds) (h : Keeps tree seen kept) (hfits : ∀ t ∈ seen, t.Fits)
    (hs : s.Fits) (hne : s.length ≠ 0) (hclear : seen.Pairwise fun u v => ¬ u.Collides v)
    (hfound : (tree.intersections kept s.interval).find? s.isForeign = some t) :
    Collision seen t s := by
  obtain ⟨i, ht, -⟩ := htree.mem_intersections.mp (List.mem_of_find?_eq_some hfound)
  exact ⟨hclear, (h.source i t ht).1, (h.isForeign_iff hfits hs hne ht).mp (List.find?_some hfound)⟩

/-- What collides with a span touches it, so something in its place is among the intersections. -/
theorem Keeps.exists_hit (htree : tree.Finds) (h : Keeps tree seen kept) (hfits : ∀ t ∈ seen, t.Fits)
    (hs : s.Fits) (hne : s.length ≠ 0) (ht : t ∈ seen) (hts : t.Collides s) :
    ∃ u ∈ tree.intersections kept s.interval, u.interval = t.interval ∧ s.isForeign u = true := by
  obtain ⟨u, hu, hus⟩ := h.exists_kept hfits ht hts
  obtain ⟨hmem, -, hsame⟩ := h.source _ u hu
  have hforeign := (h.isForeign_iff hfits hs hne hu).mpr hus
  have htouches := touches_of_overlaps hs (hfits u hmem) (Bool.and_eq_true_iff.mp hforeign).2
  rw [hsame] at htouches
  exact ⟨u, htree.mem_intersections.mpr ⟨t.interval, hu, htouches⟩, hsame, hforeign⟩

theorem Keeps.clear (htree : tree.Finds) (h : Keeps tree seen kept) (hfits : ∀ t ∈ seen, t.Fits)
    (hs : s.Fits) (hne : s.length ≠ 0)
    (hnone : (tree.intersections kept s.interval).find? s.isForeign = none) :
    ∀ t ∈ seen, ¬ t.Collides s := by
  intro t ht hts
  obtain ⟨u, hu, -, hforeign⟩ := h.exists_hit htree hfits hs hne ht hts
  exact List.find?_eq_none.mp hnone u hu hforeign

/-- If intersections come in order, the first that collides is the least. -/
theorem Keeps.least (htree : tree.Finds) (horder : tree.InOrder) (h : Keeps tree seen kept)
    (hfits : ∀ t ∈ seen, t.Fits) (hs : s.Fits) (hne : s.length ≠ 0)
    (hfound : (tree.intersections kept s.interval).find? s.isForeign = some t) :
    ∀ u ∈ seen, u.Collides s → ¬ u.interval.Precedes t.interval := by
  intro u hu hus hbefore
  obtain ⟨v, hv, hsame, hforeign⟩ := h.exists_hit htree hfits hs hne hu hus
  rw [← hsame] at hbefore
  obtain ⟨js, hjs, hmap⟩ := horder.ascending kept s.interval
  obtain ⟨-, front, back, hhits, hfront⟩ := List.find?_eq_some_iff_append.mp hfound
  rw [hhits] at hv hmap
  rw [List.map_append, List.map_cons] at hmap
  obtain ⟨js₁, js', rfl, -, hjs'⟩ := List.append_eq_map_iff.mp hmap
  obtain ⟨j, js₂, rfl, hj, hjs₂⟩ := List.map_eq_cons_iff.mp hjs'
  rcases List.mem_append.mp hv with hv | hv
  · have hnot := hfront v hv
    rw [hforeign] at hnot
    cases hnot
  · rcases List.mem_cons.mp hv with rfl | hv
    · exact hbefore.asymm hbefore
    · -- behind what was found all intervals come later
      have hv' : some v ∈ js₂.map (tree.find? kept) := by
        rw [hjs₂]
        exact List.mem_map_of_mem hv
      obtain ⟨k, hk, hkv⟩ := List.mem_map.mp hv'
      obtain ⟨-, htail, -⟩ := List.pairwise_append.mp hjs
      have hbehind := (List.pairwise_cons.mp htail).1 k hk
      rw [← (h.source j t hj).2.2, ← (h.source k v hkv).2.2] at hbehind
      exact hbefore.asymm hbehind

/-- The error about a collision. -/
def collision (t s : Span) : Error :=
  .report { kind := .sectionsOverlap, name := t.name, other := s.name }

/-- The check goes through spans without a collision, stops at the first there is, or has a span that
the tree does not take. -/
theorem check_cases (htree : tree.Finds) (h : Keeps tree seen kept)
    (hclear : seen.Pairwise fun u v => ¬ u.Collides v) (hfits : ∀ s ∈ seen ++ spans, s.Fits) :
    check tree kept spans = .ok () ∧ (seen ++ spans).Pairwise (fun u v => ¬ u.Collides v) ∨
    (∃ before s after t, seen ++ spans = before ++ s :: after ∧ Collision before t s ∧
      (tree.InOrder → FirstCollision before t s) ∧
      check tree kept spans = .error (collision t s)) ∨
    ∃ t s e, s.start < s.stop ∧ tree.insert t s.interval s = .error e ∧
      check tree kept spans = .error (.because { kind := .internal, name := s.name } e) := by
  induction spans generalizing seen kept with
  | nil =>
    rw [List.append_nil]
    exact .inl ⟨rfl, hclear⟩
  | cons s rest ih =>
    have hseen : ∀ t ∈ seen, t.Fits := fun t ht => hfits t (List.mem_append_left _ ht)
    have hs : s.Fits := hfits s (List.mem_append_right _ (List.mem_cons_self ..))
    have hnext (hs : ∀ t ∈ seen, ¬ t.Collides s) :
        (seen ++ [s]).Pairwise fun u v => ¬ u.Collides v := by
      refine List.pairwise_append.mpr ⟨hclear, List.pairwise_singleton _ s, fun t ht u hu => ?_⟩
      rw [List.mem_singleton.mp hu]
      exact hs t ht
    rw [List.append_cons] at hfits
    unfold check
    split
    · next hempty =>
      rw [List.append_cons]
      refine ih (h.skip hempty) (hnext fun t _ hts => ?_) hfits
      exact (collides_iff.mp hts).2.1 hempty
    · next hne =>
      split
      · next t hfound =>
        have hcollision := h.collision htree hseen hs hne hclear hfound
        exact .inr (.inl ⟨seen, s, rest, t, rfl, hcollision,
          fun horder => ⟨hcollision, h.least htree horder hseen hs hne hfound⟩, rfl⟩)
      · next hnone =>
        have hfree := h.clear htree hseen hs hne hnone
        split
        · next e hinsert =>
          exact .inr (.inr ⟨kept, s, e, start_lt_stop hs hne, hinsert, rfl⟩)
        · next after hinsert =>
          rw [List.append_cons]
          exact ih (h.insert htree hseen hs hne hfree hinsert) (hnext hfree) hfits

theorem pairwise_of_checkOverlap (htree : tree.Finds) (hfits : ∀ s ∈ spans, s.Fits)
    (h : checkOverlap tree spans = .ok ()) : spans.Pairwise fun u v => ¬ u.Collides v := by
  obtain ⟨-, hclear⟩ | ⟨_, _, _, _, -, -, -, herror⟩ | ⟨_, _, _, -, -, herror⟩ :=
    check_cases htree (keeps_empty htree) List.Pairwise.nil hfits
  · exact hclear
  · rw [checkOverlap, herror] at h
    cases h
  · rw [checkOverlap, herror] at h
    cases h

theorem collision_of_checkOverlap {e : Error} (htree : tree.Finds) (haccepts : tree.Accepts)
    (hfits : ∀ s ∈ spans, s.Fits) (h : checkOverlap tree spans = .error e) :
    ∃ before s after t, spans = before ++ s :: after ∧ Collision before t s ∧
      (tree.InOrder → FirstCollision before t s) ∧ e = collision t s := by
  obtain ⟨hok, -⟩ | ⟨before, s, after, t, hspans, hcollision, hfirst, herror⟩ |
      ⟨t, s, e', hlt, hinsert, -⟩ := check_cases htree (keeps_empty htree) List.Pairwise.nil hfits
  · rw [checkOverlap, hok] at h
    cases h
  · rw [checkOverlap, herror] at h
    exact ⟨before, s, after, t, hspans, hcollision, hfirst, (Except.error.inj h).symm⟩
  · obtain ⟨t', ht'⟩ := haccepts.exists_insert t s.interval s hlt
    rw [hinsert] at ht'
    cases ht'

/-- A tree that takes what it should leaves the check only collisions to fail for. -/
theorem kinds_of_check {e : Error} (haccepts : tree.Accepts) (hfits : ∀ s ∈ spans, s.Fits)
    (h : check tree kept spans = .error e) : e.kinds = [.sectionsOverlap] := by
  induction spans generalizing kept with
  | nil => cases h
  | cons s rest ih =>
    obtain ⟨hs, hrest⟩ := List.forall_mem_cons.mp hfits
    unfold check at h
    split at h
    · exact ih hrest h
    · next hne =>
      split at h
      · cases h
        rfl
      · obtain ⟨after, hafter⟩ :=
          haccepts.exists_insert kept s.interval s (start_lt_stop hs hne)
        rw [hafter] at h
        exact ih hrest h

/-! ## The first collision -/

theorem not_collides_of_pairwise (h : spans.Pairwise fun u v => ¬ u.Collides v) (hs : s ∈ spans)
    (ht : t ∈ spans) : ¬ s.Collides t := by
  have hflip : spans.Pairwise (flip fun u v => ¬ u.Collides v) :=
    h.imp fun huv hvu => huv hvu.symm
  exact h.forall_of_forall_of_flip (fun _ _ hself => hself.1 rfl) hflip hs ht

variable {before' after after' : List Span} {s' t' : Span}

/-- Behind the first collision nothing is without a collision. -/
theorem Collision.not_before (h : Collision before t s) (h' : Collision before' t' s')
    (rest : List Span) : before' ≠ before ++ s :: rest := by
  rintro rfl
  refine not_collides_of_pairwise h'.clear ?_ ?_ h.collides
  · exact List.mem_append_left _ h.mem
  · exact List.mem_append_right _ (List.mem_cons_self ..)

/-- There is one span at most that is first to collide, and all that come into question for the other
have one name. -/
theorem FirstCollision.unique (h : FirstCollision before t s) (h' : FirstCollision before' t' s')
    (hfits : ∀ u ∈ before, u.Fits) (e : before ++ s :: after = before' ++ s' :: after') :
    t.name = t'.name ∧ s = s' := by
  have hsame : before = before' ∧ s = s' := by
    obtain ⟨_ | ⟨x, rest⟩, hbefore, hrest⟩ | ⟨_ | ⟨x, rest⟩, hbefore, hrest⟩ :=
      List.append_eq_append_iff.mp e
    · exact ⟨by rw [hbefore, List.append_nil], (List.cons.inj hrest).1⟩
    · rw [← (List.cons.inj hrest).1] at hbefore
      exact absurd hbefore (h.toCollision.not_before h'.toCollision rest)
    · exact ⟨by rw [hbefore, List.append_nil], (List.cons.inj hrest).1.symm⟩
    · rw [← (List.cons.inj hrest).1] at hbefore
      exact absurd hbefore (h'.toCollision.not_before h.toCollision rest)
  obtain ⟨rfl, rfl⟩ := hsame
  refine ⟨?_, rfl⟩
  have hle := h.least t' h'.mem h'.collides
  have hge := h'.least t h.mem h.collides
  have hsame : t.interval = t'.interval := by
    apply Classical.byContradiction
    intro hne
    exact hle (Interval.precedes_of_not (Ne.symm hne) hge)
  exact name_eq_of_same (hfits t h.mem) (hfits t' h'.mem) (collides_iff.mp h.collides).1 hsame
    (not_collides_of_pairwise h.clear h.mem h'.mem)

end Span

/-- The check for overlaps is the pairwise check, whatever the order of the spans. It fails if two of
them collide, and only then, with an error about the first span that collides with one before it and
about the first of those by start and end. It never comes upon an interval that the tree refuses. The
tree is any that takes intervals which end behind their start, replaces what is under an interval, and
gives all that touch one in order. -/
theorem overlap_check_is_pairwise {tree : IntervalTree Span} (hfinds : tree.Finds)
    (haccepts : tree.Accepts) (horder : tree.InOrder) {spans : List Span}
    (hfits : ∀ s ∈ spans, s.Fits) :
    ((∃ e, Span.checkOverlap tree spans = .error e) ↔ ∃ s ∈ spans, ∃ t ∈ spans, s.Collides t) ∧
    (∀ e, Span.checkOverlap tree spans = .error e ↔ ∃ before s after t,
      spans = before ++ s :: after ∧ Span.FirstCollision before t s ∧
      e = .report { kind := .sectionsOverlap, name := t.name, other := s.name }) ∧
    ∀ e, Span.checkOverlap tree spans = .error e → .internal ∉ e.kinds := by
  have hfirst {e : Error} (he : Span.checkOverlap tree spans = .error e) : ∃ before s after t,
      spans = before ++ s :: after ∧ Span.FirstCollision before t s ∧ e = Span.collision t s := by
    obtain ⟨before, s, after, t, hspans, -, hfirst, rfl⟩ :=
      Span.collision_of_checkOverlap hfinds haccepts hfits he
    exact ⟨before, s, after, t, hspans, hfirst horder, rfl⟩
  have hfails {s t : Span} (hs : s ∈ spans) (ht : t ∈ spans) (hst : s.Collides t) :
      ∃ e, Span.checkOverlap tree spans = .error e := by
    rcases hcheck : Span.checkOverlap tree spans with e | _
    · exact ⟨e, rfl⟩
    · have hclear := Span.pairwise_of_checkOverlap hfinds hfits hcheck
      exact absurd hst (Span.not_collides_of_pairwise hclear hs ht)
  refine ⟨⟨fun ⟨e, he⟩ => ?_, fun ⟨s, hs, t, ht, hst⟩ => hfails hs ht hst⟩,
    fun e => ⟨hfirst, ?_⟩, fun e he => ?_⟩
  · obtain ⟨before, s, after, t, rfl, hfirst, -⟩ := hfirst he
    exact ⟨t, List.mem_append_left _ hfirst.mem, s,
      List.mem_append_right _ (List.mem_cons_self ..), hfirst.collides⟩
  · rintro ⟨before, s, after, t, rfl, hcollision, rfl⟩
    obtain ⟨e, he⟩ := hfails (List.mem_append_left _ hcollision.mem)
      (List.mem_append_right _ (List.mem_cons_self ..)) hcollision.collides
    obtain ⟨before', s', after', t', hsame, hcollision', rfl⟩ := hfirst he
    obtain ⟨hname, rfl⟩ := hcollision.unique hcollision'
      (fun u hu => hfits u (List.mem_append_left _ hu)) hsame
    rw [he, Span.collision, hname]
  · rw [Span.kinds_of_check haccepts hfits he]
    decide

/-- Two spans of one name at the same place, an empty one between them, one that only touches them,
and one that runs into all that are not empty. -/
def crossing : List Span :=
  [⟨text "b", 8, 4⟩, ⟨text "empty", 10, 0⟩, ⟨text "b", 8, 4⟩, ⟨text "a", 4, 4⟩, ⟨text "c", 7, 3⟩,
    ⟨text "b", 4, 8⟩]

theorem overlap_check_is_pairwise_crossing :
    (∀ s ∈ crossing, s.Fits) ∧
    Span.FirstCollision (crossing.take 4) ⟨text "a", 4, 4⟩ ⟨text "c", 7, 3⟩ ∧
    Span.checkOverlap (IntervalTree.sorted Span) crossing =
      .error (.report { kind := .sectionsOverlap, name := text "a", other := text "c" }) := by
  have hfits : ∀ s ∈ crossing, s.Fits := by
    unfold Span.Fits
    decide
  have hfirst : Span.FirstCollision (crossing.take 4) ⟨text "a", 4, 4⟩ ⟨text "c", 7, 3⟩ :=
    ⟨⟨by decide, by decide, by decide⟩, by decide⟩
  have h := overlap_check_is_pairwise IntervalTree.sorted_finds IntervalTree.sorted_accepts
    IntervalTree.sorted_inOrder hfits
  refine ⟨hfits, hfirst, (h.2.1 _).mpr ?_⟩
  exact ⟨crossing.take 4, ⟨text "c", 7, 3⟩, [⟨text "b", 4, 8⟩], _, by decide, hfirst, rfl⟩

end AsmKit
