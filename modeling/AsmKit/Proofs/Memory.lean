import AsmKit.Linker.Executable
import AsmKit.Proofs.ReadBack

/-
  Memory as blocks. Sections, the runs they are joined to and the rows of a listing are all blocks:
  bytes from an address on. Blocks that lie one behind the other define a memory (`memory_defines`),
  and cutting a block in two or joining two that meet leaves the bytes where they are
  (`byteAt_append`). So the runs (`Joins.foldl`) and the rows (`cuts_rowsFrom`) hold the bytes of the
  sections they are made from.
-/

namespace AsmKit

namespace Block

variable {b c : Block} {bs cs : List Block} {a : Nat} {x y : UInt8}

/-- The address behind the last byte. -/
def stop (b : Block) : Nat := b.address.toNat + b.code.length

/-- The byte at an address. -/
def byteAt (b : Block) (a : Nat) : Option UInt8 :=
  if b.address.toNat ≤ a then b.code[a - b.address.toNat]? else none

/-- One of some blocks has a byte at an address. -/
def Holds (bs : List Block) (a : Nat) (x : UInt8) : Prop := ∃ b ∈ bs, b.byteAt a = some x

/-- Blocks give the bytes of a memory, and no others. -/
def Defines (bs : List Block) (m : Nat → Option UInt8) : Prop :=
  ∀ a x, m a = some x ↔ Holds bs a x

/-- The memory that blocks make up. -/
def memory (bs : List Block) (a : Nat) : Option UInt8 := bs.findSome? fun b => b.byteAt a

theorem byteAt_eq_some_iff : b.byteAt a = some x ↔
    b.address.toNat ≤ a ∧ b.code[a - b.address.toNat]? = some x := by
  unfold byteAt
  split
  · next h => rw [and_iff_right h]
  · next h => simp [h]

theorem bounds_of_byteAt (h : b.byteAt a = some x) : b.address.toNat ≤ a ∧ a < b.stop := by
  obtain ⟨hle, hbyte⟩ := byteAt_eq_some_iff.mp h
  have hlt := (List.getElem?_eq_some_iff.mp hbyte).1
  unfold stop
  omega

theorem ne_nil_of_byteAt (h : b.byteAt a = some x) : b.code ≠ [] := by
  intro hnil
  have hbounds := bounds_of_byteAt h
  rw [stop, hnil, List.length_nil] at hbounds
  omega

@[simp] theorem holds_nil : Holds [] a x ↔ False := by
  simp [Holds]

@[simp] theorem holds_cons : Holds (b :: bs) a x ↔ b.byteAt a = some x ∨ Holds bs a x := by
  simp [Holds]

@[simp] theorem holds_append : Holds (bs ++ cs) a x ↔ Holds bs a x ∨ Holds cs a x := by
  simp only [Holds, List.mem_append, or_and_right, exists_or]

/-- A block is its front, and what is left from there on. -/
theorem byteAt_append {address next : UInt32} {front back : Bytes}
    (h : back ≠ [] → next.toNat = address.toNat + front.length) :
    (⟨address, front ++ back⟩ : Block).byteAt a = some x ↔
      (⟨address, front⟩ : Block).byteAt a = some x ∨ (⟨next, back⟩ : Block).byteAt a = some x := by
  by_cases hback : back = []
  · have hnone : (⟨next, []⟩ : Block).byteAt a ≠ some x := fun hx => ne_nil_of_byteAt hx rfl
    rw [hback, List.append_nil, or_iff_left hnone]
  · rw [byteAt_eq_some_iff, byteAt_eq_some_iff, byteAt_eq_some_iff]
    dsimp only
    rw [h hback]
    by_cases hfront : a - address.toNat < front.length
    · rw [List.getElem?_append_left hfront, or_iff_left]
      omega
    · have hpast : front[a - address.toNat]? = none := List.getElem?_eq_none (by omega)
      rw [List.getElem?_append_right (by omega), hpast, ← Nat.sub_add_eq]
      constructor
      · intro ⟨hle, hx⟩
        exact .inr ⟨by omega, hx⟩
      · rintro (⟨-, hx⟩ | ⟨hle, hx⟩)
        · cases hx
        · exact ⟨by omega, hx⟩

/-! ## Blocks one behind the other -/

/-- Blocks below the top of the address space, by address. One without bytes may lie anywhere before
what follows. -/
structure Laid (bs : List Block) : Prop where
  fits : ∀ b ∈ bs, b.stop ≤ 2 ^ 32 - 1
  ascending : bs.Pairwise fun b c => c.code ≠ [] → b.stop ≤ c.address.toNat

theorem Laid.left (h : Laid (bs ++ cs)) : Laid bs :=
  ⟨fun b hb => h.fits b (List.mem_append_left _ hb), (List.pairwise_append.mp h.ascending).1⟩

theorem apart_of_split {R : Block → Block → Prop} {front mid back : List Block}
    (h : bs.Pairwise R) (e : bs = front ++ b :: mid ++ c :: back) : R b c := by
  rw [e] at h
  exact (List.pairwise_append.mp h).2.2 b (List.mem_append_right _ (List.mem_cons_self ..)) c
    (List.mem_cons_self ..)

/-- Two blocks have no address in common. -/
theorem Laid.eq_of_byteAt (h : Laid bs) (hb : b ∈ bs) (hc : c ∈ bs) (hx : b.byteAt a = some x)
    (hy : c.byteAt a = some y) : x = y := by
  have hbb := bounds_of_byteAt hx
  have hcb := bounds_of_byteAt hy
  by_cases e : b = c
  · rw [e, hy] at hx
    exact (Option.some.inj hx).symm
  · obtain ⟨_, _, _, hsplit⟩ | ⟨_, _, _, hsplit⟩ := Linker.two_of_mem hb hc e
    · have hle := apart_of_split h.ascending hsplit (ne_nil_of_byteAt hy)
      omega
    · have hle := apart_of_split h.ascending hsplit (ne_nil_of_byteAt hx)
      omega

theorem memory_defines (h : Laid bs) : Defines bs (memory bs) := by
  intro a x
  unfold memory
  constructor
  · intro hx
    obtain ⟨_, b, _, rfl, hbyte, -⟩ := List.findSome?_eq_some_iff.mp hx
    exact ⟨b, by simp, hbyte⟩
  · intro ⟨b, hb, hx⟩
    obtain ⟨y, hy⟩ : ∃ y, (bs.findSome? fun b => b.byteAt a) = some y := by
      rw [← Option.isSome_iff_exists, List.findSome?_isSome_iff]
      exact ⟨b, hb, by rw [hx]; rfl⟩
    obtain ⟨front, c, back, rfl, hbyte, -⟩ := List.findSome?_eq_some_iff.mp hy
    rw [hy, h.eq_of_byteAt hb (by simp) hx hbyte]

/-! ## Runs -/

/-- The maximal runs of a memory, by address. -/
structure RunsOf (m : Nat → Option UInt8) (bs : List Block) : Prop where
  nonempty : ∀ b ∈ bs, b.code ≠ []
  apart : bs.Pairwise fun b c => b.stop < c.address.toNat
  defines : Defines bs m
  maximal : ∀ b ∈ bs, m b.stop = none ∧ ∀ a, a + 1 = b.address.toNat → m a = none

/-- Blocks with gaps between them are maximal. -/
theorem runsOf_of_apart {m : Nat → Option UInt8} (hnonempty : ∀ b ∈ bs, b.code ≠ [])
    (hapart : bs.Pairwise fun b c => b.stop < c.address.toNat) (hdefines : Defines bs m) :
    RunsOf m bs := by
  -- a byte that touches `b` would be in a block that has no gap to it
  have hfree (b : Block) (hb : b ∈ bs) (a : Nat) (ha : a = b.stop ∨ a + 1 = b.address.toNat) :
      m a = none := by
    by_contra hsome
    obtain ⟨x, hx⟩ := Option.ne_none_iff_exists'.mp hsome
    obtain ⟨c, hc, hbyte⟩ := (hdefines a x).mp hx
    have hbounds := bounds_of_byteAt hbyte
    have hle : b.address.toNat ≤ b.stop := Nat.le_add_right ..
    by_cases e : b = c
    · subst e
      omega
    · obtain ⟨_, _, _, hsplit⟩ | ⟨_, _, _, hsplit⟩ := Linker.two_of_mem hb hc e
      · have hgap := apart_of_split hapart hsplit
        omega
      · have hgap := apart_of_split hapart hsplit
        omega
  exact ⟨hnonempty, hapart, hdefines, fun b hb =>
    ⟨hfree b hb _ (.inl rfl), fun a ha => hfree b hb a (.inr ha)⟩⟩

end Block

open Block

theorem Section.toNat_length {s : Section} (h : s.code.length < 2 ^ 32) :
    s.length.toNat = s.code.length := UInt32.toNat_ofNat_of_lt' h

/-- The memory that a section takes up, with its bytes. -/
def Section.block (s : Section) : Block := ⟨s.location, s.code⟩

/-- The sections of a program. -/
def Executable.pieces (exe : Executable) : List Block := exe.segments.map fun s => s.body.block

namespace Executable

variable {pieces found : List Block} {s : Section}

/-- The runs, last first, that pieces of memory are joined to. -/
structure Joins (pieces found : List Block) : Prop where
  nonempty : ∀ b ∈ found, b.code ≠ []
  apart : found.Pairwise fun b c => c.stop < b.address.toNat
  holds : ∀ a x, Holds found a x ↔ Holds pieces a x
  reach : ∀ b ∈ found, ∃ c ∈ pieces, b.stop = c.stop

theorem joins_nil : Joins [] [] := by
  refine ⟨?_, .nil, fun _ _ => Iff.rfl, ?_⟩
  · intro b hb
    cases hb
  · intro b hb
    cases hb

theorem Joins.skip (h : Joins pieces found) (hs : s.code = []) :
    Joins (pieces ++ [s.block]) found := by
  refine ⟨h.nonempty, h.apart, fun a x => ?_, fun b hb => ?_⟩
  · have hnone : s.block.byteAt a ≠ some x := fun hx => ne_nil_of_byteAt hx hs
    rw [h.holds, holds_append, holds_cons, holds_nil, or_false, or_iff_left hnone]
  · obtain ⟨c, hc, e⟩ := h.reach b hb
    exact ⟨c, List.mem_append_left _ hc, e⟩

theorem Joins.extend {last : Block} {before : List Block} (h : Joins pieces (last :: before))
    (hmeet : last.stop = s.location.toNat) :
    Joins (pieces ++ [s.block]) ({ last with code := last.code ++ s.code } :: before) := by
  obtain ⟨hlast, hbefore⟩ := List.pairwise_cons.mp h.apart
  have hnonempty := List.forall_mem_cons.mp h.nonempty
  refine ⟨List.forall_mem_cons.mpr ⟨?_, hnonempty.2⟩, List.pairwise_cons.mpr ⟨hlast, hbefore⟩,
    fun a x => ?_, List.forall_mem_cons.mpr ⟨?_, fun b hb => ?_⟩⟩
  · intro hnil
    exact hnonempty.1 (List.append_eq_nil_iff.mp hnil).1
  · rw [holds_append, ← h.holds, holds_cons, holds_cons, holds_cons, holds_nil, or_false,
      byteAt_append fun _ => hmeet.symm]
    exact or_right_comm
  · refine ⟨s.block, List.mem_append_right _ (List.mem_singleton_self _), ?_⟩
    show last.address.toNat + (last.code ++ s.code).length = s.location.toNat + s.code.length
    rw [List.length_append, ← Nat.add_assoc, ← hmeet]
    rfl
  · obtain ⟨c, hc, e⟩ := h.reach b (List.mem_cons_of_mem _ hb)
    exact ⟨c, List.mem_append_left _ hc, e⟩

theorem Joins.start (h : Joins pieces found) (hs : s.code ≠ [])
    (hbehind : ∀ b ∈ found, b.stop < s.location.toNat) :
    Joins (pieces ++ [s.block]) (s.block :: found) := by
  refine ⟨List.forall_mem_cons.mpr ⟨hs, h.nonempty⟩, List.pairwise_cons.mpr ⟨hbehind, h.apart⟩,
    fun a x => ?_, List.forall_mem_cons.mpr ⟨?_, fun b hb => ?_⟩⟩
  · rw [holds_append, ← h.holds, holds_cons, holds_cons, holds_nil, or_false]
    exact or_comm
  · exact ⟨s.block, List.mem_append_right _ (List.mem_singleton_self _), rfl⟩
  · obtain ⟨c, hc, e⟩ := h.reach b hb
    exact ⟨c, List.mem_append_left _ hc, e⟩

/-- The next section is skipped, extends the last run or starts one. -/
theorem Joins.addBlock (h : Joins pieces found) (hlaid : Laid (pieces ++ [s.block])) :
    Joins (pieces ++ [s.block]) (addBlock found s) := by
  have hfits : s.location.toNat + s.code.length ≤ 2 ^ 32 - 1 :=
    hlaid.fits s.block (List.mem_append_right _ (List.mem_singleton_self _))
  have hempty : s.length = 0 ↔ s.code = [] := by
    rw [← UInt32.toNat_inj, Section.toNat_length (by omega)]
    exact List.length_eq_zero_iff
  have hbehind (hs : s.code ≠ []) (b : Block) (hb : b ∈ found) : b.stop ≤ s.location.toNat := by
    obtain ⟨c, hc, e⟩ := h.reach b hb
    rw [e]
    exact (List.pairwise_append.mp hlaid.ascending).2.2 c hc _ (List.mem_singleton_self _) hs
  unfold Executable.addBlock
  split
  · next hs => exact h.skip (hempty.mp hs)
  · next hs =>
    rw [hempty] at hs
    rcases found with _ | ⟨last, before⟩
    · exact h.start hs fun b hb => nomatch hb
    · dsimp only
      split
      · next hmeet => exact h.extend hmeet
      · next hgap =>
        refine h.start hs fun b hb => ?_
        have hlast := hbehind hs last (List.mem_cons_self ..)
        have hne : last.stop ≠ s.location.toNat := hgap
        obtain rfl | hb := List.mem_cons.mp hb
        · omega
        · -- an earlier run ends before the last one begins
          have hearlier := (List.pairwise_cons.mp h.apart).1 b hb
          have hle : last.address.toNat ≤ last.stop := Nat.le_add_right ..
          omega

theorem Joins.foldl (segments : List Segment) (h : Joins pieces found)
    (hlaid : Laid (pieces ++ segments.map fun s => s.body.block)) :
    Joins (pieces ++ segments.map fun s => s.body.block)
      (segments.foldl (fun found s => Executable.addBlock found s.body) found) := by
  induction segments generalizing pieces found with
  | nil =>
    rw [List.map_nil, List.append_nil]
    exact h
  | cons s segments ih =>
    rw [List.map_cons, ← List.singleton_append, ← List.append_assoc] at hlaid ⊢
    exact ih (h.addBlock hlaid.left) hlaid

end Executable

/-! ## Rows -/

namespace Block

variable {b : Block} {rows : List Block}

/-- The rows that a block is cut into. -/
structure Cuts (b : Block) (rows : List Block) : Prop where
  nonempty : ∀ r ∈ rows, r.code ≠ []
  within : ∀ r ∈ rows, b.address.toNat ≤ r.address.toNat ∧ r.stop ≤ b.stop
  ascending : rows.Pairwise fun r t => r.stop ≤ t.address.toNat
  holds : ∀ a x, Holds rows a x ↔ b.byteAt a = some x

theorem cuts_nil (h : b.code = []) : Cuts b [] := by
  refine ⟨?_, ?_, .nil, fun a x => ?_⟩
  · intro r hr
    cases hr
  · intro r hr
    cases hr
  · rw [holds_nil, false_iff]
    exact fun hx => ne_nil_of_byteAt hx h

theorem lt_stop (h : b.code ≠ []) : b.address.toNat < b.stop :=
  Nat.lt_add_of_pos_right (List.length_pos_iff.mpr h)

theorem Cuts.ne_nil {r : Block} (h : Cuts b rows) (hr : r ∈ rows) : b.code ≠ [] := by
  intro hnil
  obtain ⟨hlow, hhigh⟩ := h.within r hr
  have hlt := lt_stop (h.nonempty r hr)
  have hstop : b.stop = b.address.toNat := by
    unfold stop
    rw [hnil, List.length_nil, Nat.add_zero]
  omega

theorem Cuts.cons {address next : UInt32} {front back : Bytes} (hfront : front ≠ [])
    (hnext : back ≠ [] → next.toNat = address.toNat + front.length)
    (h : Cuts ⟨next, back⟩ rows) : Cuts ⟨address, front ++ back⟩ (⟨address, front⟩ :: rows) := by
  have hbehind (r : Block) (hr : r ∈ rows) :
      address.toNat + front.length ≤ r.address.toNat ∧
        r.stop ≤ address.toNat + (front ++ back).length := by
    obtain ⟨hlow, hhigh⟩ := h.within r hr
    unfold stop at hhigh
    dsimp only at hlow hhigh
    rw [hnext (h.ne_nil hr)] at hlow hhigh
    rw [List.length_append, ← Nat.add_assoc]
    exact ⟨hlow, hhigh⟩
  refine ⟨List.forall_mem_cons.mpr ⟨hfront, h.nonempty⟩,
    List.forall_mem_cons.mpr ⟨⟨Nat.le_refl _, ?_⟩, fun r hr => ⟨?_, (hbehind r hr).2⟩⟩,
    List.pairwise_cons.mpr ⟨fun r hr => (hbehind r hr).1, h.ascending⟩, fun a x => ?_⟩
  · show address.toNat + front.length ≤ address.toNat + (front ++ back).length
    rw [List.length_append]
    omega
  · have hle := (hbehind r hr).1
    show address.toNat ≤ r.address.toNat
    omega
  · rw [holds_cons, h.holds, byteAt_append hnext]

end Block

namespace Executable

/-- The rows of a listing from the one with the number `k` on. -/
def rowsFrom (location : UInt32) (k : Nat) (rows : List Bytes) : List Block :=
  (rows.zipIdx k).map fun (row, n) => ⟨location + UInt32.ofNat (8 * n), row⟩

/-- Rows are eight bytes apart, as far as there are bytes. -/
theorem cuts_rowsFrom {location : UInt32} {k : Nat} {code : Bytes}
    (hfits : code ≠ [] → location.toNat + 8 * k + code.length ≤ 2 ^ 32 - 1) :
    Cuts ⟨location + UInt32.ofNat (8 * k), code⟩ (rowsFrom location k code.rows) := by
  have toNat_row {n : Nat} (h : location.toNat + 8 * n ≤ 2 ^ 32 - 1) :
      (location + UInt32.ofNat (8 * n)).toNat = location.toNat + 8 * n := by
    rw [UInt32.toNat_add, UInt32.toNat_ofNat_of_lt' (show 8 * n < 2 ^ 32 by omega)]
    exact Nat.mod_eq_of_lt (by omega)
  fun_induction Bytes.rows code generalizing k with
  | case1 code hempty => exact cuts_nil (List.isEmpty_iff.mp hempty)
  | case2 code hsome ih =>
    rw [List.isEmpty_iff] at hsome
    have hfits := hfits hsome
    have hlong (hdrop : code.drop 8 ≠ []) : 8 < code.length := by
      by_contra hshort
      exact hdrop (List.drop_eq_nil_of_le (Nat.le_of_not_lt hshort))
    have hfront : code.take 8 ≠ [] := by
      intro hnil
      exact hsome ((List.take_eq_nil_iff.mp hnil).resolve_left (by decide))
    have hnext (hdrop : code.drop 8 ≠ []) : (location + UInt32.ofNat (8 * (k + 1))).toNat =
        (location + UInt32.ofNat (8 * k)).toNat + (code.take 8).length := by
      have := hlong hdrop
      rw [toNat_row (by omega), toNat_row (by omega), List.length_take]
      omega
    have hcuts := Cuts.cons hfront hnext (ih fun hdrop => by
      have := hlong hdrop
      rw [List.length_drop]
      omega)
    rw [List.take_append_drop] at hcuts
    exact hcuts

end Executable

end AsmKit
