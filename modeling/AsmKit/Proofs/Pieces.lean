import AsmKit.Text.Piece

/-
  Text and its pieces. A piece is decided by its own bytes (`first_append`), and a byte of ASCII is
  always a piece of its own. So text falls apart in front of such a byte (`pieces_append_ascii`), and
  any stretch of pieces is found again when its bytes are scanned alone (`Rescans.of_isInfix`).
-/

namespace AsmKit

/-- What holds of all bytes can be checked value by value. -/
theorem forall_byte {P : UInt8 → Prop} (h : ∀ n < 256, P (UInt8.ofNat n)) (b : UInt8) : P b := by
  have hb := h b.toNat b.toNat_lt
  rw [UInt8.ofNat_toNat] at hb
  exact hb

/-! ## Classes -/

namespace Ascii

theorem isWord_of_isDigit {b : UInt8} (h : isDigit b = true) : isWord b = true := by
  unfold isWord
  rw [h, Bool.or_true]

theorem isWord_of_isHexDigit : ∀ b : UInt8, isHexDigit b = true → isWord b = true := by
  apply forall_byte
  decide +kernel

end Ascii

namespace Bytes

theorem isWord_of_isIdentifier {s : Bytes} (h : s.isIdentifier = true) :
    ∀ b ∈ s, Ascii.isWord b = true := by
  cases s with
  | nil => cases h
  | cons b rest =>
    unfold isIdentifier at h
    obtain ⟨hstart, hrest⟩ := Bool.and_eq_true_iff.mp h
    intro c hc
    obtain rfl | hc := List.mem_cons.mp hc
    · unfold Ascii.isWord
      rw [hstart, Bool.true_or]
    · exact List.all_eq_true.mp hrest c hc

theorem isWord_of_isDecimal {s : Bytes} (h : s.isDecimal = true) :
    ∀ b ∈ s, Ascii.isWord b = true := by
  intro b hb
  have hdigits := (Bool.and_eq_true_iff.mp h).2
  exact Ascii.isWord_of_isDigit (List.all_eq_true.mp hdigits b hb)

theorem isWord_of_isHexadecimal {s : Bytes} (h : s.isHexadecimal = true) :
    ∀ b ∈ s, Ascii.isWord b = true := by
  unfold isHexadecimal at h
  split at h
  · next digits =>
    have hdigits := (Bool.and_eq_true_iff.mp h).2
    intro b hb
    simp only [List.mem_cons] at hb
    rcases hb with rfl | rfl | hb
    · decide
    · decide
    · exact Ascii.isWord_of_isHexDigit b (List.all_eq_true.mp hdigits b hb)
  · cases h

end Bytes

/-! ## One piece -/

namespace Piece

/-- A byte that is a character. -/
def ofByte (b : UInt8) : Piece := ⟨some (Char.ofNat b.toNat), [b]⟩

theorem first_ascii {b : UInt8} (hb : b < 0x80) (rest : Bytes) : first b rest = ofByte b := by
  unfold first
  rw [if_pos hb]
  rfl

/-- What stands behind a piece does not decide it. -/
theorem first_append {b : UInt8} {rest more : Bytes}
    (h : (first b (rest ++ more)).bytes.length ≤ rest.length + 1) :
    first b rest = first b (rest ++ more) := by
  by_cases hb : b < 0x80
  · rw [first_ascii hb, first_ascii hb]
  · -- a form that needs more bytes than `rest` has was not found with them either
    rcases rest with _ | ⟨b₁, _ | ⟨b₂, _ | ⟨b₃, rest⟩⟩⟩
    · rcases more with _ | ⟨c₁, _ | ⟨c₂, _ | ⟨c₃, more⟩⟩⟩ <;>
        simp only [first, hb, if_false, List.nil_append] at h ⊢
      · cases h₂ : two? b c₁ <;> simp_all
      · cases h₂ : two? b c₁ <;> cases h₃ : three? b c₁ c₂ <;> simp_all
      · cases h₂ : two? b c₁ <;> cases h₃ : three? b c₁ c₂ <;> cases h₄ : four? b c₁ c₂ c₃ <;>
          simp_all
    · rcases more with _ | ⟨c₂, _ | ⟨c₃, more⟩⟩ <;>
        simp only [first, hb, if_false, List.nil_append, List.cons_append] at h ⊢
      · cases h₂ : two? b b₁ <;> cases h₃ : three? b b₁ c₂ <;> simp_all
      · cases h₂ : two? b b₁ <;> cases h₃ : three? b b₁ c₂ <;> cases h₄ : four? b b₁ c₂ c₃ <;>
          simp_all
    · rcases more with _ | ⟨c₃, more⟩ <;>
        simp only [first, hb, if_false, List.nil_append, List.cons_append] at h ⊢
      · cases h₂ : two? b b₁ <;> cases h₃ : three? b b₁ b₂ <;> cases h₄ : four? b b₁ b₂ c₃ <;>
          simp_all
    · rfl

theorem isTail_ascii {c : UInt8} (hc : c < 0x80) : isTail c = false := by
  unfold isTail
  rw [decide_eq_false (UInt8.not_le.mpr hc), Bool.false_and]

/-- No byte of ASCII belongs to a piece that starts before it. -/
theorem length_first_le {b c : UInt8} (hc : c < 0x80) (rest more : Bytes) :
    (first b (rest ++ c :: more)).bytes.length ≤ rest.length + 1 := by
  have htail := isTail_ascii hc
  have htwo (b : UInt8) : two? b c = none := by simp [two?, htail]
  have hthree (b x : UInt8) : three? b c x = none ∧ three? b x c = none := by
    simp [three?, htail]
  have hfour (b x y : UInt8) :
      four? b c x y = none ∧ four? b x c y = none ∧ four? b x y c = none := by
    simp [four?, htail]
  unfold first
  split
  · simp
  · rcases rest with _ | ⟨b₁, _ | ⟨b₂, _ | ⟨b₃, rest⟩⟩⟩
    · rcases more with _ | ⟨c₂, _ | ⟨c₃, more⟩⟩
      · simp [htwo]
      · simp [htwo, hthree]
      · simp [htwo, hthree, hfour]
    · rcases more with _ | ⟨c₂, more⟩
      · simp only [List.cons_append, List.nil_append, hthree]
        split <;> simp_all
      · simp only [List.cons_append, List.nil_append, hthree, hfour]
        split <;> simp_all
    · simp only [List.cons_append, List.nil_append, hfour]
      split <;> simp_all
    · simp only [List.cons_append]
      split <;> simp

theorem exists_bytes_first (b : UInt8) (rest : Bytes) :
    ∃ tail, (first b rest).bytes = b :: tail := by
  have h := first_bytes b rest
  rcases hbytes : (first b rest).bytes with _ | ⟨b', tail⟩
  · unfold first at hbytes
    repeat' split at hbytes
    all_goals cases hbytes
  · rw [hbytes, List.cons_append, List.cons.injEq] at h
    exact ⟨tail, by rw [h.1]⟩

/-! ## Scanning -/

theorem scan_found (found : List Piece) (skip : Nat) (s : Bytes) :
    scan found skip s = found.reverse ++ scan [] skip s := by
  induction s generalizing found skip with
  | nil => simp [scan]
  | cons b rest ih =>
    cases skip with
    | succ skip => exact ih found skip
    | zero =>
      simp only [scan]
      rw [ih, ih [first b rest]]
      simp

theorem scan_skip (skip : Nat) (s : Bytes) : scan [] skip s = Bytes.pieces (s.drop skip) := by
  induction s generalizing skip with
  | nil => simp [scan, Bytes.pieces]
  | cons b rest ih =>
    cases skip with
    | succ skip => exact ih skip
    | zero => rfl

end Piece

namespace Bytes

open Piece (ofByte first)

theorem pieces_ne_nil {s : Bytes} (h : s ≠ []) : pieces s ≠ [] := by
  intro hnil
  have hbytes := flatMap_pieces s
  rw [hnil] at hbytes
  exact h hbytes.symm

theorem pieces_cons (b : UInt8) (rest : Bytes) :
    pieces (b :: rest) =
      first b rest :: pieces (rest.drop ((first b rest).bytes.length - 1)) := by
  show Piece.scan [first b rest] ((first b rest).bytes.length - 1) rest = _
  rw [Piece.scan_found, Piece.scan_skip]
  rfl

theorem pieces_ascii {b : UInt8} (hb : b < 0x80) (rest : Bytes) :
    pieces (b :: rest) = ofByte b :: pieces rest := by
  rw [pieces_cons, Piece.first_ascii hb]
  rfl

/-- Text falls apart in front of a byte of ASCII. -/
theorem pieces_append_ascii {c : UInt8} (hc : c < 0x80) (s t : Bytes) :
    pieces (s ++ c :: t) = pieces s ++ pieces (c :: t) := by
  induction h : s.length using Nat.strongRecOn generalizing s with
  | _ n ih =>
    cases s with
    | nil => rfl
    | cons b rest =>
      have hle := Piece.length_first_le (b := b) hc rest t
      have hfirst := Piece.first_append hle
      rw [← hfirst] at hle
      have hshort : (first b rest).bytes.length - 1 ≤ rest.length := by omega
      have hrest : (rest.drop ((first b rest).bytes.length - 1)).length < n := by
        rw [List.length_drop, ← h, List.length_cons]
        omega
      rw [List.cons_append, pieces_cons, pieces_cons, ← hfirst,
        List.drop_append_of_le_length hshort, ih _ hrest _ rfl]
      rfl

theorem pieces_map_ascii {s : Bytes} (h : ∀ b ∈ s, b < 0x80) : pieces s = s.map ofByte := by
  induction s with
  | nil => rfl
  | cons b rest ih =>
    obtain ⟨hb, hrest⟩ := List.forall_mem_cons.mp h
    rw [pieces_ascii hb, ih hrest]
    rfl

theorem ofByte_mem_pieces {b : UInt8} {s : Bytes} (hb : b < 0x80) (h : b ∈ s) :
    ofByte b ∈ pieces s := by
  obtain ⟨front, back, rfl⟩ := List.append_of_mem h
  rw [pieces_append_ascii hb, pieces_ascii hb]
  exact List.mem_append_right _ List.mem_cons_self

/-! ## Stretches of pieces -/

/-- The bytes of some pieces fall into these pieces. -/
def Rescans (l : List Piece) : Prop := pieces (l.flatMap Piece.bytes) = l

theorem rescans_pieces (s : Bytes) : Rescans (pieces s) := by
  unfold Rescans
  rw [flatMap_pieces]

/-- The first of some pieces is the first piece of their bytes. -/
theorem Rescans.cons {p : Piece} {l : List Piece} (h : Rescans (p :: l)) :
    ∃ b tail, p.bytes = b :: tail ∧ first b (tail ++ l.flatMap Piece.bytes) = p ∧ Rescans l := by
  unfold Rescans at h ⊢
  rcases hs : (p :: l).flatMap Piece.bytes with _ | ⟨b, rest⟩
  · rw [hs] at h
    cases h
  · rw [hs, pieces_cons, List.cons.injEq] at h
    obtain ⟨hfirst, hpieces⟩ := h
    obtain ⟨tail, hbytes⟩ := Piece.exists_bytes_first b rest
    rw [hfirst] at hbytes hpieces
    rw [List.flatMap_cons, hbytes, List.cons_append, List.cons.injEq] at hs
    refine ⟨b, tail, hbytes, by rw [hs.2, hfirst], ?_⟩
    rw [hbytes, List.length_cons, Nat.add_sub_cancel, ← hs.2, List.drop_left] at hpieces
    exact hpieces

theorem Rescans.right {l m : List Piece} (h : Rescans (l ++ m)) : Rescans m := by
  induction l with
  | nil => exact h
  | cons p l ih =>
    rw [List.cons_append] at h
    obtain ⟨_, _, _, _, hrest⟩ := h.cons
    exact ih hrest

theorem Rescans.left {l m : List Piece} (h : Rescans (l ++ m)) : Rescans l := by
  induction l with
  | nil => rfl
  | cons p l ih =>
    rw [List.cons_append] at h
    obtain ⟨b, tail, hbytes, hfirst, hrest⟩ := h.cons
    have hl := ih hrest
    rw [List.flatMap_append, ← List.append_assoc] at hfirst
    have hle : (first b ((tail ++ l.flatMap Piece.bytes) ++ m.flatMap Piece.bytes)).bytes.length ≤
        (tail ++ l.flatMap Piece.bytes).length + 1 := by
      rw [hfirst, hbytes, List.length_cons, List.length_append]
      omega
    have hsame := Piece.first_append hle
    rw [hfirst] at hsame
    unfold Rescans at hl ⊢
    rw [List.flatMap_cons, hbytes, List.cons_append, pieces_cons, hsame, hbytes, List.length_cons,
      Nat.add_sub_cancel, List.drop_left, hl]

theorem Rescans.of_isInfix {l m : List Piece} (h : Rescans m) (hl : l <:+: m) : Rescans l := by
  obtain ⟨front, back, rfl⟩ := hl
  exact h.left.right

end Bytes

end AsmKit
