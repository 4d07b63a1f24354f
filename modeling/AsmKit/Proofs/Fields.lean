import AsmKit.Object.Printer
import AsmKit.Proofs.Pieces
import Mathlib.Data.List.Basic
import Mathlib.Data.List.TakeWhile

/-
  Fields, and the rows that are made of them. A field is text without blanks in it, and everything
  that `fields` finds is one (`isField_of_mem_fields`). Fields are found again however they are padded
  in a row (`fields_row`), and neither trimming a line nor dropping spaces at its end loses one
  (`fields_trim`).
-/

namespace AsmKit

namespace Piece

theorem isBlank_ofByte : ∀ b : UInt8, 0x20 ≤ b → b < 0x7F →
    (ofByte b).isBlank = (b == Ascii.space) := by
  apply forall_byte
  decide +kernel

end Piece

namespace Bytes

open Piece (ofByte)

variable {s t cell : Bytes}

/-! ## Text without blanks -/

/-- Text that is not empty and has no blanks in it. -/
def IsField (s : Bytes) : Prop := s ≠ [] ∧ ∀ p ∈ s.pieces, p.isBlank = false

instance (s : Bytes) : Decidable s.IsField := inferInstanceAs (Decidable (_ ∧ _))

/-- A field of characters that show, all of them ASCII. -/
def IsCell (s : Bytes) : Prop := s ≠ [] ∧ ∀ b ∈ s, 0x20 < b ∧ b < 0x7F

instance (s : Bytes) : Decidable s.IsCell :=
  @instDecidableAnd _ _ inferInstance (List.decidableBAll _ s)

theorem IsCell.isField (h : s.IsCell) : s.IsField := by
  refine ⟨h.1, fun p hp => ?_⟩
  rw [pieces_map_ascii fun b hb => UInt8.lt_trans (h.2 b hb).2 (by decide)] at hp
  obtain ⟨b, hb, rfl⟩ := List.mem_map.mp hp
  obtain ⟨hlow, hhigh⟩ := h.2 b hb
  rw [Piece.isBlank_ofByte b (UInt8.le_of_lt hlow) hhigh]
  apply beq_false_of_ne
  rintro rfl
  exact absurd hlow (by decide)

/-- No blank of ASCII is in a field. -/
theorem IsField.not_mem (h : s.IsField) {b : UInt8} (hb : b < 0x80)
    (hblank : (ofByte b).isBlank = true) : b ∉ s := by
  intro hmem
  rw [h.2 _ (ofByte_mem_pieces hb hmem)] at hblank
  cases hblank

theorem isField_of_pieces {l : List Piece} (h : Rescans l) (hne : l ≠ [])
    (hl : ∀ p ∈ l, p.isBlank = false) : IsField (l.flatMap Piece.bytes) := by
  refine ⟨fun hnil => hne ?_, ?_⟩
  · unfold Rescans at h
    rw [hnil] at h
    exact h.symm
  · rw [show pieces (l.flatMap Piece.bytes) = l from h]
    exact hl

/-! ## Cutting at blanks -/

theorem closeField_found (field : List Piece) (found : List Bytes) :
    closeField field found = closeField field [] ++ found := by
  unfold closeField
  split
  · rfl
  · rfl

theorem cutFields_found (field : List Piece) (found : List Bytes) (ps : List Piece) :
    cutFields field found ps = found.reverse ++ cutFields field [] ps := by
  induction ps generalizing field found with
  | nil =>
    simp only [cutFields]
    rw [closeField_found]
    simp
  | cons p ps ih =>
    simp only [cutFields]
    split
    · rw [ih, ih [] (closeField field []), closeField_found field found]
      simp
    · exact ih (p :: field) found

theorem mem_closeField {field : List Piece} {f : Bytes} (h : f ∈ closeField field []) :
    field ≠ [] ∧ f = field.reverse.flatMap Piece.bytes := by
  unfold closeField at h
  split at h
  · cases h
  · next hne =>
    refine ⟨fun hnil => hne ?_, List.mem_singleton.mp h⟩
    rw [hnil]
    rfl

/-- Every field is a stretch of the pieces without blanks. -/
theorem exists_of_mem_cutFields {field ps : List Piece} {f : Bytes}
    (hfield : ∀ p ∈ field, p.isBlank = false) (h : f ∈ cutFields field [] ps) :
    ∃ l, l ≠ [] ∧ l <:+: field.reverse ++ ps ∧ (∀ p ∈ l, p.isBlank = false) ∧
      f = l.flatMap Piece.bytes := by
  have hclosed {front back : List Piece} (hf : f ∈ closeField front [])
      (hfront : ∀ p ∈ front, p.isBlank = false) :
      ∃ l, l ≠ [] ∧ l <:+: front.reverse ++ back ∧ (∀ p ∈ l, p.isBlank = false) ∧
        f = l.flatMap Piece.bytes := by
    obtain ⟨hne, rfl⟩ := mem_closeField hf
    refine ⟨front.reverse, ?_, (List.prefix_append _ _).isInfix, fun p hp => ?_, rfl⟩
    · rwa [ne_eq, List.reverse_eq_nil_iff]
    · exact hfront p (List.mem_reverse.mp hp)
  induction ps generalizing field with
  | nil =>
    simp only [cutFields, List.mem_reverse] at h
    exact hclosed h hfield
  | cons p ps ih =>
    simp only [cutFields] at h
    split at h
    · rw [cutFields_found, List.mem_append, List.mem_reverse] at h
      rcases h with h | h
      · exact hclosed h hfield
      · obtain ⟨l, hne, hwithin, hl, e⟩ := ih (List.forall_mem_nil _) h
        refine ⟨l, hne, hwithin.trans ?_, hl, e⟩
        exact ((List.suffix_cons p ps).trans (List.suffix_append _ _)).isInfix
    · next hp =>
      have hall : ∀ q ∈ p :: field, q.isBlank = false :=
        List.forall_mem_cons.mpr ⟨by simpa using hp, hfield⟩
      obtain ⟨l, hne, hwithin, hl, e⟩ := ih hall h
      rw [List.reverse_cons, List.append_assoc] at hwithin
      exact ⟨l, hne, hwithin, hl, e⟩

theorem isField_of_mem_fields {f : Bytes} (h : f ∈ fields s) : f.IsField := by
  obtain ⟨l, hne, hwithin, hl, rfl⟩ := exists_of_mem_cutFields (List.forall_mem_nil _) h
  exact isField_of_pieces ((rescans_pieces s).of_isInfix hwithin) hne hl

/-- Pieces that are not blank go on with the field. -/
theorem cutFields_run {l : List Piece} (h : ∀ p ∈ l, p.isBlank = false) (field ps : List Piece) :
    cutFields field [] (l ++ ps) = cutFields (l.reverse ++ field) [] ps := by
  induction l generalizing field with
  | nil => rfl
  | cons p l ih =>
    obtain ⟨hp, hl⟩ := List.forall_mem_cons.mp h
    simp only [List.cons_append, cutFields, hp]
    rw [if_neg (by decide), ih hl]
    simp

theorem closeField_pieces (h : cell ≠ []) : closeField (cell.pieces.reverse ++ []) [] = [cell] := by
  unfold closeField
  have hne : (cell.pieces.reverse ++ []).isEmpty = false := by
    rw [List.append_nil, List.isEmpty_eq_false_iff, ne_eq, List.reverse_eq_nil_iff]
    exact pieces_ne_nil h
  rw [hne, List.append_nil, List.reverse_reverse, flatMap_pieces]
  rfl

theorem IsField.fields (h : cell.IsField) : fields cell = [cell] := by
  have hcut := cutFields_run h.2 [] []
  rw [List.append_nil] at hcut
  unfold Bytes.fields
  rw [hcut]
  show (closeField _ _).reverse = _
  rw [closeField_pieces h.1]
  rfl

theorem isBlank_space : (ofByte Ascii.space).isBlank = true := by decide

theorem pieces_space (s rest : Bytes) :
    pieces (s ++ Ascii.space :: rest) = pieces s ++ ofByte Ascii.space :: pieces rest := by
  rw [pieces_append_ascii (by decide), pieces_ascii (by decide)]

theorem IsField.fields_space (h : cell.IsField) (rest : Bytes) :
    Bytes.fields (cell ++ Ascii.space :: rest) = cell :: Bytes.fields rest := by
  unfold Bytes.fields
  rw [pieces_space, cutFields_run h.2]
  simp only [cutFields]
  rw [if_pos isBlank_space, closeField_pieces h.1, cutFields_found]
  rfl

theorem fields_space (rest : Bytes) : fields (Ascii.space :: rest) = fields rest := by
  unfold fields
  rw [pieces_ascii (by decide)]
  simp only [cutFields]
  rw [if_pos isBlank_space]
  rfl

theorem fields_spaces (n : Nat) (rest : Bytes) :
    fields (List.replicate n Ascii.space ++ rest) = fields rest := by
  induction n with
  | zero => rfl
  | succ n ih =>
    rw [List.replicate_succ, List.cons_append, fields_space]
    exact ih

/-! ## Blanks around -/

theorem cutFields_blank (field : List Piece) (found : List Bytes) (ps : List Piece) {p : Piece}
    (hp : p.isBlank = true) : cutFields field found (ps ++ [p]) = cutFields field found ps := by
  induction ps generalizing field found with
  | nil =>
    show cutFields field found [p] = _
    simp only [cutFields]
    rw [if_pos hp]
    rfl
  | cons q ps ih =>
    simp only [List.cons_append, cutFields]
    rw [ih, ih]

/-- Blanks at the end end no more than the last field. -/
theorem cutFields_blanks {blanks : List Piece} (h : ∀ p ∈ blanks, p.isBlank = true)
    (ps : List Piece) : cutFields [] [] (ps ++ blanks) = cutFields [] [] ps := by
  induction blanks generalizing ps with
  | nil => rw [List.append_nil]
  | cons p blanks ih =>
    obtain ⟨hp, hblanks⟩ := List.forall_mem_cons.mp h
    rw [List.append_cons, ih hblanks, cutFields_blank _ _ _ hp]

theorem fields_append_spaces (s : Bytes) (n : Nat) :
    fields (s ++ List.replicate n Ascii.space) = fields s := by
  induction n with
  | zero => rw [List.replicate_zero, List.append_nil]
  | succ n ih =>
    rw [List.replicate_succ', ← List.append_assoc, ← ih]
    unfold fields
    rw [pieces_space]
    exact cutFields_blank _ _ _ isBlank_space

theorem cutFields_dropWhile (ps : List Piece) :
    cutFields [] [] (ps.dropWhile Piece.isBlank) = cutFields [] [] ps := by
  induction ps with
  | nil => rfl
  | cons p ps ih =>
    rw [List.dropWhile_cons]
    split
    · next hp =>
      rw [ih]
      simp only [cutFields, hp, if_true]
      rfl
    · rfl

/-- The pieces between the blanks at either end. -/
def trimmed (ps : List Piece) : List Piece :=
  ((ps.dropWhile Piece.isBlank).reverse.dropWhile Piece.isBlank).reverse

theorem trimmed_append_blanks (ps : List Piece) : ∃ blanks, (∀ p ∈ blanks, p.isBlank = true) ∧
    trimmed ps ++ blanks = ps.dropWhile Piece.isBlank := by
  refine ⟨((ps.dropWhile Piece.isBlank).reverse.takeWhile Piece.isBlank).reverse, ?_, ?_⟩
  · intro p hp
    exact List.all_eq_true.mp List.all_takeWhile p (List.mem_reverse.mp hp)
  · unfold trimmed
    rw [← List.reverse_append, List.takeWhile_append_dropWhile, List.reverse_reverse]

theorem trimmed_isInfix (ps : List Piece) : trimmed ps <:+: ps := by
  obtain ⟨blanks, -, h⟩ := trimmed_append_blanks ps
  exact (List.prefix_append _ blanks).isInfix.trans (h ▸ (List.dropWhile_suffix _).isInfix)

theorem pieces_trim (s : Bytes) : pieces s.trim = trimmed s.pieces :=
  (rescans_pieces s).of_isInfix (trimmed_isInfix s.pieces)

theorem fields_trim (s : Bytes) : fields s.trim = fields s := by
  obtain ⟨blanks, hblanks, h⟩ := trimmed_append_blanks s.pieces
  unfold fields
  rw [pieces_trim, ← cutFields_blanks hblanks, h, cutFields_dropWhile]

theorem mem_of_mem_trim {b : UInt8} (h : b ∈ s.trim) : b ∈ s := by
  obtain ⟨p, hp, hb⟩ := List.mem_flatMap.mp h
  rw [← flatMap_pieces s]
  exact List.mem_flatMap.mpr ⟨p, (trimmed_isInfix s.pieces).mem hp, hb⟩

/-- No blank stands at either end. -/
structure IsTrimmed (s : Bytes) : Prop where
  first : ∀ p ∈ s.pieces.head?, p.isBlank = false
  last : ∀ p ∈ s.pieces.getLast?, p.isBlank = false

theorem IsField.isTrimmed (h : s.IsField) : s.IsTrimmed where
  first p hp := h.2 p (List.mem_of_mem_head? hp)
  last p hp := h.2 p (List.mem_of_mem_getLast? hp)

theorem dropWhile_isBlank {ps : List Piece} (h : ∀ p ∈ ps.head?, p.isBlank = false) :
    ps.dropWhile Piece.isBlank = ps := by
  cases ps with
  | nil => rfl
  | cons p ps =>
    have hp : p.isBlank = false := h p rfl
    rw [List.dropWhile_cons_of_neg (by simp [hp])]

theorem trim_append_spaces (s : Bytes) (n : Nat) :
    trim (s ++ List.replicate n Ascii.space) = s.trim := by
  induction n with
  | zero => rw [List.replicate_zero, List.append_nil]
  | succ n ih =>
    rw [List.replicate_succ', ← List.append_assoc, ← ih]
    unfold trim
    rw [pieces_space, List.dropWhile_append]
    split
    · next hnil =>
      rw [List.isEmpty_iff.mp hnil]
      rfl
    · rw [List.reverse_append]
      rfl

theorem trim_space (s : Bytes) : trim (Ascii.space :: s) = s.trim := by
  unfold trim
  rw [pieces_ascii (by decide), List.dropWhile_cons_of_pos isBlank_space]

/-- Where there is a field, not all is blank. -/
theorem exists_of_fields_ne_nil (h : fields s ≠ []) : ∃ p ∈ s.pieces, p.isBlank = false := by
  by_contra hnone
  have hblanks : ∀ p ∈ s.pieces, p.isBlank = true := by
    intro p hp
    by_contra hp'
    exact hnone ⟨p, hp, by simpa using hp'⟩
  exact h (cutFields_blanks hblanks [])

/-- Spaces in front of a line are dropped, but none behind its first field, if there are others. -/
theorem prefix_trim (h : cell.IsField) {rest : Bytes} (hrest : fields rest ≠ []) (n : Nat) :
    cell ++ [Ascii.space] <+: trim (List.replicate n Ascii.space ++ (cell ++ Ascii.space :: rest)) := by
  induction n with
  | succ n ih =>
    rw [List.replicate_succ, List.cons_append, trim_space]
    exact ih
  | zero =>
    have hfirst : ∀ p ∈ (pieces (cell ++ Ascii.space :: rest)).head?, p.isBlank = false := by
      rw [pieces_space, List.head?_append_of_ne_nil _ (pieces_ne_nil h.1)]
      exact h.isTrimmed.first
    obtain ⟨p, hp, hblank⟩ := exists_of_fields_ne_nil hrest
    -- the blanks at the end stop at the last field
    have hstop : ((pieces rest).reverse.dropWhile Piece.isBlank).isEmpty = false := by
      rw [List.isEmpty_eq_false_iff]
      intro hnil
      rw [List.dropWhile_eq_nil_iff.mp hnil p (List.mem_reverse.mpr hp)] at hblank
      cases hblank
    unfold trim
    rw [List.replicate_zero, List.nil_append, dropWhile_isBlank hfirst, pieces_space,
      List.reverse_append, List.reverse_cons, List.append_assoc, List.dropWhile_append, hstop]
    simp only [Bool.false_eq_true, if_false, List.reverse_append, List.reverse_cons,
      List.reverse_reverse, List.reverse_nil, List.nil_append, List.flatMap_append, flatMap_pieces,
      ← List.append_assoc]
    exact List.prefix_append ..

/-- What is not blank stays. -/
theorem mem_pieces_trim {p : Piece} (hp : p ∈ s.pieces) (hblank : p.isBlank = false) :
    p ∈ s.trim.pieces := by
  obtain ⟨blanks, hblanks, hfront⟩ := trimmed_append_blanks s.pieces
  rw [← pieces_trim] at hfront
  rw [← List.takeWhile_append_dropWhile (p := Piece.isBlank) (l := s.pieces), ← hfront] at hp
  obtain hp | hp := List.mem_append.mp hp
  · rw [List.all_eq_true.mp List.all_takeWhile p hp] at hblank
    cases hblank
  · obtain hp | hp := List.mem_append.mp hp
    · exact hp
    · rw [hblanks p hp] at hblank
      cases hblank

/-- Text of which nothing is left is all blank. -/
theorem isBlank_of_trim_eq_nil (h : s.trim = []) : ∀ p ∈ s.pieces, p.isBlank = true := by
  intro p hp
  by_contra hblank
  have hleft := mem_pieces_trim hp (Bool.eq_false_iff.mpr hblank)
  rw [h] at hleft
  cases hleft

theorem isBlank_of_mem_head?_dropWhile {ps : List Piece} {p : Piece}
    (h : p ∈ (ps.dropWhile Piece.isBlank).head?) : p.isBlank = false := by
  have hhead := List.head?_dropWhile_not Piece.isBlank ps
  rw [show (ps.dropWhile Piece.isBlank).head? = some p from h] at hhead
  simpa using hhead

theorem IsTrimmed.trim_eq (h : s.IsTrimmed) : s.trim = s := by
  have hback : ∀ p ∈ s.pieces.reverse.head?, p.isBlank = false := by
    rw [List.head?_reverse]
    exact h.last
  unfold trim
  rw [dropWhile_isBlank h.first, dropWhile_isBlank hback, List.reverse_reverse, flatMap_pieces]

theorem isTrimmed_trim (s : Bytes) : s.trim.IsTrimmed := by
  constructor
  · intro p hp
    rw [pieces_trim] at hp
    obtain ⟨blanks, -, h⟩ := trimmed_append_blanks s.pieces
    have hhead : p ∈ (s.pieces.dropWhile Piece.isBlank).head? := by
      rw [← h, List.head?_append, show (trimmed s.pieces).head? = some p from hp]
      rfl
    exact isBlank_of_mem_head?_dropWhile hhead
  · intro p hp
    rw [pieces_trim] at hp
    unfold trimmed at hp
    rw [List.getLast?_reverse] at hp
    exact isBlank_of_mem_head?_dropWhile hp

/-! ## Joined parts -/

theorem joinWith_cons_cons (part next : Bytes) (more : List Bytes) :
    joinWith [Ascii.space] (part :: next :: more) =
      part ++ Ascii.space :: joinWith [Ascii.space] (next :: more) := by
  unfold joinWith
  rw [List.intersperse_cons_cons]
  rfl

theorem joinWith_singleton (part : Bytes) : joinWith [Ascii.space] [part] = part :=
  List.append_nil part

theorem mem_intersperse {α : Type} {sep x : α} {xs : List α} (h : x ∈ xs.intersperse sep) :
    x = sep ∨ x ∈ xs := by
  induction xs with
  | nil => cases h
  | cons y ys ih =>
    cases ys with
    | nil => exact .inr h
    | cons z zs =>
      rw [List.intersperse_cons_cons, List.mem_cons, List.mem_cons] at h
      rcases h with rfl | rfl | h
      · exact .inr List.mem_cons_self
      · exact .inl rfl
      · exact (ih h).imp id (List.mem_cons_of_mem y)

theorem mem_joinWith {sep : Bytes} {parts : List Bytes} {b : UInt8} (h : b ∈ joinWith sep parts) :
    b ∈ sep ∨ ∃ part ∈ parts, b ∈ part := by
  obtain ⟨part, hpart, hb⟩ := List.mem_flatten.mp h
  rcases mem_intersperse hpart with rfl | hpart
  · exact .inl hb
  · exact .inr ⟨part, hpart, hb⟩

theorem fields_joinWith {parts : List Bytes} (h : ∀ part ∈ parts, part.IsField) :
    fields (joinWith [Ascii.space] parts) = parts := by
  induction parts with
  | nil => rfl
  | cons part parts ih =>
    have hpart := h part (List.mem_cons_self ..)
    have hrest := ih fun p hp => h p (List.mem_cons_of_mem part hp)
    cases parts with
    | nil => rw [joinWith_singleton, hpart.fields]
    | cons next more => rw [joinWith_cons_cons, hpart.fields_space, hrest]

end Bytes

namespace ObjectText

open Bytes

variable {s : Bytes}

theorem takeWhile_space (s : Bytes) : ∃ n,
    s.takeWhile (· == Ascii.space) = List.replicate n Ascii.space := by
  refine ⟨_, List.eq_replicate_of_mem fun b hb => ?_⟩
  exact eq_of_beq (List.all_eq_true.mp List.all_takeWhile b hb)

/-- Only spaces are dropped at the end of a line. -/
theorem dropSpaces_append (s : Bytes) :
    ∃ n, dropSpaces s ++ List.replicate n Ascii.space = s := by
  obtain ⟨n, hn⟩ := takeWhile_space s.reverse
  refine ⟨n, ?_⟩
  have hsplit := congrArg List.reverse (List.takeWhile_append_dropWhile (p := (· == Ascii.space))
    (l := s.reverse))
  rw [hn, List.reverse_append, List.reverse_replicate, List.reverse_reverse] at hsplit
  exact hsplit

theorem fields_dropSpaces (s : Bytes) : fields (dropSpaces s) = fields s := by
  obtain ⟨n, hn⟩ := dropSpaces_append s
  have h := fields_append_spaces (dropSpaces s) n
  rw [hn] at h
  exact h.symm

theorem mem_of_mem_dropSpaces {b : UInt8} (h : b ∈ dropSpaces s) : b ∈ s := by
  obtain ⟨n, hn⟩ := dropSpaces_append s
  rw [← hn]
  exact List.mem_append_left _ h

theorem length_dropSpaces_le (s : Bytes) : (dropSpaces s).length ≤ s.length := by
  obtain ⟨n, hn⟩ := dropSpaces_append s
  have h := congrArg List.length hn
  rw [List.length_append] at h
  omega

/-! ## Rows -/

/-- The space that ends a cell may as well be the first one behind it. -/
theorem padTo_append (cell : Bytes) (n : Nat) (rest : Bytes) :
    cell.padTo n ++ [Ascii.space] ++ rest =
      cell ++ Ascii.space :: (List.replicate (n - cell.width) Ascii.space ++ rest) := by
  unfold padTo
  rw [List.append_assoc cell, ← List.replicate_succ', List.replicate_succ]
  simp

theorem fields_padTo {cell : Bytes} (h : cell.IsField) (n : Nat) (rest : Bytes) :
    fields (cell.padTo n ++ [Ascii.space] ++ rest) = cell :: fields rest := by
  rw [padTo_append, h.fields_space, fields_spaces]

theorem fields_row {cells : List (Nat × Bytes)} (h : ∀ c ∈ cells, c.2.IsField) (last : Bytes) :
    fields (row cells last) = cells.map Prod.snd ++ fields last := by
  have hindent (t : Bytes) : fields (text "  " ++ t) = fields t := fields_spaces 2 t
  unfold row
  rw [List.append_assoc, hindent]
  induction cells with
  | nil => rfl
  | cons c cells ih =>
    rw [List.flatMap_cons, List.append_assoc, fields_padTo (h c (List.mem_cons_self ..)),
      ih fun c' hc' => h c' (List.mem_cons_of_mem c hc')]
    rfl

/-- A row has only spaces besides its cells. -/
theorem mem_row {cells : List (Nat × Bytes)} {last : Bytes} {b : UInt8} (h : b ∈ row cells last) :
    b = Ascii.space ∨ (∃ c ∈ cells, b ∈ c.2) ∨ b ∈ last := by
  have hindent : ∀ b ∈ text "  ", b = Ascii.space :=
    fun b hb => List.eq_of_mem_replicate (show b ∈ List.replicate 2 Ascii.space from hb)
  unfold row padTo at h
  simp only [List.mem_append, List.mem_flatMap, List.mem_singleton, List.mem_replicate] at h
  rcases h with (h | ⟨c, hc, (h | ⟨-, h⟩) | h⟩) | h
  · exact .inl (hindent b h)
  · exact .inr (.inl ⟨c, hc, h⟩)
  · exact .inl h
  · exact .inl h
  · exact .inr (.inr h)

end ObjectText

end AsmKit
