import AsmKit.Proofs.Numerals
import AsmKit.Proofs.RuleOrder
import AsmKit.Proofs.Stage
import AsmKit.Source.Operand

/-
  The grammar of brackets. There are four patterns, and `Matches` says that a text follows one of
  them with certain blanks between its parts. Reading finds exactly the texts that follow one
  (`read?_eq_some_iff`), no text follows two or the same one with other parts (`Matches.unique`), and
  what an operand comes to depends on the pattern, the register and the addend only
  (`Matches.bracket`). So the order in which patterns are tried and the blanks make no difference.
-/

namespace AsmKit

open Error (Complaint)

namespace Bracket

/-! ## Patterns -/

/-- Spaces, tabs, line feeds, form feeds and carriage returns, or nothing. -/
def IsGap (s : Bytes) : Prop := ∀ b ∈ s, b ∈ ([0x20, 0x09, 0x0A, 0x0C, 0x0D] : Bytes)

/-- The registers that brackets may name, without their percent sign. -/
inductive IsNamed : Bytes → Prop
  | stackPointer : IsNamed (text "sp")
  | programCounter : IsNamed (text "pc")
  | numbered {digits : Bytes} (h : ∀ b ∈ digits, Ascii.isDigit b = true)
    (hlength : digits.length = 1 ∨ digits.length = 2) : IsNamed (text "r" ++ digits)

/-- A register alone, or one to which a number or a symbol is added. -/
inductive Form where
  | bare
  | hexadecimal
  | decimal
  | symbol
deriving DecidableEq, Repr

namespace Form

def all : List Form := [.bare, .hexadecimal, .decimal, .symbol]

/-- What a pattern has behind its plus sign. -/
def IsAddend : Form → Bytes → Prop
  | .bare, _ => False
  | .hexadecimal, s => ∃ digits, Number.Spelled s 16 digits
  | .decimal, s => ∃ digits, Number.Spelled s 10 digits
  | .symbol, s => ∃ first rest, s = first :: rest ∧ Ascii.isNameStart first = true ∧
    ∀ b ∈ rest, Ascii.isWord b = true

/-- A text follows a pattern. The last argument lists the blanks between its parts. -/
inductive Matches : Form → Bytes → Bracket → List Bytes → Prop
  | bare {front register behind : Bytes} (hfront : IsGap front)
    (hregister : IsNamed register) (hbehind : IsGap behind) :
    Matches .bare (text "[" ++ front ++ text "%" ++ register ++ behind ++ text "]")
      ⟨register, none⟩ [front, behind]
  | plus {form : Form} {front register behind before offset after : Bytes} (hfront : IsGap front)
    (hregister : IsNamed register) (hbehind : IsGap behind) (hbefore : IsGap before)
    (hoffset : form.IsAddend offset) (hafter : IsGap after) :
    Matches form (text "[" ++ front ++ text "%" ++ register ++ behind ++ text "+" ++ before ++ offset
      ++ after ++ text "]") ⟨register, some offset⟩ [front, behind, before, after]

end Form

/-! ## Blanks and words -/

theorem isGap_iff {s : Bytes} : IsGap s ↔ ∀ b ∈ s, isBlank b = true := by
  simp [IsGap, isBlank, or_assoc]

theorem isGap_takeWhile (s : Bytes) : IsGap (s.takeWhile isBlank) :=
  isGap_iff.mpr (List.all_eq_true.mp List.all_takeWhile)

theorem isNamed_iff {s : Bytes} : IsNamed s ↔ isRegister s = true := by
  constructor
  · intro h
    cases h with
    | stackPointer => decide
    | programCounter => decide
    | @numbered digits h hlength =>
      have hne : digits ≠ [] := List.ne_nil_of_length_pos (by omega)
      have hdecimal : digits.isDecimal = true := by simpa [Bytes.isDecimal, hne] using h
      have hdigits : (digits.isDecimal && decide (digits.length ≤ 2)) = true := by
        rw [hdecimal, Bool.true_and, decide_eq_true_eq]
        omega
      unfold isRegister
      rw [Bool.or_eq_true]
      exact .inr hdigits
  · intro h
    unfold isRegister at h
    simp only [Bool.or_eq_true, beq_iff_eq] at h
    rcases h with (rfl | rfl) | h
    · exact .stackPointer
    · exact .programCounter
    · split at h
      · next digits =>
        obtain ⟨hdecimal, hlength⟩ := Bool.and_eq_true_iff.mp h
        obtain ⟨hne, hdigits⟩ := Bool.and_eq_true_iff.mp hdecimal
        have hpos : 0 < digits.length := List.length_pos_of_ne_nil (by simpa using hne)
        have hle : digits.length ≤ 2 := of_decide_eq_true hlength
        exact .numbered (List.all_eq_true.mp hdigits) (by omega)
      · cases h

theorem isAddend_symbol_iff {s : Bytes} : Form.symbol.IsAddend s ↔ s.isIdentifier = true := by
  unfold Form.IsAddend
  cases s with
  | nil => simp [Bytes.isIdentifier]
  | cons b rest => simp [Bytes.isIdentifier]

theorem isWord_of_isRegister {s : Bytes} (h : isRegister s = true) :
    ∀ b ∈ s, Ascii.isWord b = true := by
  unfold isRegister at h
  simp only [Bool.or_eq_true, beq_iff_eq] at h
  rcases h with (rfl | rfl) | h
  · exact List.all_eq_true.mp (by decide)
  · exact List.all_eq_true.mp (by decide)
  · split at h
    · next digits =>
      obtain ⟨hdigits, -⟩ := Bool.and_eq_true_iff.mp h
      exact List.forall_mem_cons.mpr ⟨by decide, Bytes.isWord_of_isDecimal hdigits⟩
    · cases h

theorem isWord_of_isOffset {s : Bytes} (h : isOffset s = true) :
    ∀ b ∈ s, Ascii.isWord b = true := by
  unfold isOffset at h
  simp only [Bool.or_eq_true] at h
  rcases h with (h | h) | h
  · exact Bytes.isWord_of_isHexadecimal h
  · exact Bytes.isWord_of_isDecimal h
  · exact Bytes.isWord_of_isIdentifier h

/-- A word ends at a byte that does not belong to it. -/
theorem takeWord_append {word : Bytes} (h : ∀ b ∈ word, Ascii.isWord b = true) {rest : Bytes}
    (hrest : ∀ b ∈ rest.head?, Ascii.isWord b = false) :
    takeWord (word ++ rest) = (word, rest.dropWhile isBlank) := by
  unfold takeWord
  rw [List.takeWhile_append_of_pos h, List.dropWhile_append_of_pos h]
  cases rest with
  | nil => simp
  | cons b rest =>
    rw [List.takeWhile_cons_of_neg (by simp [hrest b rfl]),
      List.dropWhile_cons_of_neg (by simp [hrest b rfl]), List.append_nil]

theorem isBlank_of_isWord : ∀ b, Ascii.isWord b = true → isBlank b = false := by
  apply forall_byte
  decide +kernel

theorem dropWhile_gap {gap : Bytes} (hgap : IsGap gap) {b : UInt8} (hb : isBlank b = false)
    (rest : Bytes) : (gap ++ b :: rest).dropWhile isBlank = b :: rest := by
  rw [List.dropWhile_append_of_pos (isGap_iff.mp hgap), List.dropWhile_cons_of_neg (by simp [hb])]

theorem isWord_of_isBlank : ∀ b, isBlank b = true → Ascii.isWord b = false := by
  apply forall_byte
  decide +kernel

/-- No word goes on into blanks and a byte that belongs to none. -/
theorem takeWord_gap {word gap : Bytes} (hword : ∀ b ∈ word, Ascii.isWord b = true)
    (hgap : IsGap gap) {b : UInt8} (hb : Ascii.isWord b = false) (hblank : isBlank b = false)
    (rest : Bytes) : takeWord (word ++ (gap ++ b :: rest)) = (word, b :: rest) := by
  rw [takeWord_append hword, dropWhile_gap hgap hblank]
  cases gap with
  | nil =>
    rintro x ⟨⟩
    exact hb
  | cons c gap =>
    rintro x ⟨⟩
    exact isWord_of_isBlank c (isGap_iff.mp hgap c List.mem_cons_self)

/-- Blanks end where something else begins. -/
theorem gap_unique {gap gap' rest rest' : Bytes} {b b' : UInt8} (hgap : IsGap gap)
    (hgap' : IsGap gap') (hb : isBlank b = false) (hb' : isBlank b' = false)
    (h : gap ++ b :: rest = gap' ++ b' :: rest') : gap = gap' ∧ b :: rest = b' :: rest' := by
  have hrest := congrArg (List.dropWhile isBlank) h
  rw [dropWhile_gap hgap hb, dropWhile_gap hgap' hb'] at hrest
  rw [hrest] at h
  exact ⟨List.append_cancel_right h, hrest⟩

theorem isOffset_of_isAddend {form : Form} {offset : Bytes} (h : form.IsAddend offset) :
    isOffset offset = true := by
  unfold isOffset
  rw [Bool.or_eq_true, Bool.or_eq_true]
  cases form with
  | bare => cases h
  | hexadecimal => exact .inl (.inl (Number.spelled_hexadecimal_iff.mp h))
  | decimal => exact .inl (.inr (Number.spelled_decimal_iff.mp h))
  | symbol => exact .inr (isAddend_symbol_iff.mp h)

/-- An offset is not empty and does not start with a blank. -/
theorem exists_cons_of_isOffset {offset : Bytes} (h : isOffset offset = true) :
    ∃ b rest, offset = b :: rest ∧ isBlank b = false := by
  cases offset with
  | nil => cases h
  | cons b rest => exact ⟨b, rest, rfl, isBlank_of_isWord b (isWord_of_isOffset h b List.mem_cons_self)⟩

/-! ## Reading -/

theorem read?_front {front : Bytes} (hfront : IsGap front) (rest : Bytes) :
    read? (0x5B :: (front ++ 0x25 :: rest)) = readRegister rest := by
  rw [read?, dropWhile_gap hfront (by decide)]
  rfl

theorem readRegister_bare {register behind : Bytes} (hregister : isRegister register = true)
    (hbehind : IsGap behind) :
    readRegister (register ++ (behind ++ [0x5D])) = some ⟨register, none⟩ := by
  unfold readRegister
  rw [takeWord_gap (isWord_of_isRegister hregister) hbehind (by decide) (by decide)]
  dsimp only
  rw [hregister]
  rfl

theorem readRegister_plus {register behind : Bytes} (hregister : isRegister register = true)
    (hbehind : IsGap behind) (rest : Bytes) :
    readRegister (register ++ (behind ++ 0x2B :: rest)) = readOffset register rest := by
  unfold readRegister
  rw [takeWord_gap (isWord_of_isRegister hregister) hbehind (by decide) (by decide)]
  dsimp only
  rw [hregister]
  rfl

theorem readOffset_eq (register : Bytes) {before offset after : Bytes} (hbefore : IsGap before)
    (hoffset : isOffset offset = true) (hafter : IsGap after) :
    readOffset register (before ++ (offset ++ (after ++ [0x5D]))) = some ⟨register, some offset⟩ := by
  obtain ⟨b, rest, hcons, hb⟩ := exists_cons_of_isOffset hoffset
  have hdrop : (before ++ (offset ++ (after ++ [0x5D]))).dropWhile isBlank =
      offset ++ (after ++ [0x5D]) := by
    rw [hcons]
    exact dropWhile_gap hbefore hb _
  unfold readOffset
  rw [hdrop, takeWord_gap (isWord_of_isOffset hoffset) hafter (by decide) (by decide)]
  dsimp only
  rw [hoffset]
  rfl

variable {form form' : Form} {s : Bytes} {b b' : Bracket} {gaps gaps' : List Bytes}

theorem text_bare (front register behind : Bytes) :
    text "[" ++ front ++ text "%" ++ register ++ behind ++ text "]" =
      0x5B :: (front ++ 0x25 :: (register ++ (behind ++ [0x5D]))) := by
  simp only [List.append_assoc]
  rfl

theorem text_plus (front register behind before offset after : Bytes) :
    text "[" ++ front ++ text "%" ++ register ++ behind ++ text "+" ++ before ++ offset ++ after
        ++ text "]" =
      0x5B :: (front ++ 0x25 :: (register ++ (behind ++ 0x2B ::
        (before ++ (offset ++ (after ++ [0x5D])))))) := by
  simp only [List.append_assoc]
  rfl

theorem Form.Matches.read? (h : form.Matches s b gaps) : read? s = some b := by
  cases h with
  | bare hfront hregister hbehind =>
    rw [text_bare, read?_front hfront, readRegister_bare (isNamed_iff.mp hregister) hbehind]
  | plus hfront hregister hbehind hbefore hoffset hafter =>
    rw [text_plus, read?_front hfront, readRegister_plus (isNamed_iff.mp hregister) hbehind,
      readOffset_eq _ hbefore (isOffset_of_isAddend hoffset) hafter]

/-- What is behind a word: blanks and what `takeWord` leaves. -/
theorem exists_gap_of_takeWord (s : Bytes) :
    ∃ gap, IsGap gap ∧ s = (takeWord s).1 ++ (gap ++ (takeWord s).2) := by
  refine ⟨(s.dropWhile Ascii.isWord).takeWhile isBlank, isGap_takeWhile _, ?_⟩
  unfold takeWord
  rw [List.takeWhile_append_dropWhile, List.takeWhile_append_dropWhile]

theorem exists_isAddend {offset : Bytes} (h : isOffset offset = true) :
    ∃ form : Form, form.IsAddend offset := by
  unfold isOffset at h
  simp only [Bool.or_eq_true] at h
  rcases h with (h | h) | h
  · exact ⟨.hexadecimal, Number.spelled_hexadecimal_iff.mpr h⟩
  · exact ⟨.decimal, Number.spelled_decimal_iff.mpr h⟩
  · exact ⟨.symbol, isAddend_symbol_iff.mpr h⟩

theorem of_readOffset {register : Bytes} (h : readOffset register s = some b) :
    ∃ form : Form, ∃ before offset after : Bytes, IsGap before ∧ form.IsAddend offset ∧
      IsGap after ∧ s = before ++ (offset ++ (after ++ [0x5D])) ∧ b = ⟨register, some offset⟩ := by
  unfold readOffset at h
  dsimp only at h
  split at h
  · next hcond =>
    cases h
    obtain ⟨hoffset, hrest⟩ := Bool.and_eq_true_iff.mp hcond
    obtain ⟨form, hform⟩ := exists_isAddend hoffset
    obtain ⟨after, hafter, hword⟩ := exists_gap_of_takeWord (s.dropWhile isBlank)
    rw [eq_of_beq hrest] at hword
    refine ⟨form, s.takeWhile isBlank, _, after, isGap_takeWhile s, hform, hafter, ?_, rfl⟩
    rw [← hword, List.takeWhile_append_dropWhile]
  · cases h

theorem of_readRegister (h : readRegister s = some b) :
    IsNamed b.register ∧ ∃ behind, IsGap behind ∧
      ((s = b.register ++ (behind ++ [0x5D]) ∧ b.offset? = none) ∨
        ∃ rest, s = b.register ++ (behind ++ 0x2B :: rest) ∧ readOffset b.register rest = some b) := by
  obtain ⟨behind, hbehind, hs⟩ := exists_gap_of_takeWord s
  unfold readRegister at h
  dsimp only at h
  split at h
  · cases h
  · next hnot =>
    have hregister : IsNamed (takeWord s).1 := isNamed_iff.mpr (by simpa using hnot)
    split at h
    · next hrest =>
      cases h
      rw [hrest] at hs
      exact ⟨hregister, behind, hbehind, .inl ⟨hs, rfl⟩⟩
    · next rest hrest =>
      rw [hrest] at hs
      obtain ⟨form, before, offset, after, -, -, -, -, rfl⟩ := of_readOffset h
      exact ⟨hregister, behind, hbehind, .inr ⟨rest, hs, h⟩⟩
    · cases h

theorem exists_matches (h : read? s = some b) : ∃ form : Form, ∃ gaps, form.Matches s b gaps := by
  unfold read? at h
  split at h
  · next s =>
    split at h
    · next rest hrest =>
      have hfront := isGap_takeWhile s
      have hs := List.takeWhile_append_dropWhile (p := isBlank) (l := s)
      rw [hrest] at hs
      obtain ⟨hregister, behind, hbehind, ⟨rfl, hnone⟩ | ⟨rest, rfl, hoffset⟩⟩ := of_readRegister h
      · obtain ⟨register, offset?⟩ := b
        cases hnone
        rw [← hs, ← text_bare]
        exact ⟨_, _, .bare hfront hregister hbehind⟩
      · obtain ⟨form, before, offset, after, hbefore, haddend, hafter, rfl, hb⟩ := of_readOffset hoffset
        rw [← hs, ← text_plus, hb]
        exact ⟨form, _, .plus hfront hregister hbehind hbefore haddend hafter⟩
    · cases h
  · cases h

theorem read?_eq_some_iff : read? s = some b ↔ ∃ form : Form, ∃ gaps, form.Matches s b gaps :=
  ⟨exists_matches, fun ⟨_, _, h⟩ => h.read?⟩

/-- What is read from brackets is a register and, with a plus sign, an offset. -/
theorem of_read? (h : read? s = some b) :
    isRegister b.register = true ∧ ∀ offset, b.offset? = some offset → isOffset offset = true := by
  obtain ⟨form, gaps, h⟩ := exists_matches h
  cases h with
  | bare hfront hregister hbehind =>
    refine ⟨isNamed_iff.mp hregister, ?_⟩
    rintro _ ⟨⟩
  | plus hfront hregister hbehind hbefore hoffset hafter =>
    refine ⟨isNamed_iff.mp hregister, ?_⟩
    rintro _ ⟨⟩
    exact isOffset_of_isAddend hoffset

/-! ## One way to read a text -/

namespace Form

/-- The kind that the addend of a pattern has on its own. -/
def addendKind : Form → TokenKind
  | .bare => .none
  | .hexadecimal => .hex
  | .decimal => .decimal
  | .symbol => .symbol

theorem addendKind_inj {form form' : Form} (h : form.addendKind = form'.addendKind) :
    form = form' := by
  cases form <;> cases form' <;> first | rfl | cases h

theorem plainForm_of_isAddend {offset : Bytes} (h : form.IsAddend offset) :
    Lexeme.plainForm offset = form.addendKind := by
  cases form with
  | bare => cases h
  | hexadecimal => exact Lexeme.plainForm_of_isHexadecimal (Number.spelled_hexadecimal_iff.mp h)
  | decimal => exact Lexeme.plainForm_of_isDecimal (Number.spelled_decimal_iff.mp h)
  | symbol => exact Lexeme.plainForm_of_isIdentifier (isAddend_symbol_iff.mp h)

/-- What may be added in two patterns is added in one. -/
theorem form_unique {offset : Bytes} (h : form.IsAddend offset) (h' : form'.IsAddend offset) :
    form = form' :=
  addendKind_inj ((plainForm_of_isAddend h).symm.trans (plainForm_of_isAddend h'))

theorem isIdentifier_iff_of_isAddend {offset : Bytes} (h : form.IsAddend offset) :
    offset.isIdentifier = true ↔ form = .symbol := by
  constructor
  · intro hid
    exact form_unique h (isAddend_symbol_iff.mpr hid)
  · rintro rfl
    exact isAddend_symbol_iff.mp h

/-- No text follows two patterns, or one pattern in two ways. -/
theorem Matches.unique (h : form.Matches s b gaps) (h' : form'.Matches s b' gaps') :
    form = form' ∧ b = b' ∧ gaps = gaps' := by
  have hb : b = b' := Option.some.inj (h.read?.symm.trans h'.read?)
  obtain ⟨s', hs, hother⟩ : ∃ s', s = s' ∧ form'.Matches s' b' gaps' := ⟨s, rfl, h'⟩
  clear h'
  cases h with
  | bare hfront hregister hbehind =>
    cases hother with
    | bare hfront' hregister' hbehind' =>
      cases hb
      rw [text_bare, text_bare] at hs
      obtain ⟨rfl, hregister⟩ := gap_unique hfront hfront' (by decide) (by decide)
        (List.cons.inj hs).2
      have hlast := List.append_cancel_left (List.cons.inj hregister).2
      cases List.append_cancel_right hlast
      exact ⟨rfl, rfl, rfl⟩
    | plus => cases hb
  | plus hfront hregister hbehind hbefore hoffset hafter =>
    cases hother with
    | bare => cases hb
    | plus hfront' hregister' hbehind' hbefore' hoffset' hafter' =>
      cases hb
      obtain ⟨x, rest, rfl, hx⟩ := exists_cons_of_isOffset (isOffset_of_isAddend hoffset)
      rw [text_plus, text_plus] at hs
      -- each gap ends at a mark or at a word, and words are the same on both sides
      obtain ⟨rfl, hwords⟩ := gap_unique hfront hfront' (by decide) (by decide)
        (List.cons.inj hs).2
      obtain ⟨rfl, hplus⟩ := gap_unique hbehind hbehind' (by decide) (by decide)
        (List.append_cancel_left (List.cons.inj hwords).2)
      obtain ⟨rfl, haddend⟩ := gap_unique hbefore hbefore' hx hx (List.cons.inj hplus).2
      have hlast := List.append_cancel_left (List.cons.inj haddend).2
      cases List.append_cancel_right hlast
      exact ⟨form_unique hoffset hoffset', rfl, rfl⟩

end Form

/-! ## Operands -/

namespace Form

/-- What a pattern makes of the register and the addend that it finds. -/
def operand (symbols : SymbolTable) (form : Form) (b : Bracket) : Except Complaint Operand := do
  let register ← Token.register ⟨.register, 0x25 :: b.register⟩
  let offset := b.offset?.getD []
  match form with
  | .bare => return { mode := .registerIndirect, register }
  | .hexadecimal | .decimal =>
    let value ← Token.number ⟨.decimal, offset⟩
    return { mode := .registerIndirectLiteral, register, value }
  | .symbol =>
    let s ← symbols.lookup offset
    if Operand.largestOffset < s.value then
      throw ⟨.operandTooLarge, offset⟩
    return { mode := .registerIndirectSymbol, register, value := s.value,
             reference? := some (offset, .symbol) }

/-- What trying patterns in order can come to: the operand of the first that the text follows, and
a syntax error if it follows none. -/
inductive Tries (symbols : SymbolTable) (s : Bytes) : List Form → Except Complaint Operand → Prop
  | none : Tries symbols s [] (.error ⟨.syntaxError, s⟩)
  | first {form : Form} {rest : List Form} {b : Bracket} {gaps : List Bytes}
    (h : form.Matches s b gaps) : Tries symbols s (form :: rest) (form.operand symbols b)
  | later {form : Form} {rest : List Form} {result : Except Complaint Operand}
    (h : ∀ b gaps, ¬ form.Matches s b gaps) (hrest : Tries symbols s rest result) :
    Tries symbols s (form :: rest) result

variable {symbols : SymbolTable} {t : Token}

theorem Matches.bracket (h : form.Matches s b gaps) (ht : t.word = s) :
    Operand.bracket symbols t = form.operand symbols b := by
  unfold Operand.bracket
  rw [ht, h.read?]
  dsimp only
  unfold Form.operand
  congr 1
  funext register
  cases h with
  | bare => rfl
  | plus hfront hregister hbehind hbefore hoffset hafter =>
    have hid := isIdentifier_iff_of_isAddend hoffset
    dsimp only
    cases form with
    | bare => cases hoffset
    | hexadecimal =>
      rw [if_neg (mt hid.mp Form.noConfusion)]
      rfl
    | decimal =>
      rw [if_neg (mt hid.mp Form.noConfusion)]
      rfl
    | symbol =>
      rw [if_pos (hid.mpr rfl)]
      rfl

theorem bracket_of_not_matches (h : ∀ form : Form, ∀ b gaps, ¬ form.Matches t.word b gaps) :
    Operand.bracket symbols t = .error ⟨.syntaxError, t.word⟩ := by
  have hread : read? t.word = none := by
    rw [Option.eq_none_iff_forall_ne_some]
    intro b hb
    obtain ⟨form, gaps, hmatches⟩ := read?_eq_some_iff.mp hb
    exact h form b gaps hmatches
  unfold Operand.bracket
  rw [hread]

/-! ## Trying patterns in order -/

/-- Trying patterns among which are all that the text follows comes to its operand. -/
theorem Tries.eq_bracket {order : List Form} {result : Except Complaint Operand}
    (h : Tries symbols t.word order result)
    (hall : ∀ form : Form, ∀ b gaps, form.Matches t.word b gaps → form ∈ order) :
    result = Operand.bracket symbols t := by
  induction h with
  | none =>
    refine (bracket_of_not_matches fun form b gaps hmatches => ?_).symm
    exact List.not_mem_nil (hall form b gaps hmatches)
  | first h => exact (h.bracket rfl).symm
  | later hnot hrest ih =>
    refine ih fun form b gaps hmatches => ?_
    rcases List.mem_cons.mp (hall form b gaps hmatches) with rfl | hmem
    · exact absurd hmatches (hnot b gaps)
    · exact hmem

theorem exists_tries (symbols : SymbolTable) (s : Bytes) (order : List Form) :
    ∃ result, Tries symbols s order result := by
  induction order with
  | nil => exact ⟨_, .none⟩
  | cons form rest ih =>
    by_cases h : ∃ b gaps, form.Matches s b gaps
    · obtain ⟨b, gaps, h⟩ := h
      exact ⟨_, .first h⟩
    · obtain ⟨result, hrest⟩ := ih
      exact ⟨result, .later (fun b gaps hmatches => h ⟨b, gaps, hmatches⟩) hrest⟩

theorem tries_iff {order : List Form} (horder : order.Perm all)
    {result : Except Complaint Operand} :
    Tries symbols t.word order result ↔ result = Operand.bracket symbols t := by
  have hall (form : Form) : form ∈ order := by
    rw [horder.mem_iff]
    cases form <;> decide
  constructor
  · intro h
    exact h.eq_bracket fun form _ _ _ => hall form
  · rintro rfl
    obtain ⟨result, h⟩ := exists_tries symbols t.word order
    rw [← h.eq_bracket fun form _ _ _ => hall form]
    exact h

/-! ## Errors behind the grammar -/

theorem kind_of_register_error {c : Complaint} (h : t.register = .error c) :
    c.kind = .operandTooLarge := by
  unfold Token.register at h
  dsimp only at h
  split at h
  · cases h
  · cases h
    rfl

theorem kind_of_number_error {c : Complaint} (h : t.number = .error c) :
    c.kind = .operandTooLarge := by
  unfold Token.number at h
  rcases hread : t.word.readNumeral with e | n
  · rw [hread] at h
    cases h
    rfl
  · rw [hread] at h
    cases h

theorem kind_of_lookup_error {name : Bytes} {c : Complaint} (h : symbols.lookup name = .error c) :
    c.kind = .undefinedSymbol := by
  unfold SymbolTable.lookup at h
  split at h
  · split at h
    · cases h
    · cases h
      rfl
  · cases h
    rfl

/-- A text that follows a pattern may be refused for its register, number or symbol only. -/
theorem operand_ne_syntaxError (symbols : SymbolTable) (form : Form) (b : Bracket) (name : Bytes) :
    form.operand symbols b ≠ .error ⟨.syntaxError, name⟩ := by
  intro h
  unfold operand at h
  rcases except_bind_eq_error.mp h with h | ⟨register, -, h⟩
  · cases kind_of_register_error h
  · cases form with
    | bare => cases h
    | hexadecimal | decimal =>
      rcases except_bind_eq_error.mp h with h | ⟨value, -, h⟩
      · cases kind_of_number_error h
      · cases h
    | symbol =>
      rcases except_bind_eq_error.mp h with h | ⟨sym, -, h⟩
      · cases kind_of_lookup_error h
      · split at h
        · cases h
        · cases h

end Form

end Bracket

/-- Brackets give an operand, or an error other than a syntax error, if they follow one of four
patterns. Texts follow them in one way at most, so patterns may be tried in any order, and the
blanks between the parts do not matter. Any other text is a syntax error. -/
theorem brackets_follow_one_grammar (symbols : SymbolTable) (t : Token) :
    ((∀ name, Operand.bracket symbols t ≠ .error ⟨.syntaxError, name⟩) ↔
      ∃ form : Bracket.Form, ∃ b gaps, form.Matches t.word b gaps) ∧
    ((∀ form : Bracket.Form, ∀ b gaps, ¬ form.Matches t.word b gaps) →
      Operand.bracket symbols t = .error ⟨.syntaxError, t.word⟩) ∧
    (∀ (form form' : Bracket.Form) (b b' : Bracket) (gaps gaps' : List Bytes),
      form.Matches t.word b gaps → form'.Matches t.word b' gaps' →
        form = form' ∧ b = b' ∧ gaps = gaps') ∧
    (∀ order : List Bracket.Form, order.Perm Bracket.Form.all → ∀ result,
      Bracket.Form.Tries symbols t.word order result ↔ result = Operand.bracket symbols t) ∧
    ∀ (form : Bracket.Form) (b : Bracket) (gaps : List Bytes), form.Matches t.word b gaps →
      ∀ (t' : Token) (gaps' : List Bytes), form.Matches t'.word b gaps' →
        Operand.bracket symbols t' = Operand.bracket symbols t := by
  refine ⟨⟨?_, ?_⟩, Bracket.Form.bracket_of_not_matches, ?_, ?_, ?_⟩
  · intro hsyntax
    by_contra hnone
    simp only [not_exists] at hnone
    exact hsyntax _ (Bracket.Form.bracket_of_not_matches hnone)
  · rintro ⟨form, b, gaps, h⟩ name
    rw [h.bracket rfl]
    exact Bracket.Form.operand_ne_syntaxError symbols form b name
  · intro form form' b b' gaps gaps' h h'
    exact h.unique h'
  · intro order horder result
    exact Bracket.Form.tries_iff horder
  · intro form b gaps h t' gaps' h'
    rw [h'.bracket rfl, h.bracket rfl]

end AsmKit
