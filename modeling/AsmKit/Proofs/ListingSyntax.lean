import AsmKit.Proofs.Disassembly
import AsmKit.Proofs.ReadBack

/-
  Listings as source text. An operand that can be read is cut off a listed statement, and so is the
  comma behind it (`Token.ofLine_lineOf`). Registers, numbers and places in brackets are such operands,
  and the assembler takes them for what they stand for. So it reads a statement of a listing as the
  instruction with these operands (`Decoded.read_statement`).
-/

namespace AsmKit

namespace Token

/-- A lexeme as a token, if nothing in it only marks its kind. -/
def ofText (s : Bytes) : Token := ⟨Lexeme.classify s, s⟩

/-- The text is read as a token that it spells. -/
structure IsRead (s : Bytes) : Prop where
  readable : (ofText s).IsReadable
  spelling : (ofText s).spelling = s

/-- What stands between two operands. -/
def comma : Token := ⟨.comma, [Lexeme.comma]⟩

theorem isReadable_comma : comma.IsReadable := ⟨nofun, rfl, .comma, by decide⟩

end Token

theorem Bytes.length_joinWith_le {n : Nat} {parts : List Bytes} (sep : Bytes)
    (h : ∀ part ∈ parts, part.length ≤ n) :
    (joinWith sep parts).length ≤ parts.length * (n + sep.length) := by
  induction parts with
  | nil => exact Nat.zero_le _
  | cons part parts ih =>
    obtain ⟨hpart, hparts⟩ := List.forall_mem_cons.mp h
    have hrest := ih hparts
    rw [List.length_cons, Nat.succ_mul]
    cases parts with
    | nil =>
      change (part ++ []).length ≤ _
      rw [List.append_nil]
      omega
    | cons next more =>
      unfold joinWith at hrest ⊢
      rw [List.intersperse_cons_cons, List.flatten_cons, List.flatten_cons, List.length_append,
        List.length_append]
      omega

/-! ## Lines of listings -/

namespace Lexeme

/-- Operands with commas between them are cut apart. -/
theorem cut_operands {ts : List Token} (h : ∀ t ∈ ts, t.IsReadable) (found : List Bytes) :
    cut found (Bytes.joinWith (text ", ") (ts.map Token.spelling)) =
      found.reverse ++ (ts.intersperse Token.comma).map Token.spelling := by
  induction ts generalizing found with
  | nil =>
    rw [List.map_nil, List.intersperse_nil, List.map_nil, List.append_nil]
    exact cut.eq_1 found
  | cons t ts ih =>
    obtain ⟨ht, hts⟩ := List.forall_mem_cons.mp h
    cases ts with
    | nil =>
      have hcut : cut found (t.spelling ++ []) = cut (t.spelling :: found) [] :=
        ht.whole.cut found (by intro b hb; cases hb)
      show cut found (t.spelling ++ []) = found.reverse ++ [t.spelling]
      rw [hcut, cut.eq_1, List.reverse_cons]
    | cons next more =>
      have hrest := ih hts ([comma] :: t.spelling :: found)
      have hjoin : Bytes.joinWith (text ", ") ((t :: next :: more).map Token.spelling) =
          t.spelling ++ ([comma] ++ Ascii.space ::
            Bytes.joinWith (text ", ") ((next :: more).map Token.spelling)) := by
        unfold Bytes.joinWith
        rw [List.map_cons, List.map_cons, List.intersperse_cons_cons]
        rfl
      rw [hjoin, ht.whole.cut found (by intro b hb; cases hb; decide),
        IsWhole.comma.cut _ (by intro b hb; cases hb; decide), cut_separator (by decide), hrest,
        List.intersperse_cons_cons, List.reverse_cons, List.reverse_cons, List.append_assoc,
        List.append_assoc]
      rfl

end Lexeme

namespace Token

open Decoded (lineOf)

variable {name : Bytes} {ts : List Token}

theorem ofLine_lineOf (hname : IsReadable ⟨.instruction, name⟩) (h : ∀ t ∈ ts, t.IsReadable)
    (number : Int) : ofLine number (lineOf name (ts.map spelling)) =
      .ok (⟨.instruction, name⟩ :: ts.intersperse comma) := by
  have hlexemes : Lexeme.ofLine (lineOf name (ts.map spelling)) =
      (⟨.instruction, name⟩ :: ts.intersperse comma : List Token).map spelling := by
    have hwhole : Lexeme.IsWhole name := hname.whole
    unfold lineOf Lexeme.ofLine
    split
    · next hnil =>
      rw [List.map_eq_nil_iff.mp hnil]
      have hcut : Lexeme.cut [] (name ++ []) = Lexeme.cut [name] [] :=
        hwhole.cut [] fun b hb => nomatch hb
      rw [List.append_nil] at hcut
      rw [hcut, Lexeme.cut.eq_1]
      rfl
    · have hline : Decoded.withOperands name (ts.map spelling) =
          name ++ Ascii.space :: Bytes.joinWith (text ", ") (ts.map spelling) := List.append_assoc ..
      rw [hline, hwhole.cut [] (by intro b hb; cases hb; decide), Lexeme.cut_separator (by decide),
        Lexeme.cut_operands h]
      rfl
  unfold ofLine
  rw [hlexemes]
  refine mapM_ofLexeme (List.forall_mem_cons.mpr ⟨hname, fun t ht => ?_⟩) number
  rcases Bytes.mem_intersperse ht with rfl | ht
  · exact isReadable_comma
  · exact h t ht

theorem stripComment_lineOf (hname : IsReadable ⟨.instruction, name⟩) (h : ∀ t ∈ ts, t.IsReadable) :
    Lexeme.stripComment (lineOf name (ts.map spelling)) = lineOf name (ts.map spelling) := by
  have hhash : Lexeme.hash ∉ name := hname.uncommented
  unfold Lexeme.stripComment
  rw [List.takeWhile_eq_self_iff]
  intro b hb
  rw [bne_iff_ne]
  intro hb'
  rw [hb'] at hb
  unfold lineOf at hb
  split at hb
  · exact hhash hb
  · rcases List.mem_append.mp hb with hb | hb
    · rcases List.mem_append.mp hb with hb | hb
      · exact hhash hb
      · exact absurd hb (by decide)
    · rcases Bytes.mem_joinWith hb with hb | ⟨s, hs, hb⟩
      · exact absurd hb (by decide)
      · obtain ⟨t, ht, rfl⟩ := List.mem_map.mp hs
        exact (h t ht).uncommented hb

end Token

/-! ## Operands of listings -/

namespace RegisterKind

def count : RegisterKind → Nat
  | .general => 16
  | .control => 3

/-- Whether a token of the kind may name a register. -/
def accepts : RegisterKind → TokenKind → Bool
  | .general => TokenKind.isGeneral
  | .control => TokenKind.isControl

end RegisterKind

namespace Register

/-- What a listing shows for a register names it, and can be read. -/
theorem names_spelling (kind : RegisterKind) : ∀ n < kind.count,
    let t := Token.ofText (spelling kind (UInt8.ofNat n))
    kind.accepts t.kind = true ∧ t.register.toOption = some (UInt8.ofNat n) := by
  cases kind <;> decide +kernel

/-- In brackets, general registers stand without a sign of their own. -/
theorem bracketed_spelling : ∀ n < 16,
    spelling .general (UInt8.ofNat n) = 0x25 :: (spelling .general (UInt8.ofNat n)).tail ∧
      Bracket.isRegister (spelling .general (UInt8.ofNat n)).tail = true := by
  decide +kernel

end Register

namespace Token

theorem kind_of_accepts {kind : RegisterKind} {k : TokenKind} (h : kind.accepts k = true) :
    k = .register ∨ k = .specialRegister ∨ k = .statusRegister := by
  cases kind <;> cases k <;> revert h <;> decide

/-- A token whose lexeme is its word is read from it. -/
theorem IsReadable.ofText_word {t : Token} (h : t.IsReadable) (hs : t.spelling = t.word) :
    ofText t.word = t := by
  have hkind := h.classify
  rw [hs] at hkind
  unfold ofText
  rw [hkind]

theorem IsReadable.isRead {t : Token} (h : t.IsReadable) (hs : t.spelling = t.word) :
    IsRead t.word := by
  constructor
  · rw [h.ofText_word hs]
    exact h
  · rw [h.ofText_word hs, hs]

/-- A register of a listing is read as such. -/
theorem of_spelling (kind : RegisterKind) {address : UInt8} (h : address.toNat < kind.count) :
    let t := ofText (Register.spelling kind address)
    kind.accepts t.kind = true ∧ t.register = .ok address ∧ IsRead t.word := by
  obtain ⟨hkind, hregister⟩ := Register.names_spelling kind address.toNat h
  rw [UInt8.ofNat_toNat] at hkind hregister
  refine ⟨hkind, eq_ok_of_toOption hregister, ?_⟩
  unfold ofText
  rcases kind_of_accepts hkind with e | e | e
  all_goals
    change Lexeme.classify _ = _ at e
    rw [e]
    exact IsReadable.isRead (.of_classify e nofun nofun nofun) rfl

/-- There are three control registers to name. -/
theorem register_of_isControl {t : Token} (h : t.IsReadable) (hkind : t.kind.isControl = true)
    {r : UInt8} (hr : t.register = .ok r) : r.toNat < RegisterKind.control.count := by
  have hnames : ∀ word ∈ Lexeme.statusRegisters,
      ((register ⟨.statusRegister, word⟩).toOption.all fun r => r.toNat < 3) = true := by
    decide +kernel
  obtain ⟨kind, word⟩ := t
  obtain rfl : kind = .statusRegister := of_decide_eq_true hkind
  have hword := Lexeme.accepts_of_kind ⟨.statusRegister, Lexeme.statusRegisters.contains⟩
    (by simp [Lexeme.rules]) h.classify
  have hlt := hnames word (List.contains_iff_mem.mp hword)
  rw [hr] at hlt
  exact of_decide_eq_true hlt

end Token

namespace Decoded

variable {d : Decoded}

/-- The tokens of a listed statement, behind the name. -/
def arguments (d : Decoded) : List Token := (d.operands.map Token.ofText).intersperse Token.comma

/-- The literal as a number. -/
def literalToken (d : Decoded) : Token := ⟨.hex, Bytes.prefixedHex d.literal.toNat⟩

/-- A register and the literal in brackets. -/
def placeToken (d : Decoded) (register : UInt8) : Token :=
  ⟨.bracket, Bracket.spelling ⟨(general register).tail, some (Bytes.prefixedHex d.literal.toNat)⟩⟩

theorem isReadable_literalToken (d : Decoded) : d.literalToken.IsReadable := Token.isReadable_hex _

theorem isReadable_placeToken {register : UInt8} (h : register.toNat < 16) :
    (d.placeToken register).IsReadable := by
  have hregister := (Register.bracketed_spelling register.toNat h).2
  rw [UInt8.ofNat_toNat] at hregister
  exact Token.isReadable_bracket hregister (Bracket.isOffset_prefixedHex _)

theorem place_eq {register : UInt8} (h : register.toNat < 16) (hindirect : d.isIndirect = true) :
    d.place register = (d.placeToken register).word := by
  have hsign := (Register.bracketed_spelling register.toNat h).1
  rw [UInt8.ofNat_toNat] at hsign
  change general register = 0x25 :: (general register).tail at hsign
  unfold place placeToken Bracket.spelling
  rw [hindirect, if_pos rfl]
  dsimp only
  rw [hsign]
  simp only [List.append_assoc, List.cons_append]
  rfl

/-- The target of a direct jump is read as a number. -/
theorem of_target (h : d.isIndirect = false) :
    Token.ofText d.target = d.literalToken ∧ Token.IsRead d.target := by
  have htarget : d.target = d.literalToken.word := by
    unfold target
    rw [h]
    rfl
  have hread := d.isReadable_literalToken
  rw [htarget]
  exact ⟨hread.ofText_word rfl, hread.isRead rfl⟩

/-- The place of a load or a store through memory is read as an operand in brackets. -/
theorem of_place {register : UInt8} (h : register.toNat < 16) (hindirect : d.isIndirect = true) :
    Token.ofText (d.place register) = d.placeToken register ∧ Token.IsRead (d.place register) := by
  have hread := isReadable_placeToken (d := d) h
  rw [place_eq h hindirect]
  exact ⟨hread.ofText_word rfl, hread.isRead rfl⟩

theorem isReadable_name {i : Instruction} (h : i ∈ Instruction.all) :
    Token.IsReadable ⟨.instruction, i.name⟩ := by
  have hnames : ∀ i ∈ Instruction.all, Lexeme.classify i.name = .instruction := by decide +kernel
  exact .of_classify (hnames i h) nofun nofun nofun

/-- A statement of a listing is read as its instruction, with the operands that it shows. -/
theorem read_statement (hmem : d.instruction ∈ Instruction.all)
    (h : ∀ s ∈ d.operands, Token.IsRead s) (number : Nat) :
    SourceLine.read number d.statement =
      .ok ⟨none, .instruction d.instruction.name d.arguments⟩ := by
  have hname := isReadable_name hmem
  have htokens : ∀ t ∈ d.operands.map Token.ofText, t.IsReadable :=
    List.forall_mem_map.mpr fun s hs => (h s hs).readable
  have hoperands : (d.operands.map Token.ofText).map Token.spelling = d.operands := by
    rw [List.map_map]
    exact (List.map_congr_left fun s hs => (h s hs).spelling).trans (List.map_id _)
  have hstrip := Token.stripComment_lineOf hname htokens
  have htokenize := Token.ofLine_lineOf hname htokens number
  rw [hoperands] at hstrip htokenize
  unfold SourceLine.read
  rw [statement_eq hmem, hstrip, htokenize]
  rfl

/-! ## Lengths -/

theorem isVisible_statement (h : d.instruction ∈ Instruction.all) : IsVisible d.statement := by
  have hnames : ∀ i ∈ Instruction.all, IsVisible i.name := by decide +kernel
  obtain ⟨operands, hstatement, -, hoperands⟩ := exists_operands h
  rw [hstatement]
  exact (hnames _ h).append hoperands

theorem isLine_of_isVisible {s : Bytes} (h : IsVisible s) : Lines.IsLine s := by
  constructor
  · intro hnewline
    exact absurd (h _ hnewline) (by decide)
  · intro hlast
    exact absurd (h _ (List.mem_of_getLast? hlast)) (by decide)

theorem length_prefixedHex_le (w : UInt32) : (Bytes.prefixedHex w.toNat).length ≤ 10 := by
  have hlt := w.toNat_lt
  have hdigits : (Nat.toDigits 16 w.toNat).length ≤ 8 :=
    (Nat.length_toDigits_le_iff (by decide) (by decide)).mpr hlt
  show (text "0x" ++ (List.replicate _ _ ++ List.map _ _)).length ≤ 10
  rw [List.length_append, List.length_append, List.length_replicate, List.length_map]
  change 2 + _ ≤ 10
  omega

theorem length_spelling_le (kind : RegisterKind) (address : UInt8) :
    (Register.spelling kind address).length ≤ 8 := by
  have hdecimal : (Bytes.decimal address.toNat).length ≤ 3 := by
    have hlt := address.toNat_lt
    exact Bytes.length_decimal_le (by decide) (by omega)
  unfold Register.spelling
  split
  · split
    · decide
    · split
      · decide
      · rw [List.length_append]
        change 2 + _ ≤ 8
        omega
  · split
    · decide
    · split
      · decide
      · split
        · decide
        · rw [List.length_append]
          change 4 + _ ≤ 8
          omega

theorem length_brackets_le (s : Bytes) (indirect : Bool) :
    (if indirect then text "[" ++ s ++ text "]" else s).length ≤ s.length + 2 := by
  split
  · rw [List.length_append, List.length_append]
    change 1 + s.length + 1 ≤ _
    omega
  · omega

theorem length_operands_le (d : Decoded) :
    d.operands.length ≤ 3 ∧ ∀ s ∈ d.operands, s.length ≤ 32 := by
  have hliteral := length_prefixedHex_le d.literal
  have hregister (kind : RegisterKind) (address : UInt8) :
      (Register.spelling kind address).length ≤ 32 := by
    have hle := length_spelling_le kind address
    omega
  have htarget : d.target.length ≤ 32 := by
    have hle := length_brackets_le (Bytes.prefixedHex d.literal.toNat) d.isIndirect
    exact Nat.le_trans hle (by omega)
  have hplace (register : UInt8) : (d.place register).length ≤ 32 := by
    have hle := length_spelling_le .general register
    refine Nat.le_trans (length_brackets_le _ _) ?_
    rw [List.length_append, List.length_append]
    change (Register.spelling .general register).length + 3 + _ + 2 ≤ 32
    omega
  unfold operands general control
  rcases d.instruction.shape
  case stack => dsimp only; split <;> simp [hregister]
  case twoRegisters => dsimp only; split <;> simp [hregister]
  all_goals simp [hregister, hplace, htarget]

theorem length_statement_le (h : d.instruction ∈ Instruction.all) : d.statement.length ≤ 108 := by
  have hname : ∀ i ∈ Instruction.all, i.name.length ≤ 5 := by decide +kernel
  obtain ⟨hcount, hoperands⟩ := d.length_operands_le
  have hjoined := Bytes.length_joinWith_le (text ", ") hoperands
  have hshort := hname _ h
  have hmost : d.operands.length * (32 + (text ", ").length) ≤ 3 * 34 := Nat.mul_le_mul_right 34 hcount
  rw [statement_eq h]
  unfold lineOf withOperands
  split
  · omega
  · rw [List.length_append, List.length_append]
    change d.instruction.name.length + 1 + _ ≤ _
    omega

end Decoded

end AsmKit
