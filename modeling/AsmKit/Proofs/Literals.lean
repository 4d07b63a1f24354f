import AsmKit.Proofs.BracketGrammar
import AsmKit.Proofs.Numerals
import AsmKit.Proofs.Spelling

/-
  Numbers in place of symbols. A source line is rewritten with the address of each symbol that it
  refers to, spelled in hexadecimal, where the symbol stood (`SourceLine.resolve`). What is written
  is read as the rewritten line (`SourceLine.read_resolve`): the spelling of an address is a number,
  and so is one behind a dollar sign or in brackets.
-/

namespace AsmKit

/-! ## Spellings of addresses -/

namespace Bytes

theorem prefixedHex_eq (n : Nat) : prefixedHex n = 0x30 :: 0x78 :: hex 1 n := by
  unfold prefixedHex
  rfl

theorem isHexDigit_of_mem_hex {width n : Nat} {b : UInt8} (h : b ∈ hex width n) :
    Ascii.isHexDigit b = true := by
  obtain h | h := List.mem_append.mp h
  · rw [(List.mem_replicate.mp h).2]
    decide
  · obtain ⟨c, hc, rfl⟩ := List.mem_map.mp h
    exact Number.forall_mem_toDigits (P := fun c => Ascii.isHexDigit c.toUInt8 = true)
      (by decide) (by decide) n c hc

theorem hex_ne_nil (width n : Nat) : hex width n ≠ [] := by
  intro hnil
  exact Nat.toDigits_ne_nil (List.map_eq_nil_iff.mp (List.append_eq_nil_iff.mp hnil).2)

theorem isHexadecimal_prefixedHex (n : Nat) : (prefixedHex n).isHexadecimal = true := by
  rw [prefixedHex_eq]
  show (!(hex 1 n).isEmpty && (hex 1 n).all Ascii.isHexDigit) = true
  have hne : (hex 1 n).isEmpty = false := by simpa using hex_ne_nil 1 n
  rw [hne, Bool.not_false, Bool.true_and, List.all_eq_true]
  exact fun b hb => isHexDigit_of_mem_hex hb

theorem not_isIdentifier_prefixedHex (n : Nat) : (prefixedHex n).isIdentifier = false := rfl

theorem readNumeral_prefixedHex (w : UInt32) : readNumeral (prefixedHex w.toNat) = .ok w := by
  have hlt := w.toNat_lt
  rw [prefixedHex_eq]
  show readWord 16 (hex 1 w.toNat) = .ok w
  unfold readWord
  rw [readNat_hex 1 (by omega)]
  simp

end Bytes

namespace Lexeme

/-- The first rule that accepts a lexeme decides its kind. -/
theorem classify_eq {s : Bytes} (front : List Rule) (rule : Rule) (back : List Rule)
    (hrules : rules = front ++ rule :: back) (hfront : front.any (fun r => r.accepts s) = false)
    (h : rule.accepts s = true) : classify s = rule.kind := by
  unfold classify classifyBy
  have hnone : front.find? (fun r => r.accepts s) = none := by
    rw [List.find?_eq_none]
    intro r hr
    exact List.any_eq_false.mp hfront r hr
  have hsome : (rule :: back).find? (fun r => r.accepts s) = some rule := List.find?_cons_of_pos h
  rw [hrules, List.find?_append, hnone, hsome]
  rfl

theorem classify_prefixedHex (n : Nat) : classify (Bytes.prefixedHex n) = .hex :=
  classify_eq (rules.take 8) ⟨.hex, Bytes.isHexadecimal⟩ (rules.drop 9) rfl rfl
    (Bytes.isHexadecimal_prefixedHex n)

theorem classify_dollar_prefixedHex (n : Nat) :
    classify (dollar :: Bytes.prefixedHex n) = .hexLiteral :=
  classify_eq (rules.take 10) ⟨.hexLiteral, literal Bytes.isHexadecimal⟩ (rules.drop 11) rfl rfl
    (Bytes.isHexadecimal_prefixedHex n)

theorem classify_bracket {inner : Bytes} (h : Ascii.newline ∉ inner) :
    classify (leftBracket :: inner ++ [rightBracket]) = .bracket := by
  refine classify_eq (rules.take 3) ⟨.bracket, isBracket⟩ (rules.drop 4) rfl rfl ?_
  have hlast : (inner ++ [rightBracket]).getLast? = some rightBracket := List.getLast?_concat
  have hlines : (leftBracket :: inner ++ [rightBracket]).all (· != Ascii.newline) = true := by
    rw [List.all_eq_true]
    intro b hb
    rw [bne_iff_ne]
    rintro rfl
    simp only [List.cons_append, List.mem_cons, List.mem_append, List.not_mem_nil, or_false] at hb
    rcases hb with hb | hb | hb
    · exact absurd hb (by decide)
    · exact h hb
    · exact absurd hb (by decide)
  show ((some leftBracket == some leftBracket) && ((inner ++ [rightBracket]).getLast? ==
    some rightBracket) && _) = true
  rw [hlast, hlines]
  rfl

end Lexeme

/-! ## Brackets -/

namespace Bracket

/-- An operand in brackets, written out. -/
def spelling (b : Bracket) : Bytes :=
  text "[%" ++ b.register ++ (match b.offset? with
    | some offset => text " + " ++ offset
    | none => []) ++ text "]"

theorem isOffset_prefixedHex (n : Nat) : isOffset (Bytes.prefixedHex n) = true := by
  unfold isOffset
  rw [Bytes.isHexadecimal_prefixedHex]
  rfl

/-- What stands between the brackets. -/
def inside (register offset : Bytes) : Bytes :=
  0x25 :: (register ++ (0x20 :: 0x2B :: 0x20 :: offset))

theorem spelling_eq (register offset : Bytes) : spelling ⟨register, some offset⟩ =
    Lexeme.leftBracket :: inside register offset ++ [Lexeme.rightBracket] := by
  unfold spelling inside
  simp only [List.append_assoc, List.cons_append]
  rfl

theorem read?_spelling {register offset : Bytes} (hregister : isRegister register = true)
    (hoffset : isOffset offset = true) :
    read? (spelling ⟨register, some offset⟩) = some ⟨register, some offset⟩ := by
  obtain ⟨form, hform⟩ := exists_isAddend hoffset
  have hblank : IsGap (text " ") := isGap_iff.mpr (List.all_eq_true.mp (by decide))
  have hnone : IsGap [] := List.forall_mem_nil _
  have hmatches := Form.Matches.plus hnone (isNamed_iff.mpr hregister) hblank hblank hform hnone
  have e : spelling ⟨register, some offset⟩ = text "[" ++ [] ++ text "%" ++ register ++ text " "
      ++ text "+" ++ text " " ++ offset ++ [] ++ text "]" := by
    unfold spelling
    simp only [List.append_assoc]
    rfl
  rw [e]
  exact hmatches.read?

/-- Brackets that are written out have neither a bracket nor a comment nor the end of a line inside. -/
theorem of_mem_inside {register offset : Bytes} (hregister : isRegister register = true)
    (hoffset : isOffset offset = true) {b : UInt8} (h : b ∈ inside register offset) :
    b ≠ Lexeme.rightBracket ∧ b ≠ Lexeme.hash ∧ b ≠ Ascii.newline := by
  have hword : ∀ b, Ascii.isWord b = true →
      b ≠ Lexeme.rightBracket ∧ b ≠ Lexeme.hash ∧ b ≠ Ascii.newline := by
    apply forall_byte
    decide +kernel
  simp only [inside, List.mem_cons, List.mem_append] at h
  rcases h with rfl | h | rfl | rfl | rfl | h
  · decide
  · exact hword b (isWord_of_isRegister hregister b h)
  · decide
  · decide
  · decide
  · exact hword b (isWord_of_isOffset hoffset b h)

end Bracket

/-! ## Rewriting -/

namespace Token

theorem isReadable_hex (n : Nat) : IsReadable ⟨.hex, Bytes.prefixedHex n⟩ :=
  .of_classify (Lexeme.classify_prefixedHex n) TokenKind.noConfusion TokenKind.noConfusion
    TokenKind.noConfusion

theorem isReadable_hexLiteral (n : Nat) : IsReadable ⟨.hexLiteral, Bytes.prefixedHex n⟩ :=
  .of_classify (Lexeme.classify_dollar_prefixedHex n) TokenKind.noConfusion TokenKind.noConfusion
    TokenKind.noConfusion

theorem isReadable_bracket {register offset : Bytes} (hregister : Bracket.isRegister register = true)
    (hoffset : Bracket.isOffset offset = true) :
    IsReadable ⟨.bracket, Bracket.spelling ⟨register, some offset⟩⟩ := by
  have hinside {b : UInt8} (hb : b ∈ Bracket.inside register offset) :=
    Bracket.of_mem_inside hregister hoffset hb
  have e : spelling ⟨.bracket, Bracket.spelling ⟨register, some offset⟩⟩ =
    Lexeme.leftBracket :: Bracket.inside register offset ++ [Lexeme.rightBracket] :=
    Bracket.spelling_eq register offset
  constructor
  · exact TokenKind.noConfusion
  · rw [e]
    exact Lexeme.classify_bracket fun hb => (hinside hb).2.2 rfl
  · rw [e]
    exact .bracket fun hb => (hinside hb).1 rfl
  · rw [e]
    intro hb
    simp only [List.cons_append, List.mem_cons, List.mem_append, List.not_mem_nil, or_false] at hb
    rcases hb with hb | hb | hb
    · exact absurd hb (by decide)
    · exact (hinside hb).2.1 rfl
    · exact absurd hb (by decide)

/-- A token with the address in place of the symbol that it names. -/
def resolve (address : Bytes → UInt32) (t : Token) : Token :=
  match t.kind with
  | .symbol => ⟨.hex, Bytes.prefixedHex (address t.word).toNat⟩
  | .symbolLiteral => ⟨.hexLiteral, Bytes.prefixedHex (address t.word).toNat⟩
  | .bracket =>
    match Bracket.read? t.word with
    | some ⟨register, some offset⟩ =>
      if offset.isIdentifier then
        ⟨.bracket, Bracket.spelling ⟨register, some (Bytes.prefixedHex (address offset).toNat)⟩⟩
      else t
    | _ => t
  | _ => t

theorem IsReadable.resolve {t : Token} (h : t.IsReadable) (address : Bytes → UInt32) :
    (t.resolve address).IsReadable := by
  unfold Token.resolve
  split
  · exact isReadable_hex _
  · exact isReadable_hexLiteral _
  · split
    · next register offset hread =>
      split
      · exact isReadable_bracket (Bracket.of_read? hread).1 (Bracket.isOffset_prefixedHex _)
      · exact h
    · exact h
  · exact h

end Token

/-- A statement with addresses in place of the symbols whose words it fills. -/
def Statement.resolve (address : Bytes → UInt32) : Statement → Statement
  | .directive .words arguments => .directive .words (arguments.map (Token.resolve address))
  | .instruction name arguments => .instruction name (arguments.map (Token.resolve address))
  | st => st

namespace SourceLine

/-- A line with addresses in place of the symbols whose words it fills. -/
def resolve (address : Bytes → UInt32) (l : SourceLine) : SourceLine :=
  { l with statement := l.statement.resolve address }

theorem isReadable_resolve {l : SourceLine} (h : ∀ t ∈ l.tokens, t.IsReadable)
    (address : Bytes → UInt32) : ∀ t ∈ (l.resolve address).tokens, t.IsReadable := by
  have harguments {head : Token} {arguments : List Token}
      (h : ∀ t ∈ head :: arguments, t.IsReadable) :
      ∀ t ∈ head :: arguments.map (Token.resolve address), t.IsReadable := by
    obtain ⟨hhead, harguments⟩ := List.forall_mem_cons.mp h
    refine List.forall_mem_cons.mpr ⟨hhead, List.forall_mem_map.mpr fun t ht => ?_⟩
    exact (harguments t ht).resolve address
  obtain ⟨hlabel, hst⟩ := List.forall_mem_append.mp h
  refine List.forall_mem_append.mpr ⟨hlabel, ?_⟩
  show ∀ t ∈ (l.statement.resolve address).tokens, t.IsReadable
  unfold Statement.resolve
  split
  · next hstatement =>
    rw [hstatement] at hst
    exact harguments hst
  · next hstatement =>
    rw [hstatement] at hst
    exact harguments hst
  · exact hst

/-- A line that was read can be written out with addresses in it, and is read as such. -/
theorem read_resolve {number number' : Nat} {raw : Bytes} {l : SourceLine}
    (h : read number raw = .ok l) (hstray : ∀ w, l.statement ≠ .stray w)
    (address : Bytes → UInt32) :
    read number' (l.resolve address).spelling = .ok (l.resolve address) :=
  read_spelling (isReadable_resolve (isReadable_of_read h hstray) address) number'

end SourceLine

end AsmKit
