import AsmKit.Proofs.Fields
import AsmKit.Proofs.Tokens

/-
  Source lines, written out. A token is spelled as its lexeme, and a line as its lexemes with a space
  between each two. Every lexeme that has a kind is cut off whole (`IsWhole.cut`), so tokens that were
  read from a line are read again from their spelling (`Token.ofLine_line`), and so is the line
  (`SourceLine.read_spelling`).
-/

namespace AsmKit

namespace Lexeme

/-! ## Cutting -/

/-- What a line is cut into: commas, texts in brackets and words. -/
inductive IsWhole : Bytes → Prop
  | comma : IsWhole [comma]
  | bracket {inner : Bytes} (hinner : rightBracket ∉ inner) :
      IsWhole (leftBracket :: inner ++ [rightBracket])
  | word {s : Bytes} (hne : s ≠ []) (hbytes : ∀ b ∈ s, isWordByte b = true)
      (hcolon : s ≠ [colon]) : IsWhole s

theorem addWord_eq {word : Bytes} (h : word ≠ [colon]) (found : List Bytes) :
    addWord word found = word :: found := by
  unfold addWord
  split
  · rw [if_neg (by simp [h])]
  · rfl

theorem cut_separator {b : UInt8} (h : isSeparator b = true) (found : List Bytes) (rest : Bytes) :
    cut found (b :: rest) = cut found rest := by
  rw [cut, if_pos h]

theorem cut_comma (found : List Bytes) (rest : Bytes) :
    cut found (comma :: rest) = cut ([comma] :: found) rest := by
  rw [cut, if_neg (by decide), if_pos rfl]

/-- A bracket that is not closed takes the rest of the line. -/
theorem cut_unclosed {rest : Bytes} (h : rest.dropWhile (· != rightBracket) = [])
    (found : List Bytes) :
    cut found (leftBracket :: rest) = (Bytes.trim (leftBracket :: rest) :: found).reverse := by
  rw [cut, if_neg (by decide), if_neg (by decide), if_pos rfl]
  split
  · rfl
  · next hclose =>
    rw [h] at hclose
    cases hclose

theorem cut_closed {rest after : Bytes} {close : UInt8}
    (h : rest.dropWhile (· != rightBracket) = close :: after) (found : List Bytes) :
    cut found (leftBracket :: rest) =
      cut ((leftBracket :: rest.takeWhile (· != rightBracket) ++ [close]) :: found) after := by
  rw [cut, if_neg (by decide), if_neg (by decide), if_pos rfl]
  split
  · next hnil =>
    rw [h] at hnil
    cases hnil
  · next hclose =>
    rw [h] at hclose
    cases hclose
    rfl

theorem cut_word {b : UInt8} (h : isWordByte b = true) (found : List Bytes) (rest : Bytes) :
    cut found (b :: rest) =
      cut (addWord (b :: rest.takeWhile isWordByte) found) (rest.dropWhile isWordByte) := by
  simp only [isWordByte, Bool.and_eq_true, Bool.not_eq_true', bne_iff_ne] at h
  obtain ⟨⟨hseparator, hcomma⟩, hbracket⟩ := h
  rw [cut, if_neg (by simp [hseparator]), if_neg hcomma, if_neg hbracket]

/-- Text in brackets is cut off whatever the line goes on with. -/
theorem cut_bracket {inner : Bytes} (h : rightBracket ∉ inner) (found : List Bytes) (rest : Bytes) :
    cut found (leftBracket :: inner ++ [rightBracket] ++ rest) =
      cut ((leftBracket :: inner ++ [rightBracket]) :: found) rest := by
  have hopen : ∀ b ∈ inner, (b != rightBracket) = true := by
    intro b hb
    rw [bne_iff_ne]
    rintro rfl
    exact h hb
  have hdrop : (inner ++ rightBracket :: rest).dropWhile (· != rightBracket) =
      rightBracket :: rest := by
    rw [List.dropWhile_append_of_pos hopen, List.dropWhile_cons_of_neg (by simp)]
  have htake : (inner ++ rightBracket :: rest).takeWhile (· != rightBracket) = inner := by
    rw [List.takeWhile_append_of_pos hopen, List.takeWhile_cons_of_neg (by simp), List.append_nil]
  rw [List.append_assoc, List.cons_append, List.singleton_append, cut_closed hdrop, htake]

/-- A whole lexeme at the start of a line is cut off if the line does not go on with the word. -/
theorem IsWhole.cut {s : Bytes} (h : IsWhole s) (found : List Bytes) {rest : Bytes}
    (hrest : ∀ b ∈ rest.head?, isWordByte b = false) :
    cut found (s ++ rest) = Lexeme.cut (s :: found) rest := by
  cases h with
  | comma => rw [List.singleton_append, cut_comma]
  | bracket hinner => exact cut_bracket hinner found rest
  | word hne hbytes hcolon =>
    obtain ⟨b, w, rfl⟩ := List.exists_cons_of_ne_nil hne
    obtain ⟨hb, hw⟩ := List.forall_mem_cons.mp hbytes
    have htake : (w ++ rest).takeWhile isWordByte = w := by
      rw [List.takeWhile_append_of_pos hw]
      cases rest with
      | nil => simp
      | cons c rest => rw [List.takeWhile_cons_of_neg (by simp [hrest c rfl]), List.append_nil]
    have hdrop : (w ++ rest).dropWhile isWordByte = rest := by
      rw [List.dropWhile_append_of_pos hw]
      cases rest with
      | nil => rfl
      | cons c rest => rw [List.dropWhile_cons_of_neg (by simp [hrest c rfl])]
    rw [List.cons_append, cut_word hb, htake, hdrop, addWord_eq hcolon]

theorem cut_joinWith {lexemes : List Bytes} (h : ∀ s ∈ lexemes, IsWhole s) (found : List Bytes) :
    Lexeme.cut found (Bytes.joinWith [Ascii.space] lexemes) = found.reverse ++ lexemes := by
  induction lexemes generalizing found with
  | nil =>
    rw [List.append_nil]
    exact Lexeme.cut.eq_1 found
  | cons s lexemes ih =>
    have hs := h s List.mem_cons_self
    have hrest := ih (fun s hs => h s (List.mem_cons_of_mem _ hs)) (s :: found)
    rw [List.reverse_cons, List.append_assoc, List.singleton_append] at hrest
    cases lexemes with
    | nil =>
      have hcut : Lexeme.cut found (s ++ []) = Lexeme.cut (s :: found) [] :=
        hs.cut found (by intro b hb; cases hb)
      rw [List.append_nil] at hcut
      rw [Bytes.joinWith_singleton, hcut]
      exact hrest
    | cons next more =>
      rw [Bytes.joinWith_cons_cons, hs.cut found (by rintro _ ⟨⟩; decide), cut_separator (by decide)]
      exact hrest

/-- Cutting a line at its lexemes, with a space between each two, gives them back. -/
theorem ofLine_joinWith {lexemes : List Bytes} (h : ∀ s ∈ lexemes, IsWhole s) :
    ofLine (Bytes.joinWith [Ascii.space] lexemes) = lexemes :=
  cut_joinWith h []

/-! ## What lexemes are made of -/

/-- A lexeme that is cut from a line has its bytes from there, and its brackets close at the first
right bracket. -/
structure CutFrom (line s : Bytes) : Prop where
  bytes : s ⊆ line
  closed : ∀ inner, s = leftBracket :: inner ++ [rightBracket] → rightBracket ∉ inner

variable {line : Bytes}

theorem CutFrom.of_first {b : UInt8} {s : Bytes} (hbytes : b :: s ⊆ line) (hb : b ≠ leftBracket) :
    CutFrom line (b :: s) :=
  ⟨hbytes, fun _ hs => absurd (List.cons.inj hs).1 hb⟩

theorem CutFrom.colon {s : Bytes} (h : CutFrom line s) (hcolon : Lexeme.colon ∈ line) :
    CutFrom line (s ++ [Lexeme.colon]) := by
  constructor
  · exact List.append_subset.mpr ⟨h.bytes, List.cons_subset.mpr ⟨hcolon, List.nil_subset _⟩⟩
  · intro inner hs
    exact absurd (List.append_inj' hs rfl).2 (by decide)

theorem cutFrom_addWord {word : Bytes} {found : List Bytes} (hword : CutFrom line word)
    (hfound : ∀ s ∈ found, CutFrom line s) : ∀ s ∈ addWord word found, CutFrom line s := by
  unfold addWord
  split
  · next last before =>
    obtain ⟨hlast, hbefore⟩ := List.forall_mem_cons.mp hfound
    split
    · next h =>
      have hcolon : word = [colon] := eq_of_beq (Bool.and_eq_true_iff.mp h).1
      rw [hcolon] at hword
      exact List.forall_mem_cons.mpr ⟨hlast.colon (hword.bytes List.mem_cons_self), hbefore⟩
    · exact List.forall_mem_cons.mpr ⟨hword, hfound⟩
  · exact List.forall_mem_singleton.mpr hword

theorem cutFrom_cut {found : List Bytes} {rest : Bytes} (hrest : rest ⊆ line)
    (hfound : ∀ s ∈ found, CutFrom line s) : ∀ s ∈ cut found rest, CutFrom line s := by
  fun_induction cut found rest with
  | case1 found => exact fun s hs => hfound s (List.mem_reverse.mp hs)
  | case2 found b rest _ ih => exact ih (List.cons_subset.mp hrest).2 hfound
  | case3 found rest _ ih =>
    obtain ⟨hcomma, hrest⟩ := List.cons_subset.mp hrest
    refine ih hrest (List.forall_mem_cons.mpr ⟨?_, hfound⟩)
    exact .of_first (List.cons_subset.mpr ⟨hcomma, List.nil_subset _⟩) (by decide)
  | case4 found rest hopen _ _ =>
    intro s hs
    obtain rfl | hs := List.mem_cons.mp (List.mem_reverse.mp hs)
    · refine ⟨fun b hb => hrest (Bytes.mem_of_mem_trim hb), fun inner hinner => ?_⟩
      -- there is no right bracket in the line
      have hmem : rightBracket ∈ Bytes.trim (leftBracket :: rest) := by simp [hinner]
      obtain hfirst | hmem := List.mem_cons.mp (Bytes.mem_of_mem_trim hmem)
      · exact absurd hfirst (by decide)
      · simpa using List.dropWhile_eq_nil_iff.mp hopen rightBracket hmem
    · exact hfound s hs
  | case5 found rest close after hclose _ _ ih =>
    have hsplit := List.takeWhile_append_dropWhile (p := (· != rightBracket)) (l := rest)
    rw [hclose] at hsplit
    rw [← hsplit] at hrest
    refine ih (fun b hb => hrest (by simp [hb])) (List.forall_mem_cons.mpr ⟨⟨?_, ?_⟩, hfound⟩)
    · intro b hb
      apply hrest
      simp only [List.mem_cons, List.mem_append, List.not_mem_nil, or_false] at hb ⊢
      tauto
    · intro inner hinner hmem
      obtain ⟨hinner, -⟩ := List.append_inj' (List.cons.inj hinner).2 rfl
      rw [← hinner] at hmem
      simpa using List.all_eq_true.mp List.all_takeWhile _ hmem
  | case6 found b rest _ _ hb ih =>
    obtain ⟨hfirst, hrest⟩ := List.cons_subset.mp hrest
    refine ih (List.Subset.trans (List.dropWhile_sublist _).subset hrest) (cutFrom_addWord ?_ hfound)
    exact .of_first (List.cons_subset.mpr ⟨hfirst,
      List.Subset.trans (List.takeWhile_sublist _).subset hrest⟩) hb

theorem cutFrom_of_mem_ofLine {s : Bytes} (h : s ∈ ofLine line) : CutFrom line s :=
  cutFrom_cut (List.Subset.refl line) (List.forall_mem_nil _) s h

/-- The bytes of lexemes that have no bracket and no comma. -/
def isPlain (b : UInt8) : Bool :=
  Ascii.isWord b || b == 0x25 || b == 0x2E || b == colon || b == dollar

/-- Of these, all but the colon, which only labels have. -/
def isBare (b : UInt8) : Bool := Ascii.isWord b || b == 0x25 || b == 0x2E || b == dollar

theorem isBare_of_isWord {b : UInt8} (h : Ascii.isWord b = true) : isBare b = true := by
  simp [isBare, h]

theorem isPlain_of_isBare : ∀ b, isBare b = true → isPlain b = true := by
  apply forall_byte
  decide +kernel

theorem isWordByte_of_isPlain : ∀ b, isPlain b = true → isWordByte b = true := by
  apply forall_byte
  decide +kernel

theorem isBare_of_isRegister {s : Bytes} (h : isRegister s = true) : ∀ b ∈ s, isBare b = true := by
  unfold isRegister at h
  split at h
  · next digits =>
    obtain ⟨hdigits, -⟩ := Bool.and_eq_true_iff.mp h
    intro b hb
    simp only [List.mem_cons] at hb
    rcases hb with rfl | rfl | hb
    · decide
    · decide
    · exact isBare_of_isWord (Bytes.isWord_of_isDecimal hdigits b hb)
  · cases h

theorem isBare_of_literal {p : Bytes → Bool}
    (hp : ∀ s, p s = true → ∀ b ∈ s, Ascii.isWord b = true) {s : Bytes} (h : literal p s = true) :
    ∀ b ∈ s, isBare b = true := by
  cases s with
  | nil => cases h
  | cons b rest =>
    obtain ⟨hb, hrest⟩ := Bool.and_eq_true_iff.mp h
    rw [eq_of_beq hb]
    exact List.forall_mem_cons.mpr ⟨by decide, fun c hc => isBare_of_isWord (hp rest hrest c hc)⟩

theorem exists_suffix_of_isInstruction {s : Bytes} (h : isInstruction s = true) :
    ∃ i ∈ Instruction.all, ∃ suffix ∈ suffixes, s = i.name ++ suffix := by
  obtain ⟨i, hi, hs⟩ := List.any_eq_true.mp h
  obtain ⟨hname, hsuffix⟩ := Bool.and_eq_true_iff.mp hs
  have hsplit := List.prefix_iff_eq_append.mp (List.isPrefixOf_iff_prefix.mp hname)
  exact ⟨i, hi, _, List.contains_iff_mem.mp hsuffix, hsplit.symm⟩

theorem isBare_of_isInstruction {s : Bytes} (h : isInstruction s = true) :
    ∀ b ∈ s, isBare b = true := by
  have hnames : ∀ i ∈ Instruction.all, ∀ b ∈ i.name, isBare b = true := by decide +kernel
  have hsuffixes : ∀ suffix ∈ suffixes, ∀ b ∈ suffix, isBare b = true := by decide +kernel
  obtain ⟨i, hi, suffix, hsuffix, rfl⟩ := exists_suffix_of_isInstruction h
  intro b hb
  obtain hb | hb := List.mem_append.mp hb
  · exact hnames i hi b hb
  · exact hsuffixes suffix hsuffix b hb

theorem exists_name_of_isLabel {s : Bytes} (h : isLabel s = true) :
    ∃ name : Bytes, name.isIdentifier = true ∧ s = name ++ [colon] := by
  obtain ⟨hlast, hname⟩ := Bool.and_eq_true_iff.mp h
  obtain ⟨name, rfl⟩ := List.getLast?_eq_some_iff.mp (eq_of_beq hlast)
  rw [List.dropLast_concat] at hname
  exact ⟨name, hname, rfl⟩

theorem isBare_of_isIdentifier {s : Bytes} (h : s.isIdentifier = true) : ∀ b ∈ s, isBare b = true :=
  fun b hb => isBare_of_isWord (Bytes.isWord_of_isIdentifier h b hb)

theorem isPlain_of_isLabel {s : Bytes} (h : isLabel s = true) : ∀ b ∈ s, isPlain b = true := by
  obtain ⟨name, hname, rfl⟩ := exists_name_of_isLabel h
  intro b hb
  obtain hb | hb := List.mem_append.mp hb
  · exact isPlain_of_isBare b (isBare_of_isIdentifier hname b hb)
  · rw [List.mem_singleton.mp hb]
    decide

/-- Only commas, brackets and labels have other bytes. -/
theorem isBare_of_accepts : ∀ rule ∈ rules, rule.kind ≠ .comma → rule.kind ≠ .bracket →
    rule.kind ≠ .label → ∀ s, rule.accepts s = true → ∀ b ∈ s, isBare b = true := by
  have fixed {words : List Bytes} (hwords : (words.all fun w => w.all isBare) = true) (s : Bytes)
      (h : words.contains s = true) : ∀ b ∈ s, isBare b = true :=
    List.all_eq_true.mp (List.all_eq_true.mp hwords s (List.contains_iff_mem.mp h))
  have word {p : Bytes → Bool} (hp : ∀ s, p s = true → ∀ b ∈ s, Ascii.isWord b = true) (s : Bytes)
      (h : p s = true) : ∀ b ∈ s, isBare b = true :=
    fun b hb => isBare_of_isWord (hp s h b hb)
  have decimal (s : Bytes) (h : s.isDecimal = true) := Bytes.isWord_of_isDecimal h
  have hexadecimal (s : Bytes) (h : s.isHexadecimal = true) := Bytes.isWord_of_isHexadecimal h
  have identifier (s : Bytes) (h : s.isIdentifier = true) := Bytes.isWord_of_isIdentifier h
  intro rule hrule hcomma hbracket hlabel
  simp only [rules, List.mem_cons, List.not_mem_nil, or_false] at hrule
  rcases hrule with rfl | rfl | rfl | rfl | rfl | rfl | rfl | rfl | rfl | rfl | rfl | rfl | rfl |
    rfl | rfl
  · exact absurd rfl hcomma
  · intro s hs
    rw [eq_of_beq hs]
    exact List.all_eq_true.mp (by decide)
  · exact fixed (by decide)
  · exact absurd rfl hbracket
  · exact fun s hs => isBare_of_isRegister hs
  · exact fixed (by decide)
  · exact fixed (by decide)
  · exact word decimal
  · exact word hexadecimal
  · exact fun s hs => isBare_of_literal decimal hs
  · exact fun s hs => isBare_of_literal hexadecimal hs
  · exact fun s hs => isBare_of_isInstruction hs
  · exact absurd rfl hlabel
  · exact fun s hs => isBare_of_literal identifier hs
  · exact word identifier

theorem eq_of_isBracket {s : Bytes} (h : isBracket s = true) :
    ∃ inner, s = leftBracket :: inner ++ [rightBracket] := by
  unfold isBracket at h
  simp only [Bool.and_eq_true, beq_iff_eq] at h
  obtain ⟨⟨hfirst, hlast⟩, -⟩ := h
  obtain ⟨rest, rfl⟩ := List.head?_eq_some_iff.mp hfirst
  obtain ⟨inner, hinner⟩ := List.getLast?_eq_some_iff.mp hlast
  rw [List.tail_cons] at hinner
  exact ⟨inner, by rw [hinner, List.cons_append]⟩

theorem isBare_of_classify {s : Bytes} (h : classify s ≠ .none) (hcomma : classify s ≠ .comma)
    (hbracket : classify s ≠ .bracket) (hlabel : classify s ≠ .label) :
    ∀ b ∈ s, isBare b = true := by
  obtain ⟨rule, hrule, hkind, haccepts⟩ := accepts_of_classify rfl h
  rw [← hkind] at hcomma hbracket hlabel
  exact isBare_of_accepts rule hrule hcomma hbracket hlabel s haccepts

theorem isPlain_of_classify {s : Bytes} (h : classify s ≠ .none) (hcomma : classify s ≠ .comma)
    (hbracket : classify s ≠ .bracket) : ∀ b ∈ s, isPlain b = true := by
  by_cases hlabel : classify s = .label
  · exact isPlain_of_isLabel (accepts_of_kind ⟨.label, isLabel⟩ (by simp [rules]) hlabel)
  · exact fun b hb => isPlain_of_isBare b (isBare_of_classify h hcomma hbracket hlabel b hb)

/-- What has a colon and no bracket in front is a label, if it is anything. -/
theorem classify_of_colon {s : Bytes} (h : classify s ≠ .none) (hcolon : colon ∈ s)
    (hfirst : s.head? ≠ some leftBracket) : classify s = .label := by
  apply Classical.byContradiction
  intro hlabel
  by_cases hcomma : classify s = .comma
  · have hs := accepts_of_kind ⟨.comma, (· == [Lexeme.comma])⟩ (by simp [rules]) hcomma
    rw [eq_of_beq hs] at hcolon
    exact absurd hcolon (by decide)
  · by_cases hbracket : classify s = .bracket
    · have hs := accepts_of_kind ⟨.bracket, isBracket⟩ (by simp [rules]) hbracket
      obtain ⟨inner, rfl⟩ := eq_of_isBracket hs
      exact hfirst rfl
    · exact absurd (isBare_of_classify h hcomma hbracket hlabel colon hcolon) (by decide)

theorem isWhole_of_classify {s : Bytes} (h : classify s ≠ .none) (hcomma : classify s ≠ .comma)
    (hbracket : classify s ≠ .bracket) : IsWhole s := by
  have hplain := isPlain_of_classify h hcomma hbracket
  refine .word ?_ (fun b hb => isWordByte_of_isPlain b (hplain b hb)) ?_
  · rintro rfl
    exact absurd (by decide) h
  · rintro rfl
    exact absurd (by decide) h

/-- A lexeme that has a kind is whole. -/
theorem CutFrom.isWhole {s : Bytes} (h : CutFrom line s) (hkind : classify s ≠ .none) :
    IsWhole s := by
  by_cases hcomma : classify s = .comma
  · have hs := accepts_of_kind ⟨.comma, (· == [Lexeme.comma])⟩ (by simp [rules]) hcomma
    rw [eq_of_beq hs]
    exact .comma
  · by_cases hbracket : classify s = .bracket
    · have hs := accepts_of_kind ⟨.bracket, isBracket⟩ (by simp [rules]) hbracket
      obtain ⟨inner, rfl⟩ := eq_of_isBracket hs
      exact .bracket (h.closed inner rfl)
    · exact isWhole_of_classify hkind hcomma hbracket

end Lexeme

/-! ## Tokens -/

namespace Token

/-- The lexeme of a token: its word with what marks its kind. -/
def spelling (t : Token) : Bytes :=
  match t.kind with
  | .label => t.word ++ [Lexeme.colon]
  | .decimalLiteral | .hexLiteral | .symbolLiteral => Lexeme.dollar :: t.word
  | _ => t.word

theorem undecorate_spelling (t : Token) : Lexeme.undecorate t.kind t.spelling = t.word := by
  unfold Lexeme.undecorate spelling
  rcases t with ⟨kind, word⟩
  cases kind <;> simp

/-- A token of a line is spelled as it stands there. -/
theorem spelling_of_ofLexeme {number : Int} {s : Bytes} {t : Token} (h : ofLexeme number s = .ok t) :
    t.spelling = s := by
  obtain ⟨hkind, hword⟩ := ofLexeme_eq_ok h
  have literal {p : Bytes → Bool} (hp : Lexeme.literal p s = true) :
      Lexeme.dollar :: s.tail = s := by
    cases s with
    | nil => cases hp
    | cons b rest => rw [← eq_of_beq (Bool.and_eq_true_iff.mp hp).1, List.tail_cons]
  rw [spelling, hword]
  rcases ht : t.kind
  case label =>
    rw [ht] at hkind
    obtain ⟨name, -, rfl⟩ := Lexeme.exists_name_of_isLabel
      (Lexeme.accepts_of_kind ⟨.label, Lexeme.isLabel⟩ (by simp [Lexeme.rules]) hkind.symm)
    simp [Lexeme.undecorate]
  case decimalLiteral =>
    rw [ht] at hkind
    exact literal (Lexeme.accepts_of_kind ⟨.decimalLiteral, Lexeme.literal Bytes.isDecimal⟩
      (by simp [Lexeme.rules]) hkind.symm)
  case hexLiteral =>
    rw [ht] at hkind
    exact literal (Lexeme.accepts_of_kind ⟨.hexLiteral, Lexeme.literal Bytes.isHexadecimal⟩
      (by simp [Lexeme.rules]) hkind.symm)
  case symbolLiteral =>
    rw [ht] at hkind
    exact literal (Lexeme.accepts_of_kind ⟨.symbolLiteral, Lexeme.literal Bytes.isIdentifier⟩
      (by simp [Lexeme.rules]) hkind.symm)
  all_goals rfl

/-- The lexeme of a token, in a line without a comment, is read as the token. -/
structure IsReadable (t : Token) : Prop where
  kind : t.kind ≠ .none
  classify : Lexeme.classify t.spelling = t.kind
  whole : Lexeme.IsWhole t.spelling
  uncommented : Lexeme.hash ∉ t.spelling

theorem IsReadable.ofLexeme {t : Token} (h : t.IsReadable) (number : Int) :
    ofLexeme number t.spelling = .ok t := by
  unfold Token.ofLexeme
  rw [h.classify]
  split
  · next hnone => exact absurd hnone h.kind
  · rw [undecorate_spelling]

theorem IsReadable.of_classify {t : Token} (h : Lexeme.classify t.spelling = t.kind)
    (hnone : t.kind ≠ .none) (hcomma : t.kind ≠ .comma) (hbracket : t.kind ≠ .bracket) :
    t.IsReadable := by
  rw [← h] at hnone hcomma hbracket
  refine ⟨h ▸ hnone, h, Lexeme.isWhole_of_classify hnone hcomma hbracket, fun hhash => ?_⟩
  exact absurd (Lexeme.isPlain_of_classify hnone hcomma hbracket _ hhash) (by decide)

theorem isReadable_of_ofLexeme {number : Int} {line s : Bytes} {t : Token}
    (h : Token.ofLexeme number s = .ok t) (hcut : Lexeme.CutFrom line s)
    (hline : Lexeme.hash ∉ line) : t.IsReadable := by
  have hkind := (ofLexeme_eq_ok h).1
  have hnone : t.kind ≠ .none := hkind ▸ classify_of_ofLexeme h
  have hspelling := spelling_of_ofLexeme h
  constructor
  · exact hnone
  · rw [hspelling, hkind]
  · rw [hspelling]
    exact hcut.isWhole (hkind ▸ hnone)
  · rw [hspelling]
    exact fun hhash => hline (hcut.bytes hhash)

/-- The tokens of a line can be read again. -/
theorem isReadable_of_mem_ofLine {number : Int} {line : Bytes} {tokens : List Token}
    (h : ofLine number line = .ok tokens) (hline : Lexeme.hash ∉ line) :
    ∀ t ∈ tokens, t.IsReadable := by
  intro t ht
  obtain ⟨s, hs, ht⟩ := exists_lexeme h ht
  exact isReadable_of_ofLexeme ht (Lexeme.cutFrom_of_mem_ofLine hs) hline

/-- Tokens as a line, with a space between each two. -/
def line (tokens : List Token) : Bytes := Bytes.joinWith [Ascii.space] (tokens.map spelling)

theorem mapM_ofLexeme {tokens : List Token} (h : ∀ t ∈ tokens, t.IsReadable) (number : Int) :
    (tokens.map spelling).mapM (Token.ofLexeme number) = .ok tokens := by
  induction tokens with
  | nil => rfl
  | cons t tokens ih =>
    obtain ⟨ht, htokens⟩ := List.forall_mem_cons.mp h
    rw [List.map_cons, List.mapM_cons, ht.ofLexeme number, ih htokens]
    rfl

theorem ofLine_line {tokens : List Token} (h : ∀ t ∈ tokens, t.IsReadable) (number : Int) :
    ofLine number (line tokens) = .ok tokens := by
  unfold ofLine line
  rw [Lexeme.ofLine_joinWith (List.forall_mem_map.mpr fun t ht => (h t ht).whole)]
  exact mapM_ofLexeme h number

theorem stripComment_line {tokens : List Token} (h : ∀ t ∈ tokens, t.IsReadable) :
    Lexeme.stripComment (line tokens) = line tokens := by
  unfold Lexeme.stripComment
  rw [List.takeWhile_eq_self_iff]
  intro b hb
  rw [bne_iff_ne]
  rintro rfl
  obtain hspace | ⟨_, hs, hhash⟩ := Bytes.mem_joinWith hb
  · exact absurd hspace (by decide)
  · obtain ⟨t, ht, rfl⟩ := List.mem_map.mp hs
    exact (h t ht).uncommented hhash

end Token

/-! ## Lines -/

/-- The tokens of a statement. What a stray word was read from is not kept. -/
def Statement.tokens : Statement → List Token
  | .nothing => []
  | .directive d arguments => ⟨.directive, d.spelling⟩ :: arguments
  | .instruction name arguments => ⟨.instruction, name⟩ :: arguments
  | .stray word => [⟨.none, word⟩]
  | .stop => [⟨.stop, text ".end"⟩]

namespace SourceLine

/-- The tokens of a line. -/
def tokens (l : SourceLine) : List Token :=
  (l.label?.map fun name => ⟨.label, name⟩).toList ++ l.statement.tokens

/-- A line, written out. -/
def spelling (l : SourceLine) : Bytes := Token.line l.tokens

end SourceLine

theorem Directive.ofSpelling?_spelling (d : Directive) : ofSpelling? d.spelling = some d := by
  cases d <;> decide

theorem Directive.spelling_of_ofSpelling? {s : Bytes} {d : Directive} (h : ofSpelling? s = some d) :
    d.spelling = s := by
  have hd := List.find?_some h
  exact eq_of_beq hd

theorem Token.IsReadable.word_of_stop {t : Token} (h : t.IsReadable) (hkind : t.kind = .stop) :
    t.word = text ".end" := by
  have haccepts := Lexeme.accepts_of_kind ⟨.stop, (· == text ".end")⟩ (by simp [Lexeme.rules])
    (h.classify.trans hkind)
  unfold Token.spelling at haccepts
  rw [hkind] at haccepts
  exact eq_of_beq haccepts

namespace Statement

theorem ofTokens_directive (d : Directive) (arguments : List Token) :
    ofTokens (⟨.directive, d.spelling⟩ :: arguments) = .directive d arguments := by
  unfold ofTokens
  dsimp only
  rw [d.ofSpelling?_spelling]

theorem tokens_ofTokens {tokens : List Token} (h : ∀ w, ofTokens tokens ≠ .stray w) :
    (ofTokens tokens).tokens = tokens := by
  unfold ofTokens at h ⊢
  split at h
  · rfl
  · next head arguments =>
    obtain ⟨kind, word⟩ := head
    dsimp only at h ⊢
    split at h
    · split at h
      · next d hd =>
        rw [Statement.tokens, Directive.spelling_of_ofSpelling? hd]
      · exact absurd rfl (h word)
    · rfl
    · exact absurd rfl (h word)

end Statement

namespace SourceLine

variable {l : SourceLine} {ts : List Token}

theorem ofTokens_tokens (h : ∀ t ∈ l.tokens, t.kind ≠ .none) : ofTokens l.tokens = .ok l := by
  obtain ⟨label?, st⟩ := l
  cases st with
  | nothing | stop | instruction => cases label? <;> rfl
  | directive d arguments =>
    have hst := Statement.ofTokens_directive d arguments
    cases label? <;> exact congrArg (fun st => Except.ok (SourceLine.mk _ st)) hst
  | stray word => exact absurd rfl (h _ (List.mem_append_right _ List.mem_cons_self))

theorem tokens_of_closing {label? : Option Bytes} (h : closing label? ts = .ok l) :
    l = ⟨label?, .stop⟩ ∧ ts = [] := by
  unfold closing at h
  split at h
  · cases h
    exact ⟨rfl, rfl⟩
  · cases h

theorem tokens_of_ofTokens (hts : ∀ t ∈ ts, t.IsReadable) (h : ofTokens ts = .ok l)
    (hstray : ∀ w, l.statement ≠ .stray w) : l.tokens = ts := by
  unfold ofTokens at h
  split at h
  · cases h
    rfl
  · next head rest =>
    obtain ⟨kind, word⟩ := head
    obtain ⟨hhead, hrest⟩ := List.forall_mem_cons.mp hts
    dsimp only at h
    split at h
    · obtain ⟨rfl, rfl⟩ := tokens_of_closing h
      have hword := hhead.word_of_stop rfl
      dsimp only at hword
      rw [hword]
      rfl
    · split at h
      · next word after =>
        obtain ⟨rfl, rfl⟩ := tokens_of_closing h
        have hword := (hrest _ List.mem_cons_self).word_of_stop rfl
        dsimp only at hword
        rw [hword]
        rfl
      · cases h
        show _ :: (Statement.ofTokens rest).tokens = _
        rw [Statement.tokens_ofTokens hstray]
    · cases h
      exact @Statement.tokens_ofTokens (⟨kind, word⟩ :: rest) hstray

/-- The tokens that a line was read from. -/
theorem ofLine_of_read {number : Nat} {raw : Bytes} (h : read number raw = .ok l)
    (hstray : ∀ w, l.statement ≠ .stray w) :
    Token.ofLine number (Lexeme.stripComment raw) = .ok l.tokens ∧ ∀ t ∈ l.tokens, t.IsReadable := by
  obtain ⟨tokens, htokens, hl⟩ := read_eq_ok_iff.mp h
  have hreadable := Token.isReadable_of_mem_ofLine htokens (by
    intro hhash
    have hb := List.all_eq_true.mp List.all_takeWhile _ hhash
    exact absurd hb (by decide))
  rw [tokens_of_ofTokens hreadable hl hstray]
  exact ⟨htokens, hreadable⟩

theorem isReadable_of_read {number : Nat} {raw : Bytes} (h : read number raw = .ok l)
    (hstray : ∀ w, l.statement ≠ .stray w) : ∀ t ∈ l.tokens, t.IsReadable :=
  (ofLine_of_read h hstray).2

theorem read_of_ofLine {number : Nat} {raw : Bytes}
    (h : Token.ofLine number (Lexeme.stripComment raw) = .ok l.tokens)
    (hreadable : ∀ t ∈ l.tokens, t.IsReadable) : read number raw = .ok l :=
  read_eq_ok_iff.mpr ⟨l.tokens, h, ofTokens_tokens fun t ht => (hreadable t ht).kind⟩

/-- A line that is written out is read as it was. -/
theorem read_spelling (h : ∀ t ∈ l.tokens, t.IsReadable) (number : Nat) :
    read number l.spelling = .ok l := by
  refine read_of_ofLine ?_ h
  rw [spelling, Token.stripComment_line h, Token.ofLine_line h]

end SourceLine

end AsmKit
