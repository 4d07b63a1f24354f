import AsmKit.Proofs.LineTexts
import AsmKit.Proofs.Stage
import Mathlib.Data.List.Chain

/-
  The blanks of a line. A line that can be read is its lexemes but for the blanks outside brackets
  (`Lexeme.flatten_ofLine`), and tokens are spelled as these lexemes, so reading a line loses nothing
  else. The other way round, lexemes are found again however they are spaced, if two words do not
  touch (`Lexeme.cut_spacedLine`).
-/

namespace AsmKit

namespace Lexeme

/-! ## Lines without their blanks -/

/-- The line without the separators that stand outside brackets. A bracket closes at the next right
bracket; `inside` says whether one is open. -/
def unspaced (inside : Bool) : Bytes → Bytes
  | [] => []
  | b :: rest =>
    if inside then b :: unspaced (b != rightBracket) rest
    else if isSeparator b then unspaced false rest
    else b :: unspaced (b == leftBracket) rest

theorem unspaced_separator {b : UInt8} (h : isSeparator b = true) (rest : Bytes) :
    unspaced false (b :: rest) = unspaced false rest := by
  rw [unspaced, if_neg Bool.false_ne_true, if_pos h]

theorem unspaced_byte {b : UInt8} (h : ¬ isSeparator b = true) (rest : Bytes) :
    unspaced false (b :: rest) = b :: unspaced (b == leftBracket) rest := by
  rw [unspaced, if_neg Bool.false_ne_true, if_neg h]

theorem unspaced_word {word : Bytes} (h : ∀ b ∈ word, isWordByte b = true) (rest : Bytes) :
    unspaced false (word ++ rest) = word ++ unspaced false rest := by
  induction word with
  | nil => rfl
  | cons b word ih =>
    obtain ⟨hb, hword⟩ := List.forall_mem_cons.mp h
    simp only [isWordByte, Bool.and_eq_true, Bool.not_eq_true', bne_iff_ne] at hb
    obtain ⟨⟨hseparator, -⟩, hbracket⟩ := hb
    rw [List.cons_append, unspaced_byte (by simp [hseparator]), beq_false_of_ne hbracket, ih hword]
    rfl

theorem unspaced_inside {inner : Bytes} (h : ∀ b ∈ inner, (b != rightBracket) = true)
    (rest : Bytes) :
    unspaced true (inner ++ rightBracket :: rest) = inner ++ rightBracket :: unspaced false rest := by
  induction inner with
  | nil => rfl
  | cons b inner ih =>
    obtain ⟨hb, hinner⟩ := List.forall_mem_cons.mp h
    rw [List.cons_append, unspaced, if_pos rfl, hb, ih hinner]
    rfl

theorem unspaced_bracket {inner : Bytes} (h : ∀ b ∈ inner, (b != rightBracket) = true)
    (rest : Bytes) :
    unspaced false (leftBracket :: (inner ++ rightBracket :: rest)) =
      leftBracket :: inner ++ [rightBracket] ++ unspaced false rest := by
  have hinside := unspaced_inside h rest
  rw [unspaced_byte (by decide), beq_self_eq_true, hinside]
  simp

theorem flatten_found (s : Bytes) (found : List Bytes) :
    (s :: found).reverse.flatten = found.reverse.flatten ++ s := by
  rw [List.reverse_cons, List.flatten_append, List.flatten_singleton]

/-- A word, or a colon that joins the lexeme before, adds its bytes at the end. -/
theorem flatten_addWord (word : Bytes) (found : List Bytes) :
    (addWord word found).reverse.flatten = found.reverse.flatten ++ word := by
  unfold addWord
  split
  · next last before =>
    split
    · next hcolon =>
      rw [eq_of_beq (Bool.and_eq_true_iff.mp hcolon).1, flatten_found, flatten_found,
        List.append_assoc]
    · exact flatten_found word _
  · exact flatten_found word []

/-- A lexeme that opens a bracket and does not close it has no kind. -/
theorem classify_unclosed {rest : Bytes} (h : rest.dropWhile (· != rightBracket) = []) :
    classify (Bytes.trim (leftBracket :: rest)) = .none := by
  by_contra hkind
  have hmem : Bytes.trim (leftBracket :: rest) ∈ ofLine (leftBracket :: rest) := by
    unfold ofLine
    rw [cut_unclosed h]
    exact List.mem_singleton_self _
  have hcut := cutFrom_of_mem_ofLine hmem
  -- the bracket that opens is not blank
  have hopen : leftBracket ∈ Bytes.trim (leftBracket :: rest) := by
    have hpiece := Bytes.mem_pieces_trim
      (Bytes.ofByte_mem_pieces (by decide) (List.mem_cons_self : leftBracket ∈ leftBracket :: rest))
      (by decide)
    rw [← Bytes.flatMap_pieces (Bytes.trim _)]
    exact List.mem_flatMap.mpr ⟨_, hpiece, List.mem_singleton_self _⟩
  have hclose : rightBracket ∉ Bytes.trim (leftBracket :: rest) := by
    intro hclose
    rcases List.mem_cons.mp (hcut.bytes hclose) with hfirst | hrest
    · exact absurd hfirst (by decide)
    · exact absurd (List.dropWhile_eq_nil_iff.mp h rightBracket hrest) (by decide)
  generalize Bytes.trim (leftBracket :: rest) = s at *
  cases hcut.isWhole hkind with
  | comma => exact absurd hopen (by decide)
  | bracket => exact hclose (by simp)
  | word _ hbytes _ => exact absurd (hbytes _ hopen) (by decide)

/-- If all lexemes have a kind, cutting drops separators outside brackets and nothing else. -/
theorem flatten_cut (found : List Bytes) (line : Bytes)
    (h : ∀ s ∈ cut found line, classify s ≠ .none) :
    (cut found line).flatten = found.reverse.flatten ++ unspaced false line := by
  fun_induction cut found line with
  | case1 found => exact (List.append_nil _).symm
  | case2 found b rest hb ih => rw [ih h, unspaced_separator hb]
  | case3 found rest hb ih =>
    rw [ih h, flatten_found, unspaced_byte (by decide), List.append_assoc]
    rfl
  | case4 found rest hopen hb hcomma =>
    exact absurd (classify_unclosed hopen) (h _ (List.mem_reverse.mpr List.mem_cons_self))
  | case5 found rest close after hclose hb hcomma ih =>
    have hinner : ∀ b ∈ rest.takeWhile (· != rightBracket), (b != rightBracket) = true :=
      List.all_eq_true.mp List.all_takeWhile
    have hhead : close = rightBracket := by
      have hstop := List.head?_dropWhile_not (· != rightBracket) rest
      rw [hclose] at hstop
      simpa using hstop
    have hsplit := List.takeWhile_append_dropWhile (p := (· != rightBracket)) (l := rest)
    have hline := unspaced_bracket hinner after
    rw [hclose, hhead] at hsplit
    rw [hsplit] at hline
    rw [ih h, flatten_found, List.append_assoc, hhead, hline]
  | case6 found b rest hb hcomma hbracket ih =>
    have hword : ∀ x ∈ b :: rest.takeWhile isWordByte, isWordByte x = true :=
      List.forall_mem_cons.mpr ⟨isWordByte_of_not hb hcomma hbracket,
        List.all_eq_true.mp List.all_takeWhile⟩
    have hline := unspaced_word hword (rest.dropWhile isWordByte)
    rw [List.cons_append, List.takeWhile_append_dropWhile] at hline
    rw [ih h, flatten_addWord, List.append_assoc, hline]

theorem flatten_ofLine {line : Bytes} (h : ∀ s ∈ ofLine line, classify s ≠ .none) :
    (ofLine line).flatten = unspaced false line :=
  flatten_cut [] line h

/-! ## Lines with other blanks -/

/-- What may touch any other lexeme: commas and texts in brackets. -/
def StandsAlone (s : Bytes) : Prop := classify s = .comma ∨ classify s = .bracket

instance (s : Bytes) : Decidable (StandsAlone s) := inferInstanceAs (Decidable (_ ∨ _))

/-- Nothing but separators. -/
def IsBlank (s : Bytes) : Prop := ∀ b ∈ s, isSeparator b = true

instance (s : Bytes) : Decidable (IsBlank s) := List.decidableBAll _ s

/-- A lexeme and the blanks in front of it. -/
structure Spaced where
  gap : Bytes
  lexeme : Bytes
deriving DecidableEq, Repr

/-- Lexemes with the blanks in front of each and behind the last one. -/
def spacedLine (parts : List Spaced) (last : Bytes) : Bytes :=
  (parts.flatMap fun p => p.gap ++ p.lexeme) ++ last

/-- The gaps are blank, and there is one between any two words. -/
structure IsSpacing (parts : List Spaced) (last : Bytes) : Prop where
  gaps : ∀ p ∈ parts, IsBlank p.gap
  last : IsBlank last
  apart : parts.IsChain fun p q => StandsAlone p.lexeme ∨ StandsAlone q.lexeme ∨ q.gap ≠ []

theorem spacedLine_cons (p : Spaced) (parts : List Spaced) (last : Bytes) :
    spacedLine (p :: parts) last = p.gap ++ (p.lexeme ++ spacedLine parts last) := by
  simp only [spacedLine, List.flatMap_cons, List.append_assoc]

theorem isWordByte_of_isSeparator {b : UInt8} (h : isSeparator b = true) : isWordByte b = false := by
  simp [isWordByte, h]

theorem IsWhole.eq_of_standsAlone {s : Bytes} (h : IsWhole s) (halone : StandsAlone s) :
    s = [Lexeme.comma] ∨ ∃ inner, rightBracket ∉ inner ∧ s = leftBracket :: inner ++ [rightBracket] := by
  cases h with
  | comma => exact .inl rfl
  | bracket hinner => exact .inr ⟨_, hinner, rfl⟩
  | word _ hbytes _ =>
    rcases halone with hcomma | hbracket
    · have hs := accepts_of_kind ⟨.comma, (· == [Lexeme.comma])⟩ (by simp [rules]) hcomma
      exact .inl (eq_of_beq hs)
    · have hs := accepts_of_kind ⟨.bracket, isBracket⟩ (by simp [rules]) hbracket
      obtain ⟨inner, rfl⟩ := eq_of_isBracket hs
      exact absurd (hbytes leftBracket List.mem_cons_self) (by decide)

theorem IsWhole.cut_of_standsAlone {s : Bytes} (h : IsWhole s) (halone : StandsAlone s)
    (found : List Bytes) (rest : Bytes) :
    Lexeme.cut found (s ++ rest) = Lexeme.cut (s :: found) rest := by
  rcases h.eq_of_standsAlone halone with rfl | ⟨inner, hinner, rfl⟩
  · rw [List.singleton_append, cut_comma]
  · exact cut_bracket hinner found rest

variable {parts : List Spaced} {last : Bytes}

/-- No word goes on where a gap or what stands alone starts. -/
theorem head_spacedLine (h : IsSpacing parts last) (hwhole : ∀ p ∈ parts, IsWhole p.lexeme)
    (hfirst : ∀ p ∈ parts.head?, StandsAlone p.lexeme ∨ p.gap ≠ []) :
    ∀ b ∈ (spacedLine parts last).head?, isWordByte b = false := by
  intro b hb
  cases parts with
  | nil => exact isWordByte_of_isSeparator (h.last b (List.mem_of_mem_head? hb))
  | cons p parts =>
    obtain ⟨hgap, -⟩ := List.forall_mem_cons.mp h.gaps
    obtain ⟨hp, -⟩ := List.forall_mem_cons.mp hwhole
    rw [spacedLine_cons] at hb
    rcases hblanks : p.gap with _ | ⟨c, gap⟩
    · rw [hblanks, List.nil_append] at hb
      have halone := (hfirst p rfl).resolve_right fun hne => hne hblanks
      rcases hp.eq_of_standsAlone halone with hs | ⟨inner, -, hs⟩
      · rw [hs] at hb
        cases hb
        decide
      · rw [hs] at hb
        cases hb
        decide
    · rw [hblanks] at hb hgap
      obtain rfl : c = b := Option.some.inj hb
      exact isWordByte_of_isSeparator (hgap c List.mem_cons_self)

/-- Lexemes are cut apart at their gaps. -/
theorem cut_spacedLine (h : IsSpacing parts last) (hwhole : ∀ p ∈ parts, IsWhole p.lexeme)
    (found : List Bytes) :
    cut found (spacedLine parts last) = found.reverse ++ parts.map Spaced.lexeme := by
  induction parts generalizing found with
  | nil =>
    have hblanks := cut_blanks h.last found []
    rw [List.append_nil] at hblanks
    rw [List.map_nil, List.append_nil]
    exact hblanks.trans (cut.eq_1 found)
  | cons p parts ih =>
    obtain ⟨hgap, hgaps⟩ := List.forall_mem_cons.mp h.gaps
    obtain ⟨hp, hparts⟩ := List.forall_mem_cons.mp hwhole
    obtain ⟨hnext, hapart⟩ := List.isChain_cons.mp h.apart
    have hrest : IsSpacing parts last := ⟨hgaps, h.last, hapart⟩
    have hcut : cut found (p.lexeme ++ spacedLine parts last) =
        cut (p.lexeme :: found) (spacedLine parts last) := by
      by_cases halone : StandsAlone p.lexeme
      · exact hp.cut_of_standsAlone halone found _
      · exact hp.cut found (head_spacedLine hrest hparts fun q hq => (hnext q hq).resolve_left halone)
    rw [spacedLine_cons, cut_blanks hgap, hcut, ih hrest hparts, List.reverse_cons, List.append_assoc]
    rfl

end Lexeme

/-! ## Tokens of lines -/

namespace Token

theorem ofLexeme_of_classify {s : Bytes} (h : Lexeme.classify s ≠ .none) :
    ∃ t : Token, (∀ number, ofLexeme number s = .ok t) ∧ t.spelling = s ∧
      t.kind = Lexeme.classify s := by
  have hread (number : Int) :
      ofLexeme number s = .ok ⟨Lexeme.classify s, Lexeme.undecorate (Lexeme.classify s) s⟩ := by
    unfold ofLexeme
    split
    · next hnone => exact absurd hnone h
    · rfl
  exact ⟨_, hread, spelling_of_ofLexeme (hread 0), rfl⟩

/-- Lexemes that have a kind are tokens that are spelled so, on whatever line. -/
theorem mapM_of_classify {lexemes : List Bytes} (h : ∀ s ∈ lexemes, Lexeme.classify s ≠ .none) :
    ∃ tokens : List Token, (∀ number, lexemes.mapM (ofLexeme number) = .ok tokens) ∧
      tokens.map spelling = lexemes ∧
      ∀ t ∈ tokens, t.kind ≠ .none ∧ Lexeme.classify t.spelling = t.kind := by
  induction lexemes with
  | nil => exact ⟨[], fun _ => rfl, rfl, List.forall_mem_nil _⟩
  | cons s lexemes ih =>
    obtain ⟨hs, hrest⟩ := List.forall_mem_cons.mp h
    obtain ⟨t, ht, hspelling, hkind⟩ := ofLexeme_of_classify hs
    obtain ⟨tokens, htokens, hspellings, hkinds⟩ := ih hrest
    refine ⟨t :: tokens, fun number => ?_, ?_, List.forall_mem_cons.mpr ⟨⟨?_, ?_⟩, hkinds⟩⟩
    · rw [List.mapM_cons, ht, htokens]
      rfl
    · rw [List.map_cons, hspelling, hspellings]
    · rw [hkind]
      exact hs
    · rw [hspelling, hkind]

/-- The first lexeme that has no kind is what is wrong with a line. -/
theorem mapM_of_none {front back : List Bytes} {s : Bytes}
    (hfront : ∀ x ∈ front, Lexeme.classify x ≠ .none) (hs : Lexeme.classify s = .none)
    (number : Int) : (front ++ s :: back).mapM (ofLexeme number) =
      .error (.atLine .unknownToken number s) := by
  induction front with
  | nil =>
    have hread : ofLexeme number s = .error (.atLine .unknownToken number s) := by
      unfold ofLexeme
      rw [hs]
    rw [List.nil_append, List.mapM_cons, hread]
    rfl
  | cons x front ih =>
    obtain ⟨hx, hrest⟩ := List.forall_mem_cons.mp hfront
    obtain ⟨t, ht, -⟩ := ofLexeme_of_classify hx
    rw [List.cons_append, List.mapM_cons, ht, ih hrest]
    rfl

end Token

open Lexeme

/-- The tokens of a line, spelled one behind the other, are the line without the separators outside
brackets, and each has the kind of its spelling. Only a line with a lexeme that has no kind has no
tokens. -/
theorem tokenizing_loses_nothing (number : Int) (line : Bytes) :
    (∃ tokens, Token.ofLine number line = .ok tokens ∧
      tokens.map Token.spelling = Lexeme.ofLine line ∧
      tokens.flatMap Token.spelling = Lexeme.unspaced false line ∧
      ∀ t ∈ tokens, t.kind ≠ .none ∧ Lexeme.classify t.spelling = t.kind) ∨
    ∃ front s back, Lexeme.ofLine line = front ++ s :: back ∧
      (∀ x ∈ front, Lexeme.classify x ≠ .none) ∧ Lexeme.classify s = .none ∧
      Token.ofLine number line = .error (.atLine .unknownToken number s) := by
  rcases hfind : (Lexeme.ofLine line).find? fun s => Lexeme.classify s == .none with _ | s
  · have hkinds : ∀ s ∈ Lexeme.ofLine line, Lexeme.classify s ≠ .none := by
      intro s hs
      simpa using List.find?_eq_none.mp hfind s hs
    obtain ⟨tokens, hread, hspellings, htokens⟩ := Token.mapM_of_classify hkinds
    refine .inl ⟨tokens, hread number, hspellings, ?_, htokens⟩
    rw [List.flatMap_def, hspellings, Lexeme.flatten_ofLine hkinds]
  · obtain ⟨hs, front, back, hsplit, hfront⟩ := List.find?_eq_some_iff_append.mp hfind
    have hkinds : ∀ x ∈ front, Lexeme.classify x ≠ .none := by
      intro x hx
      simpa using hfront x hx
    refine .inr ⟨front, s, back, hsplit, hkinds, eq_of_beq hs, ?_⟩
    unfold Token.ofLine
    rw [hsplit]
    exact Token.mapM_of_none hkinds (eq_of_beq hs) number

example : unspaced false (text "a : ld [ %r1 ],\t%r2") = text "a:ld[ %r1 ],%r2" := by
  decide

/-- A line with the same lexemes and other blanks has the same tokens, and so has the line that the
tokens are written out as. -/
theorem spacing_does_not_change_tokens {number : Int} {line : Bytes} {tokens : List Token}
    (h : Token.ofLine number line = .ok tokens) :
    (∀ parts last, parts.map Spaced.lexeme = Lexeme.ofLine line → IsSpacing parts last →
      ∀ number, Token.ofLine number (spacedLine parts last) = .ok tokens) ∧
    ∀ number, Token.ofLine number (Token.line tokens) = .ok tokens := by
  have hkinds := Token.classify_of_mapM h
  have hwhole : ∀ s ∈ Lexeme.ofLine line, IsWhole s :=
    fun s hs => (cutFrom_of_mem_ofLine hs).isWhole (hkinds s hs)
  obtain ⟨tokens', hread, hspellings, -⟩ := Token.mapM_of_classify hkinds
  cases (hread number).symm.trans h
  constructor
  · intro parts last hparts hspacing number
    have hlexemes : Lexeme.ofLine (spacedLine parts last) = Lexeme.ofLine line := by
      rw [← hparts]
      refine cut_spacedLine hspacing (fun p hp => ?_) []
      exact hwhole _ (hparts ▸ List.mem_map_of_mem hp)
    unfold Token.ofLine
    rw [hlexemes]
    exact hread number
  · intro number
    unfold Token.ofLine Token.line
    rw [hspellings, ofLine_joinWith hwhole]
    exact hread number

namespace Lexeme

/-- A load behind a label, with no more blanks than it needs and with others. -/
def load : List Spaced := [⟨[], text "a:"⟩, ⟨text " ", text "ld"⟩, ⟨[], text "[%r1 + 0x4]"⟩,
  ⟨text " ", text ","⟩, ⟨text "\t", text "%r2"⟩]

theorem respaced_load_has_the_same_tokens :
    Token.ofLine 1 (text "a : ld [%r1 + 0x4],%r2") = .ok [⟨.label, text "a"⟩,
      ⟨.instruction, text "ld"⟩, ⟨.bracket, text "[%r1 + 0x4]"⟩, ⟨.comma, text ","⟩,
      ⟨.register, text "%r2"⟩] ∧
    load.map Spaced.lexeme = ofLine (text "a : ld [%r1 + 0x4],%r2") ∧ IsSpacing load (text " ") ∧
    Token.ofLine 2 (text "a: ld[%r1 + 0x4] ,\t%r2 ") =
      Token.ofLine 1 (text "a : ld [%r1 + 0x4],%r2") := by
  have hread : Token.ofLine 1 (text "a : ld [%r1 + 0x4],%r2") = .ok [⟨.label, text "a"⟩,
      ⟨.instruction, text "ld"⟩, ⟨.bracket, text "[%r1 + 0x4]"⟩, ⟨.comma, text ","⟩,
      ⟨.register, text "%r2"⟩] := by
    decide +kernel
  have hlexemes : load.map Spaced.lexeme = ofLine (text "a : ld [%r1 + 0x4],%r2") := by
    decide +kernel
  have hspacing : IsSpacing load (text " ") := ⟨by decide, by decide, by decide +kernel⟩
  refine ⟨hread, hlexemes, hspacing, ?_⟩
  rw [hread]
  exact (spacing_does_not_change_tokens hread).1 load (text " ") hlexemes hspacing 2

end Lexeme

example : Token.ofLine 1 (text "add %r1,%r2") = Token.ofLine 1 (text "add %r1, %r2") := by
  decide +kernel

end AsmKit
