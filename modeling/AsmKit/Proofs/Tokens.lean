import AsmKit.Proofs.SourceLines
import AsmKit.Text.Lines
import Mathlib.Algebra.Ring.Nat
import Mathlib.Data.List.Flatten
import Mathlib.Data.List.Nodup

/-
  The names in a source. Lexemes are cut from a line without adding to it
  (`Lexeme.sum_length_cut_le`), so every symbol and label is an identifier shorter than its line may
  be (`SourceLine.mentions_of_readAll`).
-/

namespace AsmKit

/-! ## Lengths -/

theorem Bytes.length_trim_le (s : Bytes) : s.trim.length ≤ s.length := by
  have hsublist : ((s.pieces.dropWhile Piece.isBlank).reverse.dropWhile Piece.isBlank).reverse.Sublist
      s.pieces := by
    have hback := (List.dropWhile_sublist Piece.isBlank
      (l := (s.pieces.dropWhile Piece.isBlank).reverse)).reverse
    rw [List.reverse_reverse] at hback
    exact hback.trans (List.dropWhile_sublist _)
  have hlength := (hsublist.flatMap Piece.bytes).length_le
  rw [s.flatMap_pieces] at hlength
  exact hlength

namespace Lexeme

theorem sum_length_addWord (word : Bytes) (found : List Bytes) :
    ((addWord word found).map List.length).sum = word.length + (found.map List.length).sum := by
  unfold addWord
  split
  · split
    · next h =>
      have hword : word = [colon] := eq_of_beq (Bool.and_eq_true_iff.mp h).1
      simp [hword]
      omega
    · simp
  · simp

/-- What is cut from a line has as many bytes as the line at most. -/
theorem sum_length_cut_le (found : List Bytes) (line : Bytes) :
    ((cut found line).map List.length).sum ≤ (found.map List.length).sum + line.length := by
  fun_induction cut found line with
  | case1 found => simp
  | case2 found b rest hb ih =>
    rw [List.length_cons]
    omega
  | case3 found rest hb ih =>
    rw [List.map_cons, List.sum_cons, List.length_singleton] at ih
    rw [List.length_cons]
    omega
  | case4 found rest _ _ _ =>
    have htrim := Bytes.length_trim_le (leftBracket :: rest)
    rw [List.map_reverse, List.sum_reverse, List.map_cons, List.sum_cons]
    omega
  | case5 found rest close after hclose _ _ ih =>
    have hsplit := congrArg List.length
      (List.takeWhile_append_dropWhile (p := (· != rightBracket)) (l := rest))
    rw [hclose, List.length_append, List.length_cons] at hsplit
    simp only [List.map_cons, List.sum_cons, List.length_cons, List.length_append,
      List.length_nil] at ih ⊢
    omega
  | case6 found b rest _ _ _ ih =>
    have hsplit := congrArg List.length
      (List.takeWhile_append_dropWhile (p := isWordByte) (l := rest))
    rw [List.length_append] at hsplit
    rw [sum_length_addWord, List.length_cons] at ih
    rw [List.length_cons]
    omega

theorem length_le_of_mem_ofLine {line lexeme : Bytes} (h : lexeme ∈ ofLine line) :
    lexeme.length ≤ line.length := by
  have hsum := sum_length_cut_le [] line
  rw [List.map_nil, List.sum_nil, Nat.zero_add] at hsum
  have hmem := (List.sublist_flatten_of_mem h).length_le
  rw [List.length_flatten] at hmem
  exact Nat.le_trans hmem hsum

theorem length_undecorate_le (kind : TokenKind) (s : Bytes) :
    (undecorate kind s).length ≤ s.length := by
  unfold undecorate
  split
  all_goals simp

/-! ## Kinds -/

/-- A lexeme has a kind by a rule that accepts it. -/
theorem accepts_of_classify {s : Bytes} {kind : TokenKind} (h : classify s = kind)
    (hkind : kind ≠ .none) : ∃ rule ∈ rules, rule.kind = kind ∧ rule.accepts s = true := by
  unfold classify classifyBy at h
  split at h
  · next rule hrule =>
    have haccepts := List.find?_some hrule
    exact ⟨rule, List.mem_of_find?_eq_some hrule, h, haccepts⟩
  · exact absurd h.symm hkind

/-- A lexeme has the kind of one rule only, and that rule accepts it. -/
theorem accepts_of_kind (rule : Rule) (hrule : rule ∈ rules) {s : Bytes}
    (h : classify s = rule.kind) : rule.accepts s = true := by
  have hkinds : (rules.map Rule.kind).Nodup := by decide
  have hnone : ∀ rule ∈ rules, rule.kind ≠ .none := by decide
  obtain ⟨rule', hrule', hkind, haccepts⟩ := accepts_of_classify h (hnone rule hrule)
  rw [List.inj_on_of_nodup_map hkinds hrule' hrule hkind] at haccepts
  exact haccepts

theorem isIdentifier_of_symbol {s : Bytes} (h : classify s = .symbol) : s.isIdentifier = true :=
  accepts_of_kind ⟨.symbol, Bytes.isIdentifier⟩ (by simp [rules]) h

theorem isIdentifier_of_label {s : Bytes} (h : classify s = .label) :
    Bytes.isIdentifier s.dropLast = true := by
  have haccepts := accepts_of_kind ⟨.label, isLabel⟩ (by simp [rules]) h
  exact (Bool.and_eq_true_iff.mp haccepts).2

end Lexeme

/-! ## Tokens -/

/-- An identifier shorter than a limit. -/
def IsName (limit : Nat) (s : Bytes) : Prop := s.isIdentifier = true ∧ s.length < limit

namespace Token

theorem ofLexeme_eq_ok {number : Int} {lexeme : Bytes} {t : Token}
    (h : ofLexeme number lexeme = .ok t) :
    t.kind = Lexeme.classify lexeme ∧ t.word = Lexeme.undecorate t.kind lexeme := by
  unfold ofLexeme at h
  split at h
  · cases h
  · cases h
    exact ⟨rfl, rfl⟩

theorem classify_of_ofLexeme {number : Int} {lexeme : Bytes} {t : Token}
    (h : ofLexeme number lexeme = .ok t) : Lexeme.classify lexeme ≠ .none := by
  intro hnone
  rw [ofLexeme, hnone] at h
  cases h

theorem exists_lexeme {number : Int} {lexemes : List Bytes} {tokens : List Token}
    (h : lexemes.mapM (ofLexeme number) = .ok tokens) {t : Token} (ht : t ∈ tokens) :
    ∃ lexeme ∈ lexemes, ofLexeme number lexeme = .ok t := by
  induction lexemes generalizing tokens with
  | nil =>
    cases h
    cases ht
  | cons lexeme rest ih =>
    rw [List.mapM_cons] at h
    obtain ⟨t', ht', h⟩ := except_bind_eq_ok.mp h
    obtain ⟨tokens', hrest, h⟩ := except_bind_eq_ok.mp h
    cases h
    obtain rfl | ht := List.mem_cons.mp ht
    · exact ⟨lexeme, List.mem_cons_self .., ht'⟩
    · obtain ⟨lexeme', hmem, heq⟩ := ih hrest ht
      exact ⟨lexeme', List.mem_cons_of_mem lexeme hmem, heq⟩

/-- The symbols and labels of a line are names. -/
theorem isName_of_mem {number : Int} {line : Bytes} {tokens : List Token} {limit : Nat}
    (h : ofLine number line = .ok tokens) (hline : line.length < limit) {t : Token} (ht : t ∈ tokens)
    (hkind : t.kind = .symbol ∨ t.kind = .label) : IsName limit t.word := by
  obtain ⟨lexeme, hmem, heq⟩ := exists_lexeme h ht
  obtain ⟨hclass, hword⟩ := ofLexeme_eq_ok heq
  have hlong := Lexeme.length_le_of_mem_ofLine hmem
  have hshort := Lexeme.length_undecorate_le t.kind lexeme
  rw [← hword] at hshort
  refine ⟨?_, by omega⟩
  obtain hkind | hkind := hkind
  · rw [hword, hkind]
    rw [hkind] at hclass
    exact Lexeme.isIdentifier_of_symbol hclass.symm
  · rw [hword, hkind]
    rw [hkind] at hclass
    exact Lexeme.isIdentifier_of_label hclass.symm

end Token

/-! ## Lines -/

/-- The operands of a statement. -/
def Statement.arguments : Statement → List Token
  | .directive _ arguments | .instruction _ arguments => arguments
  | _ => []

/-- The label of a line and the symbols that it mentions satisfy a condition. -/
structure SourceLine.Mentions (N : Bytes → Prop) (l : SourceLine) : Prop where
  label : ∀ name, l.label? = some name → N name
  symbols : ∀ t ∈ l.statement.arguments, t.kind = .symbol → N t.word

variable {N : Bytes → Prop} {tokens : List Token} {l : SourceLine}

theorem Statement.mem_of_mem_arguments {t : Token} (h : t ∈ (Statement.ofTokens tokens).arguments) :
    t ∈ tokens := by
  unfold Statement.ofTokens at h
  split at h
  · cases h
  · split at h
    · split at h
      · exact List.mem_cons_of_mem _ h
      · cases h
    · exact List.mem_cons_of_mem _ h
    · cases h

namespace SourceLine

theorem mentions_closing {label? : Option Bytes} (h : closing label? tokens = .ok l)
    (hlabel : ∀ name, label? = some name → N name) : l.Mentions N := by
  unfold closing at h
  split at h
  · cases h
    exact ⟨hlabel, fun t ht => nomatch ht⟩
  · cases h

theorem mentions_of_ofTokens (h : ofTokens tokens = .ok l)
    (hN : ∀ t ∈ tokens, t.kind = .symbol ∨ t.kind = .label → N t.word) : l.Mentions N := by
  have hstatement {ts : List Token} (hts : ∀ t ∈ ts, t ∈ tokens) :
      ∀ t ∈ (Statement.ofTokens ts).arguments, t.kind = .symbol → N t.word :=
    fun t ht hkind => hN t (hts t (Statement.mem_of_mem_arguments ht)) (.inl hkind)
  unfold ofTokens at h
  split at h
  · cases h
    exact ⟨(fun _ hname => nomatch hname), fun t ht => nomatch ht⟩
  · next head rest =>
    split at h
    · exact mentions_closing h fun _ hname => nomatch hname
    · next hkind =>
      have hhead : ∀ name, some head.word = some name → N name := by
        intro name hname
        rw [← Option.some.inj hname]
        exact hN head (List.mem_cons_self ..) (.inr hkind)
      split at h
      · exact mentions_closing h hhead
      · cases h
        exact ⟨hhead, hstatement fun t ht => List.mem_cons_of_mem head ht⟩
    · cases h
      exact ⟨(fun _ hname => nomatch hname), hstatement fun t ht => ht⟩

theorem mentions_of_read {number limit : Nat} {raw : Bytes} (h : read number raw = .ok l)
    (hraw : raw.length < limit) : l.Mentions (IsName limit) := by
  obtain ⟨tokens, htokens, hl⟩ := read_eq_ok_iff.mp h
  have hshort : (Lexeme.stripComment raw).length < limit :=
    Nat.lt_of_le_of_lt (List.takeWhile_sublist _).length_le hraw
  exact mentions_of_ofTokens hl fun t ht hkind => Token.isName_of_mem htokens hshort ht hkind

theorem mentions_of_readAll {number limit : Nat} {source : List Bytes} {ls : List SourceLine}
    (h : readAll number source = .ok ls) (hsource : ∀ raw ∈ source, raw.length < limit) :
    ∀ l ∈ ls, l.Mentions (IsName limit) := by
  induction source generalizing number ls with
  | nil =>
    cases h
    exact List.forall_mem_nil _
  | cons raw rest ih =>
    obtain ⟨l, hl, hls⟩ := readAll_cons_eq_ok_iff.mp h
    have hfirst := mentions_of_read hl (hsource raw (List.mem_cons_self ..))
    obtain ⟨-, rfl⟩ | ⟨-, ls', hls', rfl⟩ := hls
    · exact List.forall_mem_singleton.mpr hfirst
    · refine List.forall_mem_cons.mpr ⟨hfirst, ih hls' fun raw' hraw' => ?_⟩
      exact hsource raw' (List.mem_cons_of_mem raw hraw')

end SourceLine

/-- The lines of a text are shorter than the limit they are read under. -/
theorem Lines.length_lt_of_mem_read {limit : Nat} {s line : Bytes}
    (h : line ∈ (Lines.read limit s).lines) : line.length < limit := by
  obtain ⟨raw, hraw, rfl⟩ := List.mem_map.mp h
  have hlt := List.all_eq_true.mp List.all_takeWhile raw hraw
  have hle : (dropReturn raw).length ≤ raw.length := by
    unfold dropReturn
    split
    · rw [List.length_dropLast]
      omega
    · exact Nat.le_refl _
  exact Nat.lt_of_le_of_lt hle (of_decide_eq_true hlt)

end AsmKit
