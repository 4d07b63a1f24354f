import AsmKit.Proofs.Spelling
import Mathlib.Data.List.Perm.Basic

/-
  Rules that exclude each other. A few bytes of a lexeme show which rule can match it
  (`Lexeme.form`): its first byte, and where several rules share that, the byte behind it, the last
  one or the length. Only a mnemonic has the form of another rule's lexemes, that of a symbol. So
  the rules that match a lexeme are the same in any order of all rules that has mnemonics before
  symbols (`matching_of_perm`), and with them the first one that matches.
-/

namespace AsmKit

namespace Lexeme

/-! ## The form of a lexeme -/

/-- The form of a number or a name. -/
def plainForm : Bytes → TokenKind
  | [] => .none
  | b :: rest =>
    if Ascii.isDigit b then if rest.head? = some 0x78 then .hex else .decimal else .symbol

/-- The form of a lexeme behind a dollar sign. -/
def literalForm (s : Bytes) : TokenKind :=
  match plainForm s with
  | .decimal => .decimalLiteral
  | .hex => .hexLiteral
  | _ => .symbolLiteral

/-- The form of a lexeme behind a percent sign. -/
def registerForm (s : Bytes) : TokenKind :=
  if s.getLast?.any Ascii.isDigit then .register
  else if s.length = 2 then .specialRegister
  else .statusRegister

/-- The kind that a few bytes of a lexeme allow. A mnemonic looks like any other symbol. -/
def form : Bytes → TokenKind
  | [] => .none
  | b :: rest =>
    if b = comma then .comma
    else if b = 0x2E then if rest = text "end" then .stop else .directive
    else if b = leftBracket then .bracket
    else if b = 0x25 then registerForm rest
    else if b = dollar then literalForm rest
    else if rest.getLast? = some colon then .label
    else plainForm (b :: rest)

theorem plainForm_of_isDecimal {s : Bytes} (h : s.isDecimal = true) : plainForm s = .decimal := by
  obtain ⟨hne, hdigits⟩ := Bool.and_eq_true_iff.mp h
  cases s with
  | nil => cases hne
  | cons b rest =>
    obtain ⟨hb, hrest⟩ := List.forall_mem_cons.mp (List.all_eq_true.mp hdigits)
    rw [plainForm, if_pos hb, if_neg]
    intro hx
    exact absurd (hrest 0x78 (List.mem_of_mem_head? hx)) (by decide)

theorem plainForm_of_isHexadecimal {s : Bytes} (h : s.isHexadecimal = true) :
    plainForm s = .hex := by
  unfold Bytes.isHexadecimal at h
  split at h
  · rfl
  · cases h

theorem not_isDigit_of_isNameStart : ∀ b, Ascii.isNameStart b = true → Ascii.isDigit b = false := by
  apply forall_byte
  decide +kernel

theorem plainForm_of_isIdentifier {s : Bytes} (h : s.isIdentifier = true) :
    plainForm s = .symbol := by
  cases s with
  | nil => cases h
  | cons b rest =>
    obtain ⟨hb, -⟩ := Bool.and_eq_true_iff.mp h
    rw [plainForm, not_isDigit_of_isNameStart b hb, if_neg Bool.false_ne_true]

/-- Marks that are no word bytes. -/
theorem ne_of_isWord : ∀ b, Ascii.isWord b = true →
    b ≠ comma ∧ b ≠ 0x2E ∧ b ≠ leftBracket ∧ b ≠ 0x25 ∧ b ≠ dollar ∧ b ≠ colon := by
  apply forall_byte
  decide +kernel

theorem form_of_word_start {b : UInt8} (hb : Ascii.isWord b = true) (rest : Bytes) :
    form (b :: rest) = if rest.getLast? = some colon then .label else plainForm (b :: rest) := by
  obtain ⟨hcomma, hdot, hbracket, hpercent, hdollar, -⟩ := ne_of_isWord b hb
  rw [form, if_neg hcomma, if_neg hdot, if_neg hbracket, if_neg hpercent, if_neg hdollar]

/-- Numbers and names have no mark in them. -/
theorem form_of_isWord {s : Bytes} (h : ∀ b ∈ s, Ascii.isWord b = true) : form s = plainForm s := by
  cases s with
  | nil => rfl
  | cons b rest =>
    obtain ⟨hb, hrest⟩ := List.forall_mem_cons.mp h
    rw [form_of_word_start hb, if_neg]
    intro hlast
    obtain ⟨-, -, -, -, -, hcolon⟩ := ne_of_isWord colon (hrest colon (List.mem_of_getLast? hlast))
    exact hcolon rfl

theorem form_of_isLabel {s : Bytes} (h : isLabel s = true) : form s = .label := by
  obtain ⟨name, hname, rfl⟩ := exists_name_of_isLabel h
  cases name with
  | nil => cases hname
  | cons b rest =>
    have hb := Bytes.isWord_of_isIdentifier hname b List.mem_cons_self
    rw [List.cons_append, form_of_word_start hb, if_pos List.getLast?_concat]

theorem form_of_isRegister {s : Bytes} (h : isRegister s = true) : form s = .register := by
  unfold isRegister at h
  split at h
  · next digits =>
    obtain ⟨hsome, hdigits⟩ := Bool.and_eq_true_iff.mp (Bool.and_eq_true_iff.mp h).1
    have hne : digits ≠ [] := by simpa using hsome
    have hlast : ((0x72 :: digits).getLast?.any Ascii.isDigit) = true := by
      rw [List.getLast?_eq_some_getLast (List.cons_ne_nil _ _), List.getLast_cons hne]
      exact List.all_eq_true.mp hdigits _ (List.getLast_mem hne)
    show registerForm (0x72 :: digits) = .register
    rw [registerForm, if_pos hlast]
  · cases h

theorem form_of_literal {p : Bytes → Bool} {s : Bytes} (h : literal p s = true) :
    ∃ rest, p rest = true ∧ form s = literalForm rest := by
  cases s with
  | nil => cases h
  | cons b rest =>
    obtain ⟨hb, hrest⟩ := Bool.and_eq_true_iff.mp h
    rw [eq_of_beq hb]
    exact ⟨rest, hrest, rfl⟩

theorem isIdentifier_append {s : Bytes} (h : s.isIdentifier = true) {t : Bytes}
    (ht : ∀ b ∈ t, Ascii.isWord b = true) : Bytes.isIdentifier (s ++ t) = true := by
  cases s with
  | nil => cases h
  | cons b rest =>
    obtain ⟨hb, hrest⟩ := Bool.and_eq_true_iff.mp h
    rw [List.cons_append, Bytes.isIdentifier, hb, Bool.true_and, List.all_append, hrest,
      Bool.true_and]
    exact List.all_eq_true.mpr ht

/-- A mnemonic is a symbol too. -/
theorem isIdentifier_of_isInstruction {s : Bytes} (h : isInstruction s = true) :
    s.isIdentifier = true := by
  have hnames : (Instruction.all.all fun i => i.name.isIdentifier) = true := by decide +kernel
  have hsuffixes : (suffixes.all fun suffix => suffix.all Ascii.isWord) = true := by decide +kernel
  obtain ⟨i, hi, suffix, hsuffix, rfl⟩ := exists_suffix_of_isInstruction h
  refine isIdentifier_append (List.all_eq_true.mp hnames i hi) ?_
  exact List.all_eq_true.mp (List.all_eq_true.mp hsuffixes suffix hsuffix)

/-! ## Rules that match -/

/-- The kind of a rule, where mnemonics count as symbols. -/
def looksLike (kind : TokenKind) : TokenKind := if kind = .instruction then .symbol else kind

/-- A rule matches only lexemes of its own form. -/
theorem form_of_accepts {s : Bytes} : ∀ rule ∈ rules, rule.accepts s = true →
    form s = looksLike rule.kind := by
  have fixed {words : List Bytes} {kind : TokenKind}
      (hwords : (words.all fun w => form w == kind) = true) (h : words.contains s = true) :
      form s = kind :=
    eq_of_beq (List.all_eq_true.mp hwords s (List.contains_iff_mem.mp h))
  have identifier (h : s.isIdentifier = true) : form s = .symbol :=
    (form_of_isWord (Bytes.isWord_of_isIdentifier h)).trans (plainForm_of_isIdentifier h)
  have behindDollar {p : Bytes → Bool} {kind : TokenKind} (hp : ∀ t, p t = true → literalForm t = kind)
      (h : literal p s = true) : form s = kind := by
    obtain ⟨rest, hrest, hform⟩ := form_of_literal h
    rw [hform, hp rest hrest]
  simp only [rules, List.forall_mem_cons]
  refine ⟨?comma, ?stop, fixed (by decide), ?bracket, form_of_isRegister, fixed (by decide),
    fixed (by decide), ?decimal, ?hex, behindDollar ?decimalLiteral, behindDollar ?hexLiteral,
    fun h => identifier (isIdentifier_of_isInstruction h), form_of_isLabel,
    behindDollar ?symbolLiteral, identifier, List.forall_mem_nil _⟩
  case comma =>
    intro h
    rw [eq_of_beq h]
    rfl
  case stop =>
    intro h
    rw [eq_of_beq h]
    decide
  case bracket =>
    intro h
    obtain ⟨inner, rfl⟩ := eq_of_isBracket h
    rfl
  case decimal =>
    exact fun h => (form_of_isWord (Bytes.isWord_of_isDecimal h)).trans (plainForm_of_isDecimal h)
  case hex =>
    exact fun h =>
      (form_of_isWord (Bytes.isWord_of_isHexadecimal h)).trans (plainForm_of_isHexadecimal h)
  case decimalLiteral =>
    intro t ht
    rw [literalForm, plainForm_of_isDecimal ht]
    rfl
  case hexLiteral =>
    intro t ht
    rw [literalForm, plainForm_of_isHexadecimal ht]
    rfl
  case symbolLiteral =>
    intro t ht
    rw [literalForm, plainForm_of_isIdentifier ht]
    rfl

/-- Of two rules that match one lexeme, the first is for mnemonics and the second for symbols. -/
theorem pairwise_rules : rules.Pairwise fun r r' => ∀ s, r.accepts s = true → r'.accepts s = true →
    r.kind = .instruction ∧ r'.kind = .symbol := by
  have hkinds : rules.Pairwise fun r r' => looksLike r.kind = looksLike r'.kind →
      r.kind = .instruction ∧ r'.kind = .symbol := by decide
  refine hkinds.imp_of_mem fun {r r'} hr hr' hsame s haccepts haccepts' => hsame ?_
  exact (form_of_accepts r hr haccepts).symm.trans (form_of_accepts r' hr' haccepts')

def instructionRule : Rule := ⟨.instruction, isInstruction⟩

def symbolRule : Rule := ⟨.symbol, Bytes.isIdentifier⟩

theorem eq_instructionRule {r : Rule} (hr : r ∈ rules) (h : r.kind = .instruction) :
    r = instructionRule := by
  have hkinds : (rules.map Rule.kind).Nodup := by decide
  exact List.inj_on_of_nodup_map hkinds hr (by simp [rules, instructionRule]) h

theorem eq_symbolRule {r : Rule} (hr : r ∈ rules) (h : r.kind = .symbol) : r = symbolRule := by
  have hkinds : (rules.map Rule.kind).Nodup := by decide
  exact List.inj_on_of_nodup_map hkinds hr (by simp [rules, symbolRule]) h

theorem sublist_rules : [instructionRule, symbolRule].Sublist rules := by
  have hlast : [instructionRule, symbolRule].Sublist (rules.drop 11) :=
    .cons_cons _ (.cons _ (.cons _ (.refl _)))
  exact hlast.trans (List.drop_sublist 11 rules)

/-- The rules that match a lexeme, in order. -/
def matching (rs : List Rule) (s : Bytes) : List Rule := rs.filter fun r => r.accepts s

variable {rs : List Rule} {r : Rule} {s : Bytes}

theorem mem_matching : r ∈ matching rs s ↔ r ∈ rs ∧ r.accepts s = true := List.mem_filter

theorem pairwise_matching (s : Bytes) :
    (matching rules s).Pairwise fun r r' => r.kind = .instruction ∧ r'.kind = .symbol := by
  refine (pairwise_rules.filter _).imp_of_mem fun {r r'} hr hr' h => ?_
  exact h s (mem_matching.mp hr).2 (mem_matching.mp hr').2

/-- The second of three rules in such an order would be for symbols and for mnemonics. -/
theorem length_le_two_of_pairwise
    (h : rs.Pairwise fun r r' => r.kind = .instruction ∧ r'.kind = .symbol) : rs.length ≤ 2 := by
  rcases rs with _ | ⟨a, _ | ⟨b, _ | ⟨c, rest⟩⟩⟩
  · exact Nat.zero_le 2
  · exact Nat.le_succ 1
  · exact Nat.le_refl 2
  · obtain ⟨ha, hrest⟩ := List.pairwise_cons.mp h
    obtain ⟨hb, -⟩ := List.pairwise_cons.mp hrest
    have hsymbol := (ha b List.mem_cons_self).2
    have hinstruction := (hb c List.mem_cons_self).1
    rw [hsymbol] at hinstruction
    cases hinstruction

/-- A mnemonic is matched by two rules. -/
theorem matching_of_isInstruction (hperm : rs.Perm rules)
    (horder : [instructionRule, symbolRule].Sublist rs) (h : isInstruction s = true) :
    matching rs s = [instructionRule, symbolRule] := by
  have hboth : matching [instructionRule, symbolRule] s = [instructionRule, symbolRule] := by
    refine List.filter_eq_self.mpr (List.forall_mem_cons.mpr ⟨h, List.forall_mem_singleton.mpr ?_⟩)
    exact isIdentifier_of_isInstruction h
  have hsublist : (matching [instructionRule, symbolRule] s).Sublist (matching rs s) :=
    horder.filter _
  rw [hboth] at hsublist
  refine (hsublist.eq_of_length_le ?_).symm
  have hlength : (matching rs s).length = (matching rules s).length := (hperm.filter _).length_eq
  rw [hlength]
  exact length_le_two_of_pairwise (pairwise_matching s)

/-- Any other lexeme is matched by one rule at most. -/
theorem length_matching_le_one (h : isInstruction s = false) : (matching rules s).length ≤ 1 := by
  have hpairwise := pairwise_matching s
  have hnot : instructionRule ∉ matching rules s := by
    intro hmem
    have haccepts : isInstruction s = true := (mem_matching.mp hmem).2
    rw [h] at haccepts
    cases haccepts
  have hrules : ∀ r ∈ matching rules s, r ∈ rules := fun r hr => (mem_matching.mp hr).1
  generalize matching rules s = found at *
  rcases found with _ | ⟨a, _ | ⟨b, rest⟩⟩
  · exact Nat.zero_le 1
  · exact Nat.le_refl 1
  · obtain ⟨ha, -⟩ := List.pairwise_cons.mp hpairwise
    have hfirst := eq_instructionRule (hrules a List.mem_cons_self) (ha b List.mem_cons_self).1
    exact absurd (hfirst ▸ List.mem_cons_self) hnot

theorem matching_of_perm (hperm : rs.Perm rules)
    (horder : [instructionRule, symbolRule].Sublist rs) (s : Bytes) :
    matching rs s = matching rules s := by
  cases h : isInstruction s with
  | true =>
    rw [matching_of_isInstruction hperm horder h, matching_of_isInstruction (.refl _) sublist_rules h]
  | false =>
    have hone := length_matching_le_one h
    have hmatching : (matching rs s).Perm (matching rules s) := hperm.filter _
    generalize matching rules s = found at *
    rcases found with _ | ⟨a, _ | ⟨b, rest⟩⟩
    · exact hmatching.eq_nil
    · exact List.perm_singleton.mp hmatching
    · exact absurd hone (by simp)

theorem accepts_iff_of_isInstruction (h : isInstruction s = true) (hr : r ∈ rules) :
    r.accepts s = true ↔ r.kind = .instruction ∨ r.kind = .symbol := by
  have hmatching := matching_of_isInstruction (.refl _) sublist_rules h
  constructor
  · intro haccepts
    have hmem := mem_matching.mpr ⟨hr, haccepts⟩
    rw [hmatching] at hmem
    rcases List.mem_cons.mp hmem with rfl | hmem
    · exact .inl rfl
    · rw [List.mem_singleton.mp hmem]
      exact .inr rfl
  · rintro (hkind | hkind)
    · rw [eq_instructionRule hr hkind]
      exact h
    · rw [eq_symbolRule hr hkind]
      exact isIdentifier_of_isInstruction h

/-- A lexeme has the kind of the first rule that matches it. -/
theorem classifyBy_eq (rs : List Rule) (s : Bytes) :
    classifyBy rs s = ((matching rs s).head?.map Rule.kind).getD .none := by
  unfold classifyBy matching
  rw [List.head?_filter]
  cases rs.find? fun r => r.accepts s with
  | none => rfl
  | some r => rfl

end Lexeme

open Lexeme in
/-- No two of the fifteen rules match one lexeme, but for the rules for mnemonics and for symbols,
which both match every mnemonic. So in any order that has the one before the other, the first rule
that matches gives every lexeme the kind it has. -/
theorem rule_order_matters_only_for_mnemonics :
    rules.length = 15 ∧
    (rules.Pairwise fun r r' => ∀ s, r.accepts s = true → r'.accepts s = true →
      r.kind = .instruction ∧ r'.kind = .symbol) ∧
    (∀ s, isInstruction s = true →
      ∀ r ∈ rules, r.accepts s = true ↔ r.kind = .instruction ∨ r.kind = .symbol) ∧
    ∀ rs : List Rule, rs.Perm rules →
      [⟨.instruction, isInstruction⟩, ⟨.symbol, Bytes.isIdentifier⟩].Sublist rs →
      ∀ s, classifyBy rs s = classify s := by
  refine ⟨rfl, pairwise_rules, fun s h r hr => accepts_iff_of_isInstruction h hr, ?_⟩
  intro rs hperm horder s
  unfold classify
  rw [classifyBy_eq, classifyBy_eq, matching_of_perm hperm horder s]

example : Lexeme.classify (text "xoreq") = .instruction ∧
    Lexeme.classifyBy Lexeme.rules.reverse (text "xoreq") = .symbol := by
  decide

end AsmKit
