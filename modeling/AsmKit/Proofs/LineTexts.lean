import AsmKit.Proofs.Spelling

/-
  Texts that lines can be put together from: comments, blanks and labels. A comment does not count
  (`SourceLine.read_comment`), blanks alone are an empty line (`SourceLine.read_blank`), and a line
  that begins with a label says what the label and the rest say as two lines
  (`SourceLine.read_label`). For the last, the rest must not go on with the lexeme of the label; where
  it does, there is a lexeme with a colon inside, and such have no kind.
-/

namespace AsmKit

namespace Lexeme

/-! ## Cutting behind lexemes -/

theorem cut_blanks {gap : Bytes} (h : ∀ b ∈ gap, isSeparator b = true) (found : List Bytes)
    (rest : Bytes) : cut found (gap ++ rest) = cut found rest := by
  induction gap with
  | nil => rfl
  | cons b gap ih =>
    obtain ⟨hb, hgap⟩ := List.forall_mem_cons.mp h
    rw [List.cons_append, cut_separator hb, ih hgap]

theorem addWord_append (word : Bytes) {found : List Bytes} (h : found ≠ []) (base : List Bytes) :
    addWord word (found ++ base) = addWord word found ++ base := by
  obtain ⟨last, before, rfl⟩ := List.exists_cons_of_ne_nil h
  simp only [List.cons_append, addWord]
  split
  · rfl
  · rfl

theorem addWord_ne_nil (word : Bytes) (found : List Bytes) : addWord word found ≠ [] := by
  unfold addWord
  split
  · split
    · exact List.cons_ne_nil _ _
    · exact List.cons_ne_nil _ _
  · exact List.cons_ne_nil _ _

theorem isWordByte_of_not {b : UInt8} (hseparator : ¬ isSeparator b = true) (hcomma : b ≠ comma)
    (hbracket : b ≠ leftBracket) : isWordByte b = true := by
  simp [isWordByte, hseparator, hcomma, hbracket]

/-- Of the lexemes found, only the last one matters for the next. -/
theorem cut_append {found : List Bytes} (h : found ≠ []) (base : List Bytes) (line : Bytes) :
    cut (found ++ base) line = base.reverse ++ cut found line := by
  fun_induction cut found line with
  | case1 found => rw [cut, List.reverse_append]
  | case2 found b rest hb ih => rw [cut_separator hb, ih h]
  | case3 found rest hb ih =>
    rw [cut_comma]
    exact ih (List.cons_ne_nil _ _)
  | case4 found rest hopen hb hcomma => simp [cut_unclosed hopen]
  | case5 found rest close after hclose hb hcomma ih =>
    rw [cut_closed hclose]
    exact ih (List.cons_ne_nil _ _)
  | case6 found b rest hb hcomma hbracket ih =>
    rw [cut_word (isWordByte_of_not hb hcomma hbracket), addWord_append _ h]
    exact ih (addWord_ne_nil _ _)

/-- What stands behind a lexeme is cut as if it stood alone, or else goes on with the lexeme by a
colon. -/
theorem cut_behind (s line : Bytes) : cut [s] line = s :: cut [] line ∨
    ∃ tail more, cut [s] line = (s ++ colon :: tail) :: more := by
  have hbehind (s lexeme rest : Bytes) : cut [lexeme, s] rest = s :: cut [lexeme] rest :=
    cut_append (List.cons_ne_nil lexeme []) [s] rest
  generalize hfound : [s] = found
  fun_induction cut found line generalizing s with
  | case1 found =>
    rw [← hfound, cut]
    exact .inl rfl
  | case2 found b rest hb ih =>
    rw [cut_separator hb]
    exact ih s hfound
  | case3 found rest hb ih =>
    rw [← hfound, cut_comma]
    exact .inl (hbehind s [comma] rest)
  | case4 found rest hopen hb hcomma =>
    rw [← hfound, cut_unclosed hopen]
    exact .inl rfl
  | case5 found rest close after hclose hb hcomma ih =>
    rw [← hfound, cut_closed hclose]
    exact .inl (hbehind s _ after)
  | case6 found b rest hb hcomma hbracket ih =>
    rw [cut_word (isWordByte_of_not hb hcomma hbracket)]
    subst hfound
    by_cases hcolon : b :: rest.takeWhile isWordByte = [colon] ∧ s ≠ [comma]
    · -- A colon that stands alone is glued to the lexeme, and so may be those behind it.
      have hglued : addWord (b :: rest.takeWhile isWordByte) [s] = [s ++ [colon]] := by
        simp [addWord, hcolon]
      obtain h | ⟨tail, more, h⟩ := ih (s ++ [colon]) hglued.symm
      · exact .inr ⟨[], _, h⟩
      · rw [List.append_assoc, List.singleton_append] at h
        exact .inr ⟨_, more, h⟩
    · have hadded : addWord (b :: rest.takeWhile isWordByte) [s] =
          [b :: rest.takeWhile isWordByte, s] := by
        simp only [addWord]
        rw [if_neg (by simpa using hcolon)]
      rw [hadded]
      exact .inl (hbehind s _ _)

theorem exists_cut_behind (s line : Bytes) : ∃ tail more, cut [s] line = (s ++ tail) :: more := by
  obtain h | ⟨tail, more, h⟩ := cut_behind s line
  · exact ⟨[], _, by rw [h, List.append_nil]⟩
  · exact ⟨_, more, h⟩

/-! ## Labels -/

/-- A name and a colon, with any blanks in front of both. -/
structure IsLabelText (name label : Bytes) : Prop where
  isIdentifier : name.isIdentifier = true
  text : ∃ front gap : Bytes, (∀ b ∈ front, isSeparator b = true) ∧
    (∀ b ∈ gap, isSeparator b = true) ∧ label = front ++ (name ++ (gap ++ [colon]))

variable {name label rest s : Bytes}

theorem ne_nil_of_isIdentifier (h : name.isIdentifier = true) : name ≠ [] := by
  rintro rfl
  cases h

theorem head?_ne_of_isIdentifier (h : name.isIdentifier = true) :
    (name ++ [colon]).head? ≠ some leftBracket := by
  obtain ⟨b, n, rfl⟩ := List.exists_cons_of_ne_nil (ne_nil_of_isIdentifier h)
  rintro ⟨⟩
  exact absurd (isBare_of_isIdentifier h _ List.mem_cons_self) (by decide)

theorem IsLabelText.isWhole (h : IsLabelText name label) {w : Bytes}
    (hw : ∀ b ∈ w, isWordByte b = true) : IsWhole (name ++ w) := by
  refine .word ?_ (fun b hb => ?_) ?_
  · exact List.append_ne_nil_of_left_ne_nil (ne_nil_of_isIdentifier h.isIdentifier) w
  · obtain hb | hb := List.mem_append.mp hb
    · exact isWordByte_of_isPlain b (isPlain_of_isBare b (isBare_of_isIdentifier h.isIdentifier b hb))
    · exact hw b hb
  · intro he
    obtain ⟨b, n, rfl⟩ := List.exists_cons_of_ne_nil (ne_nil_of_isIdentifier h.isIdentifier)
    have hb := isBare_of_isIdentifier h.isIdentifier b List.mem_cons_self
    rw [(List.cons.inj he).1] at hb
    exact absurd hb (by decide)

/-- A lexeme that goes on behind a colon has no kind. -/
theorem classify_of_inner_colon {tail : Bytes} (hfirst : (s ++ [colon]).head? ≠ some leftBracket)
    (htail : tail ≠ []) : classify (s ++ colon :: tail) = .none := by
  apply Classical.byContradiction
  intro hkind
  have hhead : (s ++ colon :: tail).head? ≠ some leftBracket := by
    rw [List.append_cons]
    rwa [List.head?_append_of_ne_nil _ (by simp)]
  have hlabel := classify_of_colon hkind (by simp) hhead
  have hname := isIdentifier_of_label hlabel
  rw [List.dropLast_append_of_ne_nil (by simp), List.dropLast_cons_of_ne_nil htail] at hname
  have hcolon := isBare_of_isIdentifier hname colon (by simp)
  exact absurd hcolon (by decide)

/-- Where a line begins with a label, the word goes on behind the colon as far as it can. It takes in
the name, unless there are blanks between name and colon. -/
theorem IsLabelText.ofLine_append (h : IsLabelText name label) (rest : Bytes) :
    ofLine (label ++ rest) =
        cut [name ++ colon :: rest.takeWhile isWordByte] (rest.dropWhile isWordByte) ∨
      rest.takeWhile isWordByte ≠ [] ∧ ofLine (label ++ rest) =
        name :: cut [colon :: rest.takeWhile isWordByte] (rest.dropWhile isWordByte) := by
  have hword : ∀ b ∈ rest.takeWhile isWordByte, isWordByte b = true :=
    List.all_eq_true.mp List.all_takeWhile
  have hbreak : ∀ b ∈ (rest.dropWhile isWordByte).head?, isWordByte b = false := by
    intro b hb
    have hhead := List.head?_dropWhile_not isWordByte rest
    rw [hb] at hhead
    exact hhead
  have hsplit := List.takeWhile_append_dropWhile (p := isWordByte) (l := rest)
  obtain ⟨front, gap, hfront, hgap, rfl⟩ := h.text
  unfold ofLine
  rw [List.append_assoc, cut_blanks hfront, List.append_assoc, List.append_assoc]
  cases gap with
  | nil =>
    have hwhole := (h.isWhole (w := colon :: rest.takeWhile isWordByte)
      (List.forall_mem_cons.mpr ⟨by decide, hword⟩)).cut [] hbreak
    rw [List.append_assoc, List.cons_append, hsplit] at hwhole
    exact .inl hwhole
  | cons b gap =>
    have hname : cut [] (name ++ (b :: gap ++ ([colon] ++ rest))) =
        cut [name] (b :: gap ++ ([colon] ++ rest)) := by
      have hwhole := h.isWhole (List.forall_mem_nil (isWordByte · = true))
      rw [List.append_nil] at hwhole
      refine hwhole.cut [] ?_
      rintro _ ⟨⟩
      simp [isWordByte, hgap b List.mem_cons_self]
    rw [hname, cut_blanks hgap, List.singleton_append, cut_word (by decide)]
    by_cases hempty : rest.takeWhile isWordByte = []
    · have hcomma : name ≠ [comma] := by
        rintro rfl
        exact absurd h.isIdentifier (by decide)
      refine .inl ?_
      rw [hempty]
      simp [addWord, hcomma]
    · refine .inr ⟨hempty, ?_⟩
      rw [addWord_eq (by simpa using hempty)]
      exact cut_append (List.cons_ne_nil _ []) [name] _

theorem IsLabelText.ofLine_self (h : IsLabelText name label) : ofLine label = [name ++ [colon]] := by
  obtain hline | ⟨hword, -⟩ := h.ofLine_append []
  · rw [List.append_nil] at hline
    exact hline.trans (cut.eq_1 _)
  · exact absurd rfl hword

/-- If every lexeme has a kind, the label is one, and the others are those of the rest. -/
theorem IsLabelText.ofLine_eq (h : IsLabelText name label)
    (hkinds : ∀ s ∈ ofLine (label ++ rest), classify s ≠ .none) :
    ofLine (label ++ rest) = (name ++ [colon]) :: ofLine rest := by
  have hfirst := head?_ne_of_isIdentifier h.isIdentifier
  have hempty : rest.takeWhile isWordByte = [] := by
    apply Classical.byContradiction
    intro hword
    obtain hline | ⟨-, hline⟩ := h.ofLine_append rest
    · obtain ⟨tail, more, hcut⟩ := exists_cut_behind (name ++ colon :: rest.takeWhile isWordByte)
        (rest.dropWhile isWordByte)
      rw [hline, hcut, List.append_assoc, List.cons_append] at hkinds
      exact hkinds _ List.mem_cons_self (classify_of_inner_colon hfirst (by simp [hword]))
    · obtain ⟨tail, more, hcut⟩ := exists_cut_behind (colon :: rest.takeWhile isWordByte)
        (rest.dropWhile isWordByte)
      rw [hline, hcut, List.cons_append] at hkinds
      refine hkinds _ (List.mem_cons_of_mem _ List.mem_cons_self) ?_
      exact classify_of_inner_colon (s := []) (by decide) (by simp [hword])
  have hline : ofLine (label ++ rest) = cut [name ++ [colon]] rest := by
    obtain hline | ⟨hword, -⟩ := h.ofLine_append rest
    · have hsplit := List.takeWhile_append_dropWhile (p := isWordByte) (l := rest)
      rw [hempty, List.nil_append] at hsplit
      rw [hline, hempty, hsplit]
    · exact absurd hempty hword
  obtain hcut | ⟨tail, more, hcut⟩ := cut_behind (name ++ [colon]) rest
  · rw [hline, hcut]
    rfl
  · rw [hline, hcut, List.append_assoc, List.singleton_append] at hkinds
    refine absurd ?_ (hkinds _ List.mem_cons_self)
    exact classify_of_inner_colon hfirst (List.cons_ne_nil _ _)

theorem IsLabelText.stripComment_append (h : IsLabelText name label) (rest : Bytes) :
    stripComment (label ++ rest) = label ++ stripComment rest := by
  have hblank {gap : Bytes} (hgap : ∀ b ∈ gap, isSeparator b = true) : hash ∉ gap :=
    fun hmem => absurd (hgap hash hmem) (by decide)
  have hname : hash ∉ name :=
    fun hmem => absurd (isBare_of_isIdentifier h.isIdentifier hash hmem) (by decide)
  have hlabel : hash ∉ label := by
    obtain ⟨front, gap, hfront, hgap, rfl⟩ := h.text
    simp only [List.mem_append, hblank hfront, hname, hblank hgap, false_or]
    decide
  refine List.takeWhile_append_of_pos fun b hb => ?_
  rw [bne_iff_ne]
  rintro rfl
  exact hlabel hb

end Lexeme

/-! ## Lines -/

namespace Token

theorem classify_of_mapM {number : Int} {lexemes : List Bytes} {tokens : List Token}
    (h : lexemes.mapM (ofLexeme number) = .ok tokens) :
    ∀ s ∈ lexemes, Lexeme.classify s ≠ .none := by
  induction lexemes generalizing tokens with
  | nil => exact List.forall_mem_nil _
  | cons s rest ih =>
    rw [List.mapM_cons] at h
    obtain ⟨t, ht, h⟩ := except_bind_eq_ok.mp h
    obtain ⟨ts, hts, -⟩ := except_bind_eq_ok.mp h
    exact List.forall_mem_cons.mpr ⟨classify_of_ofLexeme ht, ih hts⟩

theorem ofLexeme_label {number : Int} {name : Bytes} {t : Token} (hname : name.isIdentifier = true)
    (h : ofLexeme number (name ++ [Lexeme.colon]) = .ok t) : t = ⟨.label, name⟩ := by
  obtain ⟨hkind, hword⟩ := ofLexeme_eq_ok h
  rw [Lexeme.classify_of_colon (classify_of_ofLexeme h) (by simp)
    (Lexeme.head?_ne_of_isIdentifier hname)] at hkind
  rw [hkind] at hword
  obtain ⟨kind, word⟩ := t
  cases hkind
  cases hword
  exact congrArg (Token.mk .label) List.dropLast_concat

end Token

namespace SourceLine

variable {name label rest : Bytes} {number : Nat} {l : SourceLine}

/-- A comment behind a line does not count. -/
theorem read_comment (number : Nat) (line comment : Bytes) :
    read number (line ++ Lexeme.hash :: comment) = read number line := by
  have hstrip : Lexeme.stripComment (line ++ Lexeme.hash :: comment) = Lexeme.stripComment line := by
    unfold Lexeme.stripComment
    induction line with
    | nil => rfl
    | cons b line ih =>
      rw [List.cons_append, List.takeWhile_cons, List.takeWhile_cons, ih]
  unfold read
  rw [hstrip]

/-- A line of blanks and a comment says nothing. -/
theorem read_blank {line : Bytes} (h : ∀ b ∈ Lexeme.stripComment line, Lexeme.isSeparator b = true)
    (number : Nat) : read number line = .ok ⟨none, .nothing⟩ := by
  have hlexemes : Lexeme.ofLine (Lexeme.stripComment line) = [] := by
    have hcut := Lexeme.cut_blanks h [] []
    rw [List.append_nil] at hcut
    exact hcut.trans (Lexeme.cut.eq_1 [])
  unfold read Token.ofLine
  rw [hlexemes]
  rfl

/-- A line that begins with a label, taken apart. -/
theorem read_label (hlabel : Lexeme.IsLabelText name label)
    (h : read number (label ++ rest) = .ok l) (hstray : ∀ w, l.statement ≠ .stray w) :
    read number label = .ok ⟨some name, .nothing⟩ ∧
      ∃ st, read number rest = .ok ⟨none, st⟩ ∧ l = ⟨some name, st⟩ := by
  obtain ⟨htokens, hreadable⟩ := ofLine_of_read h hstray
  rw [hlabel.stripComment_append] at htokens
  have hkinds := Token.classify_of_mapM htokens
  rw [Token.ofLine, hlabel.ofLine_eq hkinds, List.mapM_cons] at htokens
  obtain ⟨t, ht, htokens⟩ := except_bind_eq_ok.mp htokens
  obtain ⟨ts, hts, htokens⟩ := except_bind_eq_ok.mp htokens
  have hl : t :: ts = l.tokens := Except.ok.inj htokens
  obtain rfl : t = ⟨.label, name⟩ := Token.ofLexeme_label hlabel.isIdentifier ht
  rw [← hl] at hreadable
  obtain ⟨hname, hrest⟩ := List.forall_mem_cons.mp hreadable
  constructor
  · refine read_of_ofLine ?_ (List.forall_mem_singleton.mpr hname)
    have hstrip := hlabel.stripComment_append []
    rw [List.append_nil] at hstrip
    rw [hstrip, Lexeme.stripComment, List.takeWhile_nil, List.append_nil, Token.ofLine,
      hlabel.ofLine_self, List.mapM_cons, ht]
    rfl
  · obtain ⟨label?, st⟩ := l
    cases label? with
    | none => cases st <;> simp [tokens, Statement.tokens] at hl
    | some n =>
      obtain ⟨hn, hst⟩ := List.cons.inj hl
      cases hn
      rw [hst] at hrest hts
      exact ⟨st, read_of_ofLine (l := ⟨none, st⟩) hts hrest, rfl⟩

end SourceLine

end AsmKit
