import AsmKit.Proofs.Layout
import AsmKit.Proofs.Stage
import AsmKit.Proofs.Words

/-
  What a statement emits is what the layout expects of it: as many bytes as `Statement.size` says,
  a reference for each of its `symbolOperands` and no other, and in the word of each of them the
  value of the symbol (`Statement.emission_fits`). The proof goes through the three kinds of
  statement that emit bytes, and for instructions through what their arguments can fill
  (`Instruction.Fills`).
-/

namespace AsmKit

/-! ## Lists of items -/

namespace Token

theorem items_eq_ok {accepts : TokenKind → Bool} (hcomma : accepts .comma = false)
    {found arguments its : List Token} (h : items accepts found arguments = .ok its) :
    its = found.reverse ++ listed arguments := by
  fun_induction items accepts found arguments with
  | case1 found =>
    cases h
    simp [listed]
  | case2 => cases h
  | case3 found item hitem =>
    cases h
    have hk : item.kind ≠ .comma := by
      intro hk
      simp [hk, hcomma] at hitem
    simp [listed, hk]
  | case4 => cases h
  | case5 found item hitem separator rest hsep ih =>
    have hk : item.kind ≠ .comma := by
      intro hk
      simp [hk, hcomma] at hitem
    rw [ih h]
    have hs : separator.kind = .comma := by simpa using hsep
    simp [listed, hk, hs]

theorem listOf_eq_ok {head : Bytes} {accepts : TokenKind → Bool} (hcomma : accepts .comma = false)
    {arguments its : List Token} (h : listOf head accepts arguments = .ok its) :
    its = listed arguments := by
  unfold listOf at h
  split at h
  · cases h
  · exact items_eq_ok hcomma h

theorem of_mem_items {accepts : TokenKind → Bool} {found arguments its : List Token}
    (h : items accepts found arguments = .ok its) {t : Token} (ht : t ∈ its) :
    t ∈ found ∨ t ∈ arguments ∧ accepts t.kind = true := by
  fun_induction items accepts found arguments with
  | case1 found =>
    cases h
    exact .inl (List.mem_reverse.mp ht)
  | case2 => cases h
  | case3 found item hitem =>
    cases h
    obtain rfl | ht := List.mem_cons.mp (List.mem_reverse.mp ht)
    · exact .inr ⟨List.mem_cons_self .., by simpa using hitem⟩
    · exact .inl ht
  | case4 => cases h
  | case5 found item hitem separator rest hsep ih =>
    obtain ht | ⟨ht, haccepts⟩ := ih h
    · obtain rfl | ht := List.mem_cons.mp ht
      · exact .inr ⟨List.mem_cons_self .., by simpa using hitem⟩
      · exact .inl ht
    · exact .inr ⟨List.mem_cons_of_mem _ (List.mem_cons_of_mem _ ht), haccepts⟩

theorem of_mem_listOf {head : Bytes} {accepts : TokenKind → Bool} {arguments its : List Token}
    (h : listOf head accepts arguments = .ok its) {t : Token} (ht : t ∈ its) :
    t ∈ arguments ∧ accepts t.kind = true := by
  unfold listOf at h
  split at h
  · cases h
  · obtain ht | ht := of_mem_items h ht
    · cases ht
    · exact ht

end Token

namespace SymbolTable

variable {t : SymbolTable} {n : Bytes} {s : Symbol}

theorem lookup_eq_ok_iff : t.lookup n = .ok s ↔
    t.get? n = some s ∧ (s.isDefined = true ∨ s.isExtern = true ∨ s.isGlobal = true) := by
  unfold lookup
  rcases t.get? n with _ | s'
  · simp
  · dsimp only
    split
    · next h =>
      simp only [Bool.or_eq_true, or_assoc] at h
      constructor
      · intro e
        cases e
        exact ⟨rfl, h⟩
      · rintro ⟨e, -⟩
        cases e
        rfl
    · next h =>
      simp only [Bool.or_eq_true, or_assoc] at h
      constructor
      · intro e
        cases e
      · rintro ⟨e, hs⟩
        cases e
        exact absurd hs h

/-- A symbol that is not defined has the value zero. -/
def ZeroUnlessDefined (t : SymbolTable) : Prop :=
  ∀ n s, t.get? n = some s → s.isDefined = false → s.value = 0

end SymbolTable

/-- The reference that an operand asks for. -/
def SymbolOperand.reference (o : SymbolOperand) : Reference :=
  ⟨UInt32.ofNat o.offset, o.symbol, o.type⟩

namespace Emission

/-- An emission is what the layout expects of a statement. -/
structure Fits (symbols : SymbolTable) (st : Statement) (e : Emission) : Prop where
  length : e.bytes.length = st.size
  references : e.references = st.symbolOperands.map SymbolOperand.reference
  spells : ∀ o ∈ st.symbolOperands, ∃ s, symbols.lookup o.symbol = .ok s ∧
    e.bytes.Spells o.offset s.value
  apart : st.symbolOperands.Pairwise fun a b => a.offset + 4 ≤ b.offset

/-! ## Words -/

theorem untilFailure_eq {α : Type} {found vals : List α}
    {xs : List (Except Error.Complaint α)} (h : untilFailure found xs = (vals, none)) :
    ∃ ys, xs = ys.map .ok ∧ vals = found.reverse ++ ys := by
  induction xs generalizing found with
  | nil =>
    cases h
    exact ⟨[], rfl, by simp⟩
  | cons x xs ih =>
    rcases x with c | a
    · cases h
    · obtain ⟨ys, rfl, rfl⟩ := ih h
      exact ⟨a :: ys, rfl, by simp⟩

theorem untilFailure_map_ok {α : Type} (found vals : List α) :
    untilFailure found (vals.map .ok) = (found.reverse ++ vals, none) := by
  induction vals generalizing found with
  | nil => simp [untilFailure]
  | cons v vals ih => simp [untilFailure, ih]

variable {symbols : SymbolTable}

theorem wordItem_symbol (hz : symbols.ZeroUnlessDefined) {t : Token} (ht : t.kind = .symbol)
    {v : UInt32 × Option Bytes} (h : wordItem symbols t = .ok v) :
    ∃ s, symbols.lookup t.word = .ok s ∧ v = (s.value, some t.word) := by
  unfold wordItem at h
  rw [if_pos ht] at h
  obtain ⟨s, hs, h⟩ := except_bind_eq_ok.mp h
  cases h
  refine ⟨s, hs, ?_⟩
  split
  · rfl
  · next hd => rw [hz _ s (SymbolTable.lookup_eq_ok_iff.mp hs).1 (by simpa using hd)]

theorem wordItem_reference {t : Token} (ht : t.kind = .symbol) {v : UInt32 × Option Bytes}
    (h : wordItem symbols t = .ok v) : v.2 = some t.word := by
  unfold wordItem at h
  rw [if_pos ht] at h
  obtain ⟨s, -, h⟩ := except_bind_eq_ok.mp h
  cases h
  rfl

theorem wordItem_number {t : Token} (ht : t.kind ≠ .symbol) {v : UInt32 × Option Bytes}
    (h : wordItem symbols t = .ok v) : v.2 = none := by
  unfold wordItem at h
  rw [if_neg ht] at h
  obtain ⟨n, -, h⟩ := except_bind_eq_ok.mp h
  cases h
  rfl

/-- The symbol operands among the items of a word list, from the item `n` on. -/
def wordOperands (n : Nat) (items : List Token) : List SymbolOperand :=
  (items.zipIdx n).filterMap fun (t, n) =>
    if t.kind = .symbol then some ⟨4 * n, t.word, .symbol⟩ else none

theorem wordOperands_cons_symbol {t : Token} (ht : t.kind = .symbol) (n : Nat)
    (items : List Token) :
    wordOperands n (t :: items) = ⟨4 * n, t.word, .symbol⟩ :: wordOperands (n + 1) items := by
  simp [wordOperands, ht]

theorem wordOperands_cons_number {t : Token} (ht : t.kind ≠ .symbol) (n : Nat)
    (items : List Token) : wordOperands n (t :: items) = wordOperands (n + 1) items := by
  simp [wordOperands, ht]

theorem le_offset_of_mem_wordOperands {n : Nat} {items : List Token} {o : SymbolOperand}
    (h : o ∈ wordOperands n items) : 4 * n ≤ o.offset := by
  obtain ⟨⟨t, k⟩, hk, ho⟩ := List.mem_filterMap.mp h
  have := (List.mem_zipIdx hk).1
  dsimp only at ho
  split at ho
  · cases ho
    dsimp only
    omega
  · cases ho

theorem pairwise_wordOperands (n : Nat) (items : List Token) :
    (wordOperands n items).Pairwise fun a b => a.offset + 4 ≤ b.offset := by
  induction items generalizing n with
  | nil => exact List.Pairwise.nil
  | cons t items ih =>
    by_cases ht : t.kind = .symbol
    · rw [wordOperands_cons_symbol ht]
      refine List.pairwise_cons.mpr ⟨fun o ho => ?_, ih (n + 1)⟩
      have := le_offset_of_mem_wordOperands ho
      dsimp only
      omega
    · rw [wordOperands_cons_number ht]
      exact ih (n + 1)

/-- The references of a word list follow its symbol operands. -/
theorem word_references (hz : symbols.ZeroUnlessDefined) {items : List Token}
    {vals : List (UInt32 × Option Bytes)} (h : items.map (wordItem symbols) = vals.map .ok)
    (n : Nat) :
    ((vals.zipIdx n).filterMap fun ((_, symbol?), n) =>
      symbol?.map fun symbol => (⟨UInt32.ofNat (4 * n), symbol, .symbol⟩ : Reference)) =
      (wordOperands n items).map SymbolOperand.reference := by
  induction items generalizing vals n with
  | nil =>
    cases vals with
    | nil => rfl
    | cons v vals => cases h
  | cons t items ih =>
    cases vals with
    | nil => cases h
    | cons v vals =>
      obtain ⟨hv, hvals⟩ := List.cons.inj h
      by_cases ht : t.kind = .symbol
      · obtain ⟨s, -, rfl⟩ := wordItem_symbol hz ht hv
        rw [wordOperands_cons_symbol ht, List.map_cons, ← ih hvals (n + 1)]
        rfl
      · have hnone := wordItem_number ht hv
        rw [wordOperands_cons_number ht, ← ih hvals (n + 1)]
        simp [hnone]

theorem mem_wordOperands {items : List Token} {o : SymbolOperand} : o ∈ wordOperands 0 items ↔
    ∃ n t, items[n]? = some t ∧ t.kind = .symbol ∧ o = ⟨4 * n, t.word, .symbol⟩ := by
  unfold wordOperands
  rw [List.mem_filterMap]
  constructor
  · rintro ⟨⟨t, n⟩, ht, ho⟩
    dsimp only at ho
    split at ho
    · next hkind =>
      cases ho
      exact ⟨n, t, List.mem_zipIdx_iff_getElem?.mp ht, hkind, rfl⟩
    · cases ho
  · rintro ⟨n, t, ht, hkind, rfl⟩
    exact ⟨(t, n), List.mem_zipIdx_iff_getElem?.mpr ht, if_pos hkind⟩

/-- The value of an item stands where the item does. -/
theorem exists_value {items : List Token} {vals : List (UInt32 × Option Bytes)}
    (h : items.map (wordItem symbols) = vals.map .ok) {n : Nat} {t : Token}
    (ht : items[n]? = some t) : ∃ v, vals[n]? = some v ∧ wordItem symbols t = .ok v := by
  have hn : (items.map (wordItem symbols))[n]? = (vals.map .ok)[n]? := by rw [h]
  rw [List.getElem?_map, List.getElem?_map, ht, Option.map_some] at hn
  obtain ⟨v, hv, hitem⟩ := Option.map_eq_some_iff.mp hn.symm
  exact ⟨v, hv, hitem.symm⟩

theorem getElem?_flatMap_ofWord (vals : List (UInt32 × Option Bytes)) (n : Nat) {j : Nat}
    (hj : j < 4) : (vals.flatMap fun v => Bytes.ofWord v.1)[4 * n + j]? =
      vals[n]?.bind fun v => (Bytes.ofWord v.1)[j]? := by
  induction vals generalizing n with
  | nil => simp
  | cons v vals ih =>
    rw [List.flatMap_cons]
    cases n with
    | zero => rw [List.getElem?_append_left (by simp; omega), Nat.mul_zero, Nat.zero_add]; rfl
    | succ n =>
      have hskip : 4 * (n + 1) + j - (Bytes.ofWord v.1).length = 4 * n + j := by
        rw [Bytes.length_ofWord]
        omega
      rw [List.getElem?_append_right (by simp; omega), hskip, ih, List.getElem?_cons_succ]

theorem spells_flatMap_ofWord {vals : List (UInt32 × Option Bytes)} {n : Nat}
    {v : UInt32 × Option Bytes} (hv : vals[n]? = some v) :
    Bytes.Spells (vals.flatMap fun v => Bytes.ofWord v.1) (4 * n) v.1 := by
  intro j hj
  rw [getElem?_flatMap_ofWord vals n hj, hv]
  rfl

/-- Each symbol operand of a word list finds the value of its symbol in its word. -/
theorem word_spells (hz : symbols.ZeroUnlessDefined) {items : List Token}
    {vals : List (UInt32 × Option Bytes)} (h : items.map (wordItem symbols) = vals.map .ok)
    {o : SymbolOperand} (ho : o ∈ wordOperands 0 items) :
    ∃ s, symbols.lookup o.symbol = .ok s ∧
      Bytes.Spells (vals.flatMap fun v => Bytes.ofWord v.1) o.offset s.value := by
  obtain ⟨n, t, ht, hkind, rfl⟩ := mem_wordOperands.mp ho
  obtain ⟨v, hv, hitem⟩ := exists_value h ht
  obtain ⟨s, hs, hvalue⟩ := wordItem_symbol hz hkind hitem
  rw [hvalue] at hv
  have hspell := spells_flatMap_ofWord hv
  exact ⟨s, hs, hspell⟩

theorem length_flatMap_ofWord (vals : List (UInt32 × Option Bytes)) :
    (vals.flatMap fun v => Bytes.ofWord v.1).length = 4 * vals.length := by
  induction vals with
  | nil => rfl
  | cons v vals ih =>
    rw [List.flatMap_cons, List.length_append, ih, Bytes.length_ofWord, List.length_cons]
    omega

theorem words_of_values {arguments its : List Token} {vals : List (UInt32 × Option Bytes)}
    (hits : Token.listOf Directive.words.spelling TokenKind.isWordItem arguments = .ok its)
    (hvals : its.map (wordItem symbols) = vals.map .ok) :
    words symbols arguments =
      { bytes := vals.flatMap fun v => Bytes.ofWord v.1
        references := vals.zipIdx.filterMap fun ((_, symbol?), n) =>
          symbol?.map fun symbol => ⟨UInt32.ofNat (4 * n), symbol, .symbol⟩ } := by
  unfold words
  rw [hits]
  dsimp only
  rw [hvals, untilFailure_map_ok]
  rfl

theorem values_of_words {arguments : List Token} (h : (words symbols arguments).complaint? = none) :
    ∃ its, ∃ vals : List (UInt32 × Option Bytes),
      Token.listOf Directive.words.spelling TokenKind.isWordItem arguments = .ok its ∧
        its.map (wordItem symbols) = vals.map .ok := by
  unfold words at h
  rcases hits : Token.listOf Directive.words.spelling TokenKind.isWordItem arguments with c | its
  · rw [hits] at h
    cases h
  · rw [hits] at h
    dsimp only at h
    rcases hvals : untilFailure [] (its.map (wordItem symbols)) with ⟨vals, _ | c⟩
    · obtain ⟨vals, hvals, -⟩ := untilFailure_eq hvals
      exact ⟨its, vals, rfl, hvals⟩
    · rw [hvals] at h
      cases h

theorem words_fits (hz : symbols.ZeroUnlessDefined) {arguments : List Token}
    (h : (words symbols arguments).complaint? = none) :
    Fits symbols (.directive .words arguments) (words symbols arguments) := by
  obtain ⟨its, vals, hits, hvals⟩ := values_of_words h
  rw [words_of_values hits hvals]
  obtain rfl : its = Token.listed arguments := Token.listOf_eq_ok rfl hits
  constructor
  · have hlength := congrArg List.length hvals
    rw [List.length_map, List.length_map] at hlength
    rw [length_flatMap_ofWord, ← hlength]
    rfl
  · exact word_references hz hvals 0
  · exact fun o ho => word_spells hz hvals ho
  · exact pairwise_wordOperands 0 _

theorem skip_fits {arguments : List Token} (h : (skip arguments).complaint? = none) :
    Fits symbols (.directive .skip arguments) (skip arguments) := by
  unfold skip at h ⊢
  rcases hn : skipCount arguments with c | n
  · rw [hn] at h
    cases h
  · constructor
    · simp [Statement.size, hn]
    · rfl
    · intro o ho
      cases ho
    · exact List.Pairwise.nil

end Emission

/-! ## Operands -/

namespace Operand

/-- An operand refers to the given symbol, and to none without one, and has its value. -/
structure Names (symbols : SymbolTable) (r? : Option (Bytes × RelocationType)) (o : Operand) :
    Prop where
  reference : o.reference? = r?
  value : ∀ r, r? = some r → ∃ s, symbols.lookup r.1 = .ok s ∧ o.value = s.value

variable {symbols : SymbolTable} {t : Token} {o : Operand}

theorem Names.none (h : o.reference? = none) : Names symbols none o :=
  ⟨h, fun _ hr => nomatch hr⟩

theorem Names.some {name : Bytes} {type : RelocationType} {s : Symbol}
    (hs : symbols.lookup name = .ok s) (hr : o.reference? = some (name, type))
    (hv : o.value = s.value) : Names symbols (some (name, type)) o := by
  refine ⟨hr, ?_⟩
  rintro r ⟨⟩
  exact ⟨s, hs, hv⟩

theorem jump_names {shape : Shape} (hl : shape ≠ .load) (hst : shape ≠ .store)
    (h : jump symbols t = .ok o) : Names symbols (t.symbolOperand? shape) o := by
  unfold jump at h
  unfold Token.symbolOperand?
  split at h
  case h_1 ht | h_2 ht | h_3 ht | h_4 ht =>
    obtain ⟨v, -, h⟩ := except_bind_eq_ok.mp h
    cases h
    rw [ht]
    exact Names.none rfl
  case h_5 ht =>
    obtain ⟨s, hs, h⟩ := except_bind_eq_ok.mp h
    cases h
    rw [ht]
    dsimp only
    rw [if_neg (by rintro (e | e) <;> contradiction)]
    exact Names.some hs rfl rfl
  case h_6 ht =>
    obtain ⟨s, hs, h⟩ := except_bind_eq_ok.mp h
    cases h
    rw [ht]
    exact Names.some hs rfl rfl
  case h_7 => cases h

theorem bracket_names {shape : Shape} (ht : t.kind = .bracket)
    (h : bracket symbols t = .ok o) : Names symbols (t.symbolOperand? shape) o := by
  unfold bracket at h
  unfold Token.symbolOperand?
  rw [ht]
  dsimp only
  rcases hb : Bracket.read? t.word with _ | ⟨register, _ | offset⟩
  · rw [hb] at h
    cases h
  · rw [hb] at h
    obtain ⟨r, -, h⟩ := except_bind_eq_ok.mp h
    cases h
    exact Names.none rfl
  · rw [hb] at h
    obtain ⟨r, -, h⟩ := except_bind_eq_ok.mp h
    dsimp only at h ⊢
    split at h
    · next hid =>
      obtain ⟨s, hs, h⟩ := except_bind_eq_ok.mp h
      rw [if_pos hid]
      split at h
      · cases h
      · cases h
        exact Names.some hs rfl rfl
    · next hid =>
      obtain ⟨v, -, h⟩ := except_bind_eq_ok.mp h
      cases h
      rw [if_neg hid]
      exact Names.none rfl

theorem data_names {shape : Shape} (hshape : shape = .load ∨ shape = .store)
    (h : data symbols t = .ok o) : Names symbols (t.symbolOperand? shape) o := by
  unfold data at h
  split at h
  case h_1 ht => exact bracket_names ht h
  case h_2 ht | h_3 ht | h_4 ht | h_5 ht | h_6 ht | h_7 ht =>
    obtain ⟨v, -, h⟩ := except_bind_eq_ok.mp h
    cases h
    unfold Token.symbolOperand?
    rw [ht]
    exact Names.none rfl
  case h_8 ht =>
    obtain ⟨s, hs, h⟩ := except_bind_eq_ok.mp h
    cases h
    unfold Token.symbolOperand?
    rw [ht]
    dsimp only
    rw [if_pos hshape]
    exact Names.some hs rfl rfl
  case h_9 ht =>
    obtain ⟨s, hs, h⟩ := except_bind_eq_ok.mp h
    cases h
    unfold Token.symbolOperand?
    rw [ht]
    exact Names.some hs rfl rfl
  case h_10 => cases h

end Operand

/-! ## Instructions -/

/-- One of the arguments may name a symbol. -/
def Shape.hasOperand : Shape → Bool
  | .jump | .branch | .load | .store => true
  | _ => false

/-- A register or a comma. -/
def TokenKind.isSilent (k : TokenKind) : Bool := k.isGeneral || k.isControl || k = .comma

theorem Token.symbolOperand?_eq_none {t : Token} {shape : Shape} (h : t.kind.isSilent = true) :
    t.symbolOperand? shape = none := by
  unfold symbolOperand?
  rcases ht : t.kind <;> simp [ht, TokenKind.isSilent, TokenKind.isGeneral, TokenKind.isControl] at h ⊢

/-- Without an operand there are only registers and commas. -/
theorem Shape.isSilent_of_mem_arguments {shape : Shape} (h : shape.hasOperand = false)
    {accepts : TokenKind → Bool} (ha : accepts ∈ shape.arguments) {k : TokenKind}
    (hk : accepts k = true) : k.isSilent = true := by
  unfold TokenKind.isSilent
  cases shape <;> simp [hasOperand, arguments] at h ha
  all_goals
    rcases ha with rfl | rfl | rfl <;> simp_all

namespace Instruction

variable {symbols : SymbolTable} {i : Instruction} {arguments : List Token}

theorem checkArguments_kinds (h : checkArguments i arguments = .ok ()) :
    arguments.length = i.shape.arguments.length ∧
      ∀ x ∈ arguments.zip i.shape.arguments, x.2 x.1.kind = true := by
  unfold checkArguments at h
  split at h
  · cases h
  · next hlength =>
    split at h
    · cases h
    · next hfind =>
      refine ⟨Decidable.not_not.mp hlength, fun x hx => ?_⟩
      simpa using List.find?_eq_none.mp hfind x hx

theorem checkArguments_of_kinds (hlength : arguments.length = i.shape.arguments.length)
    (hkinds : ∀ x ∈ arguments.zip i.shape.arguments, x.2 x.1.kind = true) :
    checkArguments i arguments = .ok () := by
  unfold checkArguments
  rw [if_neg (fun hne => hne hlength), List.find?_eq_none.mpr]
  intro x hx
  simp [hkinds x hx]

theorem isSilent_of_checkArguments (h : checkArguments i arguments = .ok ())
    (hs : i.shape.hasOperand = false) : ∀ t ∈ arguments, t.kind.isSilent = true := by
  obtain ⟨hlength, hkinds⟩ := checkArguments_kinds h
  intro t ht
  obtain ⟨n, hn, rfl⟩ := List.getElem_of_mem ht
  have hzip : n < (arguments.zip i.shape.arguments).length := by
    rw [List.length_zip]
    omega
  have haccepts := hkinds _ (List.getElem_mem hzip)
  rw [List.getElem_zip] at haccepts
  exact Shape.isSilent_of_mem_arguments hs (List.getElem_mem _) haccepts

theorem symbolOperands_eq_nil (h : checkArguments i arguments = .ok ())
    (hs : i.shape.hasOperand = false) :
    arguments.filterMap (Token.symbolOperand? i.shape) = [] := by
  rw [List.filterMap_eq_nil_iff]
  intro t ht
  exact Token.symbolOperand?_eq_none (isSilent_of_checkArguments h hs t ht)

/-- Which shapes come with a literal, and how long the instructions are. -/
theorem shape_of_mem_all : ∀ i ∈ all,
    (i.shape.hasOperand = true → i.hasLiteral) ∧
    i.wordLength + (if i.hasLiteral then 4 else 0) = i.size.toNat ∧
    (i.hasLiteral → i.wordLength = 4) := by
  decide +kernel

theorem length_encode {fields : Fields} {literal : UInt32} (hi : i ∈ all) :
    (i.encode fields literal).length = i.size.toNat := by
  have hmin : i.wordLength ≤ 4 := Nat.min_le_right _ _
  have hword : fields.word.length = 4 := rfl
  rw [encode, List.length_append, List.length_take, hword, Nat.min_eq_left hmin,
    ← (shape_of_mem_all i hi).2.1]
  split
  · rw [Bytes.length_ofWord]
  · rfl

theorem encode_spells {fields : Fields} {literal : UInt32} (hi : i ∈ all)
    (hl : i.hasLiteral = true) : (i.encode fields literal).Spells wordSize literal := by
  have hw : i.wordLength = 4 := (shape_of_mem_all i hi).2.2 hl
  rw [encode, if_pos hl, hw]
  exact (Bytes.spells_ofWord literal).behind (fields.word.take 4)

/-- What the arguments of a statement fill, for each kind of instruction. -/
inductive Fills (symbols : SymbolTable) (i : Instruction) :
    List Token → Fields → Option Operand → Prop
  | none (hs : i.shape = .none) : Fills symbols i [] { opcode := i.opcode } none
  | jump {target : Token} {o : Operand} (hs : i.shape = .jump)
      (ho : Operand.jump symbols target = .ok o) :
      Fills symbols i [target] { opcode := o.opcode i, a := o.register } (some o)
  | branch {left c₁ right c₂ target : Token} {b c : UInt8} {o : Operand} (hs : i.shape = .branch)
      (hb : left.register = .ok b) (hc : right.register = .ok c)
      (ho : Operand.jump symbols target = .ok o) :
      Fills symbols i [left, c₁, right, c₂, target]
        { opcode := o.opcode i, a := o.register, b, c } (some o)
  | push {register : Token} {r : UInt8} (hs : i.shape = .stack) (hm : i.mnemonic = .push)
      (hr : register.register = .ok r) :
      Fills symbols i [register]
        { opcode := i.opcode, a := Register.stackPointer, c := r, displacement := 1 } none
  | pop {register : Token} {r : UInt8} (hs : i.shape = .stack) (hm : i.mnemonic ≠ .push)
      (hr : register.register = .ok r) :
      Fills symbols i [register]
        { opcode := i.opcode, a := r, b := Register.stackPointer, displacement := -1 } none
  | exchange {source c destination : Token} {s d : UInt8} (hs : i.shape = .twoRegisters)
      (hm : i.mnemonic = .xchg) (hsource : source.register = .ok s)
      (hdestination : destination.register = .ok d) :
      Fills symbols i [source, c, destination] { opcode := i.opcode, b := s, c := d } none
  | twoRegisters {source c destination : Token} {s d : UInt8} (hs : i.shape = .twoRegisters)
      (hm : i.mnemonic ≠ .xchg) (hsource : source.register = .ok s)
      (hdestination : destination.register = .ok d) :
      Fills symbols i [source, c, destination] { opcode := i.opcode, a := d, b := d, c := s } none
  | oneRegister {register : Token} {r : UInt8} (hs : i.shape = .oneRegister)
      (hr : register.register = .ok r) :
      Fills symbols i [register] { opcode := i.opcode, a := r, b := r } none
  | load {source c destination : Token} {a : UInt8} {o : Operand} (hs : i.shape = .load)
      (ha : destination.register = .ok a) (ho : Operand.data symbols source = .ok o) :
      Fills symbols i [source, c, destination]
        { opcode := o.opcode i, a, b := o.register } (some o)
  | store {source c destination : Token} {r : UInt8} {o : Operand} (hs : i.shape = .store)
      (hr : source.register = .ok r) (ho : Operand.data symbols destination = .ok o) :
      Fills symbols i [source, c, destination]
        { opcode := o.opcode i, a := o.register, c := r } (some o)
  | control {source c destination : Token} {a b : UInt8}
      (hs : i.shape = .controlRead ∨ i.shape = .controlWrite) (hb : source.register = .ok b)
      (ha : destination.register = .ok a) :
      Fills symbols i [source, c, destination] { opcode := i.opcode, a, b } none

theorem fills_of_operands {fields : Fields} {operand? : Option Operand}
    (h : operands symbols i arguments = .ok (fields, operand?)) :
    Fills symbols i arguments fields operand? := by
  revert h
  fun_cases operands symbols i arguments with
  | case1 hs =>
    intro h
    cases h
    exact .none hs
  | case2 target hs =>
    intro h
    obtain ⟨o, ho, h⟩ := except_bind_eq_ok.mp h
    cases h
    exact .jump hs ho
  | case3 left c₁ right c₂ target hs =>
    intro h
    obtain ⟨b, hb, h⟩ := except_bind_eq_ok.mp h
    obtain ⟨c, hc, h⟩ := except_bind_eq_ok.mp h
    obtain ⟨o, ho, h⟩ := except_bind_eq_ok.mp h
    cases h
    exact .branch hs hb hc ho
  | case4 register hs =>
    intro h
    obtain ⟨r, hr, h⟩ := except_bind_eq_ok.mp h
    split at h
    · next hm =>
      cases h
      exact .push hs hm hr
    · next hm =>
      cases h
      exact .pop hs hm hr
  | case5 source c destination hs =>
    intro h
    obtain ⟨s, hsource, h⟩ := except_bind_eq_ok.mp h
    obtain ⟨d, hdestination, h⟩ := except_bind_eq_ok.mp h
    split at h
    · next hm =>
      cases h
      exact .exchange hs hm hsource hdestination
    · next hm =>
      cases h
      exact .twoRegisters hs hm hsource hdestination
  | case6 register hs =>
    intro h
    obtain ⟨r, hr, h⟩ := except_bind_eq_ok.mp h
    cases h
    exact .oneRegister hs hr
  | case7 source c destination hs =>
    intro h
    obtain ⟨a, ha, h⟩ := except_bind_eq_ok.mp h
    obtain ⟨o, ho, h⟩ := except_bind_eq_ok.mp h
    cases h
    exact .load hs ha ho
  | case8 source c destination hs =>
    intro h
    obtain ⟨r, hr, h⟩ := except_bind_eq_ok.mp h
    obtain ⟨o, ho, h⟩ := except_bind_eq_ok.mp h
    cases h
    exact .store hs hr ho
  | case9 source c destination hs =>
    intro h
    obtain ⟨b, hb, h⟩ := except_bind_eq_ok.mp h
    obtain ⟨a, ha, h⟩ := except_bind_eq_ok.mp h
    cases h
    exact .control (.inl hs) hb ha
  | case10 source c destination hs =>
    intro h
    obtain ⟨b, hb, h⟩ := except_bind_eq_ok.mp h
    obtain ⟨a, ha, h⟩ := except_bind_eq_ok.mp h
    cases h
    exact .control (.inr hs) hb ha
  | case11 =>
    intro h
    cases h

theorem Fills.operands_eq {fields : Fields} {operand? : Option Operand}
    (h : Fills symbols i arguments fields operand?) :
    operands symbols i arguments = .ok (fields, operand?) := by
  unfold operands
  cases h with
  | none hs => rw [hs]
  | jump hs ho =>
    rw [hs]
    exact except_bind_eq_ok.mpr ⟨_, ho, rfl⟩
  | branch hs hb hc ho =>
    rw [hs]
    exact except_bind_eq_ok.mpr ⟨_, hb, except_bind_eq_ok.mpr ⟨_, hc, except_bind_eq_ok.mpr ⟨_, ho, rfl⟩⟩⟩
  | push hs hm hr =>
    rw [hs]
    exact except_bind_eq_ok.mpr ⟨_, hr, if_pos hm⟩
  | pop hs hm hr =>
    rw [hs]
    exact except_bind_eq_ok.mpr ⟨_, hr, if_neg hm⟩
  | exchange hs hm hsource hdestination =>
    rw [hs]
    exact except_bind_eq_ok.mpr ⟨_, hsource, except_bind_eq_ok.mpr ⟨_, hdestination, if_pos hm⟩⟩
  | twoRegisters hs hm hsource hdestination =>
    rw [hs]
    exact except_bind_eq_ok.mpr ⟨_, hsource, except_bind_eq_ok.mpr ⟨_, hdestination, if_neg hm⟩⟩
  | oneRegister hs hr =>
    rw [hs]
    exact except_bind_eq_ok.mpr ⟨_, hr, rfl⟩
  | load hs ha ho =>
    rw [hs]
    exact except_bind_eq_ok.mpr ⟨_, ha, except_bind_eq_ok.mpr ⟨_, ho, rfl⟩⟩
  | store hs hr ho =>
    rw [hs]
    exact except_bind_eq_ok.mpr ⟨_, hr, except_bind_eq_ok.mpr ⟨_, ho, rfl⟩⟩
  | control hs hb ha =>
    rcases hs with hs | hs
    all_goals
      rw [hs]
      exact except_bind_eq_ok.mpr ⟨_, hb, except_bind_eq_ok.mpr ⟨_, ha, rfl⟩⟩

/-- Registers and commas name no symbol, so at most one argument does: the target of a jump or the
memory operand of a load or a store. -/
theorem operands_names (hc : checkArguments i arguments = .ok ()) {fields : Fields}
    {operand? : Option Operand} (h : operands symbols i arguments = .ok (fields, operand?)) :
    (operand? = none ∧ arguments.filterMap (Token.symbolOperand? i.shape) = []) ∨
    ∃ (o : Operand) (t : Token), operand? = some o ∧ i.shape.hasOperand = true ∧
      o.Names symbols (t.symbolOperand? i.shape) ∧
      arguments.filterMap (Token.symbolOperand? i.shape) = (t.symbolOperand? i.shape).toList := by
  have hkinds := (checkArguments_kinds hc).2
  have hsilent (hs : i.shape.hasOperand = false) :
      arguments.filterMap (Token.symbolOperand? i.shape) = [] := symbolOperands_eq_nil hc hs
  have general {t : Token} (ht : t.kind.isGeneral = true) : t.symbolOperand? i.shape = none :=
    Token.symbolOperand?_eq_none (by simp [TokenKind.isSilent, ht])
  have comma {t : Token} (ht : t.kind = .comma) : t.symbolOperand? i.shape = none :=
    Token.symbolOperand?_eq_none (by simp [TokenKind.isSilent, ht])
  cases fills_of_operands h with
  | none => exact .inl ⟨rfl, rfl⟩
  | @jump target o hs ho =>
    refine .inr ⟨o, target, rfl, by rw [hs]; rfl, ?_, ?_⟩
    · exact Operand.jump_names (by simp [hs]) (by simp [hs]) ho
    · cases hr : target.symbolOperand? i.shape <;> simp [hr]
  | @branch left c₁ right c₂ target b c o hs hb hc ho =>
    simp [hs, Shape.arguments] at hkinds
    refine .inr ⟨o, target, rfl, by rw [hs]; rfl, ?_, ?_⟩
    · exact Operand.jump_names (by simp [hs]) (by simp [hs]) ho
    · have hleft := general hkinds.1
      have hc₁ := comma hkinds.2.1
      have hright := general hkinds.2.2.1
      have hc₂ := comma hkinds.2.2.2.1
      cases hr : target.symbolOperand? i.shape <;> simp [hleft, hc₁, hright, hc₂, hr]
  | @load source c destination a o hs ha ho =>
    simp [hs, Shape.arguments] at hkinds
    refine .inr ⟨o, source, rfl, by rw [hs]; rfl, Operand.data_names (.inl hs) ho, ?_⟩
    have hc := comma hkinds.2.1
    have hdestination := general hkinds.2.2
    cases hr : source.symbolOperand? i.shape <;> simp [hc, hdestination, hr]
  | @store source c destination r o hs hr ho =>
    simp [hs, Shape.arguments] at hkinds
    refine .inr ⟨o, destination, rfl, by rw [hs]; rfl, Operand.data_names (.inr hs) ho, ?_⟩
    have hsource := general hkinds.1
    have hc := comma hkinds.2.1
    cases hr : destination.symbolOperand? i.shape <;> simp [hsource, hc, hr]
  | push hs | pop hs | exchange hs | twoRegisters hs | oneRegister hs =>
    exact .inl ⟨rfl, hsilent (by rw [hs]; rfl)⟩
  | control hs => exact .inl ⟨rfl, hsilent (by rcases hs with hs | hs <;> rw [hs] <;> rfl)⟩

theorem emission_of_operands (hc : checkArguments i arguments = .ok ()) {fields : Fields}
    {operand? : Option Operand} (h : operands symbols i arguments = .ok (fields, operand?)) :
    i.emission symbols arguments =
      { bytes := i.encode fields ((operand?.map Operand.value).getD 0)
        references := ((operand?.bind Operand.reference?).map fun (symbol, type) =>
          ⟨UInt32.ofNat wordSize, symbol, type⟩).toList } := by
  unfold emission
  rw [hc, h]
  rfl

theorem operands_of_emission (h : (i.emission symbols arguments).complaint? = none) :
    ∃ fields operand?, checkArguments i arguments = .ok () ∧
      operands symbols i arguments = .ok (fields, operand?) := by
  unfold emission at h
  rcases hops : (do checkArguments i arguments; operands symbols i arguments :
    Except Error.Complaint (Fields × Option Operand)) with c | ⟨fields, operand?⟩
  · rw [hops] at h
    cases h
  · obtain ⟨⟨⟩, hc, hops⟩ := except_bind_eq_ok.mp hops
    exact ⟨fields, operand?, hc, hops⟩

theorem emission_fits {name : Bytes} (hi : find? name = some i)
    (h : (i.emission symbols arguments).complaint? = none) :
    (i.emission symbols arguments).Fits symbols (.instruction name arguments) := by
  have hmem : i ∈ all := List.mem_of_find?_eq_some hi
  obtain ⟨fields, operand?, hcheck, hops⟩ := operands_of_emission h
  rw [emission_of_operands hcheck hops]
  rcases operands_names hcheck hops with ⟨rfl, hnone⟩ | ⟨o, t, rfl, hshape, hnames, hargs⟩
  · constructor
    · simp [length_encode hmem, Statement.size, hi]
    · simp [Statement.symbolOperands, hi, hnone]
    · simp [Statement.symbolOperands, hi, hnone]
    · simp [Statement.symbolOperands, hi, hnone]
  · have hlit : i.hasLiteral = true := (shape_of_mem_all i hmem).1 hshape
    rcases hr : t.symbolOperand? i.shape with _ | ⟨symbol, type⟩
    · rw [hr] at hnames hargs
      constructor
      · simp [length_encode hmem, Statement.size, hi]
      · simp [Statement.symbolOperands, hi, hargs, hnames.reference]
      · simp [Statement.symbolOperands, hi, hargs]
      · simp [Statement.symbolOperands, hi, hargs]
    · rw [hr] at hnames hargs
      constructor
      · simp [length_encode hmem, Statement.size, hi]
      · simp [Statement.symbolOperands, hi, hargs, hnames.reference, SymbolOperand.reference]
      · obtain ⟨s, hs, hv⟩ := hnames.value _ rfl
        simp only [Statement.symbolOperands, hi, hargs, Option.toList_some, List.map_cons,
          List.map_nil, List.mem_singleton, forall_eq, Option.map_some, Option.getD_some]
        exact ⟨s, hs, hv ▸ encode_spells hmem hlit⟩
      · simp [Statement.symbolOperands, hi, hargs]

end Instruction

/-! ## Statements -/

namespace Statement

/-- What a statement adds to its section. -/
def emission (symbols : SymbolTable) : Statement → Emission
  | .directive .words arguments => Emission.words symbols arguments
  | .directive .skip arguments => Emission.skip arguments
  | .instruction name arguments =>
    match Instruction.find? name with
    | some i => i.emission symbols arguments
    | none => {}
  | _ => {}

theorem emission_instruction {name : Bytes} {i : Instruction} (hi : Instruction.find? name = some i)
    (symbols : SymbolTable) (arguments : List Token) :
    (instruction name arguments).emission symbols = i.emission symbols arguments := by
  simp [emission, hi]

theorem emission_unknown {name : Bytes} (hi : Instruction.find? name = none)
    (symbols : SymbolTable) (arguments : List Token) :
    (instruction name arguments).emission symbols = {} := by
  simp [emission, hi]

/-- A statement that is not refused adds what the layout expects of it. -/
theorem emission_fits {symbols : SymbolTable} (hz : symbols.ZeroUnlessDefined) {st : Statement}
    (h : (st.emission symbols).complaint? = none) : (st.emission symbols).Fits symbols st := by
  have silent {st : Statement} (hsize : st.size = 0) (hops : st.symbolOperands = []) :
      ({} : Emission).Fits symbols st := by
    constructor
    · exact hsize.symm
    · rw [hops]
      rfl
    · simp [hops]
    · simp [hops]
  match st with
  | .directive .words arguments => exact Emission.words_fits hz h
  | .directive .skip arguments => exact Emission.skip_fits h
  | .instruction name arguments =>
    rcases hi : Instruction.find? name with _ | i
    · rw [emission_unknown hi]
      exact silent (by simp [size, hi]) (by simp [symbolOperands, hi])
    · rw [emission_instruction hi] at h ⊢
      exact Instruction.emission_fits hi h
  | .nothing | .stop | .directive .globals _ | .directive .externs _ | .directive .openSection _
  | .stray _ => exact silent rfl rfl

end Statement

end AsmKit
