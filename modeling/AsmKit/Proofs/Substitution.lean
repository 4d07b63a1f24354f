import AsmKit.Proofs.Emission
import AsmKit.Proofs.Literals

/-
  What a statement emits when numbers take the place of its symbols. A number is of another kind than
  a symbol and reaches its value in another mode, but both fill the same fields and select the same
  form of the instruction (`Operand.opcode_resolve`); a store to a bare symbol is the one exception
  (`storesToSymbol`). So the bytes are those of the statement as it was, with the addresses in the
  words of its symbols (`Statement.emission_resolve`).
-/

namespace AsmKit

/-! ## Kinds and modes -/

/-- The kind of a number in place of a symbol. -/
def TokenKind.literal : TokenKind → TokenKind
  | .symbol => .hex
  | .symbolLiteral => .hexLiteral
  | kind => kind

theorem TokenKind.literal_eq {kind : TokenKind} (hsymbol : kind ≠ .symbol)
    (hliteral : kind ≠ .symbolLiteral) : kind.literal = kind := by
  unfold literal
  split
  · exact absurd rfl hsymbol
  · exact absurd rfl hliteral
  · rfl

/-- The mode of a number in place of a symbol. -/
def AddressMode.literal : AddressMode → AddressMode
  | .symbolic => .immediate
  | .symbolicIndirect => .direct
  | .registerIndirectSymbol => .registerIndirectLiteral
  | mode => mode

namespace Token

variable {t : Token} (address : Bytes → UInt32)

theorem kind_resolve : (t.resolve address).kind = t.kind.literal := by
  unfold resolve
  split
  · next h => rw [h]; rfl
  · next h => rw [h]; rfl
  · next h =>
    rw [h]
    split
    · split
      · rfl
      · exact h
    · exact h
  · next hsymbol hliteral _ => rw [TokenKind.literal_eq hsymbol hliteral]

/-- Numbers, registers and commas stay as they are. -/
theorem resolve_eq_self {kind : TokenKind} (ht : t.kind = kind)
    (h : (kind.isNumber || kind.isSilent) = true) : t.resolve address = t := by
  subst ht
  unfold resolve
  split
  case h_1 hkind | h_2 hkind | h_3 hkind =>
    rw [hkind] at h
    cases h
  case h_4 => rfl

theorem number_prefixedHex (kind : TokenKind) (w : UInt32) :
    number ⟨kind, Bytes.prefixedHex w.toNat⟩ = .ok w := by
  unfold number
  rw [Bytes.readNumeral_prefixedHex]
  rfl

end Token

/-- The bytes of a statement with addresses in the words of its symbols, and those it has without. -/
structure Statement.Resolves (address : Bytes → UInt32) (st : Statement) (before after : Bytes) :
    Prop where
  length : after.length = before.length
  inside : ∀ o ∈ st.symbolOperands, after.Spells o.offset (address o.symbol)
  outside : ∀ i, (∀ o ∈ st.symbolOperands, ¬ (o.offset ≤ i ∧ i < o.offset + 4)) →
    after[i]? = before[i]?

theorem Statement.Resolves.of_nil {address : Bytes → UInt32} {st : Statement} {bytes : Bytes}
    (h : st.symbolOperands = []) : st.Resolves address bytes bytes := by
  refine ⟨rfl, ?_, fun _ _ => rfl⟩
  rw [h]
  exact List.forall_mem_nil _

theorem Statement.Resolves.unique {address : Bytes → UInt32} {st : Statement}
    {before after after' : Bytes} (h : st.Resolves address before after)
    (h' : st.Resolves address before after') : after = after' := by
  apply List.ext_getElem?
  intro i
  by_cases hi : ∃ o ∈ st.symbolOperands, o.offset ≤ i ∧ i < o.offset + 4
  · obtain ⟨o, ho, hle, hlt⟩ := hi
    have hword := (h.inside o ho (i - o.offset) (by omega)).trans
      (h'.inside o ho (i - o.offset) (by omega)).symm
    rw [Nat.add_sub_cancel' hle] at hword
    exact hword
  · have hout : ∀ o ∈ st.symbolOperands, ¬ (o.offset ≤ i ∧ i < o.offset + 4) :=
      fun o ho hcovers => hi ⟨o, ho, hcovers⟩
    rw [h.outside i hout, h'.outside i hout]

/-! ## Operands -/

namespace Operand

/-- An operand with the address in place of the symbol that it refers to. -/
def resolve (address : Bytes → UInt32) (o : Operand) : Operand :=
  match o.reference? with
  | some (name, _) => { mode := o.mode.literal, register := o.register, value := address name }
  | none => o

variable {symbols : SymbolTable} {t : Token} {o : Operand} (address : Bytes → UInt32)

theorem resolve_of_none (h : o.reference? = none) : o.resolve address = o := by
  unfold resolve
  rw [h]

theorem jump_resolve (h : jump symbols t = .ok o) (symbols' : SymbolTable) :
    jump symbols' (t.resolve address) = .ok (o.resolve address) := by
  unfold jump at h
  split at h
  case h_1 ht | h_2 ht | h_3 ht | h_4 ht =>
    obtain ⟨v, hv, h⟩ := except_bind_eq_ok.mp h
    cases h
    rw [Token.resolve_eq_self address ht rfl, jump, ht, hv]
    rfl
  case h_5 ht | h_6 ht =>
    obtain ⟨s, hs, h⟩ := except_bind_eq_ok.mp h
    cases h
    rw [Token.resolve, ht, jump]
    dsimp only
    rw [Token.number_prefixedHex]
    rfl
  case h_7 => cases h

theorem bracket_of_number {register offset : Bytes} {r : UInt8} {v : UInt32}
    (hread : Bracket.read? t.word = some ⟨register, some offset⟩)
    (hoffset : ¬ offset.isIdentifier = true)
    (hr : Token.register ⟨.register, 0x25 :: register⟩ = .ok r)
    (hv : Token.number ⟨.decimal, offset⟩ = .ok v) (symbols : SymbolTable) :
    bracket symbols t = .ok { mode := .registerIndirectLiteral, register := r, value := v } := by
  unfold bracket
  rw [hread]
  refine except_bind_eq_ok.mpr ⟨r, hr, ?_⟩
  dsimp only
  rw [if_neg hoffset]
  exact except_bind_eq_ok.mpr ⟨v, hv, rfl⟩

theorem bracket_resolve (ht : t.kind = .bracket) (h : bracket symbols t = .ok o)
    (symbols' : SymbolTable) :
    bracket symbols' (t.resolve address) = .ok (o.resolve address) := by
  unfold Token.resolve
  rw [ht]
  dsimp only
  unfold bracket at h
  rcases hb : Bracket.read? t.word with _ | ⟨register, _ | offset⟩
  · rw [hb] at h
    cases h
  · rw [hb] at h
    obtain ⟨r, hr, h⟩ := except_bind_eq_ok.mp h
    cases h
    dsimp only
    rw [bracket, hb]
    exact except_bind_eq_ok.mpr ⟨r, hr, rfl⟩
  · rw [hb] at h
    obtain ⟨r, hr, h⟩ := except_bind_eq_ok.mp h
    dsimp only at h ⊢
    split at h
    · next hid =>
      obtain ⟨s, hs, h⟩ := except_bind_eq_ok.mp h
      split at h
      · cases h
      · cases h
        rw [if_pos hid]
        have hread := Bracket.read?_spelling (Bracket.of_read? hb).1
          (Bracket.isOffset_prefixedHex (address offset).toNat)
        have hnumber := Bytes.not_isIdentifier_prefixedHex (address offset).toNat
        exact bracket_of_number hread (Bool.not_eq_true _ ▸ hnumber) hr
          (Token.number_prefixedHex _ _) symbols'
    · next hid =>
      obtain ⟨v, hv, h⟩ := except_bind_eq_ok.mp h
      cases h
      rw [if_neg hid]
      exact bracket_of_number hb hid hr hv symbols'

theorem data_resolve (h : data symbols t = .ok o) (symbols' : SymbolTable) :
    data symbols' (t.resolve address) = .ok (o.resolve address) := by
  unfold data at h
  split at h
  case h_1 ht =>
    unfold data
    rw [Token.kind_resolve, ht]
    exact bracket_resolve address ht h symbols'
  case h_2 ht | h_3 ht | h_4 ht | h_5 ht | h_6 ht | h_7 ht =>
    obtain ⟨v, hv, h⟩ := except_bind_eq_ok.mp h
    cases h
    rw [Token.resolve_eq_self address ht rfl, data, ht, hv]
    rfl
  case h_8 ht | h_9 ht =>
    obtain ⟨s, hs, h⟩ := except_bind_eq_ok.mp h
    cases h
    rw [Token.resolve, ht, data]
    dsimp only
    rw [Token.number_prefixedHex]
    rfl
  case h_10 => cases h

/-- A store to brackets or to a number goes to no symbol by itself. -/
theorem mode_of_data (h : data symbols t = .ok o) (hsymbol : t.kind ≠ .symbol)
    (hliteral : t.kind ≠ .symbolLiteral) : o.mode ≠ .symbolic ∧ o.mode ≠ .symbolicIndirect := by
  unfold data at h
  split at h
  case h_1 =>
    unfold bracket at h
    split at h
    · cases h
    · obtain ⟨r, -, h⟩ := except_bind_eq_ok.mp h
      split at h
      · cases h
        exact ⟨AddressMode.noConfusion, AddressMode.noConfusion⟩
      · split at h
        · obtain ⟨s, -, h⟩ := except_bind_eq_ok.mp h
          split at h
          · cases h
          · cases h
            exact ⟨AddressMode.noConfusion, AddressMode.noConfusion⟩
        · obtain ⟨v, -, h⟩ := except_bind_eq_ok.mp h
          cases h
          exact ⟨AddressMode.noConfusion, AddressMode.noConfusion⟩
  case h_2 | h_3 | h_4 | h_5 | h_6 | h_7 =>
    obtain ⟨v, -, h⟩ := except_bind_eq_ok.mp h
    cases h
    exact ⟨AddressMode.noConfusion, AddressMode.noConfusion⟩
  case h_8 ht => exact absurd ht hsymbol
  case h_9 ht => exact absurd ht hliteral
  case h_10 => cases h

theorem reference_resolve : (o.resolve address).reference? = none := by
  unfold resolve
  split
  · rfl
  · next h => exact h

theorem register_resolve : (o.resolve address).register = o.register := by
  unfold resolve
  split
  · rfl
  · rfl

/-- A number selects the form that the symbol selects, except where a store goes to a bare one. -/
theorem opcode_resolve {i : Instruction}
    (h : i.shape = .store → o.mode ≠ .symbolic ∧ o.mode ≠ .symbolicIndirect) :
    (o.resolve address).opcode i = o.opcode i := by
  have hdirect : isDirect i.shape o.mode.literal = isDirect i.shape o.mode := by
    unfold isDirect
    by_cases hs : i.shape = .store
    · obtain ⟨hsymbolic, hindirect⟩ := h hs
      rw [if_pos hs]
      cases hm : o.mode <;> simp_all [AddressMode.literal]
    · rw [if_neg hs]
      cases o.mode <;> simp [AddressMode.literal]
  unfold resolve
  split
  · unfold opcode
    dsimp only
    rw [hdirect]
  · rfl

end Operand

/-! ## Instructions -/

/-- A number may stand where a symbol may. -/
theorem Shape.accepts_literal {shape : Shape} {accepts : TokenKind → Bool}
    (ha : accepts ∈ shape.arguments) {kind : TokenKind} (hk : accepts kind = true) :
    accepts kind.literal = true := by
  have hnumbers : ∀ accepts ∈ shape.arguments,
      (accepts .symbol = true → accepts .hex = true) ∧
      (accepts .symbolLiteral = true → accepts .hexLiteral = true) := by
    cases shape <;> decide
  obtain ⟨hsymbol, hliteral⟩ := hnumbers accepts ha
  unfold TokenKind.literal
  split
  · exact hsymbol hk
  · exact hliteral hk
  · exact hk

namespace Instruction

variable {symbols : SymbolTable} {i : Instruction} {arguments : List Token}
  (address : Bytes → UInt32)

theorem checkArguments_resolve (h : checkArguments i arguments = .ok ()) :
    checkArguments i (arguments.map (Token.resolve address)) = .ok () := by
  obtain ⟨hlength, hkinds⟩ := checkArguments_kinds h
  refine checkArguments_of_kinds (by rw [List.length_map, hlength]) ?_
  rw [List.zip_map_left]
  refine List.forall_mem_map.mpr fun ⟨t, accepts⟩ hx => ?_
  show accepts (t.resolve address).kind = true
  rw [Token.kind_resolve]
  exact Shape.accepts_literal (List.of_mem_zip hx).2 (hkinds _ hx)

/-- An instruction with a number in place of a symbol has the same fields, and the address for its
literal. -/
theorem operands_resolve (hc : checkArguments i arguments = .ok ())
    (hform : i.shape = .store → ∀ t ∈ arguments, t.kind ≠ .symbol ∧ t.kind ≠ .symbolLiteral)
    {fields : Fields} {operand? : Option Operand}
    (h : operands symbols i arguments = .ok (fields, operand?)) (symbols' : SymbolTable) :
    operands symbols' i (arguments.map (Token.resolve address)) =
      .ok (fields, operand?.map (Operand.resolve address)) := by
  have hkinds := (checkArguments_kinds hc).2
  have hsame (hs : i.shape.hasOperand = false) :
      arguments.map (Token.resolve address) = arguments.map id := by
    apply List.map_congr_left
    intro t ht
    exact Token.resolve_eq_self address rfl (by simp [isSilent_of_checkArguments hc hs t ht])
  have register {t : Token} {r : UInt8} (ht : t.kind.isGeneral = true) (hr : t.register = .ok r) :
      (t.resolve address).register = .ok r := by
    rw [Token.resolve_eq_self address rfl (by simp [TokenKind.isSilent, ht])]
    exact hr
  -- outside a store every operand keeps its form
  have opcode {o : Operand} (hne : i.shape ≠ .store) : (o.resolve address).opcode i = o.opcode i :=
    Operand.opcode_resolve address fun hstore => absurd hstore hne
  refine Fills.operands_eq ?_
  cases fills_of_operands h with
  | none hs => exact .none hs
  | jump hs ho =>
    rw [← opcode (by rw [hs]; decide), ← Operand.register_resolve address]
    exact .jump hs (Operand.jump_resolve address ho symbols')
  | branch hs hleft hright ho =>
    simp [hs, Shape.arguments] at hkinds
    rw [← opcode (by rw [hs]; decide), ← Operand.register_resolve address]
    exact .branch hs (register hkinds.1 hleft) (register hkinds.2.2.1 hright)
      (Operand.jump_resolve address ho symbols')
  | load hs ha ho =>
    simp [hs, Shape.arguments] at hkinds
    rw [← opcode (by rw [hs]; decide), ← Operand.register_resolve address]
    exact .load hs (register hkinds.2.2 ha) (Operand.data_resolve address ho symbols')
  | store hs hr ho =>
    simp [hs, Shape.arguments] at hkinds
    obtain ⟨hsymbol, hliteral⟩ := hform hs _ (List.mem_of_getLast? rfl)
    have hmode := Operand.mode_of_data ho hsymbol hliteral
    rw [← Operand.opcode_resolve address fun _ => hmode, ← Operand.register_resolve address]
    exact .store hs (register hkinds.1 hr) (Operand.data_resolve address ho symbols')
  -- without an operand there is nothing to rewrite, and the symbols do not matter
  | push hs hm hr =>
    rw [hsame (by rw [hs]; rfl), List.map_id]
    exact .push hs hm hr
  | pop hs hm hr =>
    rw [hsame (by rw [hs]; rfl), List.map_id]
    exact .pop hs hm hr
  | exchange hs hm hsource hdestination =>
    rw [hsame (by rw [hs]; rfl), List.map_id]
    exact .exchange hs hm hsource hdestination
  | twoRegisters hs hm hsource hdestination =>
    rw [hsame (by rw [hs]; rfl), List.map_id]
    exact .twoRegisters hs hm hsource hdestination
  | oneRegister hs hr =>
    rw [hsame (by rw [hs]; rfl), List.map_id]
    exact .oneRegister hs hr
  | control hs hb ha =>
    rw [hsame (by rcases hs with hs | hs <;> rw [hs] <;> rfl), List.map_id]
    exact .control hs hb ha

/-- The literal of an instruction stands behind its word. -/
theorem getElem?_encode {fields : Fields} {v v' : UInt32} (hi : i ∈ all) {k : Nat}
    (hk : ¬ (wordSize ≤ k ∧ k < wordSize + 4)) :
    (i.encode fields v)[k]? = (i.encode fields v')[k]? := by
  have hsize : wordSize = 4 := rfl
  unfold encode
  split
  · next hliteral =>
    have hlength : (fields.word.take i.wordLength).length = 4 := by
      rw [List.length_take, (shape_of_mem_all i hi).2.2 hliteral]
      rfl
    rcases Nat.lt_or_ge k 4 with hlt | hge
    · rw [List.getElem?_append_left (by omega), List.getElem?_append_left (by omega)]
    · rw [List.getElem?_eq_none (by simp [hlength]; omega),
        List.getElem?_eq_none (by simp [hlength]; omega)]
  · rfl

theorem emission_resolve {name : Bytes} (hi : find? name = some i)
    (hform : i.shape = .store → ∀ t ∈ arguments, t.kind ≠ .symbol ∧ t.kind ≠ .symbolLiteral)
    (h : (i.emission symbols arguments).complaint? = none) : ∃ bytes,
      (∀ symbols', i.emission symbols' (arguments.map (Token.resolve address)) = { bytes }) ∧
      (Statement.instruction name arguments).Resolves address
        (i.emission symbols arguments).bytes bytes := by
  have hmem : i ∈ all := List.mem_of_find?_eq_some hi
  obtain ⟨fields, operand?, hc, hops⟩ := operands_of_emission h
  have hafter (symbols' : SymbolTable) := emission_of_operands (checkArguments_resolve address hc)
    (operands_resolve address hc hform hops symbols')
  rw [emission_of_operands hc hops]
  rcases operands_names hc hops with ⟨rfl, hnone⟩ | ⟨o, t, rfl, hshape, hnames, harguments⟩
  · refine ⟨_, hafter, .of_nil ?_⟩
    simp [Statement.symbolOperands, hi, hnone]
  · simp only [Option.map_some, Option.bind_some, Operand.reference_resolve] at hafter
    refine ⟨_, hafter, ?_⟩
    have hliteral : i.hasLiteral = true := (shape_of_mem_all i hmem).1 hshape
    rcases hr : t.symbolOperand? i.shape with _ | ⟨symbol, type⟩
    · rw [hr] at hnames harguments
      rw [Operand.resolve_of_none address hnames.reference]
      apply Statement.Resolves.of_nil
      simp [Statement.symbolOperands, hi, harguments]
    · rw [hr] at hnames harguments
      have hvalue : (o.resolve address).value = address symbol := by
        unfold Operand.resolve
        rw [hnames.reference]
      have hoperands : (Statement.instruction name arguments).symbolOperands =
          [⟨wordSize, symbol, type⟩] := by
        simp [Statement.symbolOperands, hi, harguments]
      constructor
      · rw [length_encode hmem, length_encode hmem]
      · rw [hoperands, List.forall_mem_singleton]
        rw [Option.getD_some, hvalue]
        exact encode_spells hmem hliteral
      · rw [hoperands]
        intro k hk
        exact getElem?_encode hmem (hk _ List.mem_cons_self)

end Instruction

/-! ## Lists of words -/

namespace Token

variable {accepts : TokenKind → Bool} {Q : Token → Token → Prop}

theorem items_forall₂ (haccepts : ∀ t t', Q t t' → accepts t.kind = true → accepts t'.kind = true)
    (hcomma : ∀ t t', Q t t' → t.kind = .comma → t'.kind = .comma)
    {found found' arguments arguments' its : List Token} (hfound : List.Forall₂ Q found found')
    (harguments : List.Forall₂ Q arguments arguments') (h : items accepts found arguments = .ok its) :
    ∃ its', items accepts found' arguments' = .ok its' ∧ List.Forall₂ Q its its' := by
  fun_induction items accepts found arguments generalizing found' arguments' with
  | case1 found =>
    cases h
    cases harguments
    exact ⟨_, rfl, List.rel_reverse hfound⟩
  | case2 => cases h
  | case3 found item hitem =>
    cases h
    obtain ⟨item', _, hitem', hnil, rfl⟩ := List.forall₂_cons_left_iff.mp harguments
    cases hnil
    refine ⟨(item' :: found').reverse, ?_, List.rel_reverse (hfound.cons hitem')⟩
    rw [items, haccepts item item' hitem' (by simpa using hitem)]
    rfl
  | case4 => cases h
  | case5 found item hitem separator rest hseparator ih =>
    obtain ⟨item', _, hitem', hrest, rfl⟩ := List.forall₂_cons_left_iff.mp harguments
    obtain ⟨separator', rest', hseparator', hrest', rfl⟩ := List.forall₂_cons_left_iff.mp hrest
    have hitem := haccepts item item' hitem' (by simpa using hitem)
    have hseparator := hcomma separator separator' hseparator' (by simpa using hseparator)
    rw [items, hitem, Bool.not_true, if_neg Bool.false_ne_true, if_neg (fun hne => hne hseparator)]
    exact ih (hfound.cons hitem') hrest' h

/-- A list is one too when its tokens are replaced by others that may stand where they do. -/
theorem listOf_forall₂ (haccepts : ∀ t t', Q t t' → accepts t.kind = true → accepts t'.kind = true)
    (hcomma : ∀ t t', Q t t' → t.kind = .comma → t'.kind = .comma) {head : Bytes}
    {arguments arguments' its : List Token} (harguments : List.Forall₂ Q arguments arguments')
    (h : listOf head accepts arguments = .ok its) :
    ∃ its', listOf head accepts arguments' = .ok its' ∧ List.Forall₂ Q its its' := by
  unfold listOf at h ⊢
  rw [← harguments.length_eq]
  split at h
  · cases h
  · next hodd =>
    rw [if_neg hodd]
    exact items_forall₂ haccepts hcomma .nil harguments h

end Token

namespace Emission

variable {symbols : SymbolTable} (address : Bytes → UInt32)

/-- The value of an item with the address in place of its symbol. -/
def resolveItem (v : UInt32 × Option Bytes) : UInt32 × Option Bytes :=
  ((v.2.map address).getD v.1, none)

theorem wordItem_resolve {t : Token} (ht : t.kind.isWordItem = true) {v : UInt32 × Option Bytes}
    (h : wordItem symbols t = .ok v) (symbols' : SymbolTable) :
    wordItem symbols' (t.resolve address) = .ok (resolveItem address v) := by
  unfold wordItem at h
  split at h
  · next hkind =>
    obtain ⟨s, hs, h⟩ := except_bind_eq_ok.mp h
    cases h
    unfold wordItem Token.resolve
    rw [hkind]
    dsimp only
    rw [if_neg (by decide), Token.number_prefixedHex]
    rfl
  · next hkind =>
    obtain ⟨w, hw, h⟩ := except_bind_eq_ok.mp h
    cases h
    have hnumber : t.kind = .decimal ∨ t.kind = .hex := by simpa [TokenKind.isWordItem, hkind] using ht
    have hsame : t.resolve address = t := by
      rcases hnumber with hnumber | hnumber <;> exact Token.resolve_eq_self address hnumber rfl
    unfold wordItem
    rw [hsame, if_neg hkind, hw]
    rfl

theorem listOf_resolve {head : Bytes} {arguments its : List Token}
    (h : Token.listOf head TokenKind.isWordItem arguments = .ok its) :
    Token.listOf head TokenKind.isWordItem (arguments.map (Token.resolve address)) =
      .ok (its.map (Token.resolve address)) := by
  have hmap (ts : List Token) :
      List.Forall₂ (fun t t' => t.resolve address = t') ts (ts.map (Token.resolve address)) :=
    List.forall₂_map_right_iff.mpr (List.forall₂_same.mpr fun _ _ => rfl)
  have haccepts (t t' : Token) (ht : t.resolve address = t') (hk : t.kind.isWordItem = true) :
      t'.kind.isWordItem = true := by
    rw [← ht, Token.kind_resolve]
    cases hkind : t.kind <;> rw [hkind] at hk <;> exact hk
  have hcomma (t t' : Token) (ht : t.resolve address = t') (hk : t.kind = .comma) :
      t'.kind = .comma := by
    rw [← ht, Token.kind_resolve, hk]
    rfl
  obtain ⟨its', hits', hforall⟩ := Token.listOf_forall₂ haccepts hcomma (hmap arguments) h
  have heq : its.map (Token.resolve address) = its' := by
    rw [← List.forall₂_eq_eq_eq, List.forall₂_map_left_iff]
    exact hforall
  rw [hits', heq]

theorem values_resolve {its : List Token} {vals : List (UInt32 × Option Bytes)}
    (hits : ∀ t ∈ its, t.kind.isWordItem = true) (h : its.map (wordItem symbols) = vals.map .ok)
    (symbols' : SymbolTable) : (its.map (Token.resolve address)).map (wordItem symbols') =
      (vals.map (resolveItem address)).map .ok := by
  have hitem : ∀ t ∈ its, wordItem symbols' (t.resolve address) =
      (wordItem symbols t).map (resolveItem address) := by
    intro t ht
    have hmem : wordItem symbols t ∈ its.map (wordItem symbols) := List.mem_map_of_mem ht
    rw [h] at hmem
    obtain ⟨v, -, hv⟩ := List.mem_map.mp hmem
    rw [← hv, wordItem_resolve address (hits t ht) hv.symm symbols']
    rfl
  calc (its.map (Token.resolve address)).map (wordItem symbols')
      = its.map fun t => (wordItem symbols t).map (resolveItem address) := by
        rw [List.map_map]
        exact List.map_congr_left hitem
    _ = (its.map (wordItem symbols)).map (Except.map (resolveItem address)) := by
        rw [List.map_map]
        rfl
    _ = (vals.map (resolveItem address)).map .ok := by
        rw [h, List.map_map, List.map_map]
        rfl

theorem resolves_words {arguments : List Token} {vals : List (UInt32 × Option Bytes)}
    (h : (Token.listed arguments).map (wordItem symbols) = vals.map .ok) :
    (Statement.directive .words arguments).Resolves address
      (vals.flatMap fun v => Bytes.ofWord v.1)
      ((vals.map (resolveItem address)).flatMap fun v => Bytes.ofWord v.1) := by
  constructor
  · rw [length_flatMap_ofWord, length_flatMap_ofWord, List.length_map]
  · intro o ho
    obtain ⟨n, t, ht, hkind, rfl⟩ := mem_wordOperands.mp ho
    obtain ⟨v, hv, hitem⟩ := exists_value h ht
    have hresolved : (vals.map (resolveItem address))[n]? = some (address t.word, none) := by
      rw [List.getElem?_map, hv, Option.map_some, resolveItem, wordItem_reference hkind hitem]
      rfl
    have hspell := spells_flatMap_ofWord hresolved
    exact hspell
  · intro i hout
    have hi : i = 4 * (i / 4) + i % 4 := by omega
    have hj : i % 4 < 4 := by omega
    rw [hi, getElem?_flatMap_ofWord _ _ hj, getElem?_flatMap_ofWord _ _ hj, List.getElem?_map]
    rcases ht : (Token.listed arguments)[i / 4]? with _ | t
    · have hnone : vals[i / 4]? = none := by
        have hlength := congrArg List.length h
        rw [List.length_map, List.length_map] at hlength
        rw [List.getElem?_eq_none_iff] at ht ⊢
        omega
      rw [hnone]
      rfl
    · obtain ⟨v, hv, hitem⟩ := exists_value h ht
      have hkind : t.kind ≠ .symbol := by
        intro hkind
        apply hout _ (mem_wordOperands.mpr ⟨i / 4, t, ht, hkind, rfl⟩)
        dsimp only
        omega
      have hsame : (resolveItem address v).1 = v.1 := by
        rw [resolveItem, wordItem_number hkind hitem]
        rfl
      rw [hv, Option.map_some, Option.bind_some, Option.bind_some, hsame]

theorem words_resolve {arguments : List Token} (h : (words symbols arguments).complaint? = none) :
    ∃ bytes, (∀ symbols', words symbols' (arguments.map (Token.resolve address)) = { bytes }) ∧
      (Statement.directive .words arguments).Resolves address (words symbols arguments).bytes
        bytes := by
  obtain ⟨its, vals, hits, hvals⟩ := values_of_words h
  have hkinds : ∀ t ∈ its, t.kind.isWordItem = true := fun t ht => (Token.of_mem_listOf hits ht).2
  refine ⟨(vals.map (resolveItem address)).flatMap fun v => Bytes.ofWord v.1, fun symbols' => ?_, ?_⟩
  · rw [words_of_values (listOf_resolve address hits) (values_resolve address hkinds hvals symbols')]
    congr 1
    -- an item that is resolved names no symbol
    rw [List.filterMap_eq_nil_iff]
    rintro ⟨⟨w, symbol?⟩, n⟩ hmem
    obtain ⟨v, -, hv⟩ := List.mem_map.mp (List.fst_mem_of_mem_zipIdx hmem)
    cases hv
    rfl
  · rw [words_of_values hits hvals]
    obtain rfl : its = Token.listed arguments := Token.listOf_eq_ok rfl hits
    exact resolves_words address hvals

end Emission

/-! ## Statements -/

namespace Statement

/-- A store to a bare symbol, which has the other form than a store to its address. -/
def storesToSymbol : Statement → Bool
  | .instruction name arguments =>
    match Instruction.find? name with
    | some i => i.shape = .store &&
        arguments.any fun t => t.kind = .symbol || t.kind = .symbolLiteral
    | none => false
  | _ => false

/-- A statement with addresses in place of its symbols emits the same bytes as before with the
addresses in the words of the symbols. It refers to no symbol, whatever the symbols are. -/
theorem emission_resolve {symbols : SymbolTable} {st : Statement} (address : Bytes → UInt32)
    (h : (st.emission symbols).complaint? = none) (hform : st.storesToSymbol = false) :
    ∃ bytes, (∀ symbols', (st.resolve address).emission symbols' = { bytes }) ∧
      st.Resolves address (st.emission symbols).bytes bytes := by
  match st with
  | .directive .words arguments => exact Emission.words_resolve address h
  | .directive .skip arguments =>
    refine ⟨(Emission.skip arguments).bytes, fun _ => ?_, .of_nil rfl⟩
    show Emission.skip arguments = _
    have h : (Emission.skip arguments).complaint? = none := h
    unfold Emission.skip at h ⊢
    split at h
    · cases h
    · rfl
  | .instruction name arguments =>
    rcases hi : Instruction.find? name with _ | i
    · rw [emission_unknown hi]
      refine ⟨[], fun symbols' => emission_unknown hi symbols' _, .of_nil ?_⟩
      simp [symbolOperands, hi]
    · rw [emission_instruction hi] at h ⊢
      have hbare : i.shape = .store →
          ∀ t ∈ arguments, t.kind ≠ .symbol ∧ t.kind ≠ .symbolLiteral := by
        intro hstore
        simpa [storesToSymbol, hi, hstore] using hform
      obtain ⟨bytes, hbytes, hresolves⟩ := Instruction.emission_resolve address hi hbare h
      refine ⟨bytes, fun symbols' => ?_, hresolves⟩
      exact (emission_instruction hi symbols' _).trans (hbytes symbols')
  | .nothing | .stop | .directive .globals _ | .directive .externs _ | .directive .openSection _
  | .stray _ => exact ⟨[], fun _ => rfl, .of_nil rfl⟩

end Statement

end AsmKit
