import AsmKit.Source.Emission

/-
  Where the statements of a source go, told from the source alone: which section a statement opens
  (`opens?`), how many bytes it takes (`size`) and which of its operands name a symbol
  (`symbolOperands`). A `Layout` adds this up over the lines read so far. Pass one measures and
  pass two writes what the layout says; neither is mentioned here.
-/

namespace AsmKit

/-- An operand that names a symbol, and how its word is to be filled. -/
structure SymbolOperand where
  /-- Where the word is, from the start of the statement. -/
  offset : Nat
  symbol : Bytes
  type : RelocationType
deriving DecidableEq, Repr

namespace Token

/-- The items of a list with commas between them. -/
def listed (arguments : List Token) : List Token := arguments.filter fun t => t.kind ≠ .comma

/-- The symbol that an argument of an instruction names. A bare symbol is read through by a load or
a store and is an address elsewhere. -/
def symbolOperand? (shape : Shape) (t : Token) : Option (Bytes × RelocationType) :=
  match t.kind with
  | .symbol => some (t.word, if shape = .load ∨ shape = .store then .symbolIndirect else .symbol)
  | .symbolLiteral => some (t.word, .symbol)
  | .bracket =>
    match Bracket.read? t.word with
    | some ⟨_, some offset⟩ => if offset.isIdentifier then some (offset, .symbol) else none
    | _ => none
  | _ => none

end Token

namespace Statement

/-- The section that a statement opens. -/
def opens? : Statement → Option Bytes
  | .directive .openSection (t :: _) => some t.word
  | _ => none

/-- The number of bytes that a statement takes. -/
def size : Statement → Nat
  | .directive .words arguments => 4 * (Token.listed arguments).length
  | .directive .skip arguments =>
    match Emission.skipCount arguments with
    | .ok n => n.toNat
    | .error _ => 0
  | .instruction name _ =>
    match Instruction.find? name with
    | some i => i.size.toNat
    | none => 0
  | _ => 0

/-- The operands of a statement that name symbols, in order. -/
def symbolOperands : Statement → List SymbolOperand
  | .directive .words arguments =>
    (Token.listed arguments).zipIdx.filterMap fun (t, n) =>
      if t.kind = .symbol then some ⟨4 * n, t.word, .symbol⟩ else none
  | .instruction name arguments =>
    match Instruction.find? name with
    | some i => (arguments.filterMap (Token.symbolOperand? i.shape)).map fun (symbol, type) =>
        ⟨Instruction.wordSize, symbol, type⟩
    | none => []
  | _ => []

theorem symbolOperands_of_opens {st : Statement} {name : Bytes} (h : st.opens? = some name) :
    st.symbolOperands = [] := by
  unfold opens? at h
  split at h
  · rfl
  · cases h

end Statement

/-- Where a source has got to: the section its statements belong to, and how many bytes it has put
into each section. -/
structure Layout where
  current : Bytes := undefinedSection
  extent : Bytes → Nat := fun _ => 0

/-- Where the word of a symbol operand stands. -/
structure Site where
  sectionName : Bytes
  offset : Nat
  symbol : Bytes
  type : RelocationType
deriving DecidableEq, Repr

/-- The relocation that a site asks for. -/
def Site.relocation (s : Site) : Relocation :=
  ⟨s.symbol, s.type, UInt32.ofNat s.offset, s.sectionName⟩

namespace Layout

/-- The layout behind one more line. -/
def step (y : Layout) (l : SourceLine) : Layout :=
  match l.statement.opens? with
  | some name => { y with current := name }
  | none => { y with extent := fun n =>
      if n = y.current then y.extent n + l.statement.size else y.extent n }

/-- The layout behind some lines of a source. -/
def after (lines : List SourceLine) : Layout := lines.foldl step {}

/-- The sites of a line, behind what its section holds already. -/
def sitesOfLine (y : Layout) (l : SourceLine) : List Site :=
  l.statement.symbolOperands.map fun o =>
    ⟨y.current, y.extent y.current + o.offset, o.symbol, o.type⟩

/-- The sites of some lines, in order. -/
def sites (y : Layout) : List SourceLine → List Site
  | [] => []
  | l :: ls => y.sitesOfLine l ++ sites (y.step l) ls

theorem step_current_of_opens {y : Layout} {l : SourceLine} {name : Bytes}
    (h : l.statement.opens? = some name) : y.step l = { y with current := name } := by
  unfold step
  rw [h]

theorem step_of_not_opens {y : Layout} {l : SourceLine} (h : l.statement.opens? = none) :
    y.step l = { y with extent := fun n =>
      if n = y.current then y.extent n + l.statement.size else y.extent n } := by
  unfold step
  rw [h]

/-- Bytes are only added. -/
theorem extent_le_step (y : Layout) (l : SourceLine) (n : Bytes) :
    y.extent n ≤ (y.step l).extent n := by
  unfold step
  split
  · exact Nat.le_refl _
  · dsimp only
    split
    · exact Nat.le_add_right _ _
    · exact Nat.le_refl _

end Layout

end AsmKit
