import AsmKit.Object.Reader
import AsmKit.Proofs.Construction

/-
  Objects that are read from text. What one line of the text does to an object is said once
  (`Adds`): it adds a symbol or a section that the object does not have, bytes, a relocation, or
  nothing. So what every such addition keeps holds of every object that is read
  (`Object.read_induction`), as that its parts are in order (`Object.read_regular`).
-/

namespace AsmKit

open ObjectText

/-- What a line can do to the object that is being read. -/
inductive Object.Adds (line : Bytes) : Object → Object → Prop
  | nothing (obj : Object) : Adds line obj obj
  | symbol {obj : Object} {sym : Symbol} (hread : readSymbol line.trim.fields = .ok sym)
      (hnew : obj.symbols.get? sym.name = none) :
      Adds line obj { obj with symbols := obj.symbols.insert sym }
  | opening {obj : Object} {name : Bytes} (hmark : sectionMark.isPrefixOf line.trim = true)
      (hname : name = Bytes.trim (line.trim.drop sectionMark.length)) (hnew : name ∉ obj.sectionNames) :
      Adds line obj { obj with sections := obj.sections ++ [{ name }] }
  | bytes {obj : Object} (name code : Bytes) : Adds line obj (obj.modifySection name (·.append code))
  | relocation {obj : Object} {rel : Relocation} (hread : readRelocation line.trim.fields = .ok rel) :
      Adds line obj (obj.addRelocation rel)

namespace ObjectText.Reading

variable {r r' : Reading} {line : Bytes}

theorem adds_of_row (h : r.row line.trim = .ok r') : Object.Adds line r.object r'.object := by
  unfold row at h
  split at h
  · obtain ⟨sym, hread, h⟩ := except_bind_eq_ok.mp h
    split at h
    · cases h
    · next hnew =>
      cases h
      exact .symbol hread (by simpa using hnew)
  · split at h
    · cases h
    · obtain ⟨code, -, h⟩ := except_bind_eq_ok.mp h
      cases h
      exact .bytes _ code
  · obtain ⟨rel, hread, h⟩ := except_bind_eq_ok.mp h
    cases h
    exact .relocation hread
  · cases h

theorem adds_of_openSection (hmark : sectionMark.isPrefixOf line.trim = true)
    (h : r.openSection (Bytes.trim (line.trim.drop sectionMark.length)) = .ok r') :
    Object.Adds line r.object r'.object := by
  unfold openSection at h
  split at h
  · cases h
  · split at h
    · cases h
    · next object hadd =>
      cases h
      obtain ⟨hnew, rfl⟩ := Object.addSection_eq_ok_iff.mp hadd
      exact .opening hmark rfl hnew

theorem adds_of_line (h : r.line line.trim = .ok r') : Object.Adds line r.object r'.object := by
  unfold Reading.line at h
  split at h
  · cases h
    exact .nothing _
  split at h
  · cases h
    exact .nothing _
  split at h
  · cases h
    exact .nothing _
  split at h
  · cases h
    exact .nothing _
  split at h
  · next hmark => exact adds_of_openSection hmark h
  split at h
  · cases h
    exact .nothing _
  · exact adds_of_row h

theorem lines_induction {P : Object → Prop} {number : Nat} {ls : List Bytes}
    (h : r.lines number ls = .ok r') (hr : P r.object)
    (hadds : ∀ line ∈ ls, ∀ obj obj', Object.Adds line obj obj' → P obj → P obj') : P r'.object := by
  induction ls generalizing r number with
  | nil =>
    cases h
    exact hr
  | cons l rest ih =>
    unfold lines at h
    split at h
    · next r₁ hline =>
      have hr₁ := hadds l List.mem_cons_self _ _ (adds_of_line hline) hr
      exact ih h hr₁ fun line hline => hadds line (List.mem_cons_of_mem l hline)
    · cases h

end ObjectText.Reading

namespace Object

/-- What holds of an empty object and is kept by every line holds of what is read. -/
theorem read_induction {P : Object → Prop} {name s : Bytes} {obj : Object}
    (h : Object.read name s = .ok obj) (hstart : P { name })
    (hadds : ∀ line ∈ (Lines.read lineLimit s).lines, ∀ obj obj',
      Adds line obj obj' → P obj → P obj') : P obj := by
  unfold Object.read at h
  dsimp only at h
  split at h
  · cases h
  · next r hlines =>
    split at h
    · cases h
    · cases h
      exact Reading.lines_induction hlines hstart hadds

theorem Adds.regular {line : Bytes} {obj obj' : Object} (h : Adds line obj obj')
    (hobj : obj.Regular) : obj'.Regular := by
  cases h with
  | nothing => exact hobj
  | symbol => exact hobj.with_symbols (hobj.symbols.insert _)
  | opening hmark hname hnew => exact hobj.addSection (addSection_eq_ok_iff.mpr ⟨hnew, rfl⟩)
  | bytes name code => exact hobj.append name code
  | relocation => exact hobj.addRelocation _

theorem read_regular {name s : Bytes} {obj : Object} (h : Object.read name s = .ok obj) :
    obj.Regular :=
  read_induction h (regular_empty name) fun _ _ _ _ hadds hobj => hadds.regular hobj

end Object

end AsmKit
