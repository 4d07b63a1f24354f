import AsmKit.Linker.Basic

/-
  Addresses for sections. A section named by a placement goes to that address, later sections of
  its name directly behind it. All others follow behind the highest of these, by name in the order
  the names come up. Every section ends below the top of the 32-bit address space.
-/

namespace AsmKit

namespace Linker

/-- Every section of the objects being linked, in their order. -/
def occurrences (l : Linker) : List SectionRef :=
  l.linkedObjects.flatMap fun (n, obj) => obj.sections.map fun s => ⟨n, s.name⟩

/-- Puts a section at an address. The result is the address behind it. -/
def place (ref : SectionRef) (address : UInt32) : Linking UInt32 := do
  let l := (← get).toLinker
  let length := ((l.findSection ref).map Section.length).getD 0
  let file := l.fileName ref.object
  if 0xFFFFFFFF < address.toNat + length.toNat then
    throw (.because { kind := .addressOverflow, name := ref.name, file }
      (.plain (.bytesAt length address)))
  modifySection ref fun s => { s with location := address, isPlaced := true }
  record (.sectionPlaced ref.name file address length)
  return address + length

/-- The address where the next section of a name goes, if sections of the name have a place. The
result is the placement for it, used up, or the end of the section of its name before. -/
def takePlacement (ends : Placements) (name : Bytes) : Linking (Option UInt32) := do
  match ends.lookup name with
  | some address => return some address
  | none =>
    let p ← get
    match p.placements.lookup name with
    | none => return none
    | some address =>
      set { p with placements := p.placements.filter fun entry => entry.1 != name }
      return some address

/-- Puts the sections that placements name in their places. `ends` holds the end of the last
section of each such name, `top` the highest of them. The result is `top` and the sections left
over. -/
def placeNamed (ends : Placements) (top : UInt32) (others : List SectionRef) :
    List SectionRef → Linking (UInt32 × List SectionRef)
  | [] => return (top, others.reverse)
  | ref :: rest => do
    modifySection ref fun s => { s with isPlaced := false }
    match ← takePlacement ends ref.name with
    | none => placeNamed ends top (ref :: others) rest
    | some address =>
      let stop ← place ref address
      placeNamed ((ref.name, stop) :: ends) (max top stop) others rest

/-- Sections by name, the names in the order they come up. -/
def grouped (refs : List SectionRef) : List SectionRef :=
  (refs.map SectionRef.name).eraseDups.flatMap fun name => refs.filter fun ref => ref.name == name

/-- Puts sections one behind the other. -/
def placeRest (top : UInt32) : List SectionRef → Linking Unit
  | [] => return
  | ref :: rest => do
    let stop ← place ref top
    placeRest stop rest

def location (l : Linker) (ref : SectionRef) : UInt32 :=
  ((l.findSection ref).map Section.location).getD 0

/-- The placements that no section took, by message. -/
def unusedPlacements (placements : Placements) : List Bytes :=
  Ordered.sort (fun a b => Event.unusedMessage a ≤ Event.unusedMessage b) (placements.map Prod.fst)

/-- Gives every section its address. The result is the sections by address. -/
def formSections : Linking (List SectionRef) := do
  let refs := (← get).toLinker.occurrences
  let (top, others) ← placeNamed [] 0 [] refs
  (unusedPlacements (← get).placements).forM fun name => record (.placementUnused name)
  placeRest top (grouped others)
  let l := (← get).toLinker
  return Ordered.sort (fun a b => l.location a ≤ l.location b) refs

end Linker

end AsmKit
