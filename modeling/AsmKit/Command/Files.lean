import AsmKit.Error

/-
  Files, as commands use them: read whole and written whole, by path. `FileSystem` says no more than
  that. `FileSystem.hierarchy` has files in directories, with paths from the root or from the
  directory that a command is run in.
-/

namespace AsmKit

open Error (Cause)

structure FileSystem where
  State : Type
  read : State → Bytes → Except Cause Bytes
  /-- Gives the file that a path leads to new contents. -/
  write : Bytes → Bytes → State → Except Cause Unit × State
  /-- Files, apart from the paths that lead to them. -/
  File : Type
  locate : State → Bytes → Option File
  contents : State → File → Option Bytes

/-- Directories with files and directories in them. A location is a list of names, that of the root
empty and all others with the last name first. -/
structure Hierarchy where
  /-- What there is, by location: the contents of files, and nothing for a directory. The root is a
  directory that is not listed. -/
  entries : List (List Bytes × Option Bytes) := []
  /-- The location that a path starts from if it does not start with a slash. -/
  current : List Bytes := []
deriving DecidableEq, Repr

namespace Hierarchy

def slash : UInt8 := 0x2F

/-- The longest name of a file. -/
def nameLimit : Nat := 255

/-- The longest path. -/
def pathLimit : Nat := 4095

def missing : Bytes := text "no such file or directory"
def notDirectory : Bytes := text "not a directory"
def isDirectory : Bytes := text "is a directory"
def nameTooLong : Bytes := text "file name too long"

/-- What a path leads to. -/
inductive Place where
  /-- A location in a directory, which a file may have. -/
  | entry (location : List Bytes)
  /-- The same with a slash behind it. -/
  | slashed (location : List Bytes)
  /-- A directory that the path names by way of itself or of another. -/
  | directory
  /-- Nothing that could be reached. -/
  | blocked (reason : Bytes)
deriving DecidableEq, Repr

def get? (h : Hierarchy) (location : List Bytes) : Option (Option Bytes) := h.entries.lookup location

/-- Gives a file its contents, new or in place of what it held. -/
def put (h : Hierarchy) (location : List Bytes) (contents : Bytes) : Hierarchy :=
  { h with entries := (location, some contents) :: h.entries.filter fun e => e.1 != location }

/-- The parts of a path between its slashes, behind a part that is held last byte first. -/
def parts (part : Bytes) : Bytes → List Bytes
  | [] => [part.reverse]
  | b :: rest => if b == slash then part.reverse :: parts [] rest else parts (b :: part) rest

/-- A part of a path that stays where it is. -/
def staysPut (part : Bytes) : Bool := part.isEmpty || part == text "."

/-- Where the parts of a path lead from a directory. -/
def walk (h : Hierarchy) (location : List Bytes) : List Bytes → Place
  | [] => .directory
  | part :: rest =>
    if staysPut part then h.walk location rest
    else if part == text ".." then h.walk location.tail rest
    else if nameLimit < part.length then .blocked nameTooLong
    else if rest.isEmpty then .entry (part :: location)
    else if rest.all List.isEmpty then .slashed (part :: location)
    else match h.get? (part :: location) with
      | some none => h.walk (part :: location) rest
      | some (some _) => .blocked notDirectory
      | none => .blocked missing

def place (h : Hierarchy) (path : Bytes) : Place :=
  if path.isEmpty then .blocked missing
  else if pathLimit < path.length then .blocked nameTooLong
  else h.walk (if path.head? == some slash then [] else h.current) (parts [] path)

/-- The contents of a file. A directory can be opened, but not read. -/
def read (h : Hierarchy) (path : Bytes) : Except Cause Bytes :=
  match h.place path with
  | .entry location =>
    match h.get? location with
    | some (some contents) => .ok contents
    | some none => .error (.cannotRead path isDirectory)
    | none => .error (.cannotOpen path missing)
  | .slashed location =>
    match h.get? location with
    | some (some _) => .error (.cannotOpen path notDirectory)
    | some none => .error (.cannotRead path isDirectory)
    | none => .error (.cannotOpen path missing)
  | .directory => .error (.cannotRead path isDirectory)
  | .blocked reason => .error (.cannotOpen path reason)

/-- Writes a file whole, or not at all. -/
def write (path contents : Bytes) (h : Hierarchy) : Except Cause Unit × Hierarchy :=
  match h.place path with
  | .entry location =>
    match h.get? location with
    | some none => (.error (.cannotOpen path isDirectory), h)
    | _ => (.ok (), h.put location contents)
  | .slashed _ | .directory => (.error (.cannotOpen path isDirectory), h)
  | .blocked reason => (.error (.cannotOpen path reason), h)

/-- The file that a path leads to, there or not. -/
def locate (h : Hierarchy) (path : Bytes) : Option (List Bytes) :=
  match h.place path with
  | .entry location => some location
  | _ => none

def contents (h : Hierarchy) (location : List Bytes) : Option Bytes := (h.get? location).join

/-- A directory below the root with some files, as the current one. -/
def holding (files : List (Bytes × Bytes)) : Hierarchy :=
  let current := [text "run"]
  { entries := (current, none) :: files.map fun f => (f.1 :: current, some f.2), current }

/-- The files of the current directory that were not there as they are. -/
def changesFrom (h before : Hierarchy) : List (Bytes × Bytes) :=
  h.entries.filterMap fun e => match e with
    | (name :: location, some contents) =>
      if location = h.current ∧ before.contents (name :: location) ≠ some contents then
        some (name, contents)
      else none
    | _ => none

end Hierarchy

def FileSystem.hierarchy : FileSystem where
  State := Hierarchy
  read := Hierarchy.read
  write := Hierarchy.write
  File := List Bytes
  locate := Hierarchy.locate
  contents := Hierarchy.contents

end AsmKit
