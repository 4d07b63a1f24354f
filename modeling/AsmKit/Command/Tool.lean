import AsmKit.Assembler.Basic
import AsmKit.Command.Files
import AsmKit.Command.Flags
import AsmKit.Command.Placements
import AsmKit.Linker.Generate
import AsmKit.Listing.Dump
import AsmKit.Object.Reader

/-
  The three commands: assemble a source, link objects, list an object. A command first reads its
  arguments, then its files, and writes its output last.
-/

namespace AsmKit

open Error (Cause)

/-- What commands are built on: a library for their arguments, the files, and the tree in which the
linker looks for overlapping sections. -/
structure Platform where
  flags : FlagLibrary
  files : FileSystem
  tree : IntervalTree Span

/-- The platform of the parts that are given here. -/
def Platform.standard : Platform where
  flags := .posix
  files := .hierarchy
  tree := .sorted Span

inductive Tool where
  | assembler
  | linker
  | lister
deriving DecidableEq, Repr

namespace Tool

def name : Tool → Bytes
  | .assembler => text "assembler"
  | .linker => text "linker"
  | .lister => text "objdump"

def useLine : Tool → Bytes
  | .assembler => text "assembler <input>.s -o <output> [flags]"
  | .linker =>
    text "linker [-hex] [-place=<section>@<address>]... -o <output> <input>... [flags]"
  | .lister => text "objdump [object] [flags]"

def outputFlag : Bytes := text "output"
def debugFlag : Bytes := text "debug"
def hexFlag : Bytes := text "hex"
def placeFlag : Bytes := text "place"
def rawFlag : Bytes := text "raw"
def verbosityFlag : Bytes := text "v"

/-- The flags of a tool that others do not have. -/
def ownFlags : Tool → List Flag
  | .assembler => [.option outputFlag (some 0x6F), .switch debugFlag none]
  | .linker =>
    [.option outputFlag (some 0x6F), .switch hexFlag none, .option placeFlag none,
     .switch debugFlag none]
  | .lister => [.switch rawFlag none]

/-- The names that may also be written with one dash. -/
def longNames : Tool → List Bytes
  | .assembler => [debugFlag]
  | .linker => [hexFlag, placeFlag, debugFlag]
  | .lister => [rawFlag]

/-- Holds the arguments that are not flags to the number that the tool takes. -/
def checkCount (flags : FlagLibrary) : Tool → List Bytes → Except Cause Unit
  | .assembler => flags.exactly 1
  | .linker => flags.atLeast 1
  | .lister => flags.atMost 1

/-- A complaint about the arguments. -/
def usage (t : Tool) (cause : Cause) : Error :=
  .because { kind := .usage, name := t.useLine } (.plain cause)

/-- What the arguments say. Those of a call for help are not counted. -/
def request (flags : FlagLibrary) (t : Tool) (arguments : List Bytes) : Except Error Request := do
  match ← (flags.read t.useLine (t.ownFlags ++ flags.common)
      (CommandLine.normalize t.longNames arguments)).mapError t.usage with
  | .answered output => return .answered output
  | .given c =>
    (t.checkCount flags c.arguments).mapError t.usage
    return .given c

end Tool

/-- What a command sees and leaves behind. -/
structure Shell (p : Platform) where
  files : p.files.State
  input : Bytes := []
  output : Bytes := []
  log : List Event := []
  /-- Whether tables were shown for inspection. -/
  isDumped : Bool := false

/-- A command: it may fail, and keeps what it did until then. -/
abbrev Command (p : Platform) := ExceptT Error (StateM (Shell p))

namespace Command

variable {p : Platform}

def liftExcept {α : Type} : Except Error α → Command p α
  | .ok a => pure a
  | .error e => throw e

def record (events : List Event) : Command p Unit :=
  modify fun s => { s with log := s.log ++ events }

def markDumped (debug : Bool) : Command p Unit :=
  modify fun s => { s with isDumped := s.isDumped || debug }

def readFile (path : Bytes) : Command p Bytes := do
  liftExcept ((p.files.read (← get).files path).mapError Error.plain)

/-- The path that the output goes to. -/
def outputPath (t : Tool) (c : CommandLine) : Command p Bytes :=
  let path := c.word Tool.outputFlag
  if path.isEmpty then throw (.about .usage t.useLine) else pure path

def writeFile (path contents : Bytes) : Command p Unit := do
  record [.writing path]
  let written := p.files.write path contents (← get).files
  modify fun s => { s with files := written.2 }
  liftExcept (written.1.mapError Error.plain)

/-- Reads an object from a file. -/
def readObject (path : Bytes) : Command p Object := do
  match p.files.read (← get).files path with
  | .ok contents => liftExcept (Object.read path contents)
  | .error (.cannotRead path reason) =>
    throw (.because { kind := .malformedObject, file := path } (.plain (.cannotRead path reason)))
  | .error cause => throw (.plain cause)

/-- Assembles a source file into an object file. -/
def assemble (c : CommandLine) : Command p Unit := do
  let path ← outputPath .assembler c
  let input := c.arguments.headD []
  let source ← readFile input
  let (result, log) := Object.assemble input source
  record log
  match result with
  | .error (.failed e) => throw e
  | .error .crashed => throw (.bare .internal)
  | .ok obj =>
    markDumped (c.isOn Tool.debugFlag)
    writeFile path obj.print

/-- Links object files into a listing or an image. -/
def link (c : CommandLine) : Command p Unit := do
  let path ← outputPath .linker c
  let (placements, warnings) := Placements.read (c.words Tool.placeFlag)
  record warnings
  let placements ← liftExcept placements
  let objects ← c.arguments.mapM readObject
  let (result, log) := Executable.link p.tree placements objects
  record log
  let exe ← liftExcept result
  markDumped (c.isOn Tool.debugFlag)
  writeFile path (if c.isOn Tool.hexFlag then exe.hexListing else exe.image)

/-- The object to list, from a file or from the input. -/
def readListed (c : CommandLine) : Command p Object := do
  match c.arguments with
  | [path] => readObject path
  | _ => liftExcept (Object.read (text "<stdin>") (← get).input)

/-- Lists an object. -/
def list (c : CommandLine) : Command p Unit := do
  let obj ← readListed c
  if c.isOn Tool.rawFlag then
    markDumped true
  else
    modify fun s => { s with output := s.output ++ obj.dump }

def ofTool (t : Tool) (c : CommandLine) : Command p Unit :=
  match t with
  | .assembler => assemble c
  | .linker => link c
  | .lister => list c

end Command

namespace Tool

/-- How a tool did. -/
structure Execution (p : Platform) where
  shell : Shell p
  error? : Option Error
  verbosity : Int32

/-- Runs a tool. -/
def run {p : Platform} (t : Tool) (arguments : List Bytes) (shell : Shell p) : Execution p :=
  match t.request p.flags arguments with
  | .error e => { shell, error? := some e, verbosity := 0 }
  | .ok (.answered output) =>
    { shell := { shell with output := shell.output ++ output }, error? := none, verbosity := 0 }
  | .ok (.given c) =>
    let (result, shell) := Command.ofTool t c shell
    let error? := match result with
      | .ok () => none
      | .error e => some e
    { shell, error?, verbosity := c.level verbosityFlag }

namespace Execution

variable {p : Platform}

/-- The line a log shows for an event: for a warning always, for others as asked for. -/
def logLine? (verbosity : Int32) (e : Event) : Option Bytes :=
  match e.level with
  | .warning => some (text "W " ++ e.message)
  | .milestone => if 1 ≤ verbosity then some (text "I " ++ e.message) else none
  | .detail => if 2 ≤ verbosity then some (text "I " ++ e.message) else none

/-- The diagnostic lines. -/
def diagnostics (x : Execution p) (t : Tool) : List Bytes :=
  x.shell.log.filterMap (logLine? x.verbosity)
    ++ x.error?.toList.map fun e => text "E " ++ t.name ++ text ": " ++ e.message

def exitCode (x : Execution p) : Nat := if x.error?.isSome then 1 else 0

end Execution

end Tool

end AsmKit
