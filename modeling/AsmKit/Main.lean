import AsmKit.Command.Tool

/-
  The command line: the name of a tool, then the tool's arguments.
-/

namespace AsmKit

def Bytes.toByteArray (s : Bytes) : ByteArray := ⟨s.toArray⟩

/-- The string that bytes encode, empty if they encode none. -/
def Bytes.toString (s : Bytes) : String := (String.fromUTF8? s.toByteArray).getD ""

/-- Why a file cannot be had. -/
def reasonOf : IO.Error → Bytes
  | .noFileOrDirectory .. => Hierarchy.missing
  | e => text (ToString.toString e)

def readPath (path : Bytes) : IO (Except Error.Cause Bytes) := do
  try
    return .ok (← IO.FS.readBinFile path.toString).data.toList
  catch e =>
    return .error (.cannotOpen path (reasonOf e))

def writePath (path contents : Bytes) : IO (Except Error.Cause Unit) := do
  try
    IO.FS.writeBinFile path.toString contents.toByteArray
    return .ok ()
  catch e =>
    return .error (.cannotOpen path (reasonOf e))

def Tool.ofName? (name : String) : Option Tool :=
  [Tool.assembler, Tool.linker, Tool.lister].find? fun t => t.name == text name

/-- Files that were read beforehand, and the one that is to be written. -/
structure Staged where
  inputs : List (Bytes × Except Error.Cause Bytes)
  written? : Option (Bytes × Bytes) := none

def Staged.read (s : Staged) (path : Bytes) : Except Error.Cause Bytes :=
  (s.inputs.lookup path).getD (.error (.cannotOpen path Hierarchy.missing))

def FileSystem.staged : FileSystem where
  State := Staged
  read := Staged.read
  write path contents s := (.ok (), { s with written? := some (path, contents) })
  File := Bytes
  locate _ path := some path
  contents s path := (s.written?.filter fun w => w.1 == path).map Prod.snd |>.or (s.read path).toOption

/-- The files that the arguments name, or the standard input if they could name one and do not. -/
def readInputs (t : Tool) (arguments : List Bytes) :
    IO (List (Bytes × Except Error.Cause Bytes) × Bytes) := do
  match t.request .posix arguments with
  | .ok (.given c) =>
    if c.arguments.isEmpty then
      return ([], (← (← IO.getStdin).readBinToEnd).data.toList)
    else
      return (← c.arguments.mapM fun path => return (path, ← readPath path), [])
  | _ => return ([], [])

/-- Runs a tool on real files. -/
def runTool (t : Tool) (arguments : List Bytes) : IO UInt32 := do
  let (inputs, input) ← readInputs t arguments
  let platform : Platform := { Platform.standard with files := .staged }
  let x := t.run arguments ({ files := { inputs }, input } : Shell platform)
  let x ← match x.error?, x.shell.files.written? with
    | none, some (path, contents) =>
      match ← writePath path contents with
      | .ok () => pure x
      | .error cause => pure { x with error? := some (.plain cause) }
    | _, _ => pure x
  let stdout ← IO.getStdout
  stdout.write x.shell.output.toByteArray
  for line in x.diagnostics t do
    IO.eprintln line.toString
  return UInt32.ofNat x.exitCode

end AsmKit

open AsmKit

def main (args : List String) : IO UInt32 :=
  match args with
  | [] => do
    IO.eprintln "usage: (assembler | linker | objdump) arguments"
    return 1
  | name :: rest =>
    match Tool.ofName? name with
    | some t => runTool t (rest.map text)
    | none => do
      IO.eprintln s!"no tool is called {name}"
      return 1
