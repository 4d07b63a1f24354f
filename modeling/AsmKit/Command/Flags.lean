import AsmKit.Error

/-
  Flags on a command line. Commands leave it to a `FlagLibrary` to read their arguments and to count
  those that are not flags; what it makes of them is a `CommandLine`. `FlagLibrary.posix` reads
  `--name`, `--name=value` or `--name value`, and for a flag with a letter also `-x value`, `-xvalue`
  or `-x=value`; the letters of switches may stand in front of another flag's letter. Flags and
  other arguments may stand in any order, and `--` ends the flags.
-/

namespace AsmKit

open Error (Cause)

inductive Flag where
  /-- On or off; on where no value is given. -/
  | switch (name : Bytes) (letter? : Option UInt8)
  /-- Takes a text. -/
  | option (name : Bytes) (letter? : Option UInt8)
  /-- Takes a whole number, of which the low 32 bits count; the letter is the name too. -/
  | level (letter : UInt8)
deriving DecidableEq, Repr

namespace Flag

def dash : UInt8 := 0x2D
def equals : UInt8 := 0x3D

def name : Flag → Bytes
  | .switch name _ | .option name _ => name
  | .level letter => [letter]

def letter? : Flag → Option UInt8
  | .switch _ letter? | .option _ letter? => letter?
  | .level letter => some letter

/-- The value of a flag that stands without one, if it may. -/
def implied? : Flag → Option Bytes
  | .switch .. => some (text "true")
  | .option .. | .level _ => none

/-- How a flag is called in a complaint about its value. -/
def title (f : Flag) : Bytes :=
  match f.letter? with
  | some letter => text "-" ++ [letter] ++ text ", --" ++ f.name
  | none => text "--" ++ f.name

inductive Value where
  | truth (b : Bool)
  | word (s : Bytes)
  | number (n : Int32)
deriving DecidableEq, Repr

def read (f : Flag) (value : Bytes) : Except Cause Value :=
  match f with
  | .switch .. => (value.readBool.map Value.truth).mapError (.badFlagValue value f.title)
  | .option .. => .ok (.word value)
  | .level _ =>
    (value.readInt64.map fun n => Value.number n.toInt32).mapError (.badFlagValue value f.title)

end Flag

/-- What a command line says. -/
structure CommandLine where
  /-- The flags that were set, with their values, last first. -/
  settings : List (Flag × Flag.Value) := []
  /-- The other arguments, last first. -/
  rest : List Bytes := []
deriving DecidableEq, Repr

namespace CommandLine

def arguments (c : CommandLine) : List Bytes := c.rest.reverse

/-- The last value of a text flag. -/
def word (c : CommandLine) (name : Bytes) : Bytes :=
  (c.settings.findSome? fun (f, v) => match v with
    | .word s => if f.name == name then some s else none
    | _ => none).getD []

/-- Every value of a text flag, in order. -/
def words (c : CommandLine) (name : Bytes) : List Bytes :=
  c.settings.reverse.filterMap fun (f, v) => match v with
    | .word s => if f.name == name then some s else none
    | _ => none

/-- The last state of a switch. -/
def isOn (c : CommandLine) (name : Bytes) : Bool :=
  (c.settings.findSome? fun (f, v) => match v with
    | .truth b => if f.name == name then some b else none
    | _ => none).getD false

/-- The last value of a level. -/
def level (c : CommandLine) (name : Bytes) : Int32 :=
  (c.settings.findSome? fun (f, v) => match v with
    | .number n => if f.name == name then some n else none
    | _ => none).getD 0

/-- A long flag's name and, behind an equals sign, its value. -/
def splitValue (s : Bytes) : Bytes × Option Bytes :=
  match s.dropWhile (· != Flag.equals) with
  | [] => (s, none)
  | _ :: value => (s.takeWhile (· != Flag.equals), some value)

/-- Gives an argument with one dash the second one, if it is one of some long names, with or
without a value. -/
def lengthen (long : List Bytes) (arg : Bytes) : Bytes :=
  match arg with
  | 0x2D :: 0x2D :: _ => arg
  | 0x2D :: rest => if long.contains (splitValue rest).1 then Flag.dash :: arg else arg
  | _ => arg

/-- Arguments up to `--`, each lengthened where it is one of some long names. -/
def normalize (long : List Bytes) (arguments : List Bytes) : List Bytes :=
  let ended (arg : Bytes) : Bool := arg == [Flag.dash, Flag.dash]
  (arguments.takeWhile (!ended ·)).map (lengthen long) ++ arguments.dropWhile (!ended ·)

end CommandLine

/-- What a library makes of the arguments of a command. -/
inductive Request where
  /-- It has answered them itself, as it does a call for help. -/
  | answered (output : Bytes)
  | given (c : CommandLine)
deriving DecidableEq, Repr

/-- A library that reads command lines. -/
structure FlagLibrary where
  /-- The flags that every command has besides its own, as for its log. -/
  common : List Flag
  /-- Reads arguments, given how the command is used and its flags. -/
  read : Bytes → List Flag → List Bytes → Except Cause Request
  /-- Whether arguments that are not flags are as many as they should be. -/
  exactly : Nat → List Bytes → Except Cause Unit
  atLeast : Nat → List Bytes → Except Cause Unit
  atMost : Nat → List Bytes → Except Cause Unit

namespace CommandLine

def set (c : CommandLine) (f : Flag) (value : Bytes) : Except Cause CommandLine :=
  (f.read value).map fun v => { c with settings := (f, v) :: c.settings }

/-- What an argument is, where a flag may stand. -/
inductive Argument where
  | plain
  /-- The end of the flags. -/
  | finish
  /-- Flags with their values. -/
  | given (settings : List (Flag × Bytes))
  /-- Flags with their values, then one whose value is the next argument, and the complaint if
  there is none. -/
  | wanting (settings : List (Flag × Bytes)) (flag : Flag) (complaint : Cause)
deriving DecidableEq, Repr

/-- An argument that begins with two dashes. -/
def longArgument (flags : List Flag) (long : Bytes) : Except Cause Argument :=
  let arg := Flag.dash :: Flag.dash :: long
  if long.isEmpty then .ok .finish
  else if long.head? == some Flag.dash || long.head? == some Flag.equals then .error (.badFlagForm arg)
  else
    let (name, value?) := splitValue long
    match flags.find? fun f => f.name == name with
    | none => .error (.unknownFlag name)
    | some f =>
      match value?.or f.implied? with
      | some value => .ok (.given [(f, value)])
      | none => .ok (.wanting [] f (.flagNeedsValue arg))

/-- The value behind an equals sign, unless it is empty. -/
def assigned? : Bytes → Option Bytes
  | b :: value => if b == Flag.equals && !value.isEmpty then some value else none
  | [] => none

/-- Letters behind one dash, after those of the settings found already, which are held last first.
What belongs to a test run is left alone. -/
def letters (flags : List Flag) (found : List (Flag × Bytes)) : Bytes → Except Cause Argument
  | [] => .ok (.given found.reverse)
  | letter :: more =>
    if (text "test.").isPrefixOf (letter :: more) then .ok (.given found.reverse)
    else match flags.find? fun f => f.letter? == some letter with
      | none => .error (.unknownShorthand letter (letter :: more))
      | some f =>
        match assigned? more, f.implied? with
        | some value, _ => .ok (.given ((f, value) :: found).reverse)
        | none, some value => letters flags ((f, value) :: found) more
        | none, none =>
          if more.isEmpty then
            .ok (.wanting found.reverse f (.shorthandNeedsValue letter (letter :: more)))
          else .ok (.given ((f, more) :: found).reverse)

def argument (flags : List Flag) : Bytes → Except Cause Argument
  | 0x2D :: 0x2D :: long => longArgument flags long
  | 0x2D :: letter :: more => letters flags [] (letter :: more)
  | _ => .ok .plain

/-- Sets flags in turn. -/
def setAll (c : CommandLine) (settings : List (Flag × Bytes)) : Except Cause CommandLine :=
  settings.foldlM (fun c (f, value) => c.set f value) c

/-- Reads arguments, behind what was read before. -/
def read (flags : List Flag) (c : CommandLine) : List Bytes → Except Cause CommandLine
  | [] => .ok c
  | arg :: rest =>
    match argument flags arg with
    | .error e => .error e
    | .ok .plain => read flags { c with rest := arg :: c.rest } rest
    | .ok .finish => .ok { c with rest := rest.reverse ++ c.rest }
    | .ok (.given settings) =>
      match c.setAll settings with
      | .error e => .error e
      | .ok c => read flags c rest
    | .ok (.wanting settings f complaint) =>
      match rest with
      | [] => .error complaint
      | value :: rest =>
        match c.setAll (settings ++ [(f, value)]) with
        | .error e => .error e
        | .ok c => read flags c rest

/-- What the arguments say about flags and the rest. -/
def ofArguments (flags : List Flag) (arguments : List Bytes) : Except Cause CommandLine :=
  read flags {} arguments

end CommandLine

namespace FlagLibrary

def help : Flag := .switch (text "help") (some 0x68)

/-- Flags by name and by letter. There is a level for the log, and every command can be asked for
help. -/
def posix : FlagLibrary where
  common := [.level 0x76]
  read useLine flags arguments := do
    let c ← CommandLine.ofArguments (flags ++ [help]) arguments
    if c.isOn help.name then return .answered (text "Usage:\n  " ++ useLine ++ [Ascii.newline])
    else return .given c
  exactly n arguments :=
    if arguments.length = n then .ok () else .error (.exactArguments n arguments.length)
  atLeast n arguments :=
    if n ≤ arguments.length then .ok () else .error (.leastArguments n arguments.length)
  atMost n arguments :=
    if arguments.length ≤ n then .ok () else .error (.mostArguments n arguments.length)

end FlagLibrary

end AsmKit
