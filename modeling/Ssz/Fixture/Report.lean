-- SUMMARY: Running all cases of a directory and reporting which passed.
import Ssz.Fixture.Case

/-!
# Reports

The cases of a directory are its subdirectories, and they are run in the order of
their names. Whatever else lies in the directory is passed over.
-/

namespace Ssz.Fixture

structure Report where
  passed : List String
  failed : List (String × FixtureError)
  deriving DecidableEq, Repr

namespace Report

def empty : Report := ⟨[], []⟩

def total (report : Report) : Nat := report.passed.length + report.failed.length

def isSuccess (report : Report) : Bool := report.failed.isEmpty

/-- Put a case in front of those that were run after it. -/
def add (name : String) (outcome : Except FixtureError Unit) (report : Report) : Report :=
  match outcome with
  | .ok () => { report with passed := name :: report.passed }
  | .error e => { report with failed := (name, e) :: report.failed }

end Report

/-- The subdirectories among named entries. -/
def cases (entries : List (String × CaseEntry)) : List (String × Directory) :=
  entries.filterMap fun (name, entry) =>
    match entry with
    | .case dir => some (name, dir)
    | .plainFile => none

/-- The order of names is that of their bytes. -/
def nameLe (a b : String × Directory) : Bool :=
  !decide (b.1.toUTF8.toList < a.1.toUTF8.toList)

variable {α : Type} (format : BlockFormat)

/-- Run cases in the given order. -/
def runCases (s : Schema α) (path : String) : List (String × Directory) → Logged Report
  | [] => return Report.empty
  | (name, dir) :: rest => do
    let outcome ← runCase format s (joinPath path name) dir
    if let .error e := outcome then
      Logged.log .debug "fixture case failed" [("case", name), ("error", e.message)]
    let report ← runCases s path rest
    return report.add name outcome

/-- Run every case of a directory in the order of names. -/
def runDirectory (s : Schema α) (path : String) (entries : List (String × CaseEntry)) :
    Logged Report := do
  let sorted := (cases entries).mergeSort nameLe
  Logged.log .info "running fixture directory"
    [("dir", path), ("cases", toString sorted.length)]
  runCases format s path sorted

/-- Run a directory that may not be there, which is an error. -/
def runFixtures (s : Schema α) (path : String) (entries : Option (List (String × CaseEntry))) :
    Logged (Except FixtureError Report) :=
  match entries with
  | none => return .error (.access path)
  | some entries => do return .ok (← runDirectory format s path entries)

/-- Run the configured suite of one type and fork. A directory that is not there is skipped. -/
def runConformance (s : Schema α) (config : Config) (fork typeName : String)
    (entries : Option (List (String × CaseEntry))) : Logged (Except FixtureError Report) :=
  let path := config.typeDir fork typeName
  match entries with
  | none => do
    Logged.log .warn "fixture set not found, skipping" [("dir", path)]
    return .ok Report.empty
  | some entries => do return .ok (← runDirectory format s path entries)

end Ssz.Fixture
