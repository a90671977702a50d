import Rtl.Log
import Rtl.Pass.Info
import Rtl.Validity

/-! # Passes

A pass over modules becomes a pass over circuits by running it on each module, either one
module after another or by workers that report back in any order. A crash of a module pass
stops the first kind of run where it happens; of the second kind, only the affected module is
lost, and the run fails once all reports are in.
-/

namespace Rtl

inductive PipelineError where
  | missingPrerequisite (pass : String) (prerequisite : Prerequisite)
  | invalid (violations : List Violation)
  | unknownPass (name : String)
  | workerCrashed (pass : String) (module : String)
deriving DecidableEq

def PipelineError.message : PipelineError → String
  | missingPrerequisite pass prerequisite =>
      "pass `" ++ pass ++ "` requires `" ++ prerequisite.name ++ "` to have run first"
  | invalid violations =>
      "circuit failed verification with " ++ toString violations.length ++ " error(s)"
  | unknownPass name => "unknown pass `" ++ name ++ "`"
  | workerCrashed pass module =>
      "pass `" ++ pass ++ "` panicked while running over module `" ++ module ++ "`"

/-- Why a run yields no circuit. -/
inductive Failure where
  | error (error : PipelineError)
  | crash
deriving DecidableEq

/-- A pass over single modules. A run without a result has crashed. -/
structure ModulePass where
  info : PassInfo
  run : Module → Logged (Option Module)

/-- A pass over circuits. -/
structure Pass where
  info : PassInfo
  run : Circuit → Logged (Except Failure Circuit)

namespace ModulePass

/-- A pass that never crashes. -/
def ofFunction (info : PassInfo) (f : Module → Logged Module) : ModulePass where
  info
  run module := return some (← f module)

/-- One module after another, up to the first crash. -/
def runInTurn (pass : ModulePass) : List Module → Logged (Option (List Module))
  | [] => return some []
  | module :: modules => do
      match ← pass.run module with
      | none => return none
      | some result =>
          match ← pass.runInTurn modules with
          | none => return none
          | some results => return some (result :: results)

/-- What the workers report: each module that came through, with its position. -/
def reports (pass : ModulePass) : List (Module × Nat) → Logged (List (Nat × Module))
  | [] => return []
  | (module, position) :: rest => do
      let result ← pass.run module
      let others ← pass.reports rest
      return (result.map fun module => (position, module)).toList ++ others

/-- Put reports back in order; the first module without one is the one to complain about. -/
def assemble (info : PassInfo) (reports : List (Nat × Module)) :
    List (String × Nat) → Except PipelineError (List Module)
  | [] => .ok []
  | (name, position) :: rest =>
      match reports.lookup position with
      | none => .error (.workerCrashed info.name name)
      | some module => do return module :: (← assemble info reports rest)

def runByWorkers (pass : ModulePass) (modules : List Module) :
    Logged (Except PipelineError (List Module)) := do
  let reports ← pass.reports modules.zipIdx
  return assemble pass.info reports (modules.map Module.name).zipIdx

/-- Run on every module of a circuit; workers are used if there are several jobs and several
modules. -/
def adapt (pass : ModulePass) (jobs : Nat) : Pass where
  info := pass.info
  run circuit := do
    if 1 < jobs ∧ 1 < circuit.modules.length then
      match ← pass.runByWorkers circuit.modules with
      | .error error => return .error (.error error)
      | .ok modules => return .ok { circuit with modules }
    else
      match ← pass.runInTurn circuit.modules with
      | none => return .error .crash
      | some modules => return .ok { circuit with modules }

end ModulePass

end Rtl
