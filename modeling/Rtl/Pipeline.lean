import Rtl.Inline.Substitution
import Rtl.Pass.Manager
import Rtl.Vacuous.Removal

/-! # Pipelines of the passes at hand -/

namespace Rtl

namespace PassInfo

def removeVacuous : PassInfo where
  name := "zero-length-vecs"
  prerequisites := [.expandWhens, .resolveKinds, .inferTypes, .expandConnects]
  preservesAll := true

def inlineAssignments : PassInfo where
  name := "inline-single-assignment"
  prerequisites := [.expandWhens, .resolveKinds, .inferTypes]
  preservesAll := true

def verify : PassInfo where
  name := "verify"
  prerequisites := []
  preservesAll := true

/-- The passes that can be asked for by name. -/
def all : List PassInfo :=
  [removeVacuous, inlineAssignments, verify]

def ofName? (name : String) : Option PassInfo :=
  all.find? (·.name == name)

end PassInfo

namespace ModulePass

def removeVacuous : ModulePass :=
  ofFunction .removeVacuous Module.removeVacuous

def inlineAssignments : ModulePass :=
  ofFunction .inlineAssignments Module.inlineAssignments

end ModulePass

namespace Pass

/-- Lets valid circuits through unchanged. -/
def verify : Pass where
  info := .verify
  run circuit :=
    match circuit.violations with
    | [] => return .ok circuit
    | violations => return .error (.error (.invalid violations))

def ofName? (jobs : Nat) (name : String) : Option Pass :=
  if name = PassInfo.removeVacuous.name then some (ModulePass.removeVacuous.adapt jobs)
  else if name = PassInfo.inlineAssignments.name then
    some (ModulePass.inlineAssignments.adapt jobs)
  else if name = PassInfo.verify.name then some verify
  else none

end Pass

structure PipelineOptions where
  verify : Bool := false
  jobs : Option Nat := none
  passes : List String := []
deriving DecidableEq

namespace PipelineOptions

/-- The passes that are asked for, each followed by a check if checks are asked for. -/
def passesFor (options : PipelineOptions) : List String → Except PipelineError (List Pass)
  | [] => .ok []
  | name :: names =>
      match Pass.ofName? (options.jobs.getD 1) name with
      | none => .error (.unknownPass name)
      | some pass => do
          return pass :: ((if options.verify then [.verify] else []) ++
            (← options.passesFor names))

/-- With checks, the circuit is also checked before the first pass. -/
def plan (options : PipelineOptions) : Except PipelineError (List Pass) := do
  return (if options.verify then [.verify] else []) ++ (← options.passesFor options.passes)

/-- Run the passes on a circuit that all earlier stages have processed. A pipeline with an
unknown pass does not start. -/
def run (options : PipelineOptions) (circuit : Circuit) : Logged (Except Failure Circuit) :=
  match options.plan with
  | .error error => ⟨.error (.error error), []⟩
  | .ok passes =>
      let manager : Manager := { passes, established := Prerequisite.all }
      let report := (manager.run circuit).1
      ⟨report.outcome, report.records⟩

end PipelineOptions

end Rtl
