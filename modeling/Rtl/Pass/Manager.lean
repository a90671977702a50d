import Rtl.Pass

/-! # Running passes in sequence

The manager knows which properties are established. A pass runs only if its prerequisites
are; a pass that does not preserve them all leaves none established. What is established
outlives a run, whichever way the run ends.
-/

namespace Rtl

structure Manager where
  passes : List Pass := []
  established : List Prerequisite := []

/-- The outcome of a run, with the passes that were started and the properties that are
established afterwards. -/
structure Report where
  outcome : Except Failure Circuit
  started : List PassInfo
  established : List Prerequisite
  records : List Record

namespace Manager

def assume (manager : Manager) (prerequisites : List Prerequisite) : Manager :=
  { manager with established := manager.established ++ prerequisites }

def addPass (manager : Manager) (pass : Pass) : Manager :=
  { manager with passes := manager.passes ++ [pass] }

def startRecord (info : PassInfo) (circuit : Circuit) : Record :=
  ⟨.debug, .manager, "running pass `" ++ info.name ++ "` over circuit `" ++ circuit.main ++ "`"⟩

def runPasses (established : List Prerequisite) (circuit : Circuit) : List Pass → Report
  | [] => { outcome := .ok circuit, started := [], established, records := [] }
  | pass :: passes =>
      match pass.info.missing? established with
      | some prerequisite =>
          { outcome := .error (.error (.missingPrerequisite pass.info.name prerequisite))
            started := [], established, records := [] }
      | none =>
          let result := pass.run circuit
          let records := startRecord pass.info circuit :: result.records
          match result.value with
          | .error failure =>
              { outcome := .error failure, started := [pass.info], established, records }
          | .ok circuit =>
              let established := if pass.info.preservesAll then established else []
              let rest := runPasses established circuit passes
              { rest with
                started := pass.info :: rest.started
                records := records ++ rest.records }

/-- Run all passes in the order in which they were added. -/
def run (manager : Manager) (circuit : Circuit) : Report × Manager :=
  let report := runPasses manager.established circuit manager.passes
  (report, { manager with established := report.established })

end Manager

end Rtl
