import Rtl.Inline.Candidates

/-! # Inlining single assignments

Every read of a candidate is replaced by the candidate's value, in which the reads of other
candidates have been replaced already; each such value is worked out once. The statements
that declare or write a candidate become empty.
-/

namespace Rtl

namespace Inline

/-- The values worked out so far, and the number of reads replaced. -/
structure Memo where
  resolved : Assignments := []
  reads : Nat := 0

/-- Replace the reads for which `resolve` has a value. -/
def replaceRead (resolve : String → StateM Memo (Option Expr)) : Expr → StateM Memo Expr
  | .ref r => do
      if r.isLocalRead then
        match ← resolve r.name with
        | some value =>
            modify fun memo => { memo with reads := memo.reads + 1 }
            return value
        | none => return .ref r
      else return .ref r
  | e => return e

/-- The value of a candidate with all reads of candidates replaced, looked up or else worked
out and remembered. Values that read each other are followed `depth` deep. -/
def resolve (table : Assignments) :
    (depth : Nat) → (name : String) → StateM Memo (Option Expr)
  | 0, _ => return none
  | depth + 1, name => do
      match (← get).resolved.lookup name with
      | some value => return some value
      | none =>
          match table.lookup name with
          | none => return none
          | some value =>
              let value ← value.bottomUpM (replaceRead (resolve table depth))
              modify fun memo => { memo with resolved := (name, value) :: memo.resolved }
              return some value

/-- Replace the reads of candidates. No chain of candidates is longer than their table. -/
def substitute (table : Assignments) (e : Expr) : StateM Memo Expr :=
  e.bottomUpM (replaceRead (resolve table table.length))

/-- Whether a statement declares or writes a candidate, so that nothing of it is left. -/
def isAbsorbed (table : Assignments) : Stmt → Bool
  | .wire name _ | .node name _ => table.contains name
  | .connect (.ref r) _ => table.contains r.name
  | _ => false

mutual

def inlineStmt (table : Assignments) : Stmt → StateM Memo Stmt
  | .block body => return .block (← inlineStmts table body)
  | s => if isAbsorbed table s then return .skip else s.mapExprsM (substitute table)

def inlineStmts (table : Assignments) : List Stmt → StateM Memo (List Stmt)
  | [] => return []
  | s :: ss => return (← inlineStmt table s) :: (← inlineStmts table ss)

end

end Inline

/-- Replace the reads of some candidates throughout a module. -/
def Module.substitute (module : Module) (table : Assignments) : Logged Module :=
  let (body, memo) := (Inline.inlineStmts table module.body).run {}
  let removed := module.statements.countP (Inline.isAbsorbed table)
  { value := { module with body }
    records := [⟨.debug, .inlining, "inline-single-assignment: `" ++ module.name ++
      "`: inlined " ++ toString table.length ++ " signal(s) into " ++ toString memo.reads ++
      " read(s), removed " ++ toString removed ++ " statement(s)"⟩] }

/-- A module without candidates stays as it is. -/
def Module.withoutCandidates (module : Module) : Logged Module :=
  { value := module
    records := [⟨.debug, .inlining, "inline-single-assignment: `" ++ module.name ++
      "`: no candidates"⟩] }

/-- Inline the candidates of a module, which are chosen once, before anything is replaced. -/
def Module.inlineAssignments (module : Module) : Logged Module := do
  let table ← module.candidates
  if table.isEmpty then module.withoutCandidates else module.substitute table

end Rtl
