import Rtl.Log
import Rtl.Render
import Rtl.Vacuous

/-! # Removing vacuous accesses

Statements are processed in order. Driving a vacuous location has no effect and is dropped;
a vacuous read is filled in. A node that is left without a value is dropped as well, and from
then on every use of it is vacuous.
-/

namespace Rtl

namespace Vacuous

/-- Something worth noting about a statement that is left with a placeholder. -/
inductive Finding where
  | invalidated (sink : Expr)
  | removedNode (name : String)
  | removedReset (name : String)

namespace Finding

def message : Finding → String
  | invalidated sink =>
      "zero-length-vecs: aggregate connect into `" ++ sink.render ++
        "` from a zero-length vector, invalidating instead"
  | removedNode name => "zero-length-vecs: node `" ++ name ++ "` is unreachable, removing it"
  | removedReset name =>
      "zero-length-vecs: reset value of `" ++ name ++ "` is unreachable, removing the reset"

def level : Finding → Level
  | invalidated _ => .warn
  | removedNode _ | removedReset _ => .debug

def record (finding : Finding) : Record :=
  ⟨finding.level, .vacuous, finding.message⟩

def removedNode? : Finding → Option String
  | removedNode name => some name
  | _ => none

end Finding

/-- What remains, with what was found and counted on the way. -/
structure Remains (α : Type) where
  result : α
  findings : List Finding := []
  dropped : Nat := 0
  replaced : Nat := 0

namespace Remains

def map {α β : Type} (f : α → β) (r : Remains α) : Remains β :=
  { r with result := f r.result }

/-- The nodes that have been found to be without a value. -/
def gone {α : Type} (r : Remains α) : List String :=
  r.findings.filterMap Finding.removedNode?

/-- Nothing remains of the statement. -/
def nothing : Remains Stmt :=
  { result := .skip, dropped := 1 }

def cons (first : Remains Stmt) (rest : Remains (List Stmt)) : Remains (List Stmt) where
  result := first.result :: rest.result
  findings := first.findings ++ rest.findings
  dropped := first.dropped + rest.dropped
  replaced := first.replaced + rest.replaced

end Remains

/-- Resolve a placeholder that a statement holds as its whole value: a sink without a source
is invalidated, a node or a reset without a value is removed. -/
def settle : Stmt → Remains Stmt
  | .connect sink (.placeholder _) =>
      { result := .invalidate sink, findings := [.invalidated sink] }
  | .node name (.placeholder _) => { Remains.nothing with findings := [.removedNode name] }
  | .register name ty clock (some ⟨_, .placeholder _⟩) =>
      { result := .register name ty clock none, findings := [.removedReset name] }
  | s => { result := s }

/-- Fill in the reads of a statement that stays. -/
def fill (gone : List String) (s : Stmt) : Remains Stmt :=
  { settle ((s.mapExprs (Expr.fillReads gone)).mapExprs Expr.dropArms) with
    replaced := s.exprs.foldr (fun e count => e.countFilled gone + count) 0 }

/-- Process a statement that is not a block. An attachment needs two members. -/
def removeFromLeaf (gone : List String) (s : Stmt) : Remains Stmt :=
  match s with
  | .connect sink _ => if sink.isVacuous gone then .nothing else fill gone s
  | .invalidate target => if target.isVacuous gone then .nothing else fill gone s
  | .attach members =>
      let left := members.filter fun member => !member.isVacuous gone
      if left.length < 2 then .nothing
      else { result := .attach left, replaced := members.length - left.length }
  | s => fill gone s

mutual

def removeFrom (gone : List String) : Stmt → Remains Stmt
  | .block body => (removeFromAll gone body).map .block
  | s => removeFromLeaf gone s

def removeFromAll (gone : List String) : List Stmt → Remains (List Stmt)
  | [] => { result := [] }
  | s :: ss =>
      let first := removeFrom gone s
      first.cons (removeFromAll (first.gone ++ gone) ss)

end

end Vacuous

/-- Remove every use of a vector without elements. -/
def Module.removeVacuous (module : Module) : Logged Module :=
  let remains := Vacuous.removeFromAll [] module.body
  { value := { module with body := remains.result }
    records := remains.findings.map Vacuous.Finding.record ++
      [⟨.debug, .vacuous, "zero-length-vecs: `" ++ module.name ++ "`: dropped " ++
        toString remains.dropped ++ " statement(s), replaced " ++
        toString remains.replaced ++ " read(s)"⟩] }

end Rtl
