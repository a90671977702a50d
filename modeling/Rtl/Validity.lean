import Rtl.Render
import Rtl.Text.Blank

/-! # Valid circuits

A valid circuit has its main module, no placeholder, only ground values, only accesses that
their base offers, sinks that face writing and sources that face reading, and analog signals
only where analog signals are attached. Violations come in the order of the text.
-/

namespace Rtl

/-- What is wrong with a statement. -/
inductive Fault where
  | placeholder
  | aggregateValue
  | invalidAccess (expr : Expr)
  | sinkNotWriteFacing (expr : Expr)
  | sourceNotReadFacing (expr : Expr)
  | nonAnalogAttach (expr : Expr)
deriving DecidableEq

namespace Expr

/-- Whether the expression, its operands aside, is what its annotation says of an access. -/
def isValidAccess : Expr → Bool
  | .subField base field ty => (base.ty.field? field).any fun f => f.ty == ty
  | .subIndex base _ ty | .subAccess base _ ty => base.ty.element? == some ty
  | _ => true

def isWriteRef : Expr → Bool
  | .ref r => r.facing == .write
  | _ => false

def hasPlaceholder (e : Expr) : Bool :=
  e.any isPlaceholder

def accessFaults (e : Expr) : List Fault :=
  (e.nodes.filter fun d => !d.isValidAccess).map .invalidAccess

def readFaults (e : Expr) : List Fault :=
  (e.nodes.filter isWriteRef).map .sourceNotReadFacing

def sourceFaults (e : Expr) : List Fault :=
  e.readFaults ++ e.accessFaults

/-- The indices along a chain of accesses, the outermost first. -/
def indices : Expr → List Expr
  | .subAccess base index _ => index :: base.indices
  | .subField base _ _ | .subIndex base _ _ => base.indices
  | _ => []

/-- The root of a sink is written, while its indices are read. -/
def sinkFaults (e : Expr) : List Fault :=
  (if e.root?.any (·.facing == .write) then [] else [.sinkNotWriteFacing e]) ++
    e.accessFaults ++ e.indices.flatMap sourceFaults

def groundFaults (e : Expr) : List Fault :=
  if e.ty.isGround then [] else [.aggregateValue]

def attachFaults (e : Expr) : List Fault :=
  (if e.ty.isAnalog then [] else [.nonAnalogAttach e]) ++ e.accessFaults

end Expr

namespace Stmt

/-- The faults of the parts of a statement, for what each part is there for. -/
def partFaults : Stmt → List Fault
  | .connect sink source => source.groundFaults ++ sink.sinkFaults ++ source.sourceFaults
  | .invalidate target => target.groundFaults ++ target.sinkFaults
  | .node _ value => value.groundFaults ++ value.sourceFaults
  | .attach members => members.flatMap Expr.attachFaults
  | .register _ _ clock reset =>
      clock.sourceFaults ++
        reset.toList.flatMap fun r => r.signal.sourceFaults ++ r.init.sourceFaults
  | .print clock enable _ args =>
      clock.sourceFaults ++ enable.sourceFaults ++ args.flatMap Expr.sourceFaults
  | .wire .. | .block _ | .skip => []

def faults (s : Stmt) : List Fault :=
  (if s.exprs.any Expr.hasPlaceholder then [.placeholder] else []) ++ s.partFaults

end Stmt

inductive Violation where
  | missingMain (name : String)
  | inStmt (module : String) (stmt : Stmt) (fault : Fault)
deriving DecidableEq

namespace Violation

/-- The line of text of a statement. -/
def stmtText (s : Stmt) : String :=
  Text.trimEnd s.render

def message : Violation → String
  | missingMain name => "top-level module `" ++ name ++ "` does not exist"
  | inStmt module stmt fault =>
      let within := " (in `" ++ stmtText stmt ++ "`)"
      "in `" ++ module ++ "`: " ++
        match fault with
        | .placeholder => "placeholder value in `" ++ stmtText stmt ++ "`"
        | .aggregateValue => "aggregate-typed value in `" ++ stmtText stmt ++ "`"
        | .invalidAccess e => "`" ++ e.render ++ "` is not a valid access" ++ within
        | .sinkNotWriteFacing e => "sink `" ++ e.render ++ "` is not write-facing" ++ within
        | .sourceNotReadFacing e => "`" ++ e.render ++ "` is read but not read-facing" ++ within
        | .nonAnalogAttach e => "attach member `" ++ e.render ++ "` is not analog" ++ within

end Violation

def Module.violations (module : Module) : List Violation :=
  module.statements.flatMap fun s => s.faults.map (.inStmt module.name s)

def Circuit.violations (circuit : Circuit) : List Violation :=
  (if circuit.mainModule?.isSome then [] else [.missingMain circuit.main]) ++
    circuit.modules.flatMap Module.violations

end Rtl
