import Rtl.Circuit

/-! # Single assignments

A wire or node of ground type that is written once, by a value of its own type that costs no
hardware to copy, can stand for that value. Every write counts from the declaration on, and a
write that reaches only a part of the signal, or leaves its value open, disqualifies it.
-/

namespace Rtl

/-- Operations that only reinterpret or rearrange bits. -/
def PrimOp.isFree : PrimOp → Bool
  | asUInt | asSInt | asClock | cvt | cat => true
  | _ => false

namespace Expr

/-- Whether the expression itself, its operands aside, stands for hardware. -/
def isLogic : Expr → Bool
  | .mux .. | .validIf .. | .placeholder _ => true
  | .prim op _ _ _ => !op.isFree
  | .ref _ | .subField .. | .subIndex .. | .subAccess .. | .literal _ => false

/-- Whether the expression can be copied without copying hardware. -/
def isLogicFree (e : Expr) : Bool :=
  !e.any isLogic

end Expr

/-- A write to a declared signal, with the value if the whole signal is assigned one. -/
structure Write where
  name : String
  ty : Ty
  value? : Option Expr
deriving DecidableEq

/-- Signals with the value that each of them stands for. -/
abbrev Assignments := List (String × Expr)

namespace Assignments

def contains (table : Assignments) (name : String) : Bool :=
  (table.lookup name).isSome

end Assignments

namespace Stmt

/-- The wire or node that a statement declares, with its type. -/
def local? : Stmt → Option (String × Ty)
  | .wire name ty => some (name, ty)
  | .node name value => some (name, value.ty)
  | _ => none

/-- The signals that a statement writes, with the value if it is a plain assignment. -/
def targets : Stmt → List (String × Option Expr)
  | .node name value => [(name, some value)]
  | .connect (.ref r) source => [(r.name, some source)]
  | .connect sink _ => sink.root?.toList.map fun r => (r.name, none)
  | .invalidate target => target.root?.toList.map fun r => (r.name, none)
  | .attach members => (members.filterMap Expr.root?).map fun r => (r.name, none)
  | _ => []

end Stmt

/-- The writes of a list of statements to the signals declared before them, those in
`locals` included. The latest declaration of a name counts. -/
def writesFrom (locals : List (String × Ty)) : List Stmt → List Write
  | [] => []
  | s :: ss =>
      let locals := s.local?.toList ++ locals
      let writes := s.targets.filterMap fun (name, value?) =>
        (locals.lookup name).map fun ty => ⟨name, ty, value?⟩
      writes ++ writesFrom locals ss

/-- The value that a write assigns, if the signal can stand for it. -/
def Write.assigned? (write : Write) : Option Expr :=
  write.value?.filter fun value =>
    write.ty.isGround && !write.ty.isAnalog && value.ty == write.ty && value.isLogicFree

/-- Of all writes, those that are the only one to their signal and assign it a value. -/
def singleAssignments (writes : List Write) : Assignments :=
  writes.filterMap fun write =>
    if writes.countP (·.name == write.name) = 1 then
      write.assigned?.map fun value => (write.name, value)
    else none

def Module.writes (module : Module) : List Write :=
  writesFrom [] module.statements

end Rtl
