import Rtl.Circuit

/-! # Building modules

A module is built by adding ports and statements at its end. Declaring a signal yields the
reference by which it is used from then on.
-/

namespace Rtl

/-- A step that builds a part of a module. -/
abbrev Build := StateM Module

namespace Build

def addPort (port : Port) : Build Unit :=
  modify fun module => { module with ports := module.ports ++ [port] }

def addStmt (stmt : Stmt) : Build Unit :=
  modify fun module => { module with body := module.body ++ [stmt] }

def input (name : String) (ty : Ty) : Build Expr := do
  addPort ⟨name, .input, ty⟩
  return .ref (.port name ty)

def output (name : String) (ty : Ty) : Build Expr := do
  addPort ⟨name, .output, ty⟩
  return .ref (.port name ty)

def wire (name : String) (ty : Ty) : Build Expr := do
  addStmt (.wire name ty)
  return .ref (.wire name ty)

def node (name : String) (value : Expr) : Build Expr := do
  addStmt (.node name value)
  return .ref (.node name value.ty)

/-- A register that is never reset. -/
def register (name : String) (ty : Ty) (clock : Expr) : Build Expr := do
  addStmt (.register name ty clock none)
  return .ref (.register name ty)

def connect (sink source : Expr) : Build Unit :=
  addStmt (.connect sink.toSink source.toSource)

def invalidate (target : Expr) : Build Unit :=
  addStmt (.invalidate target.toSink)

def attach (members : List Expr) : Build Unit :=
  addStmt (.attach members)

/-- The module of the given name that the steps build. -/
def toModule (name : String) (steps : Build Unit) : Module :=
  (steps.run { name }).2

end Build

end Rtl
