import Rtl.Expr.Build
import Rtl.Stmt

/-! # Modules and circuits -/

namespace Rtl

inductive Direction where
  | input
  | output
deriving DecidableEq

structure Port where
  name : String
  direction : Direction
  ty : Ty
deriving DecidableEq

structure Module where
  name : String
  ports : List Port := []
  body : List Stmt := []
deriving DecidableEq

/-- The statements of a module without its block structure. -/
def Module.statements (module : Module) : List Stmt :=
  Stmt.flattenAll module.body

/-- The same module without blocks and empty statements. -/
def Module.flatten (module : Module) : Module :=
  { module with body := module.statements }

structure Circuit where
  main : String
  modules : List Module := []
deriving DecidableEq

namespace Circuit

/-- The first module of the given name. -/
def module? (circuit : Circuit) (name : String) : Option Module :=
  circuit.modules.find? (·.name == name)

def mainModule? (circuit : Circuit) : Option Module :=
  circuit.module? circuit.main

def addModule (circuit : Circuit) (module : Module) : Circuit :=
  { circuit with modules := circuit.modules ++ [module] }

def flatten (circuit : Circuit) : Circuit :=
  { circuit with modules := circuit.modules.map Module.flatten }

end Circuit

end Rtl
