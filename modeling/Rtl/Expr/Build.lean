import Rtl.Expr

/-! # Building expressions

Constructors that fill in the type annotation from the operands. An access that its base
does not offer is annotated with the type of no bits.
-/

namespace Rtl

namespace Ref

def port (name : String) (ty : Ty) : Ref := ⟨name, ty, .port, .read⟩

def wire (name : String) (ty : Ty) : Ref := ⟨name, ty, .wire, .read⟩

def node (name : String) (ty : Ty) : Ref := ⟨name, ty, .node, .read⟩

def register (name : String) (ty : Ty) : Ref := ⟨name, ty, .register, .read⟩

end Ref

namespace Expr

/-- Turn the reference at the root of a chain of accesses to face the given way. The
indices of dynamic accesses are reads of their own and keep theirs. -/
def faceRoot (facing : Facing) : Expr → Expr
  | .ref r => .ref { r with facing }
  | .subField base field ty => .subField (base.faceRoot facing) field ty
  | .subIndex base index ty => .subIndex (base.faceRoot facing) index ty
  | .subAccess base index ty => .subAccess (base.faceRoot facing) index ty
  | e => e

/-- The location an expression denotes, as something to drive. -/
def toSink (e : Expr) : Expr := e.faceRoot .write

/-- The location an expression denotes, as something to read. -/
def toSource (e : Expr) : Expr := e.faceRoot .read

/-- The annotation of an access that its base does not offer. -/
def noTy : Ty := .uint (.known 0)

def getField (base : Expr) (name : String) : Expr :=
  .subField base name (((base.ty.field? name).map Field.ty).getD noTy)

def getIndex (base : Expr) (index : Nat) : Expr :=
  .subIndex base index (base.ty.element?.getD noTy)

def getAccess (base index : Expr) : Expr :=
  .subAccess base index (base.ty.element?.getD noTy)

def uintLit (value width : Nat) : Expr := .literal (.uint value (.known width))

def sintLit (value : Int) (width : Nat) : Expr := .literal (.sint value (.known width))

def fixedLit (value : Int) (width point : Nat) : Expr :=
  .literal (.fixed value (.known width) (.known point))

/-- A multiplexer has the type of its first arm. -/
def select (cond tval fval : Expr) : Expr := .mux cond tval fval tval.ty

def guarded (cond value : Expr) : Expr := .validIf cond value value.ty

/-- A primitive without constant parameters. -/
def apply (op : PrimOp) (args : List Expr) (ty : Ty) : Expr := .prim op args [] ty

end Expr

end Rtl
