import Rtl.Expr.Build
import Rtl.Expr.Children

/-! # Vacuous expressions

A vector without elements offers nothing to access. An expression that is such a vector, or
is accessed through one, is *vacuous*: it denotes no location. The same holds of a node that
was found to have no value; the names of these nodes are a parameter throughout.
-/

namespace Rtl

namespace Expr

/-- Whether the expression is a reference to one of the given nodes. -/
def isNodeAmong (names : List String) : Expr → Bool
  | .ref r => r.kind == .node && names.contains r.name
  | _ => false

def isVacuous (gone : List String) : Expr → Bool
  | .ref r => r.ty.isEmptyVector || isNodeAmong gone (.ref r)
  | .subField base _ ty | .subIndex base _ ty | .subAccess base _ ty =>
      ty.isEmptyVector || base.isVacuous gone
  | .literal _ => false
  | .prim _ _ _ ty | .mux _ _ _ ty | .validIf _ _ ty => ty.isEmptyVector
  | .placeholder _ => true

end Expr

/-- Zero as the only value of its interval. -/
def Literal.zeroInterval : Literal :=
  .interval 0 (.interval (.inclusive 0) (.inclusive 0) (.known 0))

/-- A value of the given type for reads that cannot happen: a zero, clipped into range where
zero may lie outside. Aggregates have only the placeholder, and analog signals no value. -/
def Ty.dontCare? : Ty → Option Expr
  | .uint width => some (.literal (.uint 0 width))
  | .sint width => some (.literal (.sint 0 width))
  | .fixed width point => some (.literal (.fixed 0 width point))
  | .interval lower upper point =>
      some (.apply .clip [.literal .zeroInterval] (.interval lower upper point))
  | .clock => some (.apply .asClock [.uintLit 0 1] .clock)
  | .analog _ => none
  | .vector element length => some (.placeholder (.vector element length))
  | .bundle fields => some (.placeholder (.bundle fields))

namespace Expr

/-- What a vacuous read of this expression's type is replaced by. -/
def dontCare (e : Expr) : Expr :=
  e.ty.dontCare?.getD e

/-- Whether the expression reads a location that does not exist. -/
def isVacuousRead (gone : List String) (e : Expr) : Bool :=
  (e.isAccess || e.isNodeAmong gone) && e.isVacuous gone

def fillRead (gone : List String) (e : Expr) : Expr :=
  if e.isVacuousRead gone then e.dontCare else e

/-- Fill in every vacuous read, inner ones first. -/
def fillReads (gone : List String) : Expr → Expr :=
  bottomUp (fillRead gone)

/-- The number of reads that are filled in. -/
def countFilled (gone : List String) (e : Expr) : Nat :=
  e.nodes.countP fun d => isVacuousRead gone (d.mapChildren (fillReads gone))

/-- A choice with a placeholder for an arm may as well take the other arm. -/
def dropArm : Expr → Expr
  | .mux cond tval fval ty =>
      if tval.isPlaceholder then fval
      else if fval.isPlaceholder then tval
      else .mux cond tval fval ty
  | .validIf cond value ty =>
      if value.isPlaceholder then .placeholder ty else .validIf cond value ty
  | e => e

def dropArms : Expr → Expr :=
  bottomUp dropArm

end Expr

end Rtl
