import Rtl.Ty

/-! # Expressions

Every expression but a literal carries its type as an annotation. A *placeholder* stands
for an aggregate value that cannot exist; it is written only while vacuous accesses are
being removed.
-/

namespace Rtl

/-- How a referenced signal was declared. -/
inductive Kind where
  | port
  | wire
  | node
  | register
deriving DecidableEq

/-- Wires and nodes are the signals that a module may drop without being noticed outside. -/
def Kind.isLocal : Kind → Bool
  | wire | node => true
  | port | register => false

/-- Whether a reference reads its signal or stands where it is driven. -/
inductive Facing where
  | read
  | write
deriving DecidableEq

inductive Literal where
  | uint (value : Nat) (width : Width)
  | sint (value : Int) (width : Width)
  | fixed (value : Int) (width point : Width)
  | interval (value : Int) (ty : Ty)
deriving DecidableEq

def Literal.ty : Literal → Ty
  | uint _ width => .uint width
  | sint _ width => .sint width
  | fixed _ width point => .fixed width point
  | interval _ ty => ty

/-- The primitive operations. -/
inductive PrimOp where
  | add
  | sub
  | mul
  | div
  | rem
  | lt
  | leq
  | gt
  | geq
  | eq
  | neq
  | pad
  | asUInt
  | asSInt
  | asClock
  | asFixed
  | shl
  | shr
  | dshl
  | dshr
  | cvt
  | neg
  | not
  | and
  | or
  | xor
  | andr
  | orr
  | xorr
  | cat
  | bits
  | head
  | tail
  | clip
deriving DecidableEq

/-- A use of a declared signal. -/
structure Ref where
  name : String
  ty : Ty
  kind : Kind
  facing : Facing
deriving DecidableEq

inductive Expr where
  | ref (ref : Ref)
  | subField (base : Expr) (field : String) (ty : Ty)
  | subIndex (base : Expr) (index : Nat) (ty : Ty)
  | subAccess (base index : Expr) (ty : Ty)
  | literal (value : Literal)
  | prim (op : PrimOp) (args : List Expr) (consts : List Nat) (ty : Ty)
  | mux (cond tval fval : Expr) (ty : Ty)
  | validIf (cond value : Expr) (ty : Ty)
  | placeholder (ty : Ty)

namespace Expr

instance : Inhabited Expr := ⟨.placeholder .clock⟩

mutual

/-- Structural equality of expressions, as a test. -/
def same : Expr → Expr → Bool
  | .ref r, .ref q => r == q
  | .subField d m s, .subField e n t => d.same e && m == n && s == t
  | .subIndex d i s, .subIndex e j t => d.same e && i == j && s == t
  | .subAccess d i s, .subAccess e j t => d.same e && i.same j && s == t
  | .literal v, .literal w => v == w
  | .prim o as cs s, .prim p bs ds t => o == p && sameAll as bs && cs == ds && s == t
  | .mux c x y s, .mux d u v t => c.same d && x.same u && y.same v && s == t
  | .validIf c x s, .validIf d u t => c.same d && x.same u && s == t
  | .placeholder s, .placeholder t => s == t
  | _, _ => false

def sameAll : List Expr → List Expr → Bool
  | [], [] => true
  | d :: ds, e :: es => d.same e && sameAll ds es
  | _, _ => false

end

mutual

theorem same_iff : ∀ d e : Expr, d.same e = true ↔ d = e
  | .ref r, e => by cases e <;> simp [same]
  | .subField d _ _, e => by cases e <;> simp [same, same_iff d, and_assoc]
  | .subIndex d _ _, e => by cases e <;> simp [same, same_iff d, and_assoc]
  | .subAccess d i _, e => by cases e <;> simp [same, same_iff d, same_iff i, and_assoc]
  | .literal _, e => by cases e <;> simp [same]
  | .prim _ as _ _, e => by cases e <;> simp [same, sameAll_iff as, and_assoc]
  | .mux c x y _, e => by cases e <;> simp [same, same_iff c, same_iff x, same_iff y, and_assoc]
  | .validIf c x _, e => by cases e <;> simp [same, same_iff c, same_iff x, and_assoc]
  | .placeholder _, e => by cases e <;> simp [same]

theorem sameAll_iff : ∀ ds es : List Expr, sameAll ds es = true ↔ ds = es
  | [], es => by cases es <;> simp [sameAll]
  | d :: ds, es => by cases es <;> simp [sameAll, same_iff d, sameAll_iff ds]

end

instance : DecidableEq Expr := fun d e => decidable_of_iff _ (same_iff d e)

/-- The type annotated on an expression; a literal has none. -/
def storedTy? : Expr → Option Ty
  | .ref r => some r.ty
  | .subField _ _ ty | .subIndex _ _ ty | .subAccess _ _ ty => some ty
  | .literal _ => none
  | .prim _ _ _ ty | .mux _ _ _ ty | .validIf _ _ ty | .placeholder ty => some ty

def ty : Expr → Ty
  | .ref r => r.ty
  | .subField _ _ ty | .subIndex _ _ ty | .subAccess _ _ ty => ty
  | .literal value => value.ty
  | .prim _ _ _ ty | .mux _ _ _ ty | .validIf _ _ ty | .placeholder ty => ty

def isPlaceholder : Expr → Bool
  | .placeholder _ => true
  | _ => false

/-- The aggregate that an access reaches into. -/
def accessBase? : Expr → Option Expr
  | .subField base _ _ | .subIndex base _ _ | .subAccess base _ _ => some base
  | _ => none

def isAccess (e : Expr) : Bool :=
  e.accessBase?.isSome

/-- The reference that a chain of accesses starts from. -/
def root? : Expr → Option Ref
  | .ref r => some r
  | .subField base _ _ | .subIndex base _ _ | .subAccess base _ _ => base.root?
  | _ => none

/-- The name of the signal, if the expression is a reference and nothing more. -/
def refName? : Expr → Option String
  | .ref r => some r.name
  | _ => none

end Expr

end Rtl
