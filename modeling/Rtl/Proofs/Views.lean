import Mathlib.Data.Prod.Basic
import Rtl.Stmt

/-! # Nodes and their parts

A node is visited by going through the list of its parts. What it holds besides is its *rest*, and
there is no more to a node than the two. Expressions have operands, statements hold expressions and
have other statements inside. For each of the three there is a map, and one law says all that it
does: the rest stays, and the parts are replaced in the order in which they are visited.
-/

namespace Rtl

/-- A way to take nodes apart: into their parts, in the order in which they are visited, and into
all that they hold besides. -/
structure View (Node Part : Type) where
  Rest : Type
  rest : Node → Rest
  parts : Node → List Part
  ext : ∀ {a b : Node}, rest a = rest b → parts a = parts b → a = b

namespace View

variable {Node Part : Type}

def split (view : View Node Part) (node : Node) : view.Rest × List Part :=
  (view.rest node, view.parts node)

theorem split_injective (view : View Node Part) : Function.Injective view.split :=
  fun _ _ heq => view.ext (congrArg Prod.fst heq) (congrArg Prod.snd heq)

/-- The law of a map, whatever effects `f` has. It is stated for the result taken apart, which
determines the result itself. -/
def MappedBy (view : View Node Part)
    (map : ∀ {m : Type → Type} [Monad m], (Part → m Part) → Node → m Node) : Prop :=
  ∀ {m : Type → Type} [Monad m] [LawfulMonad m] (f : Part → m Part) (node : Node),
    view.split <$> map f node = (view.rest node, ·) <$> (view.parts node).mapM f

end View

/-! ## Operands -/

namespace Expr

/-- What an expression holds besides its operands. -/
inductive Shape where
  | ref (ref : Ref)
  | subField (field : String) (ty : Ty)
  | subIndex (index : Nat) (ty : Ty)
  | subAccess (ty : Ty)
  | literal (value : Literal)
  | prim (op : PrimOp) (consts : List Nat) (ty : Ty)
  | mux (ty : Ty)
  | validIf (ty : Ty)
  | placeholder (ty : Ty)

def Shape.ty : Shape → Ty
  | .ref r => r.ty
  | .literal value => value.ty
  | .subField _ ty | .subIndex _ ty | .subAccess ty | .prim _ _ ty | .mux ty | .validIf ty
  | .placeholder ty => ty

def shape : Expr → Shape
  | .ref r => .ref r
  | .subField _ field ty => .subField field ty
  | .subIndex _ index ty => .subIndex index ty
  | .subAccess _ _ ty => .subAccess ty
  | .literal value => .literal value
  | .prim op _ consts ty => .prim op consts ty
  | .mux _ _ _ ty => .mux ty
  | .validIf _ _ ty => .validIf ty
  | .placeholder ty => .placeholder ty

theorem ty_shape (e : Expr) : e.shape.ty = e.ty := by
  cases e <;> rfl

theorem eq_of_shape_of_children {d e : Expr} (hshape : d.shape = e.shape)
    (hchildren : d.children = e.children) : d = e := by
  cases d <;> cases e <;> simp_all [shape, children]

def operandView : View Expr Expr where
  Rest := Shape
  rest := shape
  parts := children
  ext := eq_of_shape_of_children

theorem mappedBy_mapChildrenM : operandView.MappedBy mapChildrenM := by
  intro m _ _ f e
  cases e <;> simp [View.split, operandView, mapChildrenM, children, shape]

@[simp] theorem shape_mapChildren (f : Expr → Expr) (e : Expr) :
    (e.mapChildren f).shape = e.shape := by
  cases e <;> rfl

@[simp] theorem children_mapChildren (f : Expr → Expr) (e : Expr) :
    (e.mapChildren f).children = e.children.map f := by
  cases e <;> simp [mapChildren, children]

end Expr

namespace Stmt

/-! ## Expressions of a statement -/

/-- What a statement holds besides its expressions. -/
inductive Shape where
  | connect
  | invalidate
  | attach
  | wire (name : String) (ty : Ty)
  | node (name : String)
  | register (name : String) (ty : Ty) (hasReset : Bool)
  | print (format : String)
  | block (body : List Stmt)
  | skip

def shape : Stmt → Shape
  | .connect _ _ => .connect
  | .invalidate _ => .invalidate
  | .attach _ => .attach
  | .wire name ty => .wire name ty
  | .node name _ => .node name
  | .register name ty _ reset => .register name ty reset.isSome
  | .print _ _ format _ => .print format
  | .block body => .block body
  | .skip => .skip

theorem eq_of_shape_of_exprs {s t : Stmt} (hshape : s.shape = t.shape)
    (hexprs : s.exprs = t.exprs) : s = t := by
  cases s with
  | register name ty clock reset =>
      cases t with
      | register name' ty' clock' reset' =>
          rcases reset with _ | ⟨signal, init⟩ <;> rcases reset' with _ | ⟨signal', init'⟩ <;>
            simp_all [shape, exprs]
      | _ => simp [shape] at hshape
  | _ => cases t <;> simp_all [shape, exprs]

def exprView : View Stmt Expr where
  Rest := Shape
  rest := shape
  parts := exprs
  ext := eq_of_shape_of_exprs

theorem mappedBy_mapExprsM : exprView.MappedBy mapExprsM := by
  intro m _ _ f s
  cases s with
  | register name ty clock reset =>
      cases reset <;> simp [View.split, exprView, mapExprsM, exprs, shape]
  | _ => simp [View.split, exprView, mapExprsM, exprs, shape]

@[simp] theorem shape_mapExprs (f : Expr → Expr) (s : Stmt) : (s.mapExprs f).shape = s.shape := by
  cases s with
  | register name ty clock reset => cases reset <;> rfl
  | _ => rfl

@[simp] theorem exprs_mapExprs (f : Expr → Expr) (s : Stmt) :
    (s.mapExprs f).exprs = s.exprs.map f := by
  cases s with
  | register name ty clock reset => cases reset <;> rfl
  | _ => rfl

/-! ## Statements of a block -/

/-- The statement without those inside. -/
def emptied : Stmt → Stmt
  | .block _ => .block []
  | s => s

theorem eq_of_emptied_of_children {s t : Stmt} (hemptied : s.emptied = t.emptied)
    (hchildren : s.children = t.children) : s = t := by
  cases s <;> cases t <;> simp_all [emptied, children]

def innerView : View Stmt Stmt where
  Rest := Stmt
  rest := emptied
  parts := children
  ext := eq_of_emptied_of_children

theorem mappedBy_mapChildrenM : innerView.MappedBy mapChildrenM := by
  intro m _ _ f s
  cases s <;> simp [View.split, innerView, mapChildrenM, children, emptied]

end Stmt

end Rtl
