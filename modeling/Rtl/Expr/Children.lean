import Rtl.Expr

/-! # Walking expressions

The operands of an expression come in one order, which visiting, mapping and searching
share. The maps and the search are monadic, so that what they call may keep a state.
-/

namespace Rtl.Expr

/-- The operands of an expression, in order. -/
def children : Expr → List Expr
  | .ref _ | .literal _ | .placeholder _ => []
  | .subField base _ _ | .subIndex base _ _ => [base]
  | .subAccess base index _ => [base, index]
  | .prim _ args _ _ => args
  | .mux cond tval fval _ => [cond, tval, fval]
  | .validIf cond value _ => [cond, value]

/-- Replace every operand; types and all other annotations stay as they are. -/
def mapChildren (f : Expr → Expr) : Expr → Expr
  | .subField base field ty => .subField (f base) field ty
  | .subIndex base index ty => .subIndex (f base) index ty
  | .subAccess base index ty => .subAccess (f base) (f index) ty
  | .prim op args consts ty => .prim op (args.map f) consts ty
  | .mux cond tval fval ty => .mux (f cond) (f tval) (f fval) ty
  | .validIf cond value ty => .validIf (f cond) (f value) ty
  | e => e

/-- Replace every operand, in order, by a function with effects. -/
def mapChildrenM {m : Type → Type} [Monad m] (f : Expr → m Expr) : Expr → m Expr
  | .subField base field ty => return .subField (← f base) field ty
  | .subIndex base index ty => return .subIndex (← f base) index ty
  | .subAccess base index ty => return .subAccess (← f base) (← f index) ty
  | .prim op args consts ty => return .prim op (← args.mapM f) consts ty
  | .mux cond tval fval ty => return .mux (← f cond) (← f tval) (← f fval) ty
  | .validIf cond value ty => return .validIf (← f cond) (← f value) ty
  | e => return e

mutual

/-- All subexpressions in preorder, the expression itself first. -/
def nodes : Expr → List Expr
  | .ref r => [.ref r]
  | .subField base field ty => .subField base field ty :: base.nodes
  | .subIndex base index ty => .subIndex base index ty :: base.nodes
  | .subAccess base index ty => .subAccess base index ty :: (base.nodes ++ index.nodes)
  | .literal value => [.literal value]
  | .prim op args consts ty => .prim op args consts ty :: nodesAll args
  | .mux cond tval fval ty => .mux cond tval fval ty :: (cond.nodes ++ (tval.nodes ++ fval.nodes))
  | .validIf cond value ty => .validIf cond value ty :: (cond.nodes ++ value.nodes)
  | .placeholder ty => [.placeholder ty]

def nodesAll : List Expr → List Expr
  | [] => []
  | e :: es => e.nodes ++ nodesAll es

end

/-- Go on to the second search only if the first found nothing. -/
@[inline] def orElseM {m : Type → Type} [Monad m] (first second : m Bool) : m Bool := do
  if ← first then return true else second

mutual

/-- Ask `p` of one subexpression after another in preorder, until it holds. -/
def anyM {m : Type → Type} [Monad m] (p : Expr → m Bool) (e : Expr) : m Bool :=
  orElseM (p e) <|
    match e with
    | .ref _ | .literal _ | .placeholder _ => return false
    | .subField base _ _ | .subIndex base _ _ => base.anyM p
    | .subAccess base index _ => orElseM (base.anyM p) (index.anyM p)
    | .prim _ args _ _ => anyAllM p args
    | .mux cond tval fval _ => orElseM (cond.anyM p) (orElseM (tval.anyM p) (fval.anyM p))
    | .validIf cond value _ => orElseM (cond.anyM p) (value.anyM p)

def anyAllM {m : Type → Type} [Monad m] (p : Expr → m Bool) : List Expr → m Bool
  | [] => return false
  | e :: es => orElseM (e.anyM p) (anyAllM p es)

end

/-- Whether `p` holds of some subexpression. -/
def any (p : Expr → Bool) (e : Expr) : Bool :=
  Id.run (e.anyM fun d => return p d)

mutual

/-- Replace every subexpression by `f`, which sees it once its operands have been replaced. -/
def bottomUp (f : Expr → Expr) : Expr → Expr
  | .ref r => f (.ref r)
  | .subField base field ty => f (.subField (base.bottomUp f) field ty)
  | .subIndex base index ty => f (.subIndex (base.bottomUp f) index ty)
  | .subAccess base index ty => f (.subAccess (base.bottomUp f) (index.bottomUp f) ty)
  | .literal value => f (.literal value)
  | .prim op args consts ty => f (.prim op (bottomUpAll f args) consts ty)
  | .mux cond tval fval ty => f (.mux (cond.bottomUp f) (tval.bottomUp f) (fval.bottomUp f) ty)
  | .validIf cond value ty => f (.validIf (cond.bottomUp f) (value.bottomUp f) ty)
  | .placeholder ty => f (.placeholder ty)

def bottomUpAll (f : Expr → Expr) : List Expr → List Expr
  | [] => []
  | e :: es => e.bottomUp f :: bottomUpAll f es

end

mutual

/-- Replace every subexpression by a function with effects, operands first and in order. -/
def bottomUpM {m : Type → Type} [Monad m] (f : Expr → m Expr) : Expr → m Expr
  | .ref r => f (.ref r)
  | .subField base field ty => do f (.subField (← base.bottomUpM f) field ty)
  | .subIndex base index ty => do f (.subIndex (← base.bottomUpM f) index ty)
  | .subAccess base index ty => do f (.subAccess (← base.bottomUpM f) (← index.bottomUpM f) ty)
  | .literal value => f (.literal value)
  | .prim op args consts ty => do f (.prim op (← bottomUpAllM f args) consts ty)
  | .mux cond tval fval ty => do
      f (.mux (← cond.bottomUpM f) (← tval.bottomUpM f) (← fval.bottomUpM f) ty)
  | .validIf cond value ty => do f (.validIf (← cond.bottomUpM f) (← value.bottomUpM f) ty)
  | .placeholder ty => f (.placeholder ty)

def bottomUpAllM {m : Type → Type} [Monad m] (f : Expr → m Expr) : List Expr → m (List Expr)
  | [] => return []
  | e :: es => return (← e.bottomUpM f) :: (← bottomUpAllM f es)

end

theorem sizeOf_lt_of_mem_children {d e : Expr} (hmem : d ∈ e.children) : sizeOf d < sizeOf e := by
  cases e with
  | prim op args consts ty =>
      have hlt : sizeOf d < sizeOf args := List.sizeOf_lt_of_mem hmem
      simp only [prim.sizeOf_spec]
      omega
  | _ => simp only [children, List.mem_cons, List.not_mem_nil, or_false] at hmem <;> grind

/-- To prove something of all expressions, prove it of each from its operands. -/
theorem induction {motive : Expr → Prop}
    (step : ∀ e, (∀ d ∈ e.children, motive d) → motive e) (e : Expr) : motive e :=
  step e fun d _hmem => induction step d
termination_by sizeOf e
decreasing_by exact sizeOf_lt_of_mem_children _hmem

theorem nodesAll_eq (es : List Expr) : nodesAll es = es.flatMap nodes := by
  induction es with
  | nil => rfl
  | cons e es ih => simp [nodesAll, ih]

/-- A tree is its root and, in order, the trees of its operands. -/
theorem nodes_eq (e : Expr) : e.nodes = e :: e.children.flatMap nodes := by
  cases e <;> simp [nodes, children, nodesAll_eq]

theorem bottomUpAll_eq (f : Expr → Expr) (es : List Expr) :
    bottomUpAll f es = es.map (bottomUp f) := by
  induction es with
  | nil => rfl
  | cons e es ih => simp [bottomUpAll, ih]

theorem bottomUp_eq (f : Expr → Expr) (e : Expr) :
    e.bottomUp f = f (e.mapChildren (bottomUp f)) := by
  cases e <;> simp [bottomUp, mapChildren, bottomUpAll_eq]

theorem run_orElseM (first second : Id Bool) :
    (orElseM first second).run = (first.run || second.run) := by
  cases h : first.run <;> simp [orElseM, h]

theorem run_anyAllM (p : Expr → Bool) (es : List Expr) :
    (anyAllM (fun d => (pure (p d) : Id Bool)) es).run = es.any (any p) := by
  induction es with
  | nil => rfl
  | cons e es ih => simp only [anyAllM, run_orElseM, ih, List.any_cons, any]

/-- A search asks of the expression and then searches its operands. -/
theorem any_eq_or (p : Expr → Bool) (e : Expr) : e.any p = (p e || e.children.any (any p)) := by
  cases e <;> simp [any, anyM, run_orElseM, run_anyAllM, children]

theorem any_eq (p : Expr → Bool) (e : Expr) : e.any p = e.nodes.any p := by
  induction e using induction with
  | step e ih =>
      rw [any_eq_or, nodes_eq, List.any_cons, List.any_flatMap]
      congr 1
      rw [Bool.eq_iff_iff, List.any_eq_true, List.any_eq_true]
      exact exists_congr fun d => and_congr_right fun hmem => by rw [ih d hmem]

end Rtl.Expr
