import Rtl.Proofs.Walk

/-! # Meanings of expressions

Nothing is assumed of what operations do. A meaning says what each of them makes of the values
of its operands, and this is all that the value of an expression depends on, given the values of
the signals that it refers to.
-/

namespace Rtl

universe u

/-- A meaning for everything that makes a value, alone or from other values. -/
structure Operations (V : Type u) where
  literal : Literal → V
  prim : PrimOp → List V → List Nat → Ty → V
  mux : V → V → V → Ty → V
  validIf : V → V → Ty → V
  placeholder : Ty → V

/-- Operations on integers that forget all types. -/
def Operations.total : Operations Int where
  literal
    | .uint value _ => value
    | .sint value _ | .fixed value _ _ | .interval value _ => value
  prim _ args _ _ := args.foldr (fun value rest => value + rest) 0
  mux cond tval fval _ := if cond = 0 then fval else tval
  validIf _ value _ := value
  placeholder _ := 0

/-- A meaning for everything an expression is built from but its references. -/
structure Meaning (V : Type u) extends Operations V where
  subField : V → String → Ty → V
  subIndex : V → Nat → Ty → V
  subAccess : V → V → Ty → V

namespace Meaning

variable {V : Type u} (M : Meaning V) (env : String → V)

mutual

/-- The value of an expression, where a reference has the value that `env` gives its name. -/
def eval : Expr → V
  | .ref r => env r.name
  | .subField base field ty => M.subField (eval base) field ty
  | .subIndex base index ty => M.subIndex (eval base) index ty
  | .subAccess base index ty => M.subAccess (eval base) (eval index) ty
  | .literal value => M.literal value
  | .prim op args consts ty => M.prim op (evalAll args) consts ty
  | .mux cond tval fval ty => M.mux (eval cond) (eval tval) (eval fval) ty
  | .validIf cond value ty => M.validIf (eval cond) (eval value) ty
  | .placeholder ty => M.placeholder ty

def evalAll : List Expr → List V
  | [] => []
  | e :: es => eval e :: evalAll es

end

theorem evalAll_eq (es : List Expr) : M.evalAll env es = es.map (M.eval env) := by
  induction es with
  | nil => rfl
  | cons e es ih => simp [evalAll, ih]

/-- The value of an expression depends on its operands only through their values. -/
theorem eval_mapChildren {env other : String → V} {f : Expr → Expr} {e : Expr}
    (hne : ∀ r, e ≠ .ref r) (heq : ∀ d ∈ e.children, M.eval other (f d) = M.eval env d) :
    M.eval other (e.mapChildren f) = M.eval env e := by
  cases e with
  | ref r => exact absurd rfl (hne r)
  | prim op args consts ty =>
      simp only [Expr.mapChildren, eval, evalAll_eq, List.map_map]
      congr 1
      exact List.map_congr_left heq
  | _ => simp_all [Expr.mapChildren, Expr.children, eval]

end Meaning

end Rtl
