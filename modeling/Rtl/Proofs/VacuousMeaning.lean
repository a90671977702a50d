import Rtl.Proofs.Grounded
import Rtl.Proofs.Meaning

/-! # Removal preserves meaning

Operations may mean anything, a location holds whatever its name and the way to it determine,
and a read of a location that does not exist gives the value that stands in for it. Under any
such evaluation, removal drops exactly the statements that drive a location that does not
exist, and all others hold the same values and drive the same locations as before.
-/

namespace Rtl

universe u

/-- One step of the way to a location. A dynamic step is taken by value. -/
inductive Expr.Step (V : Type u) where
  | field (name : String)
  | index (index : Nat)
  | dynamic (value : V)

/-- The way from the root of a chain of accesses to the location. -/
def Expr.path {V : Type u} (eval : Expr → V) : Expr → List (Step V)
  | .subField base field _ => base.path eval ++ [.field field]
  | .subIndex base index _ => base.path eval ++ [.index index]
  | .subAccess base index _ => base.path eval ++ [.dynamic (eval index)]
  | _ => []

/-- A value for every expression. Operations may mean anything; ground accesses that are
vacuous have the value of their replacement; all other ground locations have a value that
depends on nothing but the name of the root and the way to them. -/
structure Evaluation (V : Type u) where
  eval : Expr → V
  prim : PrimOp → List V → List Nat → Ty → V
  mux : V → V → V → Ty → V
  validIf : V → V → Ty → V
  location : String → List (Expr.Step V) → V
  eval_prim : ∀ op args consts ty,
    eval (.prim op args consts ty) = prim op (args.map eval) consts ty
  eval_mux : ∀ cond tval fval ty,
    eval (.mux cond tval fval ty) = mux (eval cond) (eval tval) (eval fval) ty
  eval_validIf : ∀ cond value ty,
    eval (.validIf cond value ty) = validIf (eval cond) (eval value) ty
  eval_vacuous : ∀ e : Expr, e.isAccess = true → e.root?.isSome = true → e.ty.isGround = true →
    e.isVacuous [] = true → eval e = eval e.dontCare
  eval_location : ∀ (e : Expr) (r : Ref), e.root? = some r → e.ty.isGround = true →
    e.isVacuous [] = false → eval e = location r.name (e.path eval)

/-! ## Evaluations from operations -/

namespace Operations

variable {V : Type u} (ops : Operations V) (location : String → List (Expr.Step V) → V)

section Value

variable (vacuous : Ty → V)

/-- What an access reads at the end of its way. -/
def read (e : Expr) (path : List (Expr.Step V)) : V :=
  if e.isVacuous [] then vacuous e.ty else location ((e.root?.map Ref.name).getD "") path

mutual

/-- The value of an expression, where a vacuous access has the value that `vacuous` gives its
type. -/
def value : Expr → V
  | .ref r => location r.name []
  | .subField base field ty =>
      read location vacuous (.subField base field ty) (steps base ++ [.field field])
  | .subIndex base index ty =>
      read location vacuous (.subIndex base index ty) (steps base ++ [.index index])
  | .subAccess base index ty =>
      read location vacuous (.subAccess base index ty) (steps base ++ [.dynamic (value index)])
  | .literal value => ops.literal value
  | .prim op args consts ty => ops.prim op (valueAll args) consts ty
  | .mux cond tval fval ty => ops.mux (value cond) (value tval) (value fval) ty
  | .validIf cond arm ty => ops.validIf (value cond) (value arm) ty
  | .placeholder ty => ops.placeholder ty

def steps : Expr → List (Expr.Step V)
  | .subField base field _ => steps base ++ [.field field]
  | .subIndex base index _ => steps base ++ [.index index]
  | .subAccess base index _ => steps base ++ [.dynamic (value index)]
  | _ => []

def valueAll : List Expr → List V
  | [] => []
  | e :: es => value e :: valueAll es

end

theorem valueAll_eq (es : List Expr) :
    ops.valueAll location vacuous es = es.map (ops.value location vacuous) := by
  induction es with
  | nil => rfl
  | cons e es ih => rw [valueAll, ih, List.map_cons]

theorem steps_eq (e : Expr) :
    ops.steps location vacuous e = e.path (ops.value location vacuous) := by
  induction e using Expr.induction with
  | step e ih =>
      cases e with
      | subField base | subIndex base | subAccess base =>
          simp [steps, Expr.path, ih base (by simp [Expr.children])]
      | _ => rfl

theorem value_of_isAccess {e : Expr} (haccess : e.isAccess = true) :
    ops.value location vacuous e =
      read location vacuous e (e.path (ops.value location vacuous)) := by
  cases e <;> first
    | rw [value, steps_eq, Expr.path]
    | simp [Expr.isAccess, Expr.accessBase?] at haccess

end Value

/-- Replacements hold no access, so they can be evaluated before it is known what a vacuous
access reads. -/
def replacement (ty : Ty) : V :=
  match ty.dontCare? with
  | some e => ops.value location ops.placeholder e
  | none => ops.placeholder ty

/-- Whatever operations mean and locations hold, there is an evaluation to match. -/
def evaluation : Evaluation V where
  eval := ops.value location (ops.replacement location)
  prim := ops.prim
  mux := ops.mux
  validIf := ops.validIf
  location := location
  eval_prim op args consts ty := by rw [value, valueAll_eq]
  eval_mux _ _ _ _ := rfl
  eval_validIf _ _ _ := rfl
  eval_vacuous e haccess _ hground hvacuous := by
    by_cases hanalog : e.ty.isAnalog = true
    · rw [Expr.dontCare_of_isAnalog hanalog]
    · rw [value_of_isAccess _ _ _ haccess, read, if_pos hvacuous, Expr.dontCare, replacement]
      cases hty : e.ty <;> first | rfl | simp_all [Ty.isAnalog, Ty.isGround, Ty.isAggregate]
  eval_location e r hroot _ hexists := by
    cases haccess : e.isAccess with
    | true =>
        rw [value_of_isAccess _ _ _ haccess, read, hexists, if_neg Bool.false_ne_true, hroot]
        rfl
    | false =>
        cases e with
        | ref r => simp_all [Expr.root?, value, Expr.path]
        | _ => simp_all [Expr.root?, Expr.isAccess, Expr.accessBase?]

end Operations

/-- Integers, where a location holds the length of its name and of the way to it. -/
def Evaluation.total : Evaluation Int :=
  Operations.total.evaluation fun name path => name.length + path.length

/-! ## What removal keeps -/

theorem isVacuous_ref_of_isGround {r : Ref} (hground : r.ty.isGround = true) :
    (Expr.ref r).isVacuous [] = false := by
  cases hty : r.ty <;> simp_all [Expr.isVacuous, Expr.isNodeAmong, Ty.isGround, Ty.isAggregate,
    Ty.isEmptyVector]

namespace Evaluation

variable {V : Type u} (ev : Evaluation V)

/-- Both expressions lead from the same reference the same way. -/
structure SameLocation (d e : Expr) : Prop where
  root : e.root? = d.root?
  path : e.path ev.eval = d.path ev.eval

/-- Values are kept, and so are locations that exist. -/
structure Preserved (e : Expr) : Prop where
  value : e.ty.isGround = true → ev.eval (e.cleared []) = ev.eval e
  location : e.root?.isSome = true → e.isVacuous [] = false →
    (e.cleared []).isVacuous [] = false ∧ ev.SameLocation e (e.cleared [])

section Step

variable {e : Expr} (hregular : e.Regular) (hoperand : ∀ d ∈ e.children, ev.Preserved d)
include hregular hoperand

theorem location_step (hroot : e.root?.isSome = true) (hvacuous : e.isVacuous [] = false) :
    (e.cleared []).isVacuous [] = false ∧ ev.SameLocation e (e.cleared []) := by
  have hcleared : e.cleared [] = e.mapChildren (Expr.cleared []) := by
    rw [Expr.cleared_of_regular hregular, hvacuous, Bool.and_false, if_neg Bool.false_ne_true]
  rw [hcleared]
  cases e with
  | ref r => exact ⟨hvacuous, rfl, rfl⟩
  | subField base _ ty | subIndex base _ ty =>
      simp only [Expr.isVacuous, Bool.or_eq_false_iff] at hvacuous
      obtain ⟨hbase, hsame⟩ := (hoperand base (by simp [Expr.children])).location hroot hvacuous.2
      refine ⟨?_, hsame.root, ?_⟩
      · rw [Expr.mapChildren, Expr.isVacuous, hvacuous.1, hbase, Bool.or_false]
      · rw [Expr.mapChildren, Expr.path, Expr.path, hsame.path]
  | subAccess base index ty =>
      simp only [Expr.isVacuous, Bool.or_eq_false_iff] at hvacuous
      obtain ⟨hbase, hsame⟩ := (hoperand base (by simp [Expr.children])).location hroot hvacuous.2
      have hindex := (hoperand index (by simp [Expr.children])).value
        (hregular.values _ (Expr.mem_nodes_self _) index (by simp [Expr.values]))
      refine ⟨?_, hsame.root, ?_⟩
      · rw [Expr.mapChildren, Expr.isVacuous, hvacuous.1, hbase, Bool.or_false]
      · rw [Expr.mapChildren, Expr.path, Expr.path, hsame.path, hindex]
  | _ => simp [Expr.root?] at hroot

theorem value_step (hground : e.ty.isGround = true) : ev.eval (e.cleared []) = ev.eval e := by
  have hcleared := Expr.cleared_of_regular hregular
  cases hread : e.isAccess && e.isVacuous [] with
  | true =>
      rw [hread, if_pos rfl] at hcleared
      rw [Bool.and_eq_true] at hread
      rw [hcleared]
      exact (ev.eval_vacuous e hread.1 (hregular.rooted e e.mem_nodes_self hread.1) hground
        hread.2).symm
  | false =>
      rw [hread, if_neg Bool.false_ne_true] at hcleared
      cases hroot : e.root? with
      | some r =>
          -- A location that exists, since a ground reference is never vacuous.
          have hvacuous : e.isVacuous [] = false := by
            cases e with
            | ref r => exact isVacuous_ref_of_isGround hground
            | _ => simp_all [Expr.isAccess, Expr.accessBase?, Expr.root?]
          obtain ⟨hkept, hsame⟩ := ev.location_step hregular hoperand (by simp [hroot]) hvacuous
          rw [ev.eval_location e r hroot hground hvacuous,
            ev.eval_location (e.cleared []) r (hsame.root.trans hroot)
              (by rw [Expr.ty_cleared_of_regular hregular]; exact hground) hkept, hsame.path]
      | none =>
          rw [hcleared]
          have hvalue : ∀ d ∈ e.values, d ∈ e.children → ev.eval (d.cleared []) = ev.eval d :=
            fun d hvalue hchild => (hoperand d hchild).value
              (hregular.values e e.mem_nodes_self d hvalue)
          cases e with
          | prim op args consts ty =>
              rw [Expr.mapChildren, ev.eval_prim, ev.eval_prim, List.map_map]
              congr 1
              exact List.map_congr_left fun d hd => hvalue d hd hd
          | mux cond tval fval ty =>
              rw [Expr.mapChildren, ev.eval_mux, ev.eval_mux,
                hvalue cond (by simp [Expr.values, Expr.children]) (by simp [Expr.children]),
                hvalue tval (by simp [Expr.values, Expr.children]) (by simp [Expr.children]),
                hvalue fval (by simp [Expr.values, Expr.children]) (by simp [Expr.children])]
          | validIf cond value ty =>
              rw [Expr.mapChildren, ev.eval_validIf, ev.eval_validIf,
                hvalue cond (by simp [Expr.values, Expr.children]) (by simp [Expr.children]),
                hvalue value (by simp [Expr.values, Expr.children]) (by simp [Expr.children])]
          | literal value => rfl
          | placeholder ty => rfl
          | ref r => simp [Expr.root?] at hroot
          | subField | subIndex | subAccess =>
              have hrooted := hregular.rooted _ (Expr.mem_nodes_self _) rfl
              simp [hroot] at hrooted

end Step

theorem preserved {e : Expr} (hregular : e.Regular) : ev.Preserved e := by
  induction e using Expr.induction with
  | step e ih =>
      have hoperand : ∀ d ∈ e.children, ev.Preserved d :=
        fun d hchild => ih d hchild (hregular.of_mem_children hchild)
      exact ⟨ev.value_step hregular hoperand, ev.location_step hregular hoperand⟩

/-- The statement is still there, with expressions of the same values and, if it drives a
location, with the same location. -/
structure Keeps (s t : Stmt) : Prop where
  agree : s.Agree (fun d e => ev.eval e = ev.eval d) t
  sink : Option.Rel ev.SameLocation s.sink? t.sink?

/-- A statement is dropped if it drives a location that does not exist, and only then; else it
is kept. -/
structure Removes (s t : Stmt) : Prop where
  dropped : t = .skip ↔ s = .skip ∨ s.drivesVacuous [] = true
  kept : s.drivesVacuous [] = false → ev.Keeps s t

theorem keeps_mapExprs {s : Stmt} (hregular : ∀ e ∈ s.exprs, e.Regular ∧ e.ty.isGround = true)
    (hroot : ∀ sink ∈ s.sink?, sink.root?.isSome = true) (hexists : s.drivesVacuous [] = false) :
    ev.Keeps s (s.mapExprs (Expr.cleared [])) := by
  refine ⟨Stmt.agree_mapExprs fun e he => ?_, ?_⟩
  · obtain ⟨hregular, hground⟩ := hregular e he
    exact (ev.preserved hregular).value hground
  · cases s with
    | connect sink _ | invalidate sink =>
        have hsink := (hregular sink (by simp [Stmt.exprs])).1
        exact .some ((ev.preserved hsink).location (hroot sink rfl) hexists).2
    | _ => exact .none

end Evaluation

theorem Stmt.Valid.root_sink {s : Stmt} (hvalid : s.Valid) {sink : Expr} (hsink : sink ∈ s.sink?) :
    sink.root?.isSome = true := by
  have hparts := hvalid.parts
  cases s with
  | connect =>
      obtain rfl := Option.some.inj hsink
      obtain ⟨r, hroot, _⟩ := hparts.2.1.root
      simp [hroot]
  | invalidate =>
      obtain rfl := Option.some.inj hsink
      obtain ⟨r, hroot, _⟩ := hparts.2.root
      simp [hroot]
  | _ => simp [Stmt.sink?] at hsink

/-- Removal in a grounded module, in whatever way operations and locations are evaluated: the
blocks stay, and every statement that is not an attachment is dropped if it drives a location
that does not exist, and otherwise kept with its values and its location. -/
theorem Module.removeVacuous_preserves_meaning {circuit : Circuit} {module : Module}
    (hvalid : circuit.violations = []) (hmem : module ∈ circuit.modules)
    (hgrounded : module.Grounded) (hanalog : module.NoAnalogAccess)
    {V : Type u} (ev : Evaluation V) :
    Stmt.LeafwiseAll (fun s t => s.isAttach = false → ev.Removes s t)
      module.body module.removeVacuous.value.body := by
  have hmodule := (circuit.violations_eq_nil_iff.mp hvalid).2 module hmem
  rw [Module.removeVacuous_body hmodule hgrounded hanalog]
  apply Stmt.leafwiseAll_mapLeavesAll
  intro s hs hattach
  have hstmt := hmodule.of_mem_leaves hs
  have hleft := Vacuous.removeFromLeaf_of_not_void (fun e he => hstmt.accesses he) hattach
    fun e he => Module.isVoid_of_mem_leaves hmodule hgrounded hanalog hs hattach he
  rw [hleft]
  cases hdrives : s.drivesVacuous [] with
  | true => exact ⟨by simp [hdrives], by simp [hdrives]⟩
  | false =>
      rw [if_neg Bool.false_ne_true]
      have hskip : s.mapExprs (Expr.cleared []) = .skip ↔ s = .skip := by
        cases s <;> simp [Stmt.mapExprs]
      refine ⟨by simp [hskip, hdrives], fun _ => ?_⟩
      exact ev.keeps_mapExprs
        (fun e he => Module.regular_of_mem_leaves hmodule hgrounded hanalog hs hattach he)
        (fun sink hsink => hstmt.root_sink hsink) hdrives

/-- A vector without elements is driven, read, and read for an index, in a sink too. -/
def lanes : Module := Build.toModule "Lanes" do
  let i ← Build.input "i" (Sample.uint 2)
  let out ← Build.output "out" (Sample.uint 8)
  let slots ← Build.wire "slots" (.vector (.bundleOf [("at", Sample.uint 2)]) 0)
  let data ← Build.wire "data" (.vector (Sample.uint 8) 4)
  let slot := (slots.getAccess i).getField "at"
  Build.connect slot i
  Build.connect (data.getAccess slot) (.uintLit 7 8)
  Build.connect out (.select slot (data.getAccess i) (data.getAccess slot))

theorem lanes_meaning_preserved :
    (Sample.single lanes).violations = [] ∧ lanes.Grounded ∧ lanes.NoAnalogAccess ∧
      Stmt.LeafwiseAll (fun s t => s.isAttach = false → Evaluation.total.Removes s t)
        lanes.body lanes.removeVacuous.value.body := by
  have hvalid : (Sample.single lanes).violations = [] := by decide
  have hgrounded : lanes.Grounded := by decide
  have hanalog : lanes.NoAnalogAccess := by decide
  refine ⟨hvalid, hgrounded, hanalog, ?_⟩
  exact Module.removeVacuous_preserves_meaning hvalid List.mem_cons_self hgrounded hanalog
    Evaluation.total

end Rtl
