import Rtl.Proofs.Placeholders

/-! # Grounded modules

In a grounded module an aggregate is only ever reached into: whatever is read as a value is
ground, and each access leads back to a reference. Removal makes no node void in such a module
and drops no arm, so that all it does to an expression is to fill in vacuous accesses.
-/

namespace Rtl

namespace Expr

/-- The operands that are read as values. The base of an access is not: it only says where to
look. -/
def values : Expr → List Expr
  | .subField .. | .subIndex .. => []
  | .subAccess _ index _ => [index]
  | e => e.children

/-- No placeholder, nothing but ground values, and only accesses that lead back to a
reference. -/
structure Grounded (e : Expr) : Prop where
  noPlaceholder : e.NoPlaceholder
  ground : e.ty.isGround = true
  values : ∀ d ∈ e.nodes, ∀ v ∈ d.values, v.ty.isGround = true
  rooted : ∀ d ∈ e.nodes, d.isAccess = true → d.root?.isSome = true

instance (e : Expr) : Decidable e.Grounded :=
  decidable_of_iff
    (e.NoPlaceholder ∧ e.ty.isGround = true ∧
      (∀ d ∈ e.nodes, ∀ v ∈ d.values, v.ty.isGround = true) ∧
      ∀ d ∈ e.nodes, d.isAccess = true → d.root?.isSome = true)
    ⟨fun ⟨hnone, hground, hvalues, hrooted⟩ => ⟨hnone, hground, hvalues, hrooted⟩,
      fun h => ⟨h.noPlaceholder, h.ground, h.values, h.rooted⟩⟩

/-- No access in the expression is to an analog signal. -/
def NoAnalogAccess (e : Expr) : Prop :=
  ∀ d ∈ e.nodes, d.isAccess = true → d.ty.isAnalog = false

instance (e : Expr) : Decidable e.NoAnalogAccess :=
  inferInstanceAs (Decidable (∀ d ∈ e.nodes, _))

/-- What holds of a valid grounded expression without analog accesses and of all its parts,
the aggregates that it reaches into included. -/
structure Regular (e : Expr) : Prop where
  accesses : e.AccessesValid
  noPlaceholder : e.NoPlaceholder
  values : ∀ d ∈ e.nodes, ∀ v ∈ d.values, v.ty.isGround = true
  rooted : ∀ d ∈ e.nodes, d.isAccess = true → d.root?.isSome = true
  noAnalog : e.NoAnalogAccess

theorem Grounded.regular {e : Expr} (hgrounded : e.Grounded) (hvalid : e.AccessesValid)
    (hanalog : e.NoAnalogAccess) : e.Regular :=
  ⟨hvalid, hgrounded.noPlaceholder, hgrounded.values, hgrounded.rooted, hanalog⟩

theorem Regular.of_mem_nodes {d e : Expr} (hregular : e.Regular) (hmem : d ∈ e.nodes) :
    d.Regular := by
  have hnodes : ∀ c ∈ d.nodes, c ∈ e.nodes := fun c hc => mem_nodes_trans hmem hc
  exact {
    accesses := fun c hc => hregular.accesses c (hnodes c hc)
    noPlaceholder := fun c hc => hregular.noPlaceholder c (hnodes c hc)
    values := fun c hc => hregular.values c (hnodes c hc)
    rooted := fun c hc => hregular.rooted c (hnodes c hc)
    noAnalog := fun c hc => hregular.noAnalog c (hnodes c hc) }

theorem Regular.of_mem_children {d e : Expr} (hregular : e.Regular) (hchild : d ∈ e.children) :
    d.Regular :=
  hregular.of_mem_nodes (mem_nodes_of_mem_children hchild d.mem_nodes_self)

/-- A ground value does not get lost. -/
theorem isVoid_of_regular {e : Expr} (hregular : e.Regular) (hground : e.ty.isGround = true) :
    e.isVoid [] = false := by
  induction e using induction with
  | step e ih =>
      have hvalue := hregular.values e e.mem_nodes_self
      have hoperand : ∀ d ∈ e.children, d.ty.isGround = true → d.isVoid [] = false :=
        fun d hchild => ih d hchild (hregular.of_mem_children hchild)
      cases e with
      | mux cond tval fval ty =>
          have htval := hvalue tval (by simp [values, children])
          rw [isVoid, hoperand tval (by simp [children]) htval, Bool.false_and]
      | validIf cond value ty =>
          have hground := hvalue value (by simp [values, children])
          rw [isVoid, hoperand value (by simp [children]) hground]
      | placeholder ty =>
          have hnone := hregular.noPlaceholder _ (mem_nodes_self _)
          simp [isPlaceholder] at hnone
      | _ =>
          rw [isVoid_of_isPlain rfl]
          simp only [Ty.isGround, Bool.not_eq_true'] at hground
          rw [hground, Bool.and_false]

theorem isFilled_of_regular {e : Expr} (hregular : e.Regular) :
    e.isFilled [] = (e.isAccess && e.isVacuous []) :=
  isFilled_nil fun haccess _ => hregular.noAnalog e e.mem_nodes_self haccess

/-- Arms are ground values, so none is dropped. -/
theorem dropArm_of_regular {e : Expr} (hregular : e.Regular) :
    dropArm (e.mapChildren (cleared [])) = e.mapChildren (cleared []) := by
  have hvalue : ∀ v ∈ e.children, v ∈ e.values → (v.cleared []).isPlaceholder = false := by
    intro v hchild hv
    have hv' := hregular.of_mem_children hchild
    rw [isPlaceholder_cleared [] hv'.accesses]
    exact isVoid_of_regular hv' (hregular.values e e.mem_nodes_self v hv)
  cases e with
  | mux cond tval fval ty =>
      have htval := hvalue tval (by simp [children]) (by simp [values, children])
      have hfval := hvalue fval (by simp [children]) (by simp [values, children])
      simp [mapChildren, dropArm, htval, hfval]
  | validIf cond value ty =>
      have hlost := hvalue value (by simp [children]) (by simp [values, children])
      simp [mapChildren, dropArm, hlost]
  | _ => rfl

theorem cleared_of_regular {e : Expr} (hregular : e.Regular) :
    e.cleared [] =
      if e.isAccess && e.isVacuous [] then e.dontCare else e.mapChildren (cleared []) := by
  rw [cleared_eq hregular.accesses, isFilled_of_regular hregular, dropArm_of_regular hregular]

theorem ty_cleared_of_regular {e : Expr} (hregular : e.Regular) : (e.cleared []).ty = e.ty := by
  rw [cleared_of_regular hregular]
  split
  · exact ty_dontCare e
  · exact ty_mapChildren _ e

end Expr

namespace Stmt

/-- The value that a statement assigns, names or resets to. -/
def value? : Stmt → Option Expr
  | .connect _ source => some source
  | .node _ value => some value
  | .register _ _ _ reset => reset.map Reset.init
  | _ => none

def drivesVacuous (gone : List String) (s : Stmt) : Bool :=
  s.sink?.any (Expr.isVacuous gone)

theorem drivesVacuous_eq_false_iff {gone : List String} {s : Stmt} :
    s.drivesVacuous gone = false ↔ ∀ sink ∈ s.sink?, sink.isVacuous gone = false := by
  simp [drivesVacuous, Option.any_eq_false]

theorem mem_exprs_of_mem_value? {s : Stmt} {e : Expr} (hmem : e ∈ s.value?) : e ∈ s.exprs := by
  cases s with
  | register name ty clock reset => cases reset <;> simp_all [value?, exprs]
  | _ => simp_all [value?, exprs]

end Stmt

namespace Vacuous

/-- A statement that still has its value is settled. -/
theorem settle_eq_self {s : Stmt} (hvalue : ∀ e ∈ s.value?, e.isPlaceholder = false) :
    settle s = { result := s } := by
  unfold settle
  split
  · simp [Stmt.value?, Expr.isPlaceholder] at hvalue
  · simp [Stmt.value?, Expr.isPlaceholder] at hvalue
  · simp [Stmt.value?, Expr.isPlaceholder] at hvalue
  · rfl

theorem removeFromLeaf_eq_fill (gone : List String) {s : Stmt} (hattach : s.isAttach = false) :
    removeFromLeaf gone s = if s.drivesVacuous gone then .nothing else fill gone s := by
  cases s with
  | connect | invalidate => rfl
  | attach => simp [Stmt.isAttach] at hattach
  | _ => rfl

/-- A leaf that loses no value is dropped if what it drives is vacuous, and otherwise kept with
its expressions cleared. -/
theorem removeFromLeaf_of_not_void {gone : List String} {s : Stmt}
    (hvalid : ∀ e ∈ s.exprs, e.AccessesValid) (hattach : s.isAttach = false)
    (hvoid : ∀ e ∈ s.exprs, e.isVoid gone = false) :
    (removeFromLeaf gone s).result =
      if s.drivesVacuous gone then .skip else s.mapExprs (Expr.cleared gone) := by
  have hfill : (fill gone s).result = s.mapExprs (Expr.cleared gone) := by
    have hvalue : ∀ e ∈ (s.mapExprs (Expr.cleared gone)).value?, e.isPlaceholder = false := by
      intro e he
      have hmem := Stmt.mem_exprs_of_mem_value? he
      rw [Stmt.exprs_mapExprs] at hmem
      obtain ⟨before, hbefore, rfl⟩ := List.mem_map.mp hmem
      rw [Expr.isPlaceholder_cleared gone (hvalid before hbefore), hvoid before hbefore]
    rw [(fill_eq_settle gone s).1, settle_eq_self hvalue]
  rw [removeFromLeaf_eq_fill gone hattach]
  split
  · rfl
  · exact hfill

theorem voidNode?_of_not_void {gone : List String} {s : Stmt}
    (hvoid : ∀ e ∈ s.exprs, e.isVoid gone = false) : s.voidNode? gone = none := by
  cases s <;> simp_all [Stmt.voidNode?, Stmt.exprs]

end Vacuous

namespace Module

def Grounded (module : Module) : Prop :=
  ∀ e ∈ module.exprs, e.Grounded

instance (module : Module) : Decidable module.Grounded :=
  inferInstanceAs (Decidable (∀ e ∈ module.exprs, _))

/-- Analog signals are accessed in attachments only. -/
def NoAnalogAccess (module : Module) : Prop :=
  ∀ s ∈ module.statements, s.isAttach = false → ∀ e ∈ s.exprs, e.NoAnalogAccess

instance (module : Module) : Decidable module.NoAnalogAccess :=
  inferInstanceAs (Decidable (∀ s ∈ module.statements, _))

section Grounded

variable {module : Module} (hvalid : module.Valid) (hgrounded : module.Grounded)
  (hanalog : module.NoAnalogAccess)
include hvalid hgrounded hanalog

theorem regular_of_mem_leaves {s : Stmt} (hs : s ∈ Stmt.leavesAll module.body)
    (hattach : s.isAttach = false) {e : Expr} (he : e ∈ s.exprs) :
    e.Regular ∧ e.ty.isGround = true := by
  have hground := hgrounded e (mem_exprs_iff_leaves.mpr ⟨s, hs, he⟩)
  have hstmt : s ∈ module.statements := by
    refine Stmt.mem_flattenAll.mpr ⟨hs, ?_⟩
    rintro rfl
    simp [Stmt.exprs] at he
  refine ⟨?_, hground.ground⟩
  exact hground.regular ((hvalid.of_mem_leaves hs).accesses he) (hanalog s hstmt hattach e he)

theorem isVoid_of_mem_leaves {s : Stmt} (hs : s ∈ Stmt.leavesAll module.body)
    (hattach : s.isAttach = false) {e : Expr} (he : e ∈ s.exprs) : e.isVoid [] = false := by
  obtain ⟨hregular, hground⟩ := regular_of_mem_leaves hvalid hgrounded hanalog hs hattach he
  exact Expr.isVoid_of_regular hregular hground

/-- In a grounded module, the leaves are gone through independently. -/
theorem removeVacuous_body :
    module.removeVacuous.value.body =
      Stmt.mapLeavesAll (fun s => (Vacuous.removeFromLeaf [] s).result) module.body := by
  apply Vacuous.removeFromAll_eq_mapLeavesAll
  intro s hs
  rw [Vacuous.gone_removeFromLeaf fun e he => (hvalid.of_mem_leaves hs).accesses he]
  cases hattach : s.isAttach with
  | true => cases s <;> simp_all [Stmt.isAttach, Stmt.voidNode?]
  | false =>
      rw [Vacuous.voidNode?_of_not_void fun e he =>
        isVoid_of_mem_leaves hvalid hgrounded hanalog hs hattach he]
      rfl

end Grounded

end Module

end Rtl
