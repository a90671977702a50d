import Rtl.Proofs.Validity
import Rtl.Vacuous.Removal

/-! # Filling in vacuous reads

Filling in keeps types, and where all accesses are valid it does not change which of them are
vacuous: the placeholder that an inner access is replaced by stands for it in this respect. So
the accesses that are filled in can be read off the expression as it was.
-/

namespace Rtl.Expr

/-! ## Replacements -/

@[simp] theorem ty_dontCare (e : Expr) : e.dontCare.ty = e.ty := by
  unfold dontCare
  cases hty : e.ty with
  | analog width => exact hty
  | _ => rfl

theorem dontCare_of_isAnalog {e : Expr} (hanalog : e.ty.isAnalog = true) : e.dontCare = e := by
  unfold dontCare
  cases hty : e.ty <;> simp_all [Ty.isAnalog, Ty.dontCare?]

/-- But for analog signals, a replacement depends on the type alone. -/
theorem dontCare_congr {d e : Expr} (hty : d.ty = e.ty) (hanalog : e.ty.isAnalog = false) :
    d.dontCare = e.dontCare := by
  unfold dontCare
  rw [hty]
  cases hcase : e.ty <;> simp_all [Ty.isAnalog, Ty.dontCare?]

theorem dontCare_of_isAggregate {e : Expr} (haggregate : e.ty.isAggregate = true) :
    e.dontCare = .placeholder e.ty := by
  unfold dontCare
  cases hty : e.ty <;> simp_all [Ty.isAggregate, Ty.dontCare?]

theorem ty_fillRead (gone : List String) (e : Expr) : (e.fillRead gone).ty = e.ty := by
  unfold fillRead
  split
  · exact ty_dontCare e
  · rfl

theorem fillReads_eq (gone : List String) (e : Expr) :
    e.fillReads gone = fillRead gone (e.mapChildren (fillReads gone)) :=
  bottomUp_eq (fillRead gone) e

@[simp] theorem ty_fillReads (gone : List String) (e : Expr) : (e.fillReads gone).ty = e.ty := by
  rw [fillReads_eq, ty_fillRead, ty_mapChildren]

/-! ## Valid accesses -/

theorem AccessesValid.of_mem_nodes {d e : Expr} (hvalid : e.AccessesValid) (hmem : d ∈ e.nodes) :
    d.AccessesValid :=
  fun c hc => hvalid c (mem_nodes_trans hmem hc)

theorem AccessesValid.of_mem_children {d e : Expr} (hvalid : e.AccessesValid)
    (hchild : d ∈ e.children) : d.AccessesValid :=
  hvalid.of_mem_nodes (mem_nodes_of_mem_children hchild d.mem_nodes_self)

theorem mem_children_of_accessBase? {base e : Expr} (hbase : e.accessBase? = some base) :
    base ∈ e.children := by
  cases e <;> simp_all [accessBase?, children]

/-- Only aggregates offer anything to access. -/
theorem isAggregate_of_isValidAccess {base e : Expr} (hvalid : e.isValidAccess = true)
    (hbase : e.accessBase? = some base) : base.ty.isAggregate = true := by
  cases e with
  | subField inner field ty =>
      simp only [accessBase?, Option.some.injEq] at hbase
      subst hbase
      cases hty : inner.ty <;> simp_all [isValidAccess, Ty.field?, Ty.isAggregate]
  | subIndex inner _ ty | subAccess inner _ ty =>
      simp only [accessBase?, Option.some.injEq] at hbase
      subst hbase
      cases hty : inner.ty <;> simp_all [isValidAccess, Ty.element?, Ty.isAggregate]
  | _ => simp [accessBase?] at hbase

theorem isVacuous_mapChildren {gone : List String} {f : Expr → Expr} {e : Expr}
    (hbase : ∀ base, e.accessBase? = some base →
      (f base).isVacuous gone = base.isVacuous gone) :
    (e.mapChildren f).isVacuous gone = e.isVacuous gone := by
  cases e <;> simp_all [mapChildren, isVacuous, accessBase?]

@[simp] theorem isAccess_mapChildren (f : Expr → Expr) (e : Expr) :
    (e.mapChildren f).isAccess = e.isAccess := by
  cases e <;> rfl

@[simp] theorem isNodeAmong_mapChildren (gone : List String) (f : Expr → Expr) (e : Expr) :
    (e.mapChildren f).isNodeAmong gone = e.isNodeAmong gone := by
  cases e <;> rfl

@[simp] theorem isNodeAmong_nil (e : Expr) : e.isNodeAmong [] = false := by
  cases e <;> simp [isNodeAmong]

/-- Whether an aggregate is vacuous can be told from what is left of it. -/
theorem isVacuous_fillReads {gone : List String} {e : Expr} (hvalid : e.AccessesValid)
    (haggregate : e.ty.isAggregate = true) :
    (e.fillReads gone).isVacuous gone = e.isVacuous gone := by
  induction e using induction with
  | step e ih =>
      have hoperands : (e.mapChildren (fillReads gone)).isVacuous gone = e.isVacuous gone := by
        apply isVacuous_mapChildren
        intro base hbase
        have hchild := mem_children_of_accessBase? hbase
        exact ih base hchild (hvalid.of_mem_children hchild)
          (isAggregate_of_isValidAccess (hvalid e e.mem_nodes_self) hbase)
      rw [fillReads_eq, fillRead]
      split
      next hread =>
        simp only [isVacuousRead, Bool.and_eq_true] at hread
        -- The placeholder is as vacuous as the access that it stands for.
        have hty : (e.mapChildren (fillReads gone)).ty.isAggregate = true := by
          rw [ty_mapChildren]
          exact haggregate
        rw [dontCare_of_isAggregate hty, ← hoperands, hread.2]
        rfl
      next => exact hoperands

theorem isVacuousRead_mapChildren_fillReads {gone : List String} {e : Expr}
    (hvalid : e.AccessesValid) :
    (e.mapChildren (fillReads gone)).isVacuousRead gone = e.isVacuousRead gone := by
  have hvacuous : (e.mapChildren (fillReads gone)).isVacuous gone = e.isVacuous gone := by
    apply isVacuous_mapChildren
    intro base hbase
    have hchild := mem_children_of_accessBase? hbase
    exact isVacuous_fillReads (hvalid.of_mem_children hchild)
      (isAggregate_of_isValidAccess (hvalid e e.mem_nodes_self) hbase)
  rw [isVacuousRead, isVacuousRead, isAccess_mapChildren, isNodeAmong_mapChildren, hvacuous]

/-- Whether a read is filled in. Analog signals have nothing to be filled in with. -/
def isFilled (gone : List String) (e : Expr) : Bool :=
  e.isVacuousRead gone && !e.ty.isAnalog

/-- The accesses that are filled in are those that were vacuous to begin with, and what they
hold does not matter. -/
theorem fillReads_of_accessesValid {gone : List String} {e : Expr} (hvalid : e.AccessesValid) :
    e.fillReads gone =
      if e.isFilled gone then e.dontCare else e.mapChildren (fillReads gone) := by
  rw [fillReads_eq, fillRead, isVacuousRead_mapChildren_fillReads hvalid, isFilled]
  cases hread : e.isVacuousRead gone with
  | false => rfl
  | true =>
      cases hanalog : e.ty.isAnalog with
      | false => exact dontCare_congr (ty_mapChildren _ e) hanalog
      | true => exact dontCare_of_isAnalog (by rw [ty_mapChildren]; exact hanalog)

theorem isFilled_nil {e : Expr}
    (hanalog : e.isAccess = true → e.isVacuous [] = true → e.ty.isAnalog = false) :
    e.isFilled [] = (e.isAccess && e.isVacuous []) := by
  rw [isFilled, isVacuousRead, isNodeAmong_nil, Bool.or_false]
  cases haccess : e.isAccess <;> cases hvacuous : e.isVacuous [] <;> simp_all

/-! ## From the outside in -/

mutual

/-- Replace every subexpression that `replace?` has something for, outer ones first. What is
replaced is not looked into. -/
def topDown (replace? : Expr → Option Expr) (e : Expr) : Expr :=
  (replace? e).getD <|
    match e with
    | .ref r => .ref r
    | .subField base field ty => .subField (base.topDown replace?) field ty
    | .subIndex base index ty => .subIndex (base.topDown replace?) index ty
    | .subAccess base index ty =>
        .subAccess (base.topDown replace?) (index.topDown replace?) ty
    | .literal value => .literal value
    | .prim op args consts ty => .prim op (topDownAll replace? args) consts ty
    | .mux cond tval fval ty =>
        .mux (cond.topDown replace?) (tval.topDown replace?) (fval.topDown replace?) ty
    | .validIf cond value ty => .validIf (cond.topDown replace?) (value.topDown replace?) ty
    | .placeholder ty => .placeholder ty

def topDownAll (replace? : Expr → Option Expr) : List Expr → List Expr
  | [] => []
  | e :: es => e.topDown replace? :: topDownAll replace? es

end

theorem topDownAll_eq (replace? : Expr → Option Expr) (es : List Expr) :
    topDownAll replace? es = es.map (topDown replace?) := by
  induction es with
  | nil => rfl
  | cons e es ih => simp [topDownAll, ih]

theorem topDown_eq (replace? : Expr → Option Expr) (e : Expr) :
    e.topDown replace? = (replace? e).getD (e.mapChildren (topDown replace?)) := by
  cases e <;> simp [topDown, mapChildren, topDownAll_eq]

/-- Fill in the outermost accesses to locations that do not exist, as the expression stands. -/
def fillOutermost : Expr → Expr :=
  topDown fun e => if e.isAccess && e.isVacuous [] then some e.dontCare else none

theorem fillOutermost_eq (e : Expr) :
    e.fillOutermost =
      if e.isAccess && e.isVacuous [] then e.dontCare else e.mapChildren fillOutermost := by
  rw [fillOutermost, topDown_eq]
  split <;> rfl

/-- Filling in from the inside out replaces the outermost vacuous accesses and nothing else,
provided that all accesses are valid and no analog signal is accessed in vain. -/
theorem fillReads_eq_fillOutermost (e : Expr) (hvalid : e.AccessesValid)
    (hanalog : ∀ d ∈ e.nodes, d.isAccess = true → d.isVacuous [] = true → d.ty.isAnalog = false) :
    e.fillReads [] = e.fillOutermost := by
  induction e using induction with
  | step e ih =>
      have hoperands : e.mapChildren (fillReads []) = e.mapChildren fillOutermost := by
        apply mapChildren_congr
        intro c hchild
        exact ih c hchild (hvalid.of_mem_children hchild) fun d hmem =>
          hanalog d (mem_nodes_of_mem_children hchild hmem)
      rw [fillReads_of_accessesValid hvalid, isFilled_nil (hanalog e e.mem_nodes_self), hoperands,
        ← fillOutermost_eq]

/-- A chain of accesses through a vector without elements, read as a value and for an index of
another vector. -/
def nestedReads : Expr :=
  let byte : Ty := .uint (.known 8)
  let rows : Expr := .ref (.wire "rows" (.vector (.bundleOf [("at", .vector byte 2)]) 0))
  let table : Expr := .ref (.wire "table" (.vector byte 4))
  let i : Expr := .ref (.port "i" byte)
  let row := rows.getAccess (table.getAccess i)
  .select i ((row.getField "at").getIndex 1) (table.getAccess ((row.getField "at").getAccess i))

theorem nestedReads_filled_outermost :
    nestedReads.AccessesValid ∧
      (∀ d ∈ nestedReads.nodes, d.isAccess = true → d.isVacuous [] = true →
        d.ty.isAnalog = false) ∧
      nestedReads.fillReads [] ≠ nestedReads ∧
      nestedReads.fillReads [] = nestedReads.fillOutermost := by
  have hvalid : nestedReads.AccessesValid := by decide
  have hanalog : ∀ d ∈ nestedReads.nodes, d.isAccess = true → d.isVacuous [] = true →
      d.ty.isAnalog = false := by decide
  exact ⟨hvalid, hanalog, by decide, nestedReads.fillReads_eq_fillOutermost hvalid hanalog⟩

end Rtl.Expr
