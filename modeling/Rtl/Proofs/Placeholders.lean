import Rtl.Proofs.Declarations
import Rtl.Proofs.Removal
import Rtl.Sample

/-! # Placeholders that removal leaves behind

An expression that has lost its value is resolved where it is an arm of a choice, the base of a
vacuous access, or the whole value of a statement. In any other place its placeholder stays:
accesses are settled before arms are dropped, so an access to a choice that collapses afterwards
is not looked at again. Which operands survive, and which of them have lost their value, is said
here of the expression as it was.
-/

namespace Rtl

namespace Expr

/-- Nothing but a placeholder is left of the expression. -/
def isVoid (gone : List String) : Expr → Bool
  | .mux _ tval fval _ => tval.isVoid gone && fval.isVoid gone
  | .validIf _ value _ => value.isVoid gone
  | .placeholder _ => true
  | e => e.isVacuousRead gone && e.ty.isAggregate

/-- The operands that are still there once vacuous reads are filled in and arms are dropped. -/
def survivors (gone : List String) : Expr → List Expr
  | .mux cond tval fval _ =>
      if tval.isVoid gone then [fval] else if fval.isVoid gone then [tval] else [cond, tval, fval]
  | .validIf cond value _ => if value.isVoid gone then [] else [cond, value]
  | e => if e.isFilled gone then [] else e.children

/-- A placeholder is left at some depth. -/
inductive Leaks (gone : List String) : Expr → Prop
  | here {e : Expr} : e.isVoid gone = true → Leaks gone e
  | under {d e : Expr} : d ∈ e.survivors gone → Leaks gone d → Leaks gone e

theorem leaks_iff {gone : List String} {e : Expr} :
    e.Leaks gone ↔ e.isVoid gone = true ∨ ∃ d ∈ e.survivors gone, d.Leaks gone := by
  constructor
  · intro hleaks
    cases hleaks with
    | here hvoid => exact .inl hvoid
    | under hmem hleaks => exact .inr ⟨_, hmem, hleaks⟩
  · rintro (hvoid | ⟨d, hmem, hleaks⟩)
    · exact .here hvoid
    · exact .under hmem hleaks

theorem mem_children_of_mem_survivors {gone : List String} {d e : Expr}
    (hmem : d ∈ e.survivors gone) : d ∈ e.children := by
  unfold survivors at hmem
  split at hmem <;> grind [children]

/-! ## What is left of an expression -/

theorem hasPlaceholder_eq (e : Expr) :
    e.hasPlaceholder = (e.isPlaceholder || e.children.any hasPlaceholder) :=
  any_eq_or isPlaceholder e

theorem hasPlaceholder_of_isPlaceholder {e : Expr} (hplaceholder : e.isPlaceholder = true) :
    e.hasPlaceholder = true := by
  rw [hasPlaceholder_eq, hplaceholder, Bool.true_or]

/-- Only an aggregate has a placeholder for its replacement, and no other replacement holds
one. -/
theorem hasPlaceholder_dontCare {e : Expr} (hanalog : e.ty.isAnalog = false) :
    e.dontCare.hasPlaceholder = e.ty.isAggregate ∧ e.dontCare.isPlaceholder = e.ty.isAggregate := by
  unfold dontCare
  cases hty : e.ty with
  | analog width => simp [hty, Ty.isAnalog] at hanalog
  | _ => exact ⟨rfl, rfl⟩

theorem isPlaceholder_dropArm_mux (cond tval fval : Expr) (ty : Ty) :
    (dropArm (.mux cond tval fval ty)).isPlaceholder =
      (tval.isPlaceholder && fval.isPlaceholder) := by
  rw [dropArm]
  by_cases htval : tval.isPlaceholder = true
  · rw [if_pos htval, htval, Bool.true_and]
  · rw [if_neg htval, Bool.eq_false_iff.mpr htval, Bool.false_and]
    split
    · exact Bool.eq_false_iff.mpr htval
    · rfl

theorem isPlaceholder_dropArm_validIf (cond value : Expr) (ty : Ty) :
    (dropArm (.validIf cond value ty)).isPlaceholder = value.isPlaceholder := by
  rw [dropArm]
  by_cases hvalue : value.isPlaceholder = true
  · rw [if_pos hvalue, hvalue]
    rfl
  · rw [if_neg hvalue, Bool.eq_false_iff.mpr hvalue]
    rfl

/-- Neither choosing nor missing, so dropping arms does nothing to it. -/
def isPlain : Expr → Bool
  | .mux .. | .validIf .. | .placeholder _ => false
  | _ => true

section Plain

variable {gone : List String} {e : Expr} (hplain : e.isPlain = true)
include hplain

theorem isVoid_of_isPlain : e.isVoid gone = (e.isVacuousRead gone && e.ty.isAggregate) := by
  cases e <;> first | rfl | simp [isPlain] at hplain

theorem survivors_of_isPlain :
    e.survivors gone = if e.isFilled gone then [] else e.children := by
  cases e <;> first | rfl | simp [isPlain] at hplain

theorem dropArm_mapChildren_of_isPlain (f : Expr → Expr) :
    dropArm (e.mapChildren f) = e.mapChildren f := by
  cases e <;> first | rfl | simp [isPlain] at hplain

theorem isPlaceholder_mapChildren_of_isPlain (f : Expr → Expr) :
    (e.mapChildren f).isPlaceholder = false := by
  cases e <;> first | rfl | simp [isPlain] at hplain

end Plain

theorem isPlain_of_isFilled {gone : List String} {e : Expr} (hfilled : e.isFilled gone = true) :
    e.isPlain = true := by
  simp only [isFilled, isVacuousRead, Bool.and_eq_true] at hfilled
  cases e <;> simp_all [isAccess, accessBase?, isNodeAmong, isPlain]

theorem isVoid_of_isFilled {gone : List String} {e : Expr}
    (hfilled : e.isFilled gone = true) : e.isVoid gone = e.ty.isAggregate := by
  rw [isVoid_of_isPlain (isPlain_of_isFilled hfilled)]
  simp only [isFilled, Bool.and_eq_true] at hfilled
  rw [hfilled.1, Bool.true_and]

/-- Analog signals aside, what is vacuous is filled in. -/
theorem isVoid_of_not_isFilled {gone : List String} {e : Expr} (hplain : e.isPlain = true)
    (hfilled : e.isFilled gone = false) : e.isVoid gone = false := by
  rw [isVoid_of_isPlain hplain]
  unfold isFilled at hfilled
  cases hty : e.ty <;> simp_all [Ty.isAnalog, Ty.isAggregate]

theorem isPlaceholder_cleared (gone : List String) {e : Expr} (hvalid : e.AccessesValid) :
    (e.cleared gone).isPlaceholder = e.isVoid gone := by
  induction e using induction with
  | step e ih =>
      have hoperand : ∀ d ∈ e.children, (d.cleared gone).isPlaceholder = d.isVoid gone :=
        fun d hmem => ih d hmem (hvalid.of_mem_children hmem)
      rw [cleared_eq hvalid]
      by_cases hfilled : e.isFilled gone = true
      · rw [if_pos hfilled, isVoid_of_isFilled hfilled]
        simp only [isFilled, Bool.and_eq_true, Bool.not_eq_true'] at hfilled
        exact (hasPlaceholder_dontCare hfilled.2).2
      · rw [if_neg hfilled]
        cases e with
        | mux cond tval fval ty =>
            rw [mapChildren, isPlaceholder_dropArm_mux, hoperand tval (by simp [children]),
              hoperand fval (by simp [children]), isVoid]
        | validIf cond value ty =>
            rw [mapChildren, isPlaceholder_dropArm_validIf, hoperand value (by simp [children]),
              isVoid]
        | placeholder ty => rfl
        | _ =>
            rw [dropArm_mapChildren_of_isPlain rfl, isPlaceholder_mapChildren_of_isPlain rfl,
              isVoid_of_not_isFilled rfl (Bool.eq_false_iff.mpr hfilled)]

/-- What clearing makes of an expression: a replacement, a placeholder, what is left of one of its
operands, or the expression itself with what is left of each operand. -/
inductive Clearing (gone : List String) (e : Expr) : Prop
  | filled : e.isFilled gone = true → e.cleared gone = e.dontCare → e.survivors gone = [] →
      Clearing gone e
  | lost {ty : Ty} : e.isAccess = false → e.isVoid gone = true →
      e.cleared gone = .placeholder ty → e.survivors gone = [] → Clearing gone e
  | collapsed {d : Expr} : e.isAccess = false → d ∈ e.children → e.isVoid gone = d.isVoid gone →
      e.cleared gone = d.cleared gone → e.survivors gone = [d] → Clearing gone e
  | kept : e.isFilled gone = false → e.isVoid gone = false →
      e.cleared gone = e.mapChildren (cleared gone) → e.survivors gone = e.children →
      Clearing gone e

theorem clearing (gone : List String) {e : Expr} (hvalid : e.AccessesValid) :
    e.Clearing gone := by
  have hoperand : ∀ d ∈ e.children, (d.cleared gone).isPlaceholder = d.isVoid gone :=
    fun d hmem => isPlaceholder_cleared gone (hvalid.of_mem_children hmem)
  have hcleared : e.cleared gone =
      if e.isFilled gone then e.dontCare else dropArm (e.mapChildren (cleared gone)) :=
    cleared_eq hvalid
  by_cases hfilled : e.isFilled gone = true
  · refine .filled hfilled (by rw [hcleared, if_pos hfilled]) ?_
    rw [survivors_of_isPlain (isPlain_of_isFilled hfilled), if_pos hfilled]
  · rw [if_neg hfilled] at hcleared
    rw [Bool.not_eq_true] at hfilled
    cases e with
    | mux cond tval fval ty =>
        rw [mapChildren, dropArm, hoperand tval (by simp [children]),
          hoperand fval (by simp [children])] at hcleared
        by_cases htval : tval.isVoid gone = true
        · exact .collapsed (d := fval) rfl (by simp [children]) (by simp [isVoid, htval])
            (by rw [hcleared, if_pos htval]) (by rw [survivors, if_pos htval])
        rw [if_neg htval] at hcleared
        by_cases hfval : fval.isVoid gone = true
        · exact .collapsed (d := tval) rfl (by simp [children]) (by simp [isVoid, hfval])
            (by rw [hcleared, if_pos hfval]) (by rw [survivors, if_neg htval, if_pos hfval])
        rw [if_neg hfval] at hcleared
        exact .kept hfilled (by simp [isVoid, htval]) hcleared
          (by rw [survivors, if_neg htval, if_neg hfval, children])
    | validIf cond value ty =>
        rw [mapChildren, dropArm, hoperand value (by simp [children])] at hcleared
        by_cases hvalue : value.isVoid gone = true
        · exact .lost rfl hvalue (by rw [hcleared, if_pos hvalue])
            (by rw [survivors, if_pos hvalue])
        rw [if_neg hvalue] at hcleared
        exact .kept hfilled (Bool.eq_false_iff.mpr hvalue) hcleared
          (by rw [survivors, if_neg hvalue, children])
    | placeholder ty => exact .lost rfl rfl hcleared (by simp [survivors, children])
    | _ =>
        rw [dropArm_mapChildren_of_isPlain rfl] at hcleared
        refine .kept hfilled (isVoid_of_not_isFilled rfl hfilled) hcleared ?_
        rw [survivors_of_isPlain rfl, hfilled, if_neg Bool.false_ne_true]

/-- One level of what is left: the placeholder is the expression itself, or in what is left of
a surviving operand. -/
theorem hasPlaceholder_cleared_iff {gone : List String} {e : Expr} (hvalid : e.AccessesValid) :
    (e.cleared gone).hasPlaceholder = true ↔
      e.isVoid gone = true ∨ ∃ d ∈ e.survivors gone, (d.cleared gone).hasPlaceholder = true := by
  cases clearing gone hvalid with
  | filled hfilled hcleared hsurvivors =>
      rw [hcleared, hsurvivors, isVoid_of_isFilled hfilled]
      simp only [isFilled, Bool.and_eq_true, Bool.not_eq_true'] at hfilled
      simp [(hasPlaceholder_dontCare hfilled.2).1]
  | lost _ hvoid hcleared hsurvivors =>
      rw [hcleared, hasPlaceholder_of_isPlaceholder rfl]
      simp [hvoid]
  | @collapsed d _ hchild hvoid hcleared hsurvivors =>
      -- If the operand is lost too, the placeholder is all there is.
      have hlost : d.isVoid gone = true → (d.cleared gone).hasPlaceholder = true := fun hlost =>
        hasPlaceholder_of_isPlaceholder
          ((isPlaceholder_cleared gone (hvalid.of_mem_children hchild)).trans hlost)
      rw [hcleared, hsurvivors, hvoid]
      simpa using hlost
  | kept _ hexists hcleared hsurvivors =>
      have hself : (e.mapChildren (cleared gone)).isPlaceholder = false := by
        rw [← hcleared, isPlaceholder_cleared gone hvalid, hexists]
      rw [hcleared, hsurvivors, hexists, hasPlaceholder_eq, hself, children_mapChildren]
      simp

theorem hasPlaceholder_cleared_iff_leaks {gone : List String} {e : Expr}
    (hvalid : e.AccessesValid) : (e.cleared gone).hasPlaceholder = true ↔ e.Leaks gone := by
  induction e using induction with
  | step e ih =>
      rw [hasPlaceholder_cleared_iff hvalid, leaks_iff]
      refine or_congr_right (exists_congr fun d => and_congr_right fun hmem => ?_)
      have hchild := mem_children_of_mem_survivors hmem
      exact ih d hchild (hvalid.of_mem_children hchild)

end Expr

namespace Stmt

/-- The expressions that are still there once a leaf has been gone through. Members of an
attachment are kept as they are or not at all. -/
def survivors (gone : List String) : Stmt → List Expr
  | .connect sink source =>
      if sink.isVacuous gone then [] else if source.isVoid gone then [sink] else [sink, source]
  | .invalidate target => if target.isVacuous gone then [] else [target]
  | .attach _ => []
  | .node _ value => if value.isVoid gone then [] else [value]
  | .register _ _ clock (some reset) =>
      if reset.init.isVoid gone then [clock] else [clock, reset.signal, reset.init]
  | s => s.exprs

/-- The name of the node that a statement defines. -/
def nodeName? : Stmt → Option String
  | .node name _ => some name
  | _ => none

@[simp] theorem nodeName?_mapExprs (f : Expr → Expr) (s : Stmt) :
    (s.mapExprs f).nodeName? = s.nodeName? := by
  cases s <;> rfl

/-- The node that is left without a value. -/
def voidNode? (gone : List String) : Stmt → Option String
  | .node name value => if value.isVoid gone then some name else none
  | _ => none

/-- The nodes known to be without a value after the given leaves, one known node making void
the next. -/
def voidNodes (gone : List String) : List Stmt → List String
  | [] => gone
  | s :: ss => voidNodes ((s.voidNode? gone).toList ++ gone) ss

theorem mem_exprs_of_mem_survivors {gone : List String} {s : Stmt} {e : Expr}
    (hmem : e ∈ s.survivors gone) : e ∈ s.exprs := by
  unfold survivors at hmem
  split at hmem <;> grind [exprs]

end Stmt

namespace Vacuous

/-! ## What is left of a statement -/

theorem settle_connect (sink source : Expr) :
    (settle (.connect sink source)).result.exprs =
        (if source.isPlaceholder then [sink] else [sink, source]) ∧
      (settle (.connect sink source)).gone = [] := by
  cases source <;> exact ⟨rfl, rfl⟩

theorem settle_node (name : String) (value : Expr) :
    (settle (.node name value)).result.exprs = (if value.isPlaceholder then [] else [value]) ∧
      (settle (.node name value)).gone = if value.isPlaceholder then [name] else [] := by
  cases value <;> exact ⟨rfl, rfl⟩

theorem settle_register (name : String) (ty : Ty) (clock : Expr) (reset : Reset) :
    (settle (.register name ty clock (some reset))).result.exprs =
        (if reset.init.isPlaceholder then [clock] else [clock, reset.signal, reset.init]) ∧
      (settle (.register name ty clock (some reset))).gone = [] := by
  obtain ⟨signal, init⟩ := reset
  cases init <;> exact ⟨rfl, rfl⟩

theorem fill_eq_settle (gone : List String) (s : Stmt) :
    (fill gone s).result = (settle (s.mapExprs (Expr.cleared gone))).result ∧
      (fill gone s).gone = (settle (s.mapExprs (Expr.cleared gone))).gone := by
  rw [fill, Stmt.mapExprs_mapExprs]
  exact ⟨rfl, rfl⟩

theorem mem_gone_settle {s : Stmt} {name : String} :
    name ∈ (settle s).gone ↔ s.nodeName? = some name ∧ (settle s).result = .skip := by
  unfold settle
  split
  · simp [Remains.gone, Finding.removedNode?, Stmt.nodeName?]
  · simp [Remains.gone, Finding.removedNode?, Stmt.nodeName?, Remains.nothing, eq_comm]
  · simp [Remains.gone, Finding.removedNode?, Stmt.nodeName?]
  · simp only [Remains.gone, List.filterMap_nil, List.not_mem_nil, false_iff, not_and]
    rintro hname rfl
    simp [Stmt.nodeName?] at hname

/-- The nodes that are found to be without a value are those that are dropped. -/
theorem mem_gone_removeFromLeaf {gone : List String} {s : Stmt} {name : String} :
    name ∈ (removeFromLeaf gone s).gone ↔
      s.nodeName? = some name ∧ (removeFromLeaf gone s).result = .skip := by
  have hfill : name ∈ (fill gone s).gone ↔
      s.nodeName? = some name ∧ (fill gone s).result = .skip := by
    obtain ⟨hresult, hgone⟩ := fill_eq_settle gone s
    rw [hresult, hgone, mem_gone_settle, Stmt.nodeName?_mapExprs]
  cases s with
  | connect sink | invalidate sink =>
      simp only [removeFromLeaf]
      split
      · simp [Remains.gone, Remains.nothing, Stmt.nodeName?]
      · exact hfill
  | attach members =>
      simp only [removeFromLeaf]
      split <;> simp [Remains.gone, Remains.nothing, Stmt.nodeName?]
  | _ => exact hfill

/-- What is left of a leaf: its surviving expressions, cleared, and the node that is found to
be without a value. -/
theorem removeFromLeaf_left {gone : List String} {s : Stmt}
    (hvalid : ∀ e ∈ s.exprs, e.AccessesValid) (hattach : s.isAttach = false) :
    (removeFromLeaf gone s).result.exprs = (s.survivors gone).map (Expr.cleared gone) ∧
      (removeFromLeaf gone s).gone = (s.voidNode? gone).toList := by
  obtain ⟨hresult, hgone⟩ := fill_eq_settle gone s
  cases s with
  | connect sink source =>
      have hsource := Expr.isPlaceholder_cleared gone (hvalid source (by simp [Stmt.exprs]))
      obtain ⟨hexprs, hfound⟩ := settle_connect (sink.cleared gone) (source.cleared gone)
      rw [removeFromLeaf, Stmt.survivors]
      split
      · exact ⟨rfl, rfl⟩
      · rw [hresult, hgone, Stmt.mapExprs, hexprs, hfound, hsource]
        refine ⟨?_, rfl⟩
        split <;> rfl
  | invalidate target =>
      rw [removeFromLeaf, Stmt.survivors]
      split
      · exact ⟨rfl, rfl⟩
      · rw [hresult, hgone]
        exact ⟨rfl, rfl⟩
  | attach members => simp [Stmt.isAttach] at hattach
  | node name value =>
      have hvalue := Expr.isPlaceholder_cleared gone (hvalid value (by simp [Stmt.exprs]))
      obtain ⟨hexprs, hfound⟩ := settle_node name (value.cleared gone)
      simp only [removeFromLeaf, Stmt.survivors, Stmt.voidNode?]
      rw [hresult, hgone, Stmt.mapExprs, hexprs, hfound, hvalue]
      split <;> exact ⟨rfl, rfl⟩
  | register name ty clock reset =>
      simp only [removeFromLeaf]
      rw [hresult, hgone]
      cases reset with
      | none => exact ⟨rfl, rfl⟩
      | some reset =>
          have hinit := Expr.isPlaceholder_cleared gone (hvalid reset.init (by simp [Stmt.exprs]))
          obtain ⟨hexprs, hfound⟩ := settle_register name ty (clock.cleared gone)
            ⟨reset.signal.cleared gone, reset.init.cleared gone⟩
          rw [Stmt.mapExprs, Option.map_some, hexprs, hfound, hinit, Stmt.survivors]
          refine ⟨?_, rfl⟩
          split <;> rfl
  | _ =>
      simp only [removeFromLeaf]
      rw [hresult, hgone]
      exact ⟨rfl, rfl⟩

theorem gone_removeFromLeaf {gone : List String} {s : Stmt}
    (hvalid : ∀ e ∈ s.exprs, e.AccessesValid) :
    (removeFromLeaf gone s).gone = (s.voidNode? gone).toList := by
  cases s with
  | attach members =>
      simp only [removeFromLeaf]
      split <;> rfl
  | _ => exact (removeFromLeaf_left hvalid rfl).2

/-- The nodes that removal finds to be without a value are those said to be so. -/
theorem mem_voidNodes {gone : List String} {ss : List Stmt}
    (hleaf : ∀ s ∈ ss, s.isBlock = false) (hvalid : ∀ s ∈ ss, ∀ e ∈ s.exprs, e.AccessesValid)
    (name : String) :
    name ∈ (removeFromAll gone ss).gone ++ gone ↔ name ∈ Stmt.voidNodes gone ss := by
  induction ss generalizing gone with
  | nil => rfl
  | cons s ss ih =>
      obtain ⟨hhead, htail⟩ := List.forall_mem_cons.mp hleaf
      obtain ⟨hheadValid, htailValid⟩ := List.forall_mem_cons.mp hvalid
      rw [← mem_gone_cons, ih htail htailValid, removeFrom_of_not_block gone hhead,
        gone_removeFromLeaf hheadValid, Stmt.voidNodes]

/-- A valid leaf is left with a placeholder exactly if one leaks from an expression that
survives. -/
theorem noPlaceholder_removeFromLeaf_iff {gone : List String} {s : Stmt} (hvalid : s.Valid) :
    (∀ e ∈ (removeFromLeaf gone s).result.exprs, e.NoPlaceholder) ↔
      ∀ e ∈ s.survivors gone, ¬ e.Leaks gone := by
  cases s with
  | attach members =>
      -- Members are kept as they are, and had no placeholder to begin with.
      refine iff_of_true ?_ (by simp [Stmt.survivors])
      intro e he
      apply hvalid.noPlaceholder
      simp only [removeFromLeaf] at he
      split at he
      · simp [Remains.nothing, Stmt.exprs] at he
      · exact (List.mem_filter.mp he).1
  | _ =>
      rw [(removeFromLeaf_left (fun e he => hvalid.accesses he) rfl).1, List.forall_mem_map]
      refine forall₂_congr fun e hmem => ?_
      have haccesses := hvalid.accesses (Stmt.mem_exprs_of_mem_survivors hmem)
      rw [← Expr.hasPlaceholder_cleared_iff_leaks haccesses, ← Expr.hasPlaceholder_eq_false_iff,
        Bool.not_eq_true]

end Vacuous

namespace Module

/-- Each leaf of the result is what is left of one leaf, given the nodes that the leaves before
it have made void. -/
theorem mem_leaves_removeVacuous {module : Module} (hvalid : module.Valid) {t : Stmt} :
    t ∈ Stmt.leavesAll module.removeVacuous.value.body ↔
      ∃ before s after, Stmt.leavesAll module.body = before ++ s :: after ∧
        t = (Vacuous.removeFromLeaf (Stmt.voidNodes [] before) s).result := by
  have hbody : module.removeVacuous.value.body = (Vacuous.removeFromAll [] module.body).result :=
    rfl
  rw [hbody, Vacuous.leavesAll_removeFromAll, Vacuous.mem_removeFromAll_iff]
  refine exists_congr fun before => exists_congr fun s => exists_congr fun after =>
    and_congr_right fun hsplit => ?_
  have hleaf : ∀ u ∈ before ++ s :: after, u.isBlock = false := by
    rw [← hsplit]
    exact fun u hu => Stmt.isBlock_of_mem_leaves (s := .block module.body) hu
  have haccesses : ∀ u ∈ before ++ s :: after, ∀ e ∈ u.exprs, e.AccessesValid := by
    rw [← hsplit]
    exact fun u hu e he => (hvalid.of_mem_leaves hu).accesses he
  rw [Vacuous.removeFrom_of_not_block _ (hleaf s (by simp))]
  rw [Vacuous.removeFromLeaf_congr (Vacuous.mem_voidNodes
    (fun u hu => hleaf u (List.mem_append_left _ hu))
    (fun u hu => haccesses u (List.mem_append_left _ hu)))]

/-- Removal rids a module of placeholders exactly if none leaks from what survives of one of
its leaves, given the nodes that the leaves before it have made void. -/
theorem removeVacuous_noPlaceholder_iff {circuit : Circuit} {module : Module}
    (hvalid : circuit.violations = []) (hmem : module ∈ circuit.modules) :
    (∀ e ∈ module.removeVacuous.value.exprs, e.NoPlaceholder) ↔
      ∀ before s after, Stmt.leavesAll module.body = before ++ s :: after →
        ∀ e ∈ s.survivors (Stmt.voidNodes [] before), ¬ e.Leaks (Stmt.voidNodes [] before) := by
  have hmodule := (circuit.violations_eq_nil_iff.mp hvalid).2 module hmem
  have hleaf : ∀ {before s after}, Stmt.leavesAll module.body = before ++ s :: after → s.Valid :=
    fun hsplit => hmodule.of_mem_leaves (by simp [hsplit])
  constructor
  · intro hnone before s after hsplit
    rw [← Vacuous.noPlaceholder_removeFromLeaf_iff (hleaf hsplit)]
    intro e he
    have hleft := (mem_leaves_removeVacuous hmodule).mpr ⟨before, s, after, hsplit, rfl⟩
    exact hnone e (mem_exprs_iff_leaves.mpr ⟨_, hleft, he⟩)
  · intro hnone e he
    obtain ⟨t, ht, he⟩ := mem_exprs_iff_leaves.mp he
    obtain ⟨before, s, after, hsplit, rfl⟩ := (mem_leaves_removeVacuous hmodule).mp ht
    exact (Vacuous.noPlaceholder_removeFromLeaf_iff (hleaf hsplit)).mpr
      (hnone before s after hsplit) e he

end Module

/-- The only read through a vector without elements is filled in, and no placeholder is left. -/
theorem queue_removed_noPlaceholder :
    Sample.multiModule.violations = [] ∧ Sample.queue ∈ Sample.multiModule.modules ∧
      (∀ e ∈ Sample.queue.removeVacuous.value.exprs, e.NoPlaceholder) ∧
      ∀ before s after, Stmt.leavesAll Sample.queue.body = before ++ s :: after →
        ∀ e ∈ s.survivors (Stmt.voidNodes [] before), ¬ e.Leaks (Stmt.voidNodes [] before) := by
  have hvalid : Sample.multiModule.violations = [] := by decide
  have hmem : Sample.queue ∈ Sample.multiModule.modules := by decide
  have hnone : ∀ e ∈ Sample.queue.removeVacuous.value.exprs, e.NoPlaceholder := by decide
  exact ⟨hvalid, hmem, hnone, (Module.removeVacuous_noPlaceholder_iff hvalid hmem).mp hnone⟩

/-- A field of a choice between two elements of a vector that has none. -/
def emptyChoice : Module := Build.toModule "Top" do
  let c ← Build.input "c" (Sample.uint 1)
  let out ← Build.output "out" (Sample.uint 8)
  let w ← Build.wire "w" (.vector (.bundleOf [("a", Sample.uint 8)]) 0)
  Build.connect out ((Expr.select c (w.getIndex 0) (w.getIndex 1)).getField "a")

/-- A valid circuit of which removal leaves a placeholder: both arms are filled in and the
choice between them dropped, which leaves a field of nothing. -/
theorem emptyChoice_keeps_placeholder :
    (Sample.single emptyChoice).violations = [] ∧
      emptyChoice ∈ (Sample.single emptyChoice).modules ∧
      ∃ e ∈ emptyChoice.removeVacuous.value.exprs, ¬ e.NoPlaceholder := by
  decide

end Rtl
