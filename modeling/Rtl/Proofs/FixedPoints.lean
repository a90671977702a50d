import Mathlib.Algebra.GroupWithZero.Nat
import Mathlib.Algebra.Order.BigOperators.Group.List
import Mathlib.Algebra.Order.Ring.Nat
import Rtl.Proofs.VacuousUses

/-! # The modules that removal leaves alone

A module without placeholders is kept as it is exactly if nothing in it is lost: no location that
is driven, no member of an attachment, and no access that is read. That nothing else is kept
takes an argument, for an access that is filled in lies under others, and what is made of these
could happen to be what was there before. It cannot, for each one filled in is an access less.
-/

namespace Rtl

namespace Expr

/-! ## Counting accesses -/

/-- The number of accesses in an expression, at any depth. -/
def accessCount (e : Expr) : Nat :=
  e.nodes.countP isAccess

theorem accessCount_eq (e : Expr) :
    e.accessCount = (if e.isAccess then 1 else 0) + (e.children.map accessCount).sum := by
  rw [accessCount, nodes_eq, List.countP_cons, List.countP_flatMap, Nat.add_comm]
  rfl

theorem accessCount_mapChildren (f : Expr → Expr) (e : Expr) :
    (e.mapChildren f).accessCount =
      (if e.isAccess then 1 else 0) + (e.children.map fun d => (f d).accessCount).sum := by
  rw [accessCount_eq, isAccess_mapChildren, children_mapChildren, List.map_map]
  rfl

theorem accessCount_mapChildren_le {f : Expr → Expr} {e : Expr}
    (hle : ∀ d ∈ e.children, (f d).accessCount ≤ d.accessCount) :
    (e.mapChildren f).accessCount ≤ e.accessCount := by
  rw [accessCount_mapChildren, accessCount_eq]
  exact Nat.add_le_add_left (List.sum_le_sum hle) _

theorem accessCount_mapChildren_lt {f : Expr → Expr} {e : Expr}
    (hle : ∀ d ∈ e.children, (f d).accessCount ≤ d.accessCount)
    (hlt : ∃ d ∈ e.children, (f d).accessCount < d.accessCount) :
    (e.mapChildren f).accessCount < e.accessCount := by
  rw [accessCount_mapChildren, accessCount_eq]
  exact Nat.add_lt_add_left (List.sum_lt_sum _ _ hle hlt) _

/-- A rewrite that adds no access anywhere adds none when it is done everywhere. -/
theorem accessCount_bottomUp_le {f : Expr → Expr} (hle : ∀ e, (f e).accessCount ≤ e.accessCount)
    (e : Expr) : (e.bottomUp f).accessCount ≤ e.accessCount := by
  induction e using induction with
  | step e ih =>
      rw [bottomUp_eq]
      exact (hle _).trans (accessCount_mapChildren_le ih)

theorem accessCount_le_of_mem_children {d e : Expr} (hmem : d ∈ e.children) :
    d.accessCount ≤ e.accessCount := by
  rw [accessCount_eq e]
  exact (List.le_sum_of_mem (List.mem_map_of_mem hmem)).trans (Nat.le_add_left _ _)

theorem accessCount_dontCare {e : Expr} (hanalog : e.ty.isAnalog = false) :
    e.dontCare.accessCount = 0 := by
  rw [accessCount, List.countP_eq_zero]
  intro d hmem
  have hfiller := isFiller_of_mem_nodes_dontCare hanalog hmem
  cases d <;> simp_all [isFiller, isAccess, accessBase?]

theorem accessCount_fillRead_le (gone : List String) (e : Expr) :
    (e.fillRead gone).accessCount ≤ e.accessCount := by
  rcases fillRead_eq_self_or gone e with hkept | ⟨hfilled, hanalog⟩
  · rw [hkept]
  · rw [hfilled, accessCount_dontCare hanalog]
    exact Nat.zero_le _

theorem accessCount_fillReads_le (gone : List String) (e : Expr) :
    (e.fillReads gone).accessCount ≤ e.accessCount :=
  accessCount_bottomUp_le (accessCount_fillRead_le gone) e

theorem accessCount_dropArms_le (e : Expr) : e.dropArms.accessCount ≤ e.accessCount := by
  refine accessCount_bottomUp_le (fun d => ?_) e
  rcases dropArm_eq_or d with hkept | hchild | ⟨ty, hlost⟩
  · rw [hkept]
  · exact accessCount_le_of_mem_children hchild
  · rw [hlost]
    exact Nat.zero_le _

/-! ## Accesses that are filled in -/

theorem isLostAccess_iff {e : Expr} :
    e.isLostAccess = true ↔
      e.isAccess = true ∧ e.ty.isAnalog = false ∧ e.isVacuous [] = true := by
  simp [isLostAccess, and_assoc]

theorem AccessesExist.reads {e : Expr} (hexist : e.AccessesExist) :
    ∀ d ∈ e.nodes, d.isAccess = true → d.isVacuous [] = true → d.ty.isAnalog = true := by
  intro d hmem haccess hvacuous
  have hlost := hexist d hmem
  simpa [isLostAccess, haccess, hvacuous] using hlost

theorem fillRead_of_isLostAccess {e : Expr} (hlost : e.isLostAccess = true) :
    e.fillRead [] = e.dontCare := by
  obtain ⟨haccess, _, hvacuous⟩ := isLostAccess_iff.mp hlost
  rw [fillRead, isVacuousRead, haccess, hvacuous]
  rfl

/-- Where there is a lost access, one without another beneath it is filled in as it is. -/
theorem accessCount_fillReads_lt {e : Expr} (hlost : ¬ e.AccessesExist) :
    (e.fillReads []).accessCount < e.accessCount := by
  induction e using induction with
  | step e ih =>
      rw [fillReads_eq]
      by_cases hbelow : ∀ d ∈ e.children, d.AccessesExist
      · -- Nothing changes beneath `e`, which is the lost access.
        have hself : e.isLostAccess = true := by
          by_contra hkept
          refine hlost fun d hmem => ?_
          rcases mem_nodes_iff.mp hmem with rfl | ⟨c, hchild, hmem⟩
          · exact Bool.eq_false_iff.mpr hkept
          · exact hbelow c hchild d hmem
        obtain ⟨haccess, hanalog, _⟩ := isLostAccess_iff.mp hself
        have hoperands : e.mapChildren (fillReads []) = e :=
          mapChildren_eq_self fun d hchild => fillReads_eq_self (hbelow d hchild).reads
        rw [hoperands, fillRead_of_isLostAccess hself, accessCount_dontCare hanalog,
          accessCount_eq e, haccess]
        exact Nat.lt_add_right _ Nat.zero_lt_one
      · simp only [not_forall] at hbelow
        obtain ⟨d, hchild, hd⟩ := hbelow
        refine (accessCount_fillRead_le [] _).trans_lt (accessCount_mapChildren_lt ?_ ?_)
        · exact fun c _ => accessCount_fillReads_le [] c
        · exact ⟨d, hchild, ih d hchild hd⟩

/-- Only an expression without lost accesses is left as it is. -/
theorem accessesExist_of_cleared_eq_self {e : Expr} (hkept : e.cleared [] = e) :
    e.AccessesExist := by
  by_contra hlost
  have hlt := calc
    (e.cleared []).accessCount ≤ (e.fillReads []).accessCount := accessCount_dropArms_le _
    _ < e.accessCount := accessCount_fillReads_lt hlost
  rw [hkept] at hlt
  exact Nat.lt_irrefl _ hlt

theorem dropArm_of_noPlaceholder {e : Expr} (hnone : e.NoPlaceholder) : dropArm e = e := by
  have hchild : ∀ d ∈ e.children, d.isPlaceholder = false := fun d hmem =>
    hnone d (mem_nodes_of_mem_children hmem d.mem_nodes_self)
  cases e with
  | mux cond tval fval ty =>
      have htval := hchild tval (by simp [children])
      have hfval := hchild fval (by simp [children])
      simp [dropArm, htval, hfval]
  | validIf cond value ty =>
      have hvalue := hchild value (by simp [children])
      simp [dropArm, hvalue]
  | _ => rfl

theorem AccessesExist.clear {e : Expr} (hexist : e.AccessesExist) (hnone : e.NoPlaceholder) :
    e.Clear :=
  ⟨hexist.reads, fun _ hmem => dropArm_of_noPlaceholder fun _ hc =>
    hnone _ (mem_nodes_trans hmem hc)⟩

/-- Without empty vectors and placeholders every location exists. -/
theorem isVacuous_of_nonempty {e : Expr} (hnone : e.NoPlaceholder)
    (hnonempty : ∀ d ∈ e.nodes, d.ty.isEmptyVector = false) : e.isVacuous [] = false := by
  induction e using induction with
  | step e ih =>
      have hself := hnonempty e e.mem_nodes_self
      have hchild : ∀ d ∈ e.children, d.isVacuous [] = false := fun d hmem =>
        ih d hmem (fun c hc => hnone c (mem_nodes_of_mem_children hmem hc))
          fun c hc => hnonempty c (mem_nodes_of_mem_children hmem hc)
      cases e with
      | ref r =>
          rw [isVacuous, isNodeAmong_nil, Bool.or_false]
          exact hself
      | subField base | subIndex base | subAccess base =>
          rw [isVacuous, hchild base (by simp [children]), Bool.or_false]
          exact hself
      | literal => rfl
      | placeholder ty => simpa [isPlaceholder] using hnone _ (mem_nodes_self _)
      | _ => exact hself

end Expr

/-! ## Statements -/

/-- Nothing of the statement is lost: not the location that it drives, none of its accesses and,
where it attaches, none of at least two members. -/
structure Stmt.Intact (s : Stmt) : Prop where
  sink : ∀ sink ∈ s.sink?, sink.isVacuous [] = false
  members : s.isAttach = true →
    2 ≤ s.exprs.length ∧ ∀ member ∈ s.exprs, member.isVacuous [] = false
  accesses : s.isAttach = false → ∀ e ∈ s.exprs, e.AccessesExist

instance (s : Stmt) : Decidable s.Intact :=
  decidable_of_iff
    ((∀ sink ∈ s.sink?, sink.isVacuous [] = false) ∧
      (s.isAttach = true →
        2 ≤ s.exprs.length ∧ ∀ member ∈ s.exprs, member.isVacuous [] = false) ∧
      (s.isAttach = false → ∀ e ∈ s.exprs, e.AccessesExist))
    ⟨fun ⟨hsink, hmembers, haccesses⟩ => ⟨hsink, hmembers, haccesses⟩,
      fun h => ⟨h.sink, h.members, h.accesses⟩⟩

theorem Stmt.Intact.clear {s : Stmt} (hintact : s.Intact)
    (hnone : ∀ e ∈ s.exprs, e.NoPlaceholder) : s.Clear where
  sink := drivesVacuous_eq_false_iff.mpr hintact.sink
  value e he := hnone e (mem_exprs_of_mem_value? he) e e.mem_nodes_self
  exprs hattach e he := (hintact.accesses hattach e he).clear (hnone e he)
  members := hintact.members

theorem Stmt.Intact.of_nonempty {s : Stmt} (hnone : ∀ e ∈ s.exprs, e.NoPlaceholder)
    (hnonempty : ∀ e ∈ s.exprs, ∀ d ∈ e.nodes, d.ty.isEmptyVector = false)
    (htwo : s.isAttach = true → 2 ≤ s.exprs.length) : s.Intact := by
  have hexists : ∀ e ∈ s.exprs, ∀ d ∈ e.nodes, d.isVacuous [] = false := by
    intro e he d hd
    exact Expr.isVacuous_of_nonempty (fun c hc => hnone e he c (Expr.mem_nodes_trans hd hc))
      fun c hc => hnonempty e he c (Expr.mem_nodes_trans hd hc)
  refine ⟨?_, ?_, ?_⟩
  · intro sink hsink
    exact hexists sink (mem_exprs_of_mem_sink? hsink) sink sink.mem_nodes_self
  · exact fun hattach => ⟨htwo hattach, fun e he => hexists e he e e.mem_nodes_self⟩
  · intro _ e he d hd
    simp [Expr.isLostAccess, hexists e he d hd]

namespace Vacuous

/-- Settling leaves a statement as it is, or takes an expression away. -/
theorem settle_eq_self_or (s : Stmt) :
    (settle s).result = s ∨ (settle s).result.exprs.length < s.exprs.length := by
  unfold settle
  split
  · exact .inr (by simp [Stmt.exprs])
  · exact .inr (by simp [Remains.nothing, Stmt.exprs])
  · exact .inr (by simp [Stmt.exprs])
  · exact .inl rfl

theorem cleared_eq_self_of_fill {s : Stmt} (hkept : (fill [] s).result = s) :
    ∀ e ∈ s.exprs, e.cleared [] = e := by
  rw [(fill_eq_settle [] s).1] at hkept
  rcases settle_eq_self_or (s.mapExprs (Expr.cleared [])) with hsame | hless
  · have hexprs : s.exprs.map (Expr.cleared []) = s.exprs := by
      rw [← Stmt.exprs_mapExprs, ← hsame, hkept]
    intro e he
    exact List.map_inj_left.mp (hexprs.trans (List.map_id _).symm) e he
  · rw [hkept, Stmt.exprs_mapExprs, List.length_map] at hless
    exact absurd hless (Nat.lt_irrefl _)

/-- A leaf that is left as it is has lost nothing. -/
theorem intact_of_removeFromLeaf {s : Stmt} (hkept : (removeFromLeaf [] s).result = s) :
    s.Intact := by
  cases hattach : s.isAttach with
  | true =>
      cases s with
      | attach members =>
          simp only [removeFromLeaf] at hkept
          split at hkept
          · simp [Remains.nothing] at hkept
          next htwo =>
            have hleft := Stmt.attach.inj hkept
            rw [hleft] at htwo
            rw [List.filter_eq_self] at hleft
            refine ⟨by simp [Stmt.sink?], fun _ => ⟨Nat.not_lt.mp htwo, ?_⟩, by simp [hattach]⟩
            exact fun member hmem => Bool.not_eq_true' _ ▸ hleft member hmem
      | _ => simp [Stmt.isAttach] at hattach
  | false =>
      rw [removeFromLeaf_eq_fill [] hattach] at hkept
      split at hkept
      next hvacuous =>
        -- Only a statement that drives something can be dropped for it.
        obtain rfl : Stmt.skip = s := hkept
        simp [Stmt.drivesVacuous, Stmt.sink?] at hvacuous
      next hexists =>
        refine ⟨?_, by simp [hattach], fun _ e he => ?_⟩
        · exact Stmt.drivesVacuous_eq_false_iff.mp (Bool.eq_false_iff.mpr hexists)
        · exact Expr.accessesExist_of_cleared_eq_self (cleared_eq_self_of_fill hkept e he)

theorem gone_of_removeFromLeaf_eq_self {gone : List String} {s : Stmt}
    (hkept : (removeFromLeaf gone s).result = s) : (removeFromLeaf gone s).gone = [] := by
  rw [List.eq_nil_iff_forall_not_mem]
  intro name hmem
  obtain ⟨hname, hskip⟩ := mem_gone_removeFromLeaf.mp hmem
  rw [← hkept, hskip] at hname
  simp [Stmt.nodeName?] at hname

/-- If all leaves come out as they were, each one is left as it is on its own: no node has become
void on the way. -/
theorem removeFromLeaf_of_removeFromAll {ss : List Stmt} (hleaf : ∀ s ∈ ss, s.isBlock = false)
    (hkept : (removeFromAll [] ss).result = ss) :
    ∀ s ∈ ss, (removeFromLeaf [] s).result = s := by
  induction ss with
  | nil => simp
  | cons s ss ih =>
      obtain ⟨hhead, htail⟩ := List.forall_mem_cons.mp hleaf
      rw [removeFromAll, removeFrom_of_not_block [] hhead, Remains.cons, List.cons.injEq] at hkept
      obtain ⟨hfirst, hrest⟩ := hkept
      rw [gone_of_removeFromLeaf_eq_self hfirst] at hrest
      exact List.forall_mem_cons.mpr ⟨hfirst, ih htail hrest⟩

end Vacuous

/-! ## Modules -/

namespace Module

theorem intact_of_removeVacuous_eq_self {module : Module}
    (hkept : module.removeVacuous.value = module) :
    ∀ s ∈ Stmt.leavesAll module.body, s.Intact := by
  intro s hs
  have hbody : (Vacuous.removeFromAll [] module.body).result = module.body :=
    congrArg Module.body hkept
  have hleaves := Vacuous.leavesAll_removeFromAll [] module.body
  rw [hbody] at hleaves
  apply Vacuous.intact_of_removeFromLeaf
  exact Vacuous.removeFromLeaf_of_removeFromAll
    (fun t ht => Stmt.isBlock_of_mem_leaves (s := .block module.body) ht) hleaves.symm s hs

/-- A module without placeholders is what removal leaves of it exactly if each of its statements is
intact. That is so in particular if no expression has the type of an empty vector and no attachment
has fewer than two members. -/
theorem removeVacuous_eq_self_iff (module : Module)
    (hnone : ∀ e ∈ module.exprs, e.NoPlaceholder) :
    (module.removeVacuous.value = module ↔ ∀ s ∈ module.statements, s.Intact) ∧
      ((∀ e ∈ module.exprs, ∀ d ∈ e.nodes, d.ty.isEmptyVector = false) →
        (∀ s ∈ module.statements, s.isAttach = true → 2 ≤ s.exprs.length) →
        module.removeVacuous.value = module) := by
  have hiff : module.removeVacuous.value = module ↔ ∀ s ∈ module.statements, s.Intact := by
    constructor
    · intro hkept s hs
      exact intact_of_removeVacuous_eq_self hkept s (Stmt.mem_flattenAll.mp hs).1
    · intro hintact
      refine Clear.removeVacuous_eq_self fun s hs => ?_
      by_cases hskip : s = .skip
      · exact hskip ▸ Stmt.clear_skip
      · exact (hintact s (Stmt.mem_flattenAll.mpr ⟨hs, hskip⟩)).clear fun e he =>
          hnone e (mem_exprs_iff_leaves.mpr ⟨s, hs, he⟩)
  refine ⟨hiff, fun hnonempty htwo => hiff.mpr fun s hs => ?_⟩
  have hexprs : ∀ e ∈ s.exprs, e ∈ module.exprs := fun e he => mem_exprs.mpr ⟨s, hs, he⟩
  exact .of_nonempty (fun e he => hnone e (hexprs e he)) (fun e he => hnonempty e (hexprs e he))
    (htwo s hs)

end Module

/-- A node for one of some analog signals, and an attachment of others. -/
def tapped (count : Nat) : Module := Build.toModule "Tapped" do
  let a ← Build.input "a" (Sample.analog 1)
  let b ← Build.input "b" (Sample.analog 1)
  let sel ← Build.input "sel" (Sample.uint 2)
  let pins ← Build.wire "pins" (.vector (Sample.analog 1) count)
  Build.addStmt (.node "tap" (pins.getAccess sel))
  Build.attach [a, b]

/-- Where there are no such signals the access to one stays all the same; where there are, no
vector is empty. -/
theorem tapped_kept :
    (∀ e ∈ (tapped 0).exprs, e.NoPlaceholder) ∧ (∀ s ∈ (tapped 0).statements, s.Intact) ∧
      (∃ e ∈ (tapped 0).exprs, e.isVacuous [] = true) ∧
      (tapped 0).removeVacuous.value = tapped 0 ∧
      (∀ e ∈ (tapped 4).exprs, ∀ d ∈ e.nodes, d.ty.isEmptyVector = false) ∧
      (∀ s ∈ (tapped 4).statements, s.isAttach = true → 2 ≤ s.exprs.length) ∧
      (tapped 4).removeVacuous.value = tapped 4 := by
  have hnone : ∀ e ∈ (tapped 0).exprs, e.NoPlaceholder := by decide
  have hintact : ∀ s ∈ (tapped 0).statements, s.Intact := by decide
  have hkept := ((tapped 0).removeVacuous_eq_self_iff hnone).1.mpr hintact
  have hnonempty : ∀ e ∈ (tapped 4).exprs, ∀ d ∈ e.nodes, d.ty.isEmptyVector = false := by decide
  have htwo : ∀ s ∈ (tapped 4).statements, s.isAttach = true → 2 ≤ s.exprs.length := by decide
  have hwhole := ((tapped 4).removeVacuous_eq_self_iff (by decide)).2 hnonempty htwo
  exact ⟨hnone, hintact, by decide, hkept, hnonempty, htwo, hwhole⟩

end Rtl
