import Mathlib.Data.List.Nodup
import Rtl.Proofs.InlineComplete

/-! # What makes a candidate

The conditions for a signal to be inlined, said of the module as it stands: how often the signal is
written, what its value is made of, which values mention which signals, and how large they become.
The search for candidates, with its tables of declarations, writes and sizes, finds exactly the
signals that meet these conditions.
-/

namespace Rtl

open Relation

/-! ## The conditions -/

/-- Made of references, accesses, literals and operations that only rearrange bits. -/
inductive Expr.Rearranges : Expr → Prop where
  | ref (r : Ref) : Rearranges (.ref r)
  | literal (value : Literal) : Rearranges (.literal value)
  | subField {base : Expr} (field : String) (ty : Ty) (hbase : Rearranges base) :
      Rearranges (.subField base field ty)
  | subIndex {base : Expr} (index : Nat) (ty : Ty) (hbase : Rearranges base) :
      Rearranges (.subIndex base index ty)
  | subAccess {base index : Expr} (ty : Ty) (hbase : Rearranges base)
      (hindex : Rearranges index) : Rearranges (.subAccess base index ty)
  | prim {op : PrimOp} {args : List Expr} (consts : List Nat) (ty : Ty)
      (hop : op ∈ [PrimOp.asUInt, .asSInt, .asClock, .cvt, .cat])
      (hargs : ∀ arg ∈ args, Rearranges arg) : Rearranges (.prim op args consts ty)

/-- How often a statement writes a signal: each driven location that leads back to it counts. -/
def Stmt.countWrites (name : String) : Stmt → Nat
  | .node other _ => if other = name then 1 else 0
  | .connect sink _ => if sink.root?.map Ref.name = some name then 1 else 0
  | .invalidate target => if target.root?.map Ref.name = some name then 1 else 0
  | .attach members => members.countP fun member => member.root?.map Ref.name = some name
  | _ => 0

namespace Module

def countWrites (module : Module) (name : String) : Nat :=
  (module.statements.map (Stmt.countWrites name)).sum

/-- No signal is written by a statement before the one that declares it. -/
def DeclaredBeforeWritten (module : Module) : Prop :=
  module.statements.Pairwise fun s t => ∀ entry ∈ t.local?, s.countWrites entry.1 = 0

instance (module : Module) : Decidable module.DeclaredBeforeWritten :=
  inferInstanceAs (Decidable (List.Pairwise _ _))

/-- A wire or node of ground type is written once, as a whole, by a value of its type that can be
copied for free. -/
structure AssignedOnce (module : Module) (name : String) (value : Expr) : Prop where
  declared : (name, value.ty) ∈ module.locals
  ground : value.ty.isGround = true
  notAnalog : value.ty.isAnalog = false
  once : module.countWrites name = 1
  assigned : .node name value ∈ module.statements ∨
    ∃ r : Ref, r.name = name ∧ .connect (.ref r) value ∈ module.statements
  rearranges : value.Rearranges

/-- The value that the first signal is assigned mentions the second. -/
def DependsOn (module : Module) (name other : String) : Prop :=
  ∃ value, module.AssignedOnce name value ∧
    ∃ r : Ref, .ref r ∈ value.nodes ∧ r.kind.isLocal = true ∧ r.name = other

/-- The signal is assigned the value once and does not depend on itself. -/
structure AssignedUnlooped (module : Module) (name : String) (value : Expr) : Prop where
  assignedOnce : module.AssignedOnce name value
  unlooped : ¬ TransGen module.DependsOn name name

open Classical in
/-- What a subexpression counts for, its operands aside: a read counts for the size of what it is
replaced by, and for one if that is too large. -/
noncomputable def share (module : Module) (size : String → Nat) : Expr → Nat
  | .ref r =>
      if r.facing = .read ∧ r.kind.isLocal = true ∧
          (∃ value, module.AssignedUnlooped r.name value) ∧ size r.name ≤ 128 then
        size r.name
      else 1
  | _ => 1

/-- The sizes that values have once what they read has been replaced. -/
def Sizing (module : Module) (size : String → Nat) : Prop :=
  ∀ name value, module.AssignedUnlooped name value →
    size name = (value.nodes.map (module.share size)).sum

end Module

/-! ## Values -/

theorem PrimOp.isFree_iff (op : PrimOp) :
    op.isFree = true ↔ op ∈ [PrimOp.asUInt, .asSInt, .asClock, .cvt, .cat] := by
  cases op <;> decide

theorem Expr.rearranges_iff (e : Expr) :
    e.Rearranges ↔ e.isLogic = false ∧ ∀ d ∈ e.children, d.Rearranges := by
  constructor
  · intro hrearranges
    cases hrearranges with
    | prim consts ty hop hargs => exact ⟨by simpa [isLogic, PrimOp.isFree_iff] using hop, hargs⟩
    | _ => simp_all [isLogic, children]
  · rintro ⟨hlogic, hchildren⟩
    cases e with
    | prim op args consts ty =>
        exact .prim consts ty (by simpa [isLogic, PrimOp.isFree_iff] using hlogic) hchildren
    | mux | validIf | placeholder => simp [isLogic] at hlogic
    | ref r => exact .ref r
    | literal value => exact .literal value
    | subField base field ty => exact .subField field ty (hchildren base (by simp [children]))
    | subIndex base index ty => exact .subIndex index ty (hchildren base (by simp [children]))
    | subAccess base index ty =>
        exact .subAccess ty (hchildren base (by simp [children]))
          (hchildren index (by simp [children]))

theorem Expr.isLogicFree_iff_rearranges (e : Expr) : e.isLogicFree = true ↔ e.Rearranges := by
  induction e using induction with
  | step e ih =>
      rw [rearranges_iff, isLogicFree, any_eq_or, Bool.not_or, Bool.and_eq_true, Bool.not_eq_true',
        Bool.not_eq_true', List.any_eq_false]
      refine and_congr_right fun _ => forall₂_congr fun d hchild => ?_
      rw [← ih d hchild, isLogicFree, Bool.not_eq_true', Bool.not_eq_true]

/-! ## Counting writes -/

theorem Stmt.countP_targets (name : String) (s : Stmt) :
    s.targets.countP (·.1 == name) = s.countWrites name := by
  have hroot : ∀ e : Expr, (e.root?.toList.map fun r => (r.name, (none : Option Expr))).countP
      (·.1 == name) = if e.root?.map Ref.name = some name then 1 else 0 := by
    intro e
    cases e.root? <;> simp [List.countP_cons]
  cases s with
  | connect sink source =>
      by_cases href : ∃ r, sink = .ref r
      · obtain ⟨r, rfl⟩ := href
        simp [targets, countWrites, Expr.root?, List.countP_cons]
      · rw [targets_connect_of_ne_ref source fun r heq => href ⟨r, heq⟩, hroot]
        rfl
  | invalidate target => exact hroot target
  | attach members =>
      rw [targets, List.countP_map, List.countP_filterMap, countWrites]
      apply List.countP_congr
      intro member _
      cases member.root? <;> simp
  | node other value => simp [targets, countWrites, List.countP_cons]
  | _ => rfl

section Writes

variable {name : String} {declared : List (String × Ty)}

/-- All writes of a declared signal count. -/
theorem Stmt.countP_writes (hknown : declared.lookup name ≠ none) (s : Stmt) :
    (s.writes declared).countP (·.name == name) = s.countWrites name := by
  rw [← countP_targets, writes, List.countP_filterMap]
  apply List.countP_congr
  rintro ⟨target, value?⟩ _
  by_cases htarget : target = name
  · subst htarget
    obtain ⟨ty, hty⟩ := Option.ne_none_iff_exists'.mp hknown
    simp [hty]
  · cases hty : declared.lookup target <;> simp [hty, htarget]

theorem Stmt.countP_writes_eq_zero {s : Stmt} (hnone : s.countWrites name = 0) :
    (s.writes declared).countP (·.name == name) = 0 := by
  rw [← countP_targets, List.countP_eq_zero] at hnone
  rw [List.countP_eq_zero]
  intro write hwrite
  obtain ⟨target, htarget, hsome⟩ := List.mem_filterMap.mp hwrite
  obtain ⟨ty, _, rfl⟩ := Option.map_eq_some_iff.mp hsome
  exact hnone target htarget

theorem countP_writesFrom_of_known (hknown : declared.lookup name ≠ none) (ss : List Stmt) :
    (writesFrom declared ss).countP (·.name == name) =
      (ss.map (Stmt.countWrites name)).sum := by
  induction ss generalizing declared with
  | nil => rfl
  | cons s ss ih =>
      have hstill : (s.local?.toList ++ declared).lookup name ≠ none := by
        obtain ⟨ty, hty⟩ := Option.ne_none_iff_exists'.mp hknown
        have hmem : (name, ty) ∈ s.local?.toList ++ declared :=
          List.mem_append_right _ (Assignments.mem_of_lookup hty)
        exact Assignments.lookup_ne_none_of_mem hmem
      rw [writesFrom_cons, List.countP_append, Stmt.countP_writes hstill, ih hstill, List.map_cons,
        List.sum_cons]

/-- The writes of a signal that is declared before it is written are all counted. -/
theorem countP_writesFrom {ss : List Stmt}
    (hfirst : ss.Pairwise fun s t => ∀ entry ∈ t.local?, s.countWrites entry.1 = 0)
    (hdeclared : name ∈ (ss.filterMap Stmt.local?).map Prod.fst)
    (declared : List (String × Ty)) :
    (writesFrom declared ss).countP (·.name == name) =
      (ss.map (Stmt.countWrites name)).sum := by
  induction ss generalizing declared with
  | nil => rfl
  | cons s ss ih =>
      obtain ⟨hhead, htail⟩ := List.pairwise_cons.mp hfirst
      by_cases hhere : s.local?.map Prod.fst = some name
      · -- From `s` on the signal is known.
        obtain ⟨entry, hentry, rfl⟩ := Option.map_eq_some_iff.mp hhere
        have hknown : (s.local?.toList ++ declared).lookup entry.1 ≠ none := by
          rw [hentry]
          exact Assignments.lookup_ne_none_of_mem (List.mem_append_left _ List.mem_cons_self)
        rw [writesFrom_cons, List.countP_append, Stmt.countP_writes hknown,
          countP_writesFrom_of_known hknown, List.map_cons, List.sum_cons]
      · -- It is declared later, so that `s` does not write it.
        have hlater : name ∈ (ss.filterMap Stmt.local?).map Prod.fst := by
          rw [List.filterMap_cons] at hdeclared
          cases hlocal : s.local? with
          | none => simpa only [hlocal] using hdeclared
          | some entry =>
              rw [hlocal, List.map_cons, List.mem_cons] at hdeclared
              refine hdeclared.resolve_left fun heq => hhere ?_
              rw [hlocal, heq, Option.map_some]
        obtain ⟨entry, hentry, rfl⟩ := List.mem_map.mp hlater
        obtain ⟨t, ht, hlocal⟩ := List.mem_filterMap.mp hentry
        have hnone := hhead t ht entry hlocal
        rw [writesFrom_cons, List.countP_append, Stmt.countP_writes_eq_zero hnone,
          ih htail hlater, List.map_cons, List.sum_cons, hnone]

end Writes

/-! ## Assignments -/

theorem eq_of_countP_eq_one {α : Type} {p : α → Bool} {as : List α} (hcount : as.countP p = 1)
    {a b : α} (ha : a ∈ as) (hb : b ∈ as) (hpa : p a = true) (hpb : p b = true) : a = b := by
  rw [List.countP_eq_length_filter, List.length_eq_one_iff] at hcount
  obtain ⟨only, honly⟩ := hcount
  have hmatch : ∀ c ∈ as, p c = true → c = only := by
    intro c hc hpc
    have hmem : c ∈ as.filter p := List.mem_filter.mpr ⟨hc, hpc⟩
    rwa [honly, List.mem_singleton] at hmem
  rw [hmatch a ha hpa, hmatch b hb hpb]

/-- A value is found under a name if the only write of the name assigns it. -/
theorem lookup_singleAssignments_iff {writes : List Write} {name : String} {value : Expr} :
    (singleAssignments writes).lookup name = some value ↔
      writes.countP (·.name == name) = 1 ∧
        ∃ write ∈ writes, write.name = name ∧ write.assigned? = some value := by
  constructor
  · intro hlookup
    obtain ⟨write, hwrite, hsome⟩ := List.mem_filterMap.mp (Assignments.mem_of_lookup hlookup)
    simp only [Option.ite_none_right_eq_some, Option.map_eq_some_iff, Prod.mk.injEq] at hsome
    obtain ⟨hcount, assigned, hassigned, rfl, rfl⟩ := hsome
    exact ⟨hcount, write, hwrite, rfl, hassigned⟩
  · rintro ⟨hcount, write, hwrite, rfl, hassigned⟩
    have hmem : (write.name, value) ∈ singleAssignments writes :=
      List.mem_filterMap.mpr ⟨write, hwrite, by simp [hcount, hassigned]⟩
    obtain ⟨found, hfound⟩ := Option.ne_none_iff_exists'.mp
      (Assignments.lookup_ne_none_of_mem hmem)
    have hother := assigned?_of_mem_singleAssignments (Assignments.mem_of_lookup hfound) hwrite rfl
    rw [hfound, ← hassigned, hother]

namespace Module

section Exact

variable {module : Module} (honce : (module.locals.map Prod.fst).Nodup)
  (hfirst : module.DeclaredBeforeWritten)

include hfirst in
theorem countP_writes {name : String} (hdeclared : name ∈ module.locals.map Prod.fst) :
    module.writes.countP (·.name == name) = module.countWrites name :=
  countP_writesFrom hfirst hdeclared []

include honce in
theorem ty_unique {name : String} {ty other : Ty} (hty : (name, ty) ∈ module.locals)
    (hother : (name, other) ∈ module.locals) : ty = other := by
  have hpair := List.inj_on_of_nodup_map honce hty hother rfl
  exact (Prod.mk.inj hpair).2

include honce hfirst

theorem lookup_iff_assignedOnce {name : String} {value : Expr} :
    (singleAssignments module.writes).lookup name = some value ↔
      module.AssignedOnce name value := by
  constructor
  · intro hlookup
    have hassigns := assigns_of_mem_singleAssignments (Assignments.mem_of_lookup hlookup)
    refine ⟨hassigns.declared, hassigns.ground, hassigns.notAnalog, ?_, ?_,
      (Expr.isLogicFree_iff_rearranges value).mp hassigns.logicFree⟩
    · rw [← countP_writes hfirst hassigns.mem_locals]
      exact (lookup_singleAssignments_iff.mp hlookup).1
    · obtain ⟨s, hs, rfl | ⟨r, hr, rfl⟩⟩ := hassigns.assigned
      · exact .inl hs
      · exact .inr ⟨r, hr, hs⟩
  · intro hassigned
    have hcount : module.writes.countP (·.name == name) = 1 := by
      rw [countP_writes hfirst (List.mem_map.mpr ⟨_, hassigned.declared, rfl⟩), hassigned.once]
    obtain ⟨write, hwrite, hname⟩ := List.countP_pos_iff.mp (hcount.symm ▸ Nat.one_pos)
    obtain rfl := eq_of_beq hname
    obtain ⟨⟨t, ht, htarget⟩, hdeclared⟩ := mem_writesFrom hwrite
    refine lookup_singleAssignments_iff.mpr ⟨hcount, write, hwrite, rfl, ?_⟩
    -- There is one target of this name in all the statements, and it has the value.
    have hvalue : write.value? = some value := by
      have htargets : (module.statements.flatMap Stmt.targets).countP (·.1 == write.name) = 1 := by
        rw [List.countP_flatMap, ← hassigned.once, countWrites]
        congr 2
        funext s
        exact s.countP_targets write.name
      have hassigns : (write.name, some value) ∈ module.statements.flatMap Stmt.targets := by
        rcases hassigned.assigned with hnode | ⟨r, hr, hconnect⟩
        · exact List.mem_flatMap.mpr ⟨_, hnode, by simp [Stmt.targets]⟩
        · exact List.mem_flatMap.mpr ⟨_, hconnect, by simp [Stmt.targets, hr]⟩
      have heq := eq_of_countP_eq_one htargets (List.mem_flatMap.mpr ⟨t, ht, htarget⟩) hassigns
        (beq_self_eq_true _) (beq_self_eq_true _)
      exact (Prod.mk.inj heq).2
    have hty : value.ty = write.ty := ty_unique honce hassigned.declared hdeclared
    rw [Write.assigned?_eq_some, ← hty]
    exact ⟨hvalue, hassigned.ground, hassigned.notAnalog, rfl,
      (Expr.isLogicFree_iff_rearranges value).mpr hassigned.rearranges⟩

/-! ## Loops and sizes -/

theorem reads_eq_dependsOn :
    (singleAssignments module.writes).Reads = module.DependsOn := by
  funext name other
  simp only [eq_iff_iff, Assignments.reads_iff, lookup_iff_assignedOnce honce hfirst]
  rfl

theorem lookup_iff_assignedUnlooped {name : String} {value : Expr} :
    (singleAssignments module.writes).unlooped.lookup name = some value ↔
      module.AssignedUnlooped name value := by
  rw [Assignments.lookup_unlooped, Option.ite_none_left_eq_some, Assignments.isLooped_iff,
    reads_eq_dependsOn honce hfirst, lookup_iff_assignedOnce honce hfirst]
  exact ⟨fun ⟨hloop, hassigned⟩ => ⟨hassigned, hloop⟩,
    fun ⟨hassigned, hloop⟩ => ⟨hloop, hassigned⟩⟩

theorem contains_iff_assignedUnlooped {name : String} :
    (singleAssignments module.writes).unlooped.contains name = true ↔
      ∃ value, module.AssignedUnlooped name value := by
  simp only [Assignments.contains, Option.isSome_iff_exists,
    lookup_iff_assignedUnlooped honce hfirst]

theorem share_eq_weight (size : String → Nat) :
    module.share size = (singleAssignments module.writes).unlooped.weight size := by
  funext e
  cases e with
  | ref r =>
      have hreplaced : (r.isLocalRead && (singleAssignments module.writes).unlooped.contains
          r.name) = true ↔ r.facing = .read ∧ r.kind.isLocal = true ∧
            ∃ value, module.AssignedUnlooped r.name value := by
        rw [Bool.and_eq_true, contains_iff_assignedUnlooped honce hfirst, Ref.isLocalRead,
          Bool.and_eq_true, beq_iff_eq, and_assoc]
      rw [share, Assignments.weight]
      grind [maxInlinedSize]
  | _ => rfl

theorem sizing_size : module.Sizing (singleAssignments module.writes).unlooped.size := by
  intro name value hvalue
  rw [(Assignments.unlooped_acyclic _).size_eq,
    (lookup_iff_assignedUnlooped honce hfirst).mpr hvalue, share_eq_weight honce hfirst]

/-- Sizes are determined, for values do not depend on themselves. -/
theorem Sizing.eq_size {size : String → Nat} (hsizing : module.Sizing size) {name : String}
    {value : Expr} (hvalue : module.AssignedUnlooped name value) :
    size name = (singleAssignments module.writes).unlooped.size name := by
  have hwf := ((singleAssignments module.writes).unlooped_acyclic).wellFounded
  induction name using hwf.induction generalizing value with
  | h name ih =>
      have hlookup := (lookup_iff_assignedUnlooped honce hfirst).mpr hvalue
      rw [hsizing name value hvalue, (Assignments.unlooped_acyclic _).size_eq, hlookup,
        share_eq_weight honce hfirst]
      congr 1
      apply Assignments.map_weight_congr
      intro other hmem hcontains
      obtain ⟨otherValue, hother⟩ := (contains_iff_assignedUnlooped honce hfirst).mp hcontains
      refine ih other ?_ hother
      rw [Assignments.Reads, Assignments.reads, hlookup]
      exact hmem

end Exact

/-- In a module that declares each wire and node once, and before it is written, the candidates are
exactly the signals that are assigned once, do not depend on themselves, and have values within the
limit once what these read has been replaced. -/
theorem candidates_exact (module : Module) (honce : (module.locals.map Prod.fst).Nodup)
    (hfirst : module.DeclaredBeforeWritten) :
    (∃ size, module.Sizing size) ∧
      ∀ size, module.Sizing size → ∀ name value,
        module.candidates.value.lookup name = some value ↔
          module.AssignedOnce name value ∧ ¬ TransGen module.DependsOn name name ∧
            size name ≤ 128 := by
  refine ⟨⟨_, sizing_size honce hfirst⟩, fun size hsizing name value => ?_⟩
  have hcandidates : module.candidates.value =
      (singleAssignments module.writes).select.candidates := rfl
  rw [hcandidates, Assignments.lookup_select, Option.ite_none_left_eq_some,
    lookup_iff_assignedUnlooped honce hfirst, maxInlinedSize, Nat.not_lt]
  constructor
  · rintro ⟨hsize, hvalue⟩
    rw [← hsizing.eq_size honce hfirst hvalue] at hsize
    exact ⟨hvalue.assignedOnce, hvalue.unlooped, hsize⟩
  · rintro ⟨hassigned, hloop, hsize⟩
    have hvalue : module.AssignedUnlooped name value := ⟨hassigned, hloop⟩
    rw [hsizing.eq_size honce hfirst hvalue] at hsize
    exact ⟨hsize, hvalue⟩

end Module

/-- In a chain of doublings the sixth value is within the limit, and the seventh is not. -/
theorem doubling_candidates_exact :
    (doubling.locals.map Prod.fst).Nodup ∧ doubling.DeclaredBeforeWritten ∧
      (∃ size, doubling.Sizing size) ∧
      ∀ size, doubling.Sizing size → size "x64" ≤ 128 ∧
        ∀ value, doubling.AssignedUnlooped "x128" value → 128 < size "x128" := by
  have honce : (doubling.locals.map Prod.fst).Nodup := by decide
  have hfirst : doubling.DeclaredBeforeWritten := by decide
  obtain ⟨hsome, hexact⟩ := doubling.candidates_exact honce hfirst
  refine ⟨honce, hfirst, hsome, fun size hsizing => ⟨?_, fun value hvalue => ?_⟩⟩
  · have hisSome : (doubling.candidates.value.lookup "x64").isSome := by decide +kernel
    obtain ⟨value, hlookup⟩ := Option.isSome_iff_exists.mp hisSome
    exact ((hexact size hsizing "x64" value).mp hlookup).2.2
  · have hnone : doubling.candidates.value.lookup "x128" = none := by decide +kernel
    by_contra hsmall
    have hlookup := (hexact size hsizing "x128" value).mpr
      ⟨hvalue.assignedOnce, hvalue.unlooped, Nat.not_lt.mp hsmall⟩
    rw [hnone] at hlookup
    contradiction

end Rtl
