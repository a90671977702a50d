import Rtl.Inline.Candidates
import Rtl.Proofs.Acyclic
import Rtl.Proofs.Leaves
import Rtl.Proofs.Walk

/-! # Declared signals and candidates

What a module says about its wires and nodes, in declarations and in references, and what
the search for candidates has established of each of them: where it is declared, which
statement assigns its value, and what that value is like.
-/

namespace Rtl

/-- Whether the statement refers to a signal of the given name. -/
def Stmt.mentions (s : Stmt) (name : String) : Bool :=
  s.exprs.any fun e => e.any fun
    | .ref r => r.name == name
    | _ => false

theorem Stmt.mentions_iff {s : Stmt} {name : String} :
    s.mentions name = true ↔ ∃ e ∈ s.exprs, ∃ r : Ref, .ref r ∈ e.nodes ∧ r.name = name := by
  simp only [mentions, List.any_eq_true, Expr.any_eq]
  refine exists_congr fun e => and_congr_right fun _ => ?_
  constructor
  · rintro ⟨d, hmem, hname⟩
    cases d with
    | ref r => exact ⟨r, hmem, beq_iff_eq.mp hname⟩
    | _ => simp at hname
  · rintro ⟨r, hmem, hname⟩
    exact ⟨.ref r, hmem, beq_iff_eq.mpr hname⟩

theorem Stmt.mentions_of_mem {s : Stmt} {e : Expr} (he : e ∈ s.exprs) {r : Ref}
    (hmem : .ref r ∈ e.nodes) : s.mentions r.name = true :=
  mentions_iff.mpr ⟨e, he, r, hmem, rfl⟩

namespace Module

/-- The wires and nodes that a module declares, with their types. -/
def locals (module : Module) : List (String × Ty) :=
  module.statements.filterMap Stmt.local?

/-- Every expression that a statement of the module holds itself. -/
def exprs (module : Module) : List Expr :=
  module.statements.flatMap Stmt.exprs

/-- All references of a module, at any depth. -/
def refs (module : Module) : List Ref :=
  module.exprs.flatMap fun e => e.nodes.filterMap fun
    | .ref r => some r
    | _ => none

/-- References to wires and nodes say that they are. -/
def LocalsResolved (module : Module) : Prop :=
  ∀ r ∈ module.refs, r.name ∈ module.locals.map Prod.fst → r.kind.isLocal = true

/-- A reference to a wire or node carries the type of every declaration of its name. -/
def LocalsTyped (module : Module) : Prop :=
  ∀ r ∈ module.refs, ∀ declared ∈ module.locals, declared.1 = r.name → r.ty = declared.2

instance (module : Module) : Decidable module.LocalsResolved :=
  inferInstanceAs (Decidable (∀ r ∈ module.refs, _))

instance (module : Module) : Decidable module.LocalsTyped :=
  inferInstanceAs (Decidable (∀ r ∈ module.refs, _))

theorem mem_exprs {module : Module} {e : Expr} :
    e ∈ module.exprs ↔ ∃ s ∈ module.statements, e ∈ s.exprs :=
  List.mem_flatMap

theorem mem_exprs_iff_leaves {module : Module} {e : Expr} :
    e ∈ module.exprs ↔ ∃ s ∈ Stmt.leavesAll module.body, e ∈ s.exprs := by
  rw [mem_exprs]
  constructor
  · rintro ⟨s, hs, he⟩
    exact ⟨s, (Stmt.mem_flattenAll.mp hs).1, he⟩
  · rintro ⟨s, hs, he⟩
    refine ⟨s, Stmt.mem_flattenAll.mpr ⟨hs, ?_⟩, he⟩
    rintro rfl
    simp [Stmt.exprs] at he

theorem mem_locals_iff_leaves {module : Module} {entry : String × Ty} :
    entry ∈ module.locals ↔ ∃ s ∈ Stmt.leavesAll module.body, entry ∈ s.local? := by
  rw [locals, List.mem_filterMap]
  constructor
  · rintro ⟨s, hs, hentry⟩
    exact ⟨s, (Stmt.mem_flattenAll.mp hs).1, hentry⟩
  · rintro ⟨s, hs, hentry⟩
    refine ⟨s, Stmt.mem_flattenAll.mpr ⟨hs, ?_⟩, hentry⟩
    rintro rfl
    simp [Stmt.local?] at hentry

theorem mem_refs {module : Module} {r : Ref} :
    r ∈ module.refs ↔ ∃ e ∈ module.exprs, .ref r ∈ e.nodes := by
  simp only [refs, List.mem_flatMap, List.mem_filterMap]
  refine exists_congr fun e => and_congr_right fun _ => ?_
  constructor
  · rintro ⟨d, hmem, hsome⟩
    cases d with
    | ref q =>
        simp only [Option.some.injEq] at hsome
        exact hsome ▸ hmem
    | _ => simp at hsome
  · intro hmem
    exact ⟨.ref r, hmem, rfl⟩

end Module

/-! ## Writes -/

theorem Stmt.local?_mapExprs {f : Expr → Expr} {s : Stmt} (hty : ∀ e ∈ s.exprs, (f e).ty = e.ty) :
    (s.mapExprs f).local? = s.local? := by
  cases s <;> simp_all [mapExprs, local?, exprs]

/-- A statement that assigns a value to a whole signal defines a node or drives a reference. -/
theorem Stmt.mem_targets_some {s : Stmt} {name : String} {value : Expr}
    (htarget : (name, some value) ∈ s.targets) :
    s = .node name value ∨ ∃ r : Ref, r.name = name ∧ s = .connect (.ref r) value := by
  cases s with
  | node n v => simp_all [targets]
  | connect sink source => cases sink <;> simp_all [targets]
  | _ => simp_all [targets]

/-- A write comes from a statement that has its signal as a target, and from a declaration
of the signal with the same type. -/
theorem mem_writesFrom {declared : List (String × Ty)} {ss : List Stmt} {write : Write}
    (hmem : write ∈ writesFrom declared ss) :
    (∃ s ∈ ss, (write.name, write.value?) ∈ s.targets) ∧
      (write.name, write.ty) ∈ declared ++ ss.filterMap Stmt.local? := by
  induction ss generalizing declared with
  | nil => simp [writesFrom] at hmem
  | cons s ss ih =>
      rw [writesFrom, List.mem_append] at hmem
      rcases hmem with hhere | hlater
      · obtain ⟨⟨name, value?⟩, htarget, hsome⟩ := List.mem_filterMap.mp hhere
        obtain ⟨ty, hlookup, rfl⟩ := Option.map_eq_some_iff.mp hsome
        refine ⟨⟨s, List.mem_cons_self, htarget⟩, ?_⟩
        have hmem := Assignments.mem_of_lookup hlookup
        rw [List.mem_append, Option.mem_toList] at hmem
        rcases hmem with hlocal | hdeclared
        · exact List.mem_append_right _ (List.mem_filterMap.mpr ⟨s, List.mem_cons_self, hlocal⟩)
        · exact List.mem_append_left _ hdeclared
      · -- For the statements after `s`, what `s` declares is known already.
        obtain ⟨⟨t, ht, htarget⟩, hdeclared⟩ := ih hlater
        refine ⟨⟨t, List.mem_cons_of_mem _ ht, htarget⟩, ?_⟩
        simp only [List.mem_append, Option.mem_toList] at hdeclared ⊢
        rcases hdeclared with (hlocal | hdeclared) | hrest
        · exact Or.inr (List.mem_filterMap.mpr ⟨s, List.mem_cons_self, hlocal⟩)
        · exact Or.inl hdeclared
        · obtain ⟨t, ht, hlocal⟩ := List.mem_filterMap.mp hrest
          exact Or.inr (List.mem_filterMap.mpr ⟨t, List.mem_cons_of_mem _ ht, hlocal⟩)

/-- A target is written if it has been declared before. -/
theorem mem_writesFrom_of_mem_targets {declared : List (String × Ty)} {before : List Stmt}
    {s : Stmt} {name : String} {value? : Option Expr} (htarget : (name, value?) ∈ s.targets)
    (hdeclared : name ∈ (before.filterMap Stmt.local? ++ declared).map Prod.fst)
    (after : List Stmt) :
    ∃ ty, ⟨name, ty, value?⟩ ∈ writesFrom declared (before ++ s :: after) := by
  induction before generalizing declared with
  | nil =>
      have hknown : name ∈ (s.local?.toList ++ declared).map Prod.fst := by
        rw [List.map_append]
        exact List.mem_append_right _ hdeclared
      obtain ⟨entry, hentry, rfl⟩ := List.mem_map.mp hknown
      obtain ⟨ty, hlookup⟩ := Option.ne_none_iff_exists'.mp
        (Assignments.lookup_ne_none_of_mem hentry)
      refine ⟨ty, ?_⟩
      rw [List.nil_append, writesFrom]
      exact List.mem_append_left _ (List.mem_filterMap.mpr ⟨_, htarget, by simp [hlookup]⟩)
  | cons t before ih =>
      -- For the statements after `t`, what `t` declares is known already.
      have hknown : name ∈
          (before.filterMap Stmt.local? ++ (t.local?.toList ++ declared)).map Prod.fst := by
        cases hlocal : t.local? <;> simp_all [or_left_comm]
      obtain ⟨ty, hmem⟩ := ih hknown
      rw [List.cons_append, writesFrom]
      exact ⟨ty, List.mem_append_right _ hmem⟩

theorem Write.assigned?_eq_some {write : Write} {value : Expr} :
    write.assigned? = some value ↔
      write.value? = some value ∧ write.ty.isGround = true ∧ write.ty.isAnalog = false ∧
        value.ty = write.ty ∧ value.isLogicFree = true := by
  rw [assigned?, Option.filter_eq_some_iff]
  simp [and_assoc]

theorem mem_singleAssignments {writes : List Write} {name : String} {value : Expr}
    (hmem : (name, value) ∈ singleAssignments writes) :
    ∃ write ∈ writes, write.name = name ∧ write.assigned? = some value := by
  obtain ⟨write, hwrite, hsome⟩ := List.mem_filterMap.mp hmem
  simp only [Option.ite_none_right_eq_some, Option.map_eq_some_iff, Prod.mk.injEq] at hsome
  obtain ⟨_, assigned, hassigned, rfl, rfl⟩ := hsome
  exact ⟨write, hwrite, rfl, hassigned⟩

/-- The value that a signal is recorded with comes from its only write. -/
theorem assigned?_of_mem_singleAssignments {writes : List Write} {name : String} {value : Expr}
    (hmem : (name, value) ∈ singleAssignments writes) {write : Write} (hwrite : write ∈ writes)
    (hname : write.name = name) : write.assigned? = some value := by
  obtain ⟨single, hsingle, hsome⟩ := List.mem_filterMap.mp hmem
  simp only [Option.ite_none_right_eq_some, Option.map_eq_some_iff, Prod.mk.injEq] at hsome
  obtain ⟨hcount, assigned, hassigned, rfl, rfl⟩ := hsome
  rw [List.countP_eq_length_filter, List.length_eq_one_iff] at hcount
  obtain ⟨only, honly⟩ := hcount
  have hmatch : ∀ w ∈ writes, w.name = single.name → w = only := by
    intro w hw hname
    have hfilter : w ∈ writes.filter fun other => other.name == single.name :=
      List.mem_filter.mpr ⟨hw, by simpa using hname⟩
    rwa [honly, List.mem_singleton] at hfilter
  rw [hmatch write hwrite hname, ← hmatch single hsingle rfl]
  exact hassigned

/-! ## Candidates -/

namespace Module

/-- What is known of a signal that a value has been recorded for. -/
structure Assigns (module : Module) (name : String) (value : Expr) : Prop where
  declared : (name, value.ty) ∈ module.locals
  assigned : ∃ s ∈ module.statements,
    s = .node name value ∨ ∃ r : Ref, r.name = name ∧ s = .connect (.ref r) value
  ground : value.ty.isGround = true
  notAnalog : value.ty.isAnalog = false
  logicFree : value.isLogicFree = true

theorem assigns_of_mem_singleAssignments {module : Module} {name : String} {value : Expr}
    (hmem : (name, value) ∈ singleAssignments module.writes) : module.Assigns name value := by
  obtain ⟨write, hwrite, rfl, hassigned⟩ := mem_singleAssignments hmem
  obtain ⟨hvalue, hground, hanalog, hty, hfree⟩ := Write.assigned?_eq_some.mp hassigned
  obtain ⟨⟨s, hs, htarget⟩, hdeclared⟩ := mem_writesFrom hwrite
  rw [List.nil_append, ← hty] at hdeclared
  rw [hvalue] at htarget
  rw [← hty] at hground hanalog
  exact ⟨hdeclared, ⟨s, hs, Stmt.mem_targets_some htarget⟩, hground, hanalog, hfree⟩

theorem mem_singleAssignments_of_candidate {module : Module} {name : String} {value : Expr}
    (hlookup : module.candidates.value.lookup name = some value) :
    (name, value) ∈ singleAssignments module.writes :=
  List.mem_of_mem_filter (List.mem_of_mem_filter (Assignments.mem_of_lookup hlookup))

theorem assigns_of_candidate {module : Module} {name : String} {value : Expr}
    (hlookup : module.candidates.value.lookup name = some value) : module.Assigns name value :=
  assigns_of_mem_singleAssignments (mem_singleAssignments_of_candidate hlookup)

theorem Assigns.mem_exprs {module : Module} {name : String} {value : Expr}
    (hassigns : module.Assigns name value) : value ∈ module.exprs := by
  obtain ⟨s, hs, rfl | ⟨r, _, rfl⟩⟩ := hassigns.assigned
  · exact Module.mem_exprs.mpr ⟨_, hs, by simp [Stmt.exprs]⟩
  · exact Module.mem_exprs.mpr ⟨_, hs, by simp [Stmt.exprs]⟩

theorem Assigns.mem_locals {module : Module} {name : String} {value : Expr}
    (hassigns : module.Assigns name value) : name ∈ module.locals.map Prod.fst :=
  List.mem_map.mpr ⟨_, hassigns.declared, rfl⟩

end Module

/-! ## Driven signals -/

/-- The locations that a statement drives. -/
def Stmt.driven : Stmt → List Expr
  | .connect sink _ => [sink]
  | .invalidate target => [target]
  | .attach members => members
  | _ => []

/-- What a statement drives other than by assigning a value to a whole signal. -/
def Stmt.partials : Stmt → List Expr
  | .connect (.ref _) _ => []
  | .connect sink _ => [sink]
  | .invalidate target => [target]
  | .attach members => members
  | _ => []

theorem Stmt.isSkip_of_mem_driven {s : Stmt} {e : Expr} (hmem : e ∈ s.driven) :
    s.isSkip = false := by
  cases s <;> simp_all [driven, isSkip]

theorem Stmt.isSkip_of_mem_local? {s : Stmt} {entry : String × Ty} (hmem : entry ∈ s.local?) :
    s.isSkip = false := by
  cases s <;> simp_all [local?, isSkip]

theorem Stmt.mem_driven_of_mem_partials {s : Stmt} {e : Expr} (hmem : e ∈ s.partials) :
    e ∈ s.driven := by
  cases s with
  | connect sink source => cases sink <;> simp_all [partials, driven]
  | _ => simp_all [partials, driven]

theorem Stmt.mem_targets_of_mem_partials {s : Stmt} {e : Expr} (hmem : e ∈ s.partials) {r : Ref}
    (hroot : r ∈ e.root?) : (r.name, none) ∈ s.targets := by
  cases s with
  | connect sink source => cases sink <;> simp_all [partials, targets]
  | attach members =>
      simp only [targets, List.mem_map, List.mem_filterMap]
      exact ⟨r, ⟨e, hmem, hroot⟩, rfl⟩
  | _ => simp_all [partials, targets]

theorem Stmt.local?_of_mem_partials {s : Stmt} {e : Expr} (hmem : e ∈ s.partials) :
    s.local? = none := by
  cases s <;> simp_all [partials, local?]

namespace Module

/-- None of the given locations leads back to a read of a wire or node that a later statement
declares, whether or not an earlier one declares it as well. -/
def NoneDeclaredLater (module : Module) (locations : Stmt → List Expr) : Prop :=
  module.statements.Pairwise fun s t => ∀ e ∈ locations s, ∀ r ∈ e.root?,
    r.isLocalRead = true → t.local?.map Prod.fst ≠ some r.name

instance (module : Module) (locations : Stmt → List Expr) :
    Decidable (module.NoneDeclaredLater locations) :=
  inferInstanceAs (Decidable (List.Pairwise _ _))

theorem NoneDeclaredLater.mono {module : Module} {locations others : Stmt → List Expr}
    (hundeclared : module.NoneDeclaredLater locations)
    (hsub : ∀ s, ∀ e ∈ others s, e ∈ locations s) : module.NoneDeclaredLater others :=
  hundeclared.imp fun hpair e he => hpair e (hsub _ e he)

/-- A drive of a wire or node that no later statement declares is a write of its own, which makes
the signal no candidate. -/
theorem lookup_eq_none_of_mem_partials {module : Module} {before after : List Stmt} {s : Stmt}
    (hsplit : module.statements = before ++ s :: after) {e : Expr} (he : e ∈ s.partials) {r : Ref}
    (hroot : r ∈ e.root?) (hundeclared : ∀ t ∈ after, t.local?.map Prod.fst ≠ some r.name) :
    module.candidates.value.lookup r.name = none := by
  by_contra hcandidate
  obtain ⟨value, hlookup⟩ := Option.ne_none_iff_exists'.mp hcandidate
  have hdeclared : r.name ∈ (before.filterMap Stmt.local? ++ []).map Prod.fst := by
    obtain ⟨t, ht, hlocal⟩ := List.mem_filterMap.mp (assigns_of_candidate hlookup).declared
    have hlater : t ∉ s :: after := by
      intro hmem
      rcases List.mem_cons.mp hmem with rfl | hmem
      · simp [Stmt.local?_of_mem_partials he] at hlocal
      · exact hundeclared t hmem (by rw [hlocal]; rfl)
    rw [hsplit, List.mem_append] at ht
    rw [List.append_nil]
    exact List.mem_map.mpr
      ⟨_, List.mem_filterMap.mpr ⟨t, ht.resolve_right hlater, hlocal⟩, rfl⟩
  obtain ⟨ty, hwrite⟩ := mem_writesFrom_of_mem_targets
    (Stmt.mem_targets_of_mem_partials he hroot) hdeclared after
  rw [← hsplit] at hwrite
  have hassigned := assigned?_of_mem_singleAssignments (mem_singleAssignments_of_candidate hlookup)
    hwrite rfl
  simp [Write.assigned?] at hassigned

theorem NoneDeclaredLater.lookup_eq_none {module : Module}
    (hundeclared : module.NoneDeclaredLater Stmt.partials) {s : Stmt} (hs : s ∈ module.statements)
    {e : Expr} (he : e ∈ s.partials) {r : Ref} (hroot : r ∈ e.root?)
    (hread : r.isLocalRead = true) : module.candidates.value.lookup r.name = none := by
  obtain ⟨before, after, hsplit⟩ := List.append_of_mem hs
  refine lookup_eq_none_of_mem_partials hsplit he hroot fun t ht => ?_
  rw [NoneDeclaredLater, hsplit] at hundeclared
  have hpair := (List.pairwise_cons.mp (List.pairwise_append.mp hundeclared).2.1).1 t ht
  exact hpair e he r hroot hread

end Module

end Rtl
