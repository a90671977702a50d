import Rtl.Proofs.Grounded

/-! # The normal form of removal

A statement is *clear* if no part of it asks for removal. Clear statements are kept as they
are, and where accesses lead back to references, removal leaves nothing but clear statements:
whatever a run has found to be without a value, the next one finds no trace of it.
-/

namespace Rtl

namespace Expr

/-! ## Where subexpressions come from -/

/-- Neither reference, nor access, nor choice; only such expressions are filled in. -/
def isFiller : Expr → Bool
  | .literal _ | .prim .. | .placeholder _ => true
  | _ => false

theorem isFiller_of_mem_nodes_dontCare {d e : Expr} (hanalog : e.ty.isAnalog = false)
    (hmem : d ∈ e.dontCare.nodes) : d.isFiller = true := by
  unfold dontCare at hmem
  cases hty : e.ty with
  | analog width => simp [hty, Ty.isAnalog] at hanalog
  | interval | clock =>
      simp only [hty, Ty.dontCare?, Option.getD_some, apply, uintLit, nodes, nodesAll,
        List.append_nil, List.mem_cons, List.not_mem_nil, or_false] at hmem
      rcases hmem with rfl | rfl <;> rfl
  | _ =>
      simp only [hty, Ty.dontCare?, Option.getD_some, nodes, List.mem_singleton] at hmem
      rw [hmem]
      rfl

theorem fillRead_eq_self_or (gone : List String) (e : Expr) :
    e.fillRead gone = e ∨ e.fillRead gone = e.dontCare ∧ e.ty.isAnalog = false := by
  unfold fillRead
  split
  · cases hanalog : e.ty.isAnalog with
    | true => exact .inl (dontCare_of_isAnalog hanalog)
    | false => exact .inr ⟨rfl, rfl⟩
  · exact .inl rfl

/-- A subexpression after filling in was there before, or is part of a replacement. -/
theorem mem_nodes_fillReads {gone : List String} {d e : Expr}
    (hmem : d ∈ (e.fillReads gone).nodes) :
    (∃ c ∈ e.nodes, d = c.mapChildren (fillReads gone) ∧ d.fillRead gone = d) ∨
      d.isFiller = true := by
  induction e using induction with
  | step e ih =>
      rw [fillReads_eq] at hmem
      rcases fillRead_eq_self_or gone (e.mapChildren (fillReads gone)) with hkept | hfilled
      · rw [hkept, mem_nodes_iff, children_mapChildren] at hmem
        rcases hmem with rfl | ⟨c, hchild, hmem⟩
        · exact .inl ⟨e, mem_nodes_self e, rfl, hkept⟩
        · obtain ⟨before, hbefore, rfl⟩ := List.mem_map.mp hchild
          rcases ih before hbefore hmem with ⟨c, hc, hd⟩ | hfiller
          · exact .inl ⟨c, mem_nodes_of_mem_children hbefore hc, hd⟩
          · exact .inr hfiller
      · rw [hfilled.1] at hmem
        exact .inr (isFiller_of_mem_nodes_dontCare hfilled.2 hmem)

/-- Dropping an arm keeps the expression, or one of its operands, or nothing. -/
theorem dropArm_eq_or (e : Expr) :
    dropArm e = e ∨ dropArm e ∈ e.children ∨ ∃ ty, dropArm e = .placeholder ty := by
  cases e with
  | mux cond tval fval ty =>
      rw [dropArm]
      split
      · exact .inr (.inl (by simp [children]))
      · split
        · exact .inr (.inl (by simp [children]))
        · exact .inl rfl
  | validIf cond value ty =>
      rw [dropArm]
      split
      · exact .inr (.inr ⟨ty, rfl⟩)
      · exact .inl rfl
  | _ => exact .inl rfl

/-- A subexpression after dropping arms was there before and has no arm to drop, or it is a
placeholder. -/
theorem mem_nodes_dropArms {d e : Expr} (hmem : d ∈ e.dropArms.nodes) :
    (∃ c ∈ e.nodes, d = c.mapChildren dropArms ∧ dropArm d = d) ∨ ∃ ty, d = .placeholder ty := by
  induction e using induction with
  | step e ih =>
      have hoperand : ∀ c ∈ (e.mapChildren dropArms).children, d ∈ c.nodes →
          (∃ c ∈ e.nodes, d = c.mapChildren dropArms ∧ dropArm d = d) ∨
            ∃ ty, d = .placeholder ty := by
        intro c hchild hmem
        rw [children_mapChildren] at hchild
        obtain ⟨before, hbefore, rfl⟩ := List.mem_map.mp hchild
        rcases ih before hbefore hmem with ⟨c, hc, hd⟩ | hplaceholder
        · exact .inl ⟨c, mem_nodes_of_mem_children hbefore hc, hd⟩
        · exact .inr hplaceholder
      rw [dropArms_eq] at hmem
      rcases dropArm_eq_or (e.mapChildren dropArms) with hkept | hchild | ⟨ty, hlost⟩
      · rw [hkept, mem_nodes_iff] at hmem
        rcases hmem with rfl | ⟨c, hchild, hmem⟩
        · exact .inl ⟨e, mem_nodes_self e, rfl, hkept⟩
        · exact hoperand c hchild hmem
      · exact hoperand _ hchild hmem
      · rw [hlost, nodes, List.mem_singleton] at hmem
        exact .inr ⟨ty, hmem⟩

/-! ## Chains of accesses -/

/-- Every access in the expression leads back to a reference. -/
def AccessesRooted (e : Expr) : Prop :=
  ∀ d ∈ e.nodes, d.isAccess = true → d.root?.isSome = true

instance (e : Expr) : Decidable e.AccessesRooted :=
  inferInstanceAs (Decidable (∀ d ∈ e.nodes, _))

/-- The chain of accesses does not start from a choice. -/
def isStraight : Expr → Bool
  | .subField base _ _ | .subIndex base _ _ | .subAccess base _ _ => base.isStraight
  | .mux .. | .validIf .. => false
  | _ => true

theorem isStraight_fillReads {gone : List String} {e : Expr} (hroot : e.root?.isSome = true) :
    (e.fillReads gone).isStraight = true := by
  induction e using induction with
  | step e ih =>
      have hoperands : (e.mapChildren (fillReads gone)).isStraight = true := by
        cases e with
        | ref => rfl
        | subField base | subIndex base | subAccess base =>
            exact ih base (by simp [children]) hroot
        | _ => simp [root?] at hroot
      rw [fillReads_eq]
      rcases fillRead_eq_self_or gone (e.mapChildren (fillReads gone)) with hkept | hfilled
      · rw [hkept]
        exact hoperands
      · rw [hfilled.1]
        have hfiller := isFiller_of_mem_nodes_dontCare hfilled.2 (mem_nodes_self _)
        generalize (e.mapChildren (fillReads gone)).dontCare = filler at hfiller
        cases filler <;> simp_all [isFiller, isStraight]

/-- Dropping arms in the indices of a chain changes nothing of where it leads. -/
theorem isVacuous_dropArms (gone : List String) {e : Expr} (hstraight : e.isStraight = true) :
    e.dropArms.isVacuous gone = e.isVacuous gone := by
  induction e using induction with
  | step e ih =>
      rw [dropArms_eq]
      cases e with
      | subField base | subIndex base | subAccess base =>
          simp only [mapChildren, dropArm, isVacuous]
          rw [ih base (by simp [children]) hstraight]
      | mux | validIf => simp [isStraight] at hstraight
      | _ => rfl

/-- What is vacuous by its type alone stays so whichever nodes are lost. -/
theorem isVacuous_of_isVacuous_nil {gone : List String} {e : Expr}
    (hvacuous : e.isVacuous [] = true) : e.isVacuous gone = true := by
  induction e using induction with
  | step e ih =>
      cases e with
      | ref r => simp_all [isVacuous, isNodeAmong]
      | subField base _ ty | subIndex base _ ty | subAccess base _ ty =>
          simp only [isVacuous, Bool.or_eq_true] at hvacuous ⊢
          exact hvacuous.imp_right (ih base (by simp [children]))
      | _ => exact hvacuous

theorem isVacuous_nil_eq_false {gone : List String} {e : Expr}
    (hexists : e.isVacuous gone = false) : e.isVacuous [] = false := by
  rw [Bool.eq_false_iff] at hexists ⊢
  exact mt isVacuous_of_isVacuous_nil hexists

/-- A location that exists is kept, but for the indices on the way to it. -/
theorem fillReads_of_location {gone : List String} {e : Expr} (hroot : e.root?.isSome = true)
    (hexists : e.isVacuous gone = false) :
    e.fillReads gone = e.mapChildren (fillReads gone) ∧
      (e.fillReads gone).isVacuous gone = false := by
  induction e using induction with
  | step e ih =>
      have hoperands : (e.mapChildren (fillReads gone)).isVacuous gone = false := by
        cases e with
        | ref => exact hexists
        | subField base | subIndex base | subAccess base =>
            simp only [mapChildren, isVacuous, Bool.or_eq_false_iff] at hexists ⊢
            exact ⟨hexists.1, (ih base (by simp [children]) hroot hexists.2).2⟩
        | _ => simp [root?] at hroot
      have hkept : e.fillReads gone = e.mapChildren (fillReads gone) := by
        rw [fillReads_eq, fillRead, isVacuousRead, hoperands, Bool.and_false]
        rfl
      exact ⟨hkept, hkept ▸ hoperands⟩

theorem cleared_of_location {gone : List String} {e : Expr} (hroot : e.root?.isSome = true)
    (hexists : e.isVacuous gone = false) :
    e.cleared gone = e.mapChildren (cleared gone) ∧ (e.cleared gone).isVacuous gone = false := by
  obtain ⟨hkept, hfilled⟩ := fillReads_of_location hroot hexists
  refine ⟨?_, ?_⟩
  · rw [cleared, hkept, dropArms_eq, mapChildren_mapChildren]
    cases e with
    | mux | validIf => simp [root?] at hroot
    | _ => rfl
  · rw [cleared, isVacuous_dropArms gone (isStraight_fillReads hroot), hfilled]

theorem root?_cleared {gone : List String} {e : Expr} (hroot : e.root?.isSome = true)
    (hexists : e.isVacuous gone = false) : (e.cleared gone).root? = e.root? := by
  induction e using induction with
  | step e ih =>
      rw [(cleared_of_location hroot hexists).1]
      cases e with
      | ref => rfl
      | subField base | subIndex base | subAccess base =>
          simp only [isVacuous, Bool.or_eq_false_iff] at hexists
          exact ih base (by simp [children]) hroot hexists.2
      | _ => simp [root?] at hroot

/-! ## Clear expressions -/

/-- Nothing is left to fill in, and no arm to drop. -/
structure Clear (e : Expr) : Prop where
  reads : ∀ d ∈ e.nodes, d.isAccess = true → d.isVacuous [] = true → d.ty.isAnalog = true
  arms : ∀ d ∈ e.nodes, dropArm d = d

theorem bottomUp_eq_self {f : Expr → Expr} {e : Expr} (heq : ∀ d ∈ e.nodes, f d = d) :
    e.bottomUp f = e := by
  induction e using induction with
  | step e ih =>
      have hoperands : e.mapChildren (bottomUp f) = e := by
        apply mapChildren_eq_self
        intro c hchild
        exact ih c hchild fun d hmem => heq d (mem_nodes_of_mem_children hchild hmem)
      rw [bottomUp_eq, hoperands, heq e e.mem_nodes_self]

theorem fillReads_eq_self {e : Expr}
    (hreads : ∀ d ∈ e.nodes, d.isAccess = true → d.isVacuous [] = true → d.ty.isAnalog = true) :
    e.fillReads [] = e := by
  apply bottomUp_eq_self
  intro d hmem
  unfold fillRead
  split
  next hread =>
    simp only [isVacuousRead, isNodeAmong_nil, Bool.or_false, Bool.and_eq_true] at hread
    exact dontCare_of_isAnalog (hreads d hmem hread.1 hread.2)
  next => rfl

theorem Clear.cleared_eq_self {e : Expr} (hclear : e.Clear) : e.cleared [] = e := by
  rw [cleared, fillReads_eq_self hclear.reads]
  exact bottomUp_eq_self hclear.arms

/-- What is not filled in though it is vacuous is analog. -/
theorem isAnalog_of_fillRead_eq_self {gone : List String} {e : Expr}
    (hread : e.isVacuousRead gone = true) (hkept : e.fillRead gone = e) :
    e.ty.isAnalog = true := by
  by_contra hanalog
  rw [fillRead, if_pos hread] at hkept
  have hfiller : e.isFiller = true := by
    apply isFiller_of_mem_nodes_dontCare (Bool.eq_false_iff.mpr hanalog)
    rw [hkept]
    exact mem_nodes_self e
  cases e <;> simp_all [isFiller, isVacuousRead, isAccess, accessBase?, isNodeAmong]

/-- Arms are dropped after accesses have been filled in, but the base of an access that leads
back to a reference has no arms. -/
theorem clear_cleared (gone : List String) {e : Expr} (hrooted : e.AccessesRooted) :
    (e.cleared gone).Clear := by
  refine ⟨?_, ?_⟩
  · intro d hmem haccess hvacuous
    rcases mem_nodes_dropArms hmem with ⟨c, hc, rfl, _⟩ | ⟨ty, rfl⟩
    · rw [isAccess_mapChildren] at haccess
      rcases mem_nodes_fillReads hc with ⟨b, hb, rfl, hkept⟩ | hfiller
      · have hroot := hrooted b hb (by rwa [isAccess_mapChildren] at haccess)
        have hsame : ((b.mapChildren (fillReads gone)).mapChildren dropArms).isVacuous gone =
            (b.mapChildren (fillReads gone)).isVacuous gone := by
          apply isVacuous_mapChildren
          intro base hbase
          apply isVacuous_dropArms
          cases b <;> simp only [mapChildren, accessBase?, Option.some.injEq, reduceCtorEq] at hbase
          all_goals
            subst hbase
            exact isStraight_fillReads hroot
        rw [ty_mapChildren]
        apply isAnalog_of_fillRead_eq_self _ hkept
        rw [isVacuousRead, haccess, ← hsame, isVacuous_of_isVacuous_nil hvacuous]
        rfl
      · cases c <;> simp_all [isFiller, isAccess, accessBase?]
    · simp [isAccess, accessBase?] at haccess
  · intro d hmem
    rcases mem_nodes_dropArms hmem with ⟨c, _, _, hkept⟩ | ⟨ty, rfl⟩
    · exact hkept
    · rfl

end Expr

/-! ## Clear statements -/

/-- No part of the statement asks for removal. -/
structure Stmt.Clear (s : Stmt) : Prop where
  sink : s.drivesVacuous [] = false
  value : ∀ e ∈ s.value?, e.isPlaceholder = false
  exprs : s.isAttach = false → ∀ e ∈ s.exprs, e.Clear
  members : s.isAttach = true → 2 ≤ s.exprs.length ∧ ∀ e ∈ s.exprs, e.isVacuous [] = false

theorem Stmt.clear_skip : Stmt.skip.Clear :=
  ⟨rfl, by simp [value?], by simp [Stmt.exprs], by simp [isAttach]⟩

namespace Vacuous

theorem removeFromLeaf_of_clear {s : Stmt} (hclear : s.Clear) :
    (removeFromLeaf [] s).result = s ∧ (removeFromLeaf [] s).gone = [] := by
  cases hattach : s.isAttach with
  | true =>
      obtain ⟨htwo, hexist⟩ := hclear.members hattach
      cases s with
      | attach members =>
          have hleft : members.filter (fun member => !member.isVacuous []) = members := by
            rw [List.filter_eq_self]
            intro member hmem
            rw [hexist member hmem]
            rfl
          have hlength : ¬ members.length < 2 := Nat.not_lt.mpr htwo
          rw [removeFromLeaf]
          simp only [hleft, if_neg hlength]
          exact ⟨trivial, rfl⟩
      | _ => simp [Stmt.isAttach] at hattach
  | false =>
      have hexprs : s.mapExprs (Expr.cleared []) = s :=
        Stmt.mapExprs_eq_self fun e he => (hclear.exprs hattach e he).cleared_eq_self
      obtain ⟨hresult, hgone⟩ := fill_eq_settle [] s
      rw [hexprs, settle_eq_self hclear.value] at hresult hgone
      rw [removeFromLeaf_eq_fill [] hattach, hclear.sink]
      exact ⟨hresult, hgone⟩

theorem drivesVacuous_mapExprs_cleared {gone : List String} {s : Stmt}
    (hroot : ∀ sink ∈ s.sink?, sink.root?.isSome = true) (hexists : s.drivesVacuous gone = false) :
    (s.mapExprs (Expr.cleared gone)).drivesVacuous [] = false := by
  have hsink : ∀ sink ∈ s.sink?, (sink.cleared gone).isVacuous [] = false := by
    intro sink hsink
    have hkept := Stmt.drivesVacuous_eq_false_iff.mp hexists sink hsink
    exact Expr.isVacuous_nil_eq_false (Expr.cleared_of_location (hroot sink hsink) hkept).2
  cases s with
  | connect sink | invalidate sink =>
      simpa [Stmt.drivesVacuous, Stmt.sink?, Stmt.mapExprs] using hsink sink rfl
  | _ => rfl

/-- Settling takes the value away from a statement that has lost it, and leaves the rest. -/
theorem clear_settle {s : Stmt} (hattach : s.isAttach = false)
    (hexprs : ∀ e ∈ s.exprs, e.Clear) (hsink : s.drivesVacuous [] = false) :
    (settle s).result.Clear := by
  by_cases hvalue : ∀ e ∈ s.value?, e.isPlaceholder = false
  · rw [settle_eq_self hvalue]
    exact ⟨hsink, hvalue, fun _ => hexprs, by simp [hattach]⟩
  · simp only [not_forall, Bool.not_eq_false] at hvalue
    obtain ⟨value, hmem, hlost⟩ := hvalue
    cases value <;> simp only [Expr.isPlaceholder, Bool.false_eq_true] at hlost
    cases s with
    | connect sink source =>
        obtain rfl := Option.some.inj hmem
        exact ⟨hsink, by simp [settle, Stmt.value?], fun _ e he => hexprs e (by
          simp_all [settle, Stmt.exprs]), by simp [settle, Stmt.isAttach]⟩
    | node name value =>
        obtain rfl := Option.some.inj hmem
        exact Stmt.clear_skip
    | register name ty clock reset =>
        cases reset with
        | none => simp [Stmt.value?] at hmem
        | some reset =>
            obtain ⟨signal, init⟩ := reset
            obtain rfl := Option.some.inj hmem
            exact ⟨hsink, by simp [settle, Stmt.value?], fun _ e he => hexprs e (by
              simp_all [settle, Stmt.exprs]), by simp [settle, Stmt.isAttach]⟩
    | _ => simp [Stmt.value?] at hmem

/-- Whatever nodes are known to be without a value, a leaf is clear once it has been gone
through. -/
theorem clear_removeFromLeaf (gone : List String) {s : Stmt}
    (hrooted : ∀ e ∈ s.exprs, e.AccessesRooted)
    (hroot : ∀ sink ∈ s.sink?, sink.root?.isSome = true) :
    (removeFromLeaf gone s).result.Clear := by
  cases hattach : s.isAttach with
  | true =>
      cases s with
      | attach members =>
          simp only [removeFromLeaf]
          split
          · exact Stmt.clear_skip
          next htwo =>
            refine ⟨rfl, by simp [Stmt.value?], by simp [Stmt.isAttach], fun _ => ⟨?_, ?_⟩⟩
            · exact Nat.not_lt.mp htwo
            · intro e he
              have hexists := (List.mem_filter.mp he).2
              exact Expr.isVacuous_nil_eq_false (Bool.not_eq_true' _ ▸ hexists)
      | _ => simp [Stmt.isAttach] at hattach
  | false =>
      rw [removeFromLeaf_eq_fill gone hattach]
      split
      · exact Stmt.clear_skip
      next hexists =>
        rw [(fill_eq_settle gone s).1]
        apply clear_settle
        · cases s <;> simp_all [Stmt.isAttach, Stmt.mapExprs]
        · rw [Stmt.exprs_mapExprs, List.forall_mem_map]
          exact fun e he => Expr.clear_cleared gone (hrooted e he)
        · exact drivesVacuous_mapExprs_cleared hroot (Bool.eq_false_iff.mpr hexists)

end Vacuous

/-! ## Modules -/

namespace Module

/-- Every access, and every location that is driven, leads back to a reference. -/
structure Rooted (module : Module) : Prop where
  accesses : ∀ e ∈ module.exprs, e.AccessesRooted
  sinks : ∀ s ∈ module.statements, ∀ sink ∈ s.sink?, sink.root?.isSome = true

instance (module : Module) : Decidable module.Rooted :=
  decidable_of_iff
    ((∀ e ∈ module.exprs, e.AccessesRooted) ∧
      ∀ s ∈ module.statements, ∀ sink ∈ s.sink?, sink.root?.isSome = true)
    ⟨fun ⟨haccesses, hsinks⟩ => ⟨haccesses, hsinks⟩, fun h => ⟨h.accesses, h.sinks⟩⟩

/-- Nothing in the module asks for removal. -/
def Clear (module : Module) : Prop :=
  ∀ s ∈ Stmt.leavesAll module.body, s.Clear

theorem Clear.removeVacuous_eq_self {module : Module} (hclear : module.Clear) :
    module.removeVacuous.value = module := by
  have hbody : (Vacuous.removeFromAll [] module.body).result = module.body := by
    rw [Vacuous.removeFromAll_eq_mapLeavesAll fun s hs =>
      (Vacuous.removeFromLeaf_of_clear (hclear s hs)).2]
    exact Stmt.mapLeavesAll_eq_self fun s hs => (Vacuous.removeFromLeaf_of_clear (hclear s hs)).1
  rw [removeVacuous, hbody]

theorem Rooted.isSome_root? {module : Module} (hrooted : module.Rooted) {s : Stmt}
    (hs : s ∈ Stmt.leavesAll module.body) {sink : Expr} (hsink : sink ∈ s.sink?) :
    sink.root?.isSome = true := by
  refine hrooted.sinks s (Stmt.mem_flattenAll.mpr ⟨hs, ?_⟩) sink hsink
  rintro rfl
  simp [Stmt.sink?] at hsink

theorem Rooted.clear_removeVacuous {module : Module} (hrooted : module.Rooted) :
    module.removeVacuous.value.Clear := by
  intro t ht
  have hbody : module.removeVacuous.value.body = (Vacuous.removeFromAll [] module.body).result :=
    rfl
  rw [hbody, Vacuous.leavesAll_removeFromAll, Vacuous.mem_removeFromAll_iff] at ht
  obtain ⟨before, s, after, hsplit, rfl⟩ := ht
  have hs : s ∈ Stmt.leavesAll module.body := by simp [hsplit]
  rw [Vacuous.removeFrom_of_not_block _
    (Stmt.isBlock_of_mem_leaves (s := .block module.body) hs)]
  apply Vacuous.clear_removeFromLeaf
  · exact fun e he => hrooted.accesses e (mem_exprs_iff_leaves.mpr ⟨s, hs, he⟩)
  · exact fun sink hsink => hrooted.isSome_root? hs hsink

/-- Removal is complete after one run, whatever the types, and whatever placeholders there are,
provided that accesses and driven locations lead back to references. -/
theorem removeVacuous_idempotent (module : Module) (hrooted : module.Rooted) :
    module.removeVacuous.value.removeVacuous.value = module.removeVacuous.value :=
  hrooted.clear_removeVacuous.removeVacuous_eq_self

end Module

/-- A node without a value, with what depends on it: a choice, a reset, and accesses that are
read and driven. -/
def hollow : Module := Build.toModule "Hollow" do
  let pair := Ty.bundleOf [("a", Sample.uint 8), ("b", Sample.uint 8)]
  let clk ← Build.input "clk" .clock
  let c ← Build.input "c" (Sample.uint 1)
  let spare ← Build.input "spare" pair
  let out ← Build.output "out" (Sample.uint 8)
  let slots ← Build.wire "slots" (.vector pair 0)
  let first ← Build.node "first" (slots.getAccess c)
  let picked ← Build.node "picked" (.select c first spare)
  Build.addStmt (.register "r" pair clk (some ⟨c, .guarded c first⟩))
  Build.connect (first.getField "a") (spare.getField "a")
  Build.connect out (.apply .cat [first.getField "b", picked.getField "b"] (Sample.uint 16))

theorem hollow_removal_idempotent :
    hollow.Rooted ∧ hollow.removeVacuous.value ≠ hollow ∧
      hollow.removeVacuous.value.removeVacuous.value = hollow.removeVacuous.value := by
  have hrooted : hollow.Rooted := by decide
  exact ⟨hrooted, by decide, hollow.removeVacuous_idempotent hrooted⟩

end Rtl
