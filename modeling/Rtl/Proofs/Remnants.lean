import Rtl.Proofs.NormalForm

/-! # What is left after removal

What is left of a statement declares, drives and mentions nothing that the statement did not.
Types stay as well, provided that the arms of a choice have the type of the choice: a choice may
give way to one of its arms.
-/

namespace Rtl

namespace Expr

/-- If the expression chooses between two values, both have its type. -/
def isTypedChoice : Expr → Bool
  | .mux _ tval fval ty => tval.ty == ty && fval.ty == ty
  | _ => true

/-- The arms of every choice between two values have its type. -/
def ChoicesTyped (e : Expr) : Prop :=
  ∀ d ∈ e.nodes, d.isTypedChoice = true

instance (e : Expr) : Decidable e.ChoicesTyped :=
  inferInstanceAs (Decidable (∀ d ∈ e.nodes, _))

/-- A check of a single subexpression that sees no more of its operands than their types, and that
everything passes that is filled in. -/
structure ChecksTypes (check : Expr → Bool) : Prop where
  mapChildren : ∀ {f : Expr → Expr} {e : Expr}, (∀ d ∈ e.children, (f d).ty = d.ty) →
    check (e.mapChildren f) = check e
  filler : ∀ {e : Expr}, e.isFiller = true → check e = true

theorem checksTypes_isTypedChoice : ChecksTypes isTypedChoice where
  mapChildren {f e} hty := by cases e <;> simp_all [Expr.mapChildren, isTypedChoice, children]
  filler {e} hfiller := by cases e <;> simp_all [isFiller, isTypedChoice]

theorem checksTypes_isValidAccess : ChecksTypes isValidAccess where
  mapChildren := isValidAccess_mapChildren
  filler {e} hfiller := by cases e <;> simp_all [isFiller, isValidAccess]

theorem ChecksTypes.fillReads {check : Expr → Bool} (hcheck : ChecksTypes check) {e : Expr}
    (hall : ∀ d ∈ e.nodes, check d = true) (gone : List String) :
    ∀ d ∈ (e.fillReads gone).nodes, check d = true := by
  intro d hmem
  rcases mem_nodes_fillReads hmem with ⟨c, hc, rfl, _⟩ | hfiller
  · rw [hcheck.mapChildren fun c _ => ty_fillReads gone c]
    exact hall c hc
  · exact hcheck.filler hfiller

theorem ChoicesTyped.fillReads {e : Expr} (htyped : e.ChoicesTyped) (gone : List String) :
    (e.fillReads gone).ChoicesTyped :=
  checksTypes_isTypedChoice.fillReads htyped gone

theorem ChoicesTyped.ty_dropArms {e : Expr} (htyped : e.ChoicesTyped) : e.dropArms.ty = e.ty := by
  induction e using induction with
  | step e ih =>
      have hoperand : ∀ d ∈ e.children, d.dropArms.ty = d.ty := fun d hchild =>
        ih d hchild fun c hc => htyped c (mem_nodes_of_mem_children hchild hc)
      rw [dropArms_eq]
      cases e with
      | mux cond tval fval ty =>
          have harms := htyped _ (mem_nodes_self _)
          simp only [isTypedChoice, Bool.and_eq_true, beq_iff_eq] at harms
          simp only [mapChildren, dropArm]
          split
          · exact (hoperand fval (by simp [children])).trans harms.2
          · split
            · exact (hoperand tval (by simp [children])).trans harms.1
            · rfl
      | validIf cond value ty =>
          simp only [mapChildren, dropArm]
          split <;> rfl
      | _ => rfl

theorem ChoicesTyped.ty_cleared {e : Expr} (htyped : e.ChoicesTyped) (gone : List String) :
    (e.cleared gone).ty = e.ty := by
  rw [cleared, (htyped.fillReads gone).ty_dropArms, ty_fillReads]

theorem ChecksTypes.dropArms {check : Expr → Bool} (hcheck : ChecksTypes check) {e : Expr}
    (htyped : e.ChoicesTyped) (hall : ∀ d ∈ e.nodes, check d = true) :
    ∀ d ∈ e.dropArms.nodes, check d = true := by
  intro d hmem
  rcases mem_nodes_dropArms hmem with ⟨c, hc, rfl, _⟩ | ⟨ty, rfl⟩
  · -- The operands of `c` keep their types, for their choices are typed as well.
    have hoperand : ∀ child ∈ c.children, child.dropArms.ty = child.ty := by
      intro child hchild
      apply ChoicesTyped.ty_dropArms
      intro inner hinner
      exact htyped inner (mem_nodes_trans hc (mem_nodes_of_mem_children hchild hinner))
    rw [hcheck.mapChildren hoperand]
    exact hall c hc
  · exact hcheck.filler rfl

/-- Where the arms of choices have their types, a check of types that held before holds of what is
left. -/
theorem ChecksTypes.cleared {check : Expr → Bool} (hcheck : ChecksTypes check) {e : Expr}
    (htyped : e.ChoicesTyped) (hall : ∀ d ∈ e.nodes, check d = true) (gone : List String) :
    ∀ d ∈ (e.cleared gone).nodes, check d = true :=
  hcheck.dropArms (htyped.fillReads gone) (hcheck.fillReads hall gone)

/-- Filling in keeps the type of every expression. Where the arms of every choice have its type,
dropping arms keeps it as well, the arms that are left still have the types of their choices, and
accesses that were all valid still are. -/
theorem clearing_preserves_types (gone : List String) (e : Expr) :
    (e.fillReads gone).ty = e.ty ∧
      (e.ChoicesTyped →
        (e.fillReads gone).dropArms.ty = e.ty ∧ (e.fillReads gone).dropArms.ChoicesTyped ∧
          (e.AccessesValid → (e.fillReads gone).dropArms.AccessesValid)) := by
  refine ⟨ty_fillReads gone e, fun htyped => ⟨htyped.ty_cleared gone, ?_, fun hvalid => ?_⟩⟩
  · exact checksTypes_isTypedChoice.cleared htyped htyped gone
  · exact checksTypes_isValidAccess.cleared htyped hvalid gone

/-- An access to a choice between a lost node, a row that does not exist, and a port. -/
def spareLane : Expr :=
  let byte : Ty := .uint (.known 8)
  let lanes : Ty := .vector byte 4
  let i : Expr := .ref (.port "i" byte)
  let rows : Expr := .ref (.wire "rows" (.vector lanes 0))
  let choice := select i (.ref (.node "lost" lanes))
    (select i (.ref (.port "spare" lanes)) (rows.getAccess i))
  choice.getAccess i

theorem spareLane_types_preserved :
    spareLane.ChoicesTyped ∧ spareLane.AccessesValid ∧
      (spareLane.fillReads ["lost"]).dropArms =
        (Expr.ref (.port "spare" (.vector (.uint (.known 8)) 4))).getAccess
          (.ref (.port "i" (.uint (.known 8)))) ∧
      (spareLane.fillReads ["lost"]).dropArms.ty = spareLane.ty ∧
      (spareLane.fillReads ["lost"]).dropArms.ChoicesTyped ∧
      (spareLane.fillReads ["lost"]).dropArms.AccessesValid := by
  have htyped : spareLane.ChoicesTyped := by decide
  have hvalid : spareLane.AccessesValid := by decide
  obtain ⟨-, hpreserved⟩ := clearing_preserves_types ["lost"] spareLane
  obtain ⟨hty, hchoices, haccesses⟩ := hpreserved htyped
  exact ⟨htyped, hvalid, by decide, hty, hchoices, haccesses hvalid⟩

/-- Nothing new is mentioned, and nothing that would have been filled in. -/
theorem ref_mem_nodes_of_cleared {gone : List String} {e : Expr} {r : Ref}
    (hmem : .ref r ∈ (e.cleared gone).nodes) :
    .ref r ∈ e.nodes ∧ (Expr.ref r).fillRead gone = .ref r := by
  have hsame : ∀ {f : Expr → Expr} {c : Expr}, .ref r = c.mapChildren f → c = .ref r := by
    intro f c heq
    cases c <;> simp_all [mapChildren]
  rcases mem_nodes_dropArms hmem with ⟨c, hc, heq, _⟩ | ⟨ty, heq⟩
  · obtain rfl := hsame heq
    rcases mem_nodes_fillReads hc with ⟨d, hd, heq, hkept⟩ | hfiller
    · exact ⟨hsame heq ▸ hd, hkept⟩
    · simp [isFiller] at hfiller
  · simp at heq

end Expr

/-! ## Statements -/

/-- The second statement declares, drives and mentions nothing that the first does not. -/
structure Stmt.Remnant (s t : Stmt) : Prop where
  locals : ∀ entry ∈ t.local?, entry ∈ s.local?
  driven : ∀ e ∈ t.driven, ∃ d ∈ s.driven, e.root? = d.root?
  refs : ∀ e ∈ t.exprs, ∀ r : Ref, .ref r ∈ e.nodes → ∃ d ∈ s.exprs, .ref r ∈ d.nodes

theorem Stmt.Remnant.trans {s t u : Stmt} (hst : s.Remnant t) (htu : t.Remnant u) :
    s.Remnant u where
  locals entry hentry := hst.locals entry (htu.locals entry hentry)
  driven e he := by
    obtain ⟨d, hd, heq⟩ := htu.driven e he
    obtain ⟨c, hc, heq'⟩ := hst.driven d hd
    exact ⟨c, hc, heq.trans heq'⟩
  refs e he r hr := by
    obtain ⟨d, hd, hr⟩ := htu.refs e he r hr
    exact hst.refs d hd r hr

theorem Stmt.remnant_skip (s : Stmt) : s.Remnant .skip :=
  ⟨by simp [local?], by simp [Stmt.driven], by simp [exprs]⟩

namespace Vacuous

theorem remnant_settle (s : Stmt) : s.Remnant (settle s).result := by
  unfold settle
  split
  · exact ⟨by simp [Stmt.local?], by simp [Stmt.driven], by simp +contextual [Stmt.exprs]⟩
  · exact Stmt.remnant_skip _
  · exact ⟨by simp [Stmt.local?], by simp [Stmt.driven], by simp +contextual [Stmt.exprs]⟩
  · exact ⟨fun _ h => h, fun e he => ⟨e, he, rfl⟩, fun e he _ hr => ⟨e, he, hr⟩⟩

theorem remnant_mapExprs_cleared {gone : List String} {s : Stmt} (hattach : s.isAttach = false)
    (hchoices : ∀ e ∈ s.exprs, e.ChoicesTyped)
    (hroot : ∀ sink ∈ s.sink?, sink.root?.isSome = true) (hexists : s.drivesVacuous gone = false) :
    s.Remnant (s.mapExprs (Expr.cleared gone)) where
  locals entry hentry := by
    rwa [Stmt.local?_mapExprs fun e he => (hchoices e he).ty_cleared gone] at hentry
  driven := by
    have hsink : ∀ sink ∈ s.sink?, (sink.cleared gone).root? = sink.root? := by
      intro sink hsink
      exact Expr.root?_cleared (hroot sink hsink)
        (Stmt.drivesVacuous_eq_false_iff.mp hexists sink hsink)
    cases s <;> simp_all [Stmt.driven, Stmt.mapExprs, Stmt.sink?, Stmt.isAttach]
  refs e he r hr := by
    rw [Stmt.exprs_mapExprs] at he
    obtain ⟨d, hd, rfl⟩ := List.mem_map.mp he
    exact ⟨d, hd, (Expr.ref_mem_nodes_of_cleared hr).1⟩

theorem remnant_removeFromLeaf (gone : List String) {s : Stmt}
    (hchoices : ∀ e ∈ s.exprs, e.ChoicesTyped)
    (hroot : ∀ sink ∈ s.sink?, sink.root?.isSome = true) :
    s.Remnant (removeFromLeaf gone s).result := by
  cases hattach : s.isAttach with
  | true =>
      cases s with
      | attach members =>
          simp only [removeFromLeaf]
          split
          · exact Stmt.remnant_skip _
          · refine ⟨by simp [Stmt.local?], ?_, ?_⟩
            · exact fun e he => ⟨e, List.mem_of_mem_filter he, rfl⟩
            · exact fun e he r hr => ⟨e, List.mem_of_mem_filter he, hr⟩
      | _ => simp [Stmt.isAttach] at hattach
  | false =>
      rw [removeFromLeaf_eq_fill gone hattach]
      split
      · exact Stmt.remnant_skip _
      next hexists =>
        rw [(fill_eq_settle gone s).1]
        have hkept := remnant_mapExprs_cleared hattach hchoices hroot
          (Bool.eq_false_iff.mpr hexists)
        exact hkept.trans (remnant_settle _)

theorem remnants_removeFromAll {gone : List String} {ss : List Stmt}
    (hleaves : ∀ s ∈ ss, s.isBlock = false)
    (hremnant : ∀ s ∈ ss, ∀ gone, s.Remnant (removeFromLeaf gone s).result) :
    List.Forall₂ Stmt.Remnant ss (removeFromAll gone ss).result := by
  induction ss generalizing gone with
  | nil => exact .nil
  | cons s ss ih =>
      obtain ⟨hleaf, hleaves⟩ := List.forall_mem_cons.mp hleaves
      obtain ⟨hhead, htail⟩ := List.forall_mem_cons.mp hremnant
      rw [removeFromAll, removeFrom_of_not_block gone hleaf]
      exact .cons (hhead gone) (ih hleaves htail)

end Vacuous

/-! ## Modules -/

theorem exists_of_mem_of_forall₂ {α β : Type} {related : α → β → Prop} {as : List α} {bs : List β}
    (hall : List.Forall₂ related as bs) {b : β} (hmem : b ∈ bs) : ∃ a ∈ as, related a b := by
  induction hall with
  | nil => simp at hmem
  | cons hhead _ ih =>
      rcases List.mem_cons.mp hmem with rfl | hmem
      · exact ⟨_, List.mem_cons_self, hhead⟩
      · obtain ⟨a, ha, hrelated⟩ := ih hmem
        exact ⟨a, List.mem_cons_of_mem _ ha, hrelated⟩

theorem pairwise_of_forall₂ {α β : Type} {related : α → β → Prop} {before : α → α → Prop}
    {after : β → β → Prop} {as : List α} {bs : List β} (hall : List.Forall₂ related as bs)
    (himp : ∀ {a a' b b'}, related a b → related a' b' → before a a' → after b b')
    (hpairs : as.Pairwise before) : bs.Pairwise after := by
  induction hall with
  | nil => exact .nil
  | cons hhead htail ih =>
      obtain ⟨hfirst, hrest⟩ := List.pairwise_cons.mp hpairs
      refine List.pairwise_cons.mpr ⟨?_, ih hrest⟩
      intro b hb
      obtain ⟨a, ha, hrelated⟩ := exists_of_mem_of_forall₂ htail hb
      exact himp hhead hrelated (hfirst a ha)

namespace Module

def ChoicesTyped (module : Module) : Prop :=
  ∀ e ∈ module.exprs, e.ChoicesTyped

instance (module : Module) : Decidable module.ChoicesTyped :=
  inferInstanceAs (Decidable (∀ e ∈ module.exprs, _))

variable {module : Module}

theorem remnants_removeVacuous (hrooted : module.Rooted) (hchoices : module.ChoicesTyped) :
    List.Forall₂ Stmt.Remnant (Stmt.leavesAll module.body)
      (Stmt.leavesAll module.removeVacuous.value.body) := by
  have hbody : module.removeVacuous.value.body = (Vacuous.removeFromAll [] module.body).result :=
    rfl
  rw [hbody, Vacuous.leavesAll_removeFromAll]
  apply Vacuous.remnants_removeFromAll
  · exact fun s hs => Stmt.isBlock_of_mem_leaves (s := .block module.body) hs
  · intro s hs gone
    apply Vacuous.remnant_removeFromLeaf
    · exact fun e he => hchoices e (mem_exprs_iff_leaves.mpr ⟨s, hs, he⟩)
    · exact fun sink hsink => hrooted.isSome_root? hs hsink

theorem LocalsTyped.removeVacuous (htyped : module.LocalsTyped) (hrooted : module.Rooted)
    (hchoices : module.ChoicesTyped) : module.removeVacuous.value.LocalsTyped := by
  have hremnants := remnants_removeVacuous hrooted hchoices
  intro r hr declared hdeclared hname
  obtain ⟨e, he, href⟩ := mem_refs.mp hr
  obtain ⟨t, ht, he⟩ := mem_exprs_iff_leaves.mp he
  obtain ⟨s, hs, hremnant⟩ := exists_of_mem_of_forall₂ hremnants ht
  obtain ⟨d, hd, href⟩ := hremnant.refs e he r href
  obtain ⟨u, hu, hlocal⟩ := mem_locals_iff_leaves.mp hdeclared
  obtain ⟨v, hv, hremnant⟩ := exists_of_mem_of_forall₂ hremnants hu
  exact htyped r (mem_refs.mpr ⟨d, mem_exprs_iff_leaves.mpr ⟨s, hs, hd⟩, href⟩) declared
    (mem_locals_iff_leaves.mpr ⟨v, hv, hremnant.locals declared hlocal⟩) hname

theorem NoneDeclaredLater.removeVacuous (hundeclared : module.NoneDeclaredLater Stmt.driven)
    (hrooted : module.Rooted) (hchoices : module.ChoicesTyped) :
    module.removeVacuous.value.NoneDeclaredLater Stmt.driven := by
  rw [NoneDeclaredLater, statements, Stmt.flattenAll_eq_filter, List.pairwise_filter]
    at hundeclared ⊢
  refine pairwise_of_forall₂ (remnants_removeVacuous hrooted hchoices) ?_ hundeclared
  intro s s' t t' hremnant hremnant' hpair _ _ e he r hroot hread heq
  obtain ⟨d, hd, hsame⟩ := hremnant.driven e he
  obtain ⟨entry, hentry, hname⟩ := Option.map_eq_some_iff.mp heq
  have hlocal : s'.local? = some entry := hremnant'.locals entry hentry
  -- Neither statement is empty, for one drives and the other declares something.
  refine hpair ?_ ?_ d hd r (hsame ▸ hroot) hread (by rw [hlocal, Option.map_some, hname])
  · rw [Stmt.isSkip_of_mem_driven hd, Bool.not_false]
  · rw [Stmt.isSkip_of_mem_local? hlocal, Bool.not_false]

end Module

end Rtl
