import Rtl.Proofs.Declarations
import Rtl.Proofs.Expansion

/-! # What replacing reads keeps

Whatever stands for a read is put in its place and nothing else is touched. Where references
carry the types that signals are declared with, a value has the type of the reads that it
replaces, so that no type changes; and values that cost no hardware add none.
-/

namespace Rtl

namespace Expr

/-- Either the expression is a read that is replaced, or only its operands change. -/
theorem replaceReads_eq_or (values : String → Option Expr) (e : Expr) :
    e.replaceReads values = e.mapChildren (replaceReads values) ∨
      ∃ r value, e = .ref r ∧ values r.name = some value ∧ e.replaceReads values = value := by
  by_cases href : ∃ r, e = .ref r
  · obtain ⟨r, rfl⟩ := href
    rw [replaceReads_ref]
    split
    · cases hvalue : values r.name with
      | none => exact Or.inl rfl
      | some value => exact Or.inr ⟨r, value, rfl, hvalue, rfl⟩
    · exact Or.inl rfl
  · exact Or.inl (replaceReads_of_ne_ref values fun r heq => href ⟨r, heq⟩)

/-- A subexpression after replacing comes from one before, or from a value. -/
theorem mem_nodes_replaceReads {values : String → Option Expr} {d e : Expr}
    (hmem : d ∈ (e.replaceReads values).nodes) :
    (∃ c ∈ e.nodes, d = c.mapChildren (replaceReads values)) ∨
      ∃ name value, values name = some value ∧ d ∈ value.nodes := by
  induction e using induction with
  | step e ih =>
      rcases e.replaceReads_eq_or values with heq | ⟨r, value, rfl, hvalue, heq⟩
      · rw [heq, mem_nodes_iff, children_mapChildren] at hmem
        rcases hmem with rfl | ⟨c, hchild, hmem⟩
        · exact Or.inl ⟨e, mem_nodes_self e, rfl⟩
        · obtain ⟨before, hbefore, rfl⟩ := List.mem_map.mp hchild
          rcases ih before hbefore hmem with ⟨c, hc, rfl⟩ | hvalue
          · exact Or.inl ⟨c, mem_nodes_of_mem_children hbefore hc, rfl⟩
          · exact Or.inr hvalue
      · exact Or.inr ⟨r.name, value, hvalue, heq ▸ hmem⟩

theorem replaceReads_mem_nodes {values : String → Option Expr} {c e : Expr}
    (hmem : c ∈ e.nodes) : c.replaceReads values ∈ (e.replaceReads values).nodes := by
  induction e using refInduction with
  | ref r =>
      rw [nodes, List.mem_singleton] at hmem
      rw [hmem]
      exact mem_nodes_self _
  | step e hne ih =>
      rcases mem_nodes_iff.mp hmem with rfl | ⟨child, hchild, hmem⟩
      · exact mem_nodes_self _
      · rw [replaceReads_of_ne_ref values hne]
        refine mem_nodes_of_mem_children ?_ (ih child hchild hmem)
        rw [children_mapChildren]
        exact List.mem_map_of_mem hchild

theorem replaceReads_ref_eq_self {values : String → Option Expr} {r : Ref}
    (hkept : r.isLocalRead = true → values r.name = none) :
    (Expr.ref r).replaceReads values = .ref r := by
  rw [replaceReads_ref]
  split
  next hread => rw [hkept hread, Option.getD_none]
  next => rfl

/-- A chain of accesses keeps its root, unless the root is a read that is replaced. -/
theorem root?_replaceReads {values : String → Option Expr} {e : Expr}
    (hkept : ∀ r ∈ e.root?, r.isLocalRead = true → values r.name = none) :
    (e.replaceReads values).root? = e.root? := by
  induction e using refInduction with
  | ref r => rw [replaceReads_ref_eq_self (hkept r rfl)]
  | step e hne ih =>
      rw [replaceReads_of_ne_ref values hne]
      cases e with
      | subField base | subIndex base | subAccess base =>
          exact ih base (by simp [children]) hkept
      | ref r => exact absurd rfl (hne r)
      | _ => rfl

theorem isLogicFree_iff {e : Expr} : e.isLogicFree = true ↔ ∀ d ∈ e.nodes, d.isLogic = false := by
  simp [isLogicFree, any_eq]

theorem isLogic_mapChildren (f : Expr → Expr) (e : Expr) :
    (e.mapChildren f).isLogic = e.isLogic := by
  cases e <;> rfl

theorem isLogicFree_replaceReads {values : String → Option Expr}
    (hfree : ∀ name value, values name = some value → value.isLogicFree = true) (e : Expr) :
    (e.replaceReads values).isLogicFree = e.isLogicFree := by
  rw [Bool.eq_iff_iff, isLogicFree_iff, isLogicFree_iff]
  constructor
  · intro hnone c hc
    by_cases href : ∃ r, c = .ref r
    · obtain ⟨r, rfl⟩ := href
      rfl
    · have hlogic := hnone _ (replaceReads_mem_nodes hc)
      rwa [replaceReads_of_ne_ref values fun r heq => href ⟨r, heq⟩, isLogic_mapChildren] at hlogic
  · intro hnone d hmem
    rcases mem_nodes_replaceReads hmem with ⟨c, hc, rfl⟩ | ⟨name, value, hvalue, hd⟩
    · rw [isLogic_mapChildren]
      exact hnone c hc
    · exact isLogicFree_iff.mp (hfree name value hvalue) d hd

end Expr

namespace Module

/-- All references of the expression are references of the module. -/
def Mentions (module : Module) (e : Expr) : Prop :=
  ∀ r : Ref, .ref r ∈ e.nodes → r ∈ module.refs

theorem mentions_of_mem_exprs {module : Module} {e : Expr} (hmem : e ∈ module.exprs) :
    module.Mentions e :=
  fun _ href => mem_refs.mpr ⟨e, hmem, href⟩

theorem Mentions.of_mem_nodes {module : Module} {d e : Expr} (hmentions : module.Mentions e)
    (hmem : d ∈ e.nodes) : module.Mentions d :=
  fun r href => hmentions r (Expr.mem_nodes_trans hmem href)

/-- Values have the types of the reads that they replace. -/
def TypesReads (module : Module) (values : String → Option Expr) : Prop :=
  ∀ name value, values name = some value → ∀ r ∈ module.refs, r.name = name → value.ty = r.ty

theorem TypesReads.ty_replaceReads {module : Module} {values : String → Option Expr}
    (htypes : module.TypesReads values) {e : Expr} (hmentions : module.Mentions e) :
    (e.replaceReads values).ty = e.ty := by
  rcases e.replaceReads_eq_or values with heq | ⟨r, value, rfl, hvalue, heq⟩
  · rw [heq, Expr.ty_mapChildren]
  · rw [heq]
    exact htypes r.name value hvalue r (hmentions r (Expr.mem_nodes_self _)) rfl

/-- The value that a candidate is assigned has the type it is declared with, and replacing reads
does not change that. -/
theorem LocalsTyped.typesReads {module : Module} (htyped : module.LocalsTyped) (depth : Nat) :
    module.TypesReads (module.candidates.value.expand? depth) := by
  induction depth with
  | zero =>
      intro name value hvalue
      simp [Assignments.expand?] at hvalue
  | succ depth ih =>
      intro name value hvalue r hr hname
      obtain ⟨assigned, hlookup, rfl⟩ := Option.map_eq_some_iff.mp hvalue
      have hassigns := assigns_of_candidate hlookup
      rw [ih.ty_replaceReads (mentions_of_mem_exprs hassigns.mem_exprs)]
      exact (htyped r hr _ hassigns.declared hname.symm).symm

theorem isLogicFree_expand? {module : Module} (depth : Nat) {name : String} {value : Expr}
    (hvalue : module.candidates.value.expand? depth name = some value) :
    value.isLogicFree = true := by
  induction depth generalizing name value with
  | zero => simp [Assignments.expand?] at hvalue
  | succ depth ih =>
      obtain ⟨assigned, hlookup, rfl⟩ := Option.map_eq_some_iff.mp hvalue
      rw [Expr.isLogicFree_replaceReads fun _ _ => ih]
      exact (assigns_of_candidate hlookup).logicFree

end Module

end Rtl
