import Rtl.Proofs.InlineComplete
import Rtl.Proofs.Remnants

/-! # The normal form of the pipeline

Removal followed by inlining leaves nothing for either pass to do. Inlining moves expressions, but
those it moves are ground values that have been gone through already: nothing that asks for removal
arises where one of them stands for a read. And removal keeps the types and the order of
declarations that inlining relies on.
-/

namespace Rtl

theorem Ty.isEmptyVector_of_isGround {ty : Ty} (hground : ty.isGround = true) :
    ty.isEmptyVector = false := by
  cases ty <;> simp_all [isGround, isAggregate, isEmptyVector]

namespace Expr

/-- A ground value that does not ask for removal. -/
structure Solid (value : Expr) : Prop where
  clear : value.Clear
  ground : value.ty.isGround = true
  notAnalog : value.ty.isAnalog = false
  notPlaceholder : value.isPlaceholder = false

theorem Solid.isVacuous_eq_false {value : Expr} (hsolid : value.Solid) :
    value.isVacuous [] = false := by
  have hnonempty := Ty.isEmptyVector_of_isGround hsolid.ground
  cases haccess : value.isAccess with
  | true =>
      by_contra hvacuous
      have hanalog := hsolid.clear.reads value value.mem_nodes_self haccess
        (Bool.not_eq_false _ ▸ hvacuous)
      simp [hsolid.notAnalog] at hanalog
  | false =>
      have hplaceholder := hsolid.notPlaceholder
      cases value with
      | subField | subIndex | subAccess => simp [isAccess, accessBase?] at haccess
      | placeholder => simp [isPlaceholder] at hplaceholder
      | ref r => exact Bool.or_eq_false_iff.mpr ⟨hnonempty, by simp [isNodeAmong]⟩
      | literal => rfl
      | _ => exact hnonempty

/-- A choice that keeps its arms keeps them as long as none of them turns into a placeholder. -/
theorem dropArm_mapChildren {f : Expr → Expr} {e : Expr}
    (hkept : ∀ d ∈ e.children, (f d).isPlaceholder = d.isPlaceholder) (hself : dropArm e = e) :
    dropArm (e.mapChildren f) = e.mapChildren f := by
  cases e with
  | mux cond tval fval ty =>
      have htval := hkept tval (by simp [children])
      have hfval := hkept fval (by simp [children])
      rw [dropArm] at hself
      split at hself
      · have hsize := congrArg sizeOf hself
        simp only [mux.sizeOf_spec] at hsize
        omega
      · split at hself
        · have hsize := congrArg sizeOf hself
          simp only [mux.sizeOf_spec] at hsize
          omega
        · simp_all [mapChildren, dropArm]
  | validIf cond value ty =>
      have hvalue := hkept value (by simp [children])
      rw [dropArm] at hself
      split at hself
      · simp at hself
      · simp_all [mapChildren, dropArm]
  | _ => rfl

end Expr

theorem Stmt.Clear.mapExprs {s : Stmt} (hclear : s.Clear) {f : Expr → Expr}
    (hexprs : ∀ e ∈ s.exprs, e.Clear → (f e).Clear)
    (hvacuous : ∀ e ∈ s.exprs, (f e).isVacuous [] = e.isVacuous [])
    (hplaceholder : ∀ e ∈ s.exprs, (f e).isPlaceholder = e.isPlaceholder) :
    (s.mapExprs f).Clear := by
  have hattach : (s.mapExprs f).isAttach = s.isAttach := by cases s <;> rfl
  refine ⟨?_, ?_, ?_, ?_⟩
  · have hsink := hclear.sink
    cases s <;> simp_all [drivesVacuous, sink?, Stmt.mapExprs, Stmt.exprs]
  · have hvalue := hclear.value
    cases s with
    | register name ty clock reset => cases reset <;> simp_all [value?, Stmt.mapExprs, Stmt.exprs]
    | _ => simp_all [value?, Stmt.mapExprs, Stmt.exprs]
  · intro hother
    rw [exprs_mapExprs, List.forall_mem_map]
    exact fun e he => hexprs e he (hclear.exprs (hattach ▸ hother) e he)
  · intro hother
    obtain ⟨htwo, hexist⟩ := hclear.members (hattach ▸ hother)
    rw [exprs_mapExprs, List.length_map, List.forall_mem_map]
    exact ⟨htwo, fun e he => (hvacuous e he).trans (hexist e he)⟩

namespace Module

section Replace

variable {module : Module} {values : String → Option Expr} (htypes : module.TypesReads values)
  (hsolid : ∀ name value, values name = some value → value.Solid)

include hsolid in
theorem isPlaceholder_replaceReads (e : Expr) :
    (e.replaceReads values).isPlaceholder = e.isPlaceholder := by
  rcases e.replaceReads_eq_or values with heq | ⟨r, value, rfl, hvalue, heq⟩
  · rw [heq, Expr.isPlaceholder_mapChildren]
  · rw [heq]
    exact (hsolid r.name value hvalue).notPlaceholder

include htypes hsolid

theorem isVacuous_replaceReads {e : Expr} (hmentions : module.Mentions e) :
    (e.replaceReads values).isVacuous [] = e.isVacuous [] := by
  induction e using Expr.induction with
  | step e ih =>
      rcases e.replaceReads_eq_or values with heq | ⟨r, value, rfl, hvalue, heq⟩
      · rw [heq]
        apply Expr.isVacuous_mapChildren
        intro base hbase
        have hchild := Expr.mem_children_of_accessBase? hbase
        exact ih base hchild
          (hmentions.of_mem_nodes (Expr.mem_nodes_of_mem_children hchild base.mem_nodes_self))
      · -- Neither the value nor the read is vacuous, for both have the same ground type.
        have hty := htypes r.name value hvalue r (hmentions r (Expr.mem_nodes_self _)) rfl
        have hnonempty := Ty.isEmptyVector_of_isGround (hsolid r.name value hvalue).ground
        rw [hty] at hnonempty
        rw [heq, (hsolid r.name value hvalue).isVacuous_eq_false]
        simp [Expr.isVacuous, Expr.isNodeAmong, hnonempty]

theorem clear_replaceReads {e : Expr} (hmentions : module.Mentions e) (hclear : e.Clear) :
    (e.replaceReads values).Clear := by
  have hnodes : ∀ c ∈ e.nodes, module.Mentions c := fun c hc => hmentions.of_mem_nodes hc
  refine ⟨?_, ?_⟩
  · intro d hmem haccess hvacuous
    rcases Expr.mem_nodes_replaceReads hmem with ⟨c, hc, rfl⟩ | ⟨name, value, hvalue, hd⟩
    · rw [Expr.isVacuous_mapChildren] at hvacuous
      · rw [Expr.ty_mapChildren]
        exact hclear.reads c hc (by rwa [Expr.isAccess_mapChildren] at haccess) hvacuous
      · intro base hbase
        have hchild := Expr.mem_children_of_accessBase? hbase
        have hnode := Expr.mem_nodes_of_mem_children hchild base.mem_nodes_self
        exact isVacuous_replaceReads htypes hsolid ((hnodes c hc).of_mem_nodes hnode)
    · exact (hsolid name value hvalue).clear.reads d hd haccess hvacuous
  · intro d hmem
    rcases Expr.mem_nodes_replaceReads hmem with ⟨c, hc, rfl⟩ | ⟨name, value, hvalue, hd⟩
    · exact Expr.dropArm_mapChildren (fun child _ => isPlaceholder_replaceReads hsolid child)
        (hclear.arms c hc)
    · exact (hsolid name value hvalue).clear.arms d hd

theorem clear_mapExprs_replaceReads {s : Stmt} (hs : s ∈ Stmt.leavesAll module.body)
    (hclear : s.Clear) : (s.mapExprs (Expr.replaceReads values)).Clear := by
  have hmentions : ∀ e ∈ s.exprs, module.Mentions e :=
    fun e he => mentions_of_mem_exprs (mem_exprs_iff_leaves.mpr ⟨s, hs, he⟩)
  apply hclear.mapExprs
  · exact fun e he => clear_replaceReads htypes hsolid (hmentions e he)
  · exact fun e he => isVacuous_replaceReads htypes hsolid (hmentions e he)
  · exact fun e _ => isPlaceholder_replaceReads hsolid e

end Replace

variable {module : Module}

/-- Where nothing asks for removal, the values that signals are assigned are solid. -/
theorem Clear.solid_of_assigns (hclear : module.Clear) {name : String} {value : Expr}
    (hassigns : module.Assigns name value) : value.Solid := by
  obtain ⟨s, hs, hassigned⟩ := hassigns.assigned
  have hstmt := hclear s (Stmt.mem_flattenAll.mp hs).1
  have hvalue : s.isAttach = false ∧ value ∈ s.value? := by
    rcases hassigned with rfl | ⟨r, _, rfl⟩ <;> exact ⟨rfl, rfl⟩
  exact {
    clear := hstmt.exprs hvalue.1 value (Stmt.mem_exprs_of_mem_value? hvalue.2)
    ground := hassigns.ground
    notAnalog := hassigns.notAnalog
    notPlaceholder := hstmt.value value hvalue.2 }

/-- So are the values that candidates stand for, for replacing reads by solid values yields such
values again. -/
theorem Clear.solid_of_expand? (hclear : module.Clear) (htyped : module.LocalsTyped) (depth : Nat)
    {name : String} {value : Expr}
    (hvalue : module.candidates.value.expand? depth name = some value) : value.Solid := by
  induction depth generalizing name value with
  | zero => simp [Assignments.expand?] at hvalue
  | succ depth ih =>
      obtain ⟨assigned, hlookup, rfl⟩ := Option.map_eq_some_iff.mp hvalue
      have hassigns := assigns_of_candidate hlookup
      have hmentions := mentions_of_mem_exprs hassigns.mem_exprs
      have htypes := htyped.typesReads depth
      have hsolid := hclear.solid_of_assigns hassigns
      have hty := htypes.ty_replaceReads hmentions
      exact ⟨clear_replaceReads htypes (fun _ _ => ih) hmentions hsolid.clear,
        hty ▸ hsolid.ground, hty ▸ hsolid.notAnalog,
        (isPlaceholder_replaceReads (fun _ _ => ih) assigned).trans hsolid.notPlaceholder⟩

/-- Inlining keeps the normal form of removal. -/
theorem Clear.inlineAssignments (hclear : module.Clear) (htyped : module.LocalsTyped) :
    module.inlineAssignments.value.Clear := by
  intro t ht
  rw [inlineAssignments_body, Stmt.leavesAll_mapLeavesAll (Inline.isBlock_inlineLeaf _)] at ht
  obtain ⟨s, hs, rfl⟩ := List.mem_map.mp ht
  rw [Inline.inlineLeaf]
  split
  · exact Stmt.clear_skip
  · exact clear_mapExprs_replaceReads (htyped.typesReads _)
      (fun _ _ => hclear.solid_of_expand? htyped _) hs (hclear s hs)

/-- What removal and then inlining make of a module. -/
def simplified (module : Module) : Module :=
  module.removeVacuous.value.inlineAssignments.value

/-- Removal followed by inlining leaves nothing to remove, and running both again changes nothing,
provided for the latter that no wire or node is driven through a read before a statement that
declares it. -/
theorem simplified_normal (module : Module) (hrooted : module.Rooted)
    (hchoices : module.ChoicesTyped) (htyped : module.LocalsTyped) :
    module.simplified.removeVacuous.value = module.simplified ∧
      (module.NoneDeclaredLater Stmt.driven →
        module.simplified.simplified = module.simplified) := by
  have hleft := htyped.removeVacuous hrooted hchoices
  have hremoved : module.simplified.removeVacuous.value = module.simplified :=
    (hrooted.clear_removeVacuous.inlineAssignments hleft).removeVacuous_eq_self
  refine ⟨hremoved, fun hundeclared => ?_⟩
  have hpartials : module.removeVacuous.value.NoneDeclaredLater Stmt.partials :=
    (hundeclared.removeVacuous hrooted hchoices).mono fun s e => Stmt.mem_driven_of_mem_partials
  have hnone : module.simplified.candidates.value = [] :=
    candidates_inlineAssignments hleft hpartials
  calc
    module.simplified.simplified = module.simplified.inlineAssignments.value := by
      rw [simplified, hremoved]
    _ = module.simplified := inlineAssignments_eq_self hnone

end Module

/-- A read through a vector without elements ends up in indices that are read and driven, beside a
choice that loses an arm. -/
def lookupTable : Module := Build.toModule "LookupTable" do
  let pair := Ty.bundleOf [("a", Sample.uint 8), ("b", Sample.uint 8)]
  let c ← Build.input "c" (Sample.uint 1)
  let spare ← Build.input "spare" pair
  let out ← Build.output "out" (Sample.uint 8)
  let slots ← Build.wire "slots" (.vector pair 0)
  let table ← Build.wire "table" (.vector (Sample.uint 8) 4)
  let index ← Build.node "index" ((slots.getIndex 0).getField "a")
  let picked ← Build.node "picked" (.select c (slots.getAccess index) spare)
  let entry ← Build.node "entry" (table.getAccess index)
  let both ← Build.node "both" (.apply .cat [entry, picked.getField "b"] (Sample.uint 16))
  Build.connect (table.getAccess index) (.select c entry (picked.getField "b"))
  Build.connect out (table.getAccess both)

theorem lookupTable_simplified_normal :
    lookupTable.Rooted ∧ lookupTable.ChoicesTyped ∧ lookupTable.LocalsTyped ∧
      lookupTable.NoneDeclaredLater Stmt.driven ∧
      lookupTable.removeVacuous.value ≠ lookupTable ∧
      lookupTable.simplified ≠ lookupTable.removeVacuous.value ∧
      lookupTable.simplified.removeVacuous.value = lookupTable.simplified ∧
      lookupTable.simplified.simplified = lookupTable.simplified := by
  have hrooted : lookupTable.Rooted := by decide
  have hchoices : lookupTable.ChoicesTyped := by decide
  have htyped : lookupTable.LocalsTyped := by decide
  have hundeclared : lookupTable.NoneDeclaredLater Stmt.driven := by decide
  obtain ⟨hremoved, hstable⟩ := lookupTable.simplified_normal hrooted hchoices htyped
  exact ⟨hrooted, hchoices, htyped, hundeclared, by decide, by decide +kernel, hremoved,
    hstable hundeclared⟩

/-- Without vectors to remove, inlining is all that happens, and it is incomplete. -/
theorem premature_simplified_unstable :
    premature.Rooted ∧ premature.ChoicesTyped ∧ (premature.locals.map Prod.fst).Nodup ∧
      premature.LocalsTyped ∧ premature.simplified.simplified ≠ premature.simplified :=
  ⟨by decide, by decide, by decide, by decide, by decide +kernel⟩

end Rtl
