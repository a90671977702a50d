import Mathlib.Algebra.BigOperators.Ring.List
import Mathlib.Algebra.Group.Action.Defs
import Mathlib.Algebra.Order.BigOperators.Group.List
import Mathlib.Algebra.Order.Ring.Nat
import Rtl.Proofs.InlineComplete

/-! # How much inlining grows a module

The sizes of values are found while signals over the limit still count as candidates; the values
themselves are put together once these have been dropped. Both come to the same number of
subexpressions, which the limit bounds. An expression holds no more reads than subexpressions, so
that it grows at most by that factor, and so does the module.
-/

namespace Rtl

/-- The number of subexpressions that a statement holds. -/
def Stmt.nodeCount (s : Stmt) : Nat :=
  (s.exprs.map fun e => e.nodes.length).sum

/-- The number of subexpressions in the body of a module. -/
def Module.nodeCount (module : Module) : Nat :=
  (module.statements.map Stmt.nodeCount).sum

/-- Values of bounded size let an expression grow by no more than that factor. -/
theorem Expr.length_nodes_replaceReads_le {values : String → Option Expr} {bound : Nat}
    (hpos : 1 ≤ bound)
    (hvalues : ∀ name value, values name = some value → value.nodes.length ≤ bound) (e : Expr) :
    (e.replaceReads values).nodes.length ≤ bound * e.nodes.length := by
  have hspread : ∀ spread ∈ e.nodes.map (Expr.spread values), spread ≤ bound := by
    rw [List.forall_mem_map]
    intro d _
    cases d with
    | ref r =>
        rw [spread, replaceRead]
        split
        · cases hvalue : values r.name with
          | none => simpa [nodes] using hpos
          | some value => exact hvalues r.name value hvalue
        · simpa [nodes] using hpos
    | _ => exact hpos
  calc (e.replaceReads values).nodes.length
    _ = (e.nodes.map (Expr.spread values)).sum := e.length_nodes_replaceReads values
    _ ≤ (e.nodes.map (Expr.spread values)).length • bound := List.sum_le_card_nsmul _ _ hspread
    _ = bound * e.nodes.length := by rw [List.length_map, smul_eq_mul, Nat.mul_comm]

/-- What a candidate stands for is of the size that it was chosen by. -/
theorem Assignments.length_nodes_inlined? {table : Assignments} {name : String} {value : Expr}
    (hvalue : table.select.candidates.inlined? name = some value) :
    table.unlooped.sizes.lookup name = some value.nodes.length ∧
      value.nodes.length ≤ maxInlinedSize := by
  rw [table.select_acyclic.inlined?_eq, Option.map_eq_some_iff] at hvalue
  obtain ⟨assigned, hassigned, rfl⟩ := hvalue
  rw [lookup_select, Option.ite_none_left_eq_some, Nat.not_lt] at hassigned
  obtain ⟨hsize, hlookup⟩ := hassigned
  rw [← size_eq_length_nodes hlookup]
  exact ⟨table.unlooped_acyclic.lookup_sizes (by simp [hlookup]), hsize⟩

/-- Whatever has been inlined before, a candidate is replaced by what it stands for. -/
theorem Inline.run_resolve {table : Assignments} (hacyclic : table.Acyclic) (ss : List Stmt)
    (name : String) :
    ((resolve table table.length name).run ((inlineStmts table ss).run {}).2).1 =
      table.inlined? name := by
  have hsound := (computes_inlineStmts hacyclic ss {} (Memo.sound_empty table)).2
  exact (computes_resolve hacyclic (hacyclic.settled name) _ hsound).1

namespace Module

variable (module : Module)

theorem length_nodes_replaceReads_le (e : Expr) :
    (e.replaceReads module.candidates.value.inlined?).nodes.length ≤ 128 * e.nodes.length := by
  apply Expr.length_nodes_replaceReads_le (by decide)
  intro name value hvalue
  exact (Assignments.length_nodes_inlined? hvalue).2

theorem nodeCount_mapExprs_le (s : Stmt) :
    (s.mapExprs (Expr.replaceReads module.candidates.value.inlined?)).nodeCount ≤
      128 * s.nodeCount := by
  rw [Stmt.nodeCount, Stmt.nodeCount, Stmt.exprs_mapExprs, List.map_map, ← List.sum_map_mul_left]
  exact List.sum_le_sum fun e _ => module.length_nodes_replaceReads_le e

theorem nodeCount_inlineAssignments_le :
    module.inlineAssignments.value.nodeCount ≤ 128 * module.nodeCount := by
  rw [nodeCount, nodeCount, statements_inlineAssignments, List.map_map, ← List.sum_map_mul_left]
  have hkept : (module.statements.filter fun s =>
      !Inline.isAbsorbed module.candidates.value s).Sublist module.statements :=
    List.filter_sublist
  calc _
    _ ≤ ((module.statements.filter fun s =>
          !Inline.isAbsorbed module.candidates.value s).map fun s => 128 * s.nodeCount).sum :=
        List.sum_le_sum fun s _ => module.nodeCount_mapExprs_le s
    _ ≤ (module.statements.map fun s => 128 * s.nodeCount).sum :=
        (hkept.map _).sum_le_sum fun _ _ => Nat.zero_le _

/-- Inlining grows a module at most linearly. Each candidate is replaced by a value of exactly the
size it was chosen by, which is within the limit. Statements that are kept differ only in their
expressions, and none of these grows by more than the limit; neither does the module. -/
theorem inlineAssignments_growth :
    (∀ name, module.candidates.value.contains name = true → ∃ value : Expr,
      (∀ ss, ((Inline.resolve module.candidates.value module.candidates.value.length name).run
        ((Inline.inlineStmts module.candidates.value ss).run {}).2).1 = some value) ∧
      (singleAssignments module.writes).unlooped.sizes.lookup name = some value.nodes.length ∧
      value.nodes.length ≤ 128) ∧
    Stmt.LeafwiseAll
      (fun s t => if Inline.isAbsorbed module.candidates.value s then t = .skip else
        s.Agree (fun e d => d.nodes.length ≤ 128 * e.nodes.length) t)
      module.body module.inlineAssignments.value.body ∧
    module.inlineAssignments.value.nodeCount ≤ 128 * module.nodeCount := by
  refine ⟨?_, ?_, module.nodeCount_inlineAssignments_le⟩
  · intro name hcandidate
    obtain ⟨assigned, hassigned⟩ := Option.isSome_iff_exists.mp hcandidate
    have hvalue := module.candidates_acyclic.inlined?_eq name
    rw [hassigned, Option.map_some] at hvalue
    refine ⟨_, fun ss => ?_, Assignments.length_nodes_inlined? hvalue⟩
    rw [Inline.run_resolve module.candidates_acyclic, hvalue]
  · rw [inlineAssignments_body]
    apply Stmt.leafwiseAll_mapLeavesAll
    intro s _
    rw [Inline.inlineLeaf]
    split
    · rfl
    · exact Stmt.agree_mapExprs fun e _ => module.length_nodes_replaceReads_le e

end Module

/-- The sixth doubling is the largest value within the limit, and it is copied in full. -/
theorem doubling_growth :
    doubling.candidates.value.contains "x64" = true ∧
      (∃ value : Expr, value.nodes.length = 127 ∧
        ∀ ss, ((Inline.resolve doubling.candidates.value doubling.candidates.value.length
          "x64").run ((Inline.inlineStmts doubling.candidates.value ss).run {}).2).1 =
            some value) ∧
      doubling.inlineAssignments.value.nodeCount ≤ 128 * doubling.nodeCount := by
  have hcandidate : doubling.candidates.value.contains "x64" = true := by decide +kernel
  have hsize : (singleAssignments doubling.writes).unlooped.sizes.lookup "x64" = some 127 := by
    decide +kernel
  obtain ⟨hvalues, -, htotal⟩ := doubling.inlineAssignments_growth
  obtain ⟨value, hresolve, hlookup, -⟩ := hvalues "x64" hcandidate
  rw [hsize, Option.some.injEq] at hlookup
  exact ⟨hcandidate, ⟨value, hlookup.symm, hresolve⟩, htotal⟩

end Rtl
