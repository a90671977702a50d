import Rtl.Proofs.InlineRefs

/-! # Inlining is substitution

The equations that give each candidate the value it is assigned, with the candidates in it replaced
by theirs, have exactly one solution. Inlining, which works the values out on demand and remembers
them, is the plain replacement of all reads at once by this solution, and no read of a candidate is
left in it or in what it is put into.
-/

namespace Rtl

namespace Stmt

mutual

/-- Replace the reads that have a value throughout a statement. Nothing is left of a statement that
declares a signal with a value, or that drives it as a whole. -/
def instantiate (values : String → Option Expr) : Stmt → Stmt
  | .block body => .block (instantiateAll values body)
  | .wire name ty => if (values name).isSome then .skip else .wire name ty
  | .node name value =>
      if (values name).isSome then .skip else .node name (value.replaceReads values)
  | .connect (.ref r) source =>
      if (values r.name).isSome then .skip
      else .connect ((Expr.ref r).replaceReads values) (source.replaceReads values)
  | s => s.mapExprs (Expr.replaceReads values)

def instantiateAll (values : String → Option Expr) : List Stmt → List Stmt
  | [] => []
  | s :: ss => s.instantiate values :: instantiateAll values ss

end

theorem instantiateAll_eq (values : String → Option Expr) (ss : List Stmt) :
    instantiateAll values ss = ss.map (instantiate values) := by
  induction ss with
  | nil => rfl
  | cons s ss ih => simp [instantiateAll, ih]

end Stmt

namespace Assignments

/-- The signals of the table have values in which the reads of such signals have been replaced by
their values in turn. -/
def Unfolds (table : Assignments) (values : String → Option Expr) : Prop :=
  ∀ name, values name = (table.lookup name).map (Expr.replaceReads values)

variable {table : Assignments} (hacyclic : table.Acyclic)
include hacyclic

/-- Without loops there is one such choice of values. -/
theorem Acyclic.unfolds_iff {values : String → Option Expr} :
    table.Unfolds values ↔ values = table.inlined? := by
  constructor
  · intro hunfolds
    funext name
    induction name using hacyclic.wellFounded.induction with
    | h name ih =>
        rw [hunfolds name, hacyclic.inlined?_eq]
        cases hlookup : table.lookup name with
        | none => rfl
        | some value =>
            rw [Option.map_some, Option.map_some, Option.some.injEq]
            apply Expr.replaceReads_congr
            intro other hmem
            exact ih other (by simpa [Reads, reads, hlookup] using hmem)
  · rintro rfl
    exact hacyclic.inlined?_eq

theorem Acyclic.isSome_inlined? (name : String) :
    (table.inlined? name).isSome = table.contains name := by
  rw [hacyclic.inlined?_eq, Option.isSome_map, contains]

/-- What becomes of a statement leaf by leaf is what becomes of it as a whole. -/
theorem Acyclic.instantiate_inlined? (s : Stmt) :
    s.instantiate table.inlined? = s.mapLeaves (Inline.inlineLeaf table) := by
  induction s using Stmt.leafInduction with
  | leaf s hleaf =>
      rw [Stmt.mapLeaves_of_not_block _ hleaf, Inline.inlineLeaf]
      cases s with
      | block => simp [Stmt.isBlock] at hleaf
      | wire | node =>
          rw [Stmt.instantiate, hacyclic.isSome_inlined?]
          rfl
      | connect sink source =>
          cases sink with
          | ref r =>
              rw [Stmt.instantiate, hacyclic.isSome_inlined?]
              rfl
          | _ => rfl
      | _ => rfl
  | block body ih =>
      rw [Stmt.instantiate, Stmt.mapLeaves, Stmt.instantiateAll_eq, Stmt.mapLeavesAll_eq]
      exact congrArg Stmt.block (List.map_congr_left ih)

theorem Acyclic.readsNone_replaceReads_inlined? (e : Expr) :
    table.ReadsNone (e.replaceReads table.inlined?) :=
  hacyclic.readsNone_replaceReads fun _ _ _ hvalue => hacyclic.readsNone_of_inlined? hvalue

end Assignments

namespace Module

variable (module : Module)

theorem inlineAssignments_eq : module.inlineAssignments.value =
    { module with body := module.inlineAssignments.value.body } := by
  rw [inlineAssignments, Logged.value_bind]
  split <;> rfl

theorem body_inlineAssignments_eq_instantiateAll :
    module.inlineAssignments.value.body =
      Stmt.instantiateAll module.candidates.value.inlined? module.body := by
  rw [inlineAssignments_body, Stmt.instantiateAll_eq, Stmt.mapLeavesAll_eq]
  exact List.map_congr_left fun s _ => (module.candidates_acyclic.instantiate_inlined? s).symm

theorem readsNone_of_mem_exprs_inlineAssignments {e : Expr}
    (he : e ∈ module.inlineAssignments.value.exprs) : module.candidates.value.ReadsNone e := by
  rw [exprs, statements_inlineAssignments, List.flatMap_map, List.mem_flatMap] at he
  obtain ⟨s, _, he⟩ := he
  rw [Stmt.exprs_mapExprs] at he
  obtain ⟨d, _, rfl⟩ := List.mem_map.mp he
  exact module.candidates_acyclic.readsNone_replaceReads_inlined? d

/-- The candidates have values in which all candidates have been replaced, and only one choice of
them. Inlining replaces the reads of candidates by these values, all at once and nothing else, and
leaves out the statements that declare a candidate or drive it as a whole. Neither in the values
nor in the result is a candidate read. -/
theorem inlineAssignments_eq_instantiate :
    ∃ values : String → Option Expr,
      (∀ others, module.candidates.value.Unfolds others ↔ others = values) ∧
        module.inlineAssignments.value =
          { module with body := Stmt.instantiateAll values module.body } ∧
        (∀ name value, values name = some value → module.candidates.value.ReadsNone value) ∧
        ∀ e ∈ module.inlineAssignments.value.exprs, module.candidates.value.ReadsNone e := by
  have hacyclic := module.candidates_acyclic
  refine ⟨module.candidates.value.inlined?, fun others => hacyclic.unfolds_iff, ?_,
    fun name value hvalue => hacyclic.readsNone_of_inlined? hvalue,
    fun e he => module.readsNone_of_mem_exprs_inlineAssignments he⟩
  rw [inlineAssignments_eq, body_inlineAssignments_eq_instantiateAll]

end Module

end Rtl
