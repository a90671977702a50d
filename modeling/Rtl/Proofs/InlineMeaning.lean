import Rtl.Proofs.Declarations
import Rtl.Proofs.Expansion
import Rtl.Proofs.Meaning
import Rtl.Sample

/-! # Inlining preserves meaning

Operations may mean anything. Whatever they mean, the values assigned to candidates are
equations without loops, so that the signals outside determine the candidates, and replacing
the reads of candidates by what they stand for changes no value that is left.
-/

namespace Rtl

universe u

namespace Meaning

variable {V : Type u} (M : Meaning V)

theorem eval_congr {env other : String → V} {e : Expr}
    (heq : ∀ r : Ref, .ref r ∈ e.nodes → other r.name = env r.name) :
    M.eval other e = M.eval env e := by
  induction e using Expr.refInduction with
  | ref r => exact heq r (Expr.mem_nodes_self _)
  | step e hne ih =>
      have hoperands : M.eval other (e.mapChildren fun d => d) = M.eval env e := by
        apply M.eval_mapChildren hne
        intro d hchild
        apply ih d hchild
        intro r hmem
        exact heq r (Expr.mem_nodes_of_mem_children hchild hmem)
      rwa [Expr.mapChildren_eq_self fun _ _ => rfl] at hoperands

/-- Reads may be replaced by anything of the same value. -/
theorem eval_replaceReads {env : String → V} {values : String → Option Expr}
    (hvalues : ∀ name value, values name = some value → M.eval env value = env name) (e : Expr) :
    M.eval env (e.replaceReads values) = M.eval env e := by
  induction e using Expr.refInduction with
  | ref r =>
      rw [Expr.replaceReads_ref]
      split
      · cases hvalue : values r.name with
        | none => rfl
        | some value => exact hvalues r.name value hvalue
      · rfl
  | step e hne ih =>
      rw [Expr.replaceReads_of_ne_ref values hne]
      exact M.eval_mapChildren hne ih

/-! ## The equations of a table -/

/-- Signals outside the table have the values that `base` gives them, and each signal in it
has the value that it is assigned. -/
def Extends (table : Assignments) (base env : String → V) : Prop :=
  ∀ name, env name =
    match table.lookup name with
    | none => base name
    | some value => M.eval env value

variable {M}

/-- What a signal stands for has the value of the signal. -/
theorem Extends.eval_inlined {table : Assignments} {base env : String → V}
    (hextends : M.Extends table base env) (depth : Nat) {name : String} {value : Expr}
    (hvalue : table.expand? depth name = some value) : M.eval env value = env name := by
  induction depth generalizing name value with
  | zero => simp [Assignments.expand?] at hvalue
  | succ depth ih =>
      rw [Assignments.expand?] at hvalue
      obtain ⟨assigned, hlookup, rfl⟩ := Option.map_eq_some_iff.mp hvalue
      rw [hextends name, hlookup]
      exact M.eval_replaceReads (fun _ _ => ih) assigned

end Meaning

/-- Where the value of a signal mentions another signal of the table, it reads it as a wire
or node. -/
def Assignments.Resolved (table : Assignments) : Prop :=
  ∀ name value, table.lookup name = some value → ∀ r : Ref, .ref r ∈ value.nodes →
    table.lookup r.name ≠ none → table.Reads name r.name

namespace Meaning

variable {V : Type u} {M : Meaning V} {table : Assignments}

theorem Extends.unique (hacyclic : table.Acyclic) (hresolved : table.Resolved)
    {base env other : String → V} (henv : M.Extends table base env)
    (hother : M.Extends table base other) : other = env := by
  funext name
  induction name using hacyclic.wellFounded.induction with
  | h name ih =>
      rw [henv name, hother name]
      cases hlookup : table.lookup name with
      | none => rfl
      | some value =>
          apply M.eval_congr
          intro r hmem
          cases hread : table.lookup r.name with
          | none => rw [henv r.name, hother r.name, hread]
          | some _ => exact ih r.name (hresolved name value hlookup r hmem (by simp [hread]))

open Classical in
/-- The equations are solved from the signals that read no other on. -/
theorem exists_extends (M : Meaning V) (hacyclic : table.Acyclic) (hresolved : table.Resolved)
    (base : String → V) : ∃ env, M.Extends table base env := by
  -- A value is worked out from the signals it reads; the others it sees do not matter to it.
  let solve (name : String) (known : ∀ other, table.Reads name other → V) : V :=
    match table.lookup name with
    | none => base name
    | some value =>
        M.eval (fun other => if h : table.Reads name other then known other h else base other) value
  let env := hacyclic.wellFounded.fix solve
  have henv : ∀ name, env name = solve name fun other _ => env other :=
    hacyclic.wellFounded.fix_eq solve
  refine ⟨env, fun name => ?_⟩
  rw [henv name]
  dsimp only [solve]
  cases hlookup : table.lookup name with
  | none => rfl
  | some value =>
      apply M.eval_congr
      intro r hmem
      by_cases hreads : table.Reads name r.name
      · rw [dif_pos hreads]
      · have hnone : table.lookup r.name = none := by
          by_contra hsome
          exact hreads (hresolved name value hlookup r hmem hsome)
        rw [dif_neg hreads, henv r.name]
        dsimp only [solve]
        rw [hnone]

end Meaning

theorem Module.LocalsResolved.candidates {module : Module} (hresolved : module.LocalsResolved) :
    module.candidates.value.Resolved := by
  intro name value hlookup r hmem hcandidate
  obtain ⟨other, hother⟩ := Option.ne_none_iff_exists.mp hcandidate
  have hlocal : r.kind.isLocal = true :=
    hresolved r (mem_refs.mpr ⟨value, (assigns_of_candidate hlookup).mem_exprs, hmem⟩)
      (assigns_of_candidate hother.symm).mem_locals
  rw [Assignments.Reads, Assignments.reads, hlookup]
  exact Expr.mem_locals_iff.mpr ⟨r, hmem, hlocal, rfl⟩

/-- Whatever the operations mean, any values of the other signals extend in exactly one way to
the candidates, so that each has the value it is assigned. Under this extension, inlining
keeps every statement that neither declares nor assigns a candidate, with expressions of the
same values. -/
theorem Module.inlineAssignments_preserves_meaning (module : Module)
    (hresolved : module.LocalsResolved) {V : Type u} (M : Meaning V) (base : String → V) :
    (∃! env, M.Extends module.candidates.value base env) ∧
      ∀ env, M.Extends module.candidates.value base env →
        Stmt.LeafwiseAll
          (fun s t =>
            if Inline.isAbsorbed module.candidates.value s then t = .skip
            else s.Agree (fun d e => M.eval env e = M.eval env d) t)
          module.body module.inlineAssignments.value.body := by
  have hacyclic := module.candidates_acyclic
  refine ⟨?_, ?_⟩
  · obtain ⟨env, henv⟩ := M.exists_extends hacyclic hresolved.candidates base
    exact ⟨env, henv, fun other hother => henv.unique hacyclic hresolved.candidates hother⟩
  · intro env henv
    rw [inlineAssignments_body]
    apply Stmt.leafwiseAll_mapLeavesAll
    intro s _
    rw [Inline.inlineLeaf]
    split
    · rfl
    · apply Stmt.agree_mapExprs
      intro e _
      exact M.eval_replaceReads (fun _ _ => henv.eval_inlined _) e

/-- On integers, an access adds its index. -/
def Meaning.total : Meaning Int where
  toOperations := .total
  subField base _ _ := base
  subIndex base index _ := base + index
  subAccess base index _ := base + index

/-- In a chain of a node and a wire, both are candidates, both are determined, and what reads
them keeps its value. -/
theorem top_candidates_determined :
    Sample.top.LocalsResolved ∧ Sample.top.candidates.value.map Prod.fst = ["both", "w"] ∧
      (∃! env, Meaning.total.Extends Sample.top.candidates.value (fun _ => 3) env) ∧
      ∀ env, Meaning.total.Extends Sample.top.candidates.value (fun _ => 3) env →
        Stmt.LeafwiseAll
          (fun s t =>
            if Inline.isAbsorbed Sample.top.candidates.value s then t = .skip
            else s.Agree (fun d e => Meaning.total.eval env e = Meaning.total.eval env d) t)
          Sample.top.body Sample.top.inlineAssignments.value.body := by
  refine ⟨by decide, by decide +kernel, ?_⟩
  exact Sample.top.inlineAssignments_preserves_meaning (by decide) Meaning.total fun _ => 3

end Rtl
