import Mathlib.Algebra.BigOperators.Group.List.Basic
import Mathlib.Algebra.GroupWithZero.Nat
import Rtl.Proofs.Expansion

/-! # Sizes without memory

The size of a value, worked out anew wherever it is needed, is what the memoised search finds,
in whatever order it comes to the names. It is the exact number of subexpressions of the value
once the candidates in it have been replaced.
-/

namespace Rtl

namespace Assignments

/-- The contribution of a subexpression, its operands aside, given the sizes of values. -/
def weight (table : Assignments) (size : String → Nat) : Expr → Nat
  | .ref r =>
      if r.isLocalRead && table.contains r.name then
        if maxInlinedSize < size r.name then 1 else size r.name
      else 1
  | _ => 1

/-- The size of the value of `name`, where values that read each other are followed `depth`
deep. -/
def sizeWithin (table : Assignments) : (depth : Nat) → (name : String) → Nat
  | 0, _ => 1
  | depth + 1, name =>
      match table.lookup name with
      | none => 1
      | some value => (value.nodes.map (table.weight (table.sizeWithin depth))).sum

/-- The size of the value of a signal. -/
def size (table : Assignments) (name : String) : Nat :=
  table.sizeWithin table.length name

/-- Only the sizes of the table's own names matter. -/
theorem map_weight_congr (table : Assignments) {size other : String → Nat} {e : Expr}
    (heq : ∀ name ∈ e.locals, table.contains name = true → size name = other name) :
    e.nodes.map (table.weight size) = e.nodes.map (table.weight other) := by
  apply List.map_congr_left
  intro d hmem
  cases d with
  | ref r =>
      rw [weight, weight]
      cases hreplaced : r.isLocalRead && table.contains r.name with
      | false => rfl
      | true =>
          simp only [Ref.isLocalRead, Bool.and_eq_true] at hreplaced
          obtain ⟨⟨-, hlocal⟩, hcontains⟩ := hreplaced
          rw [heq r.name (Expr.mem_locals_iff.mpr ⟨r, hmem, hlocal, rfl⟩) hcontains]
  | _ => rfl

theorem Settled.sizeWithin_succ {table : Assignments} {depth : Nat} {name : String}
    (hsettled : table.Settled depth name) :
    table.sizeWithin (depth + 1) name = table.sizeWithin depth name := by
  induction depth generalizing name with
  | zero =>
      have hnone : table.lookup name = none := hsettled
      simp [sizeWithin, hnone]
  | succ depth ih =>
      rw [sizeWithin, sizeWithin]
      cases hlookup : table.lookup name with
      | none => rfl
      | some value =>
          have heq : value.nodes.map (table.weight (table.sizeWithin (depth + 1))) =
              value.nodes.map (table.weight (table.sizeWithin depth)) := by
            apply map_weight_congr
            intro other hmem _
            exact ih (hsettled other (by simpa [Reads, reads, hlookup] using hmem))
          simp [heq]

theorem Acyclic.size_eq {table : Assignments} (hacyclic : table.Acyclic) (name : String) :
    table.size name =
      match table.lookup name with
      | none => 1
      | some value => (value.nodes.map (table.weight table.size)).sum := by
  rw [size, ← (hacyclic.settled name).sizeWithin_succ]
  rfl

/-! ## The memoised search -/

end Assignments

/-- Every size that is remembered is right, and those of the given names are remembered. -/
structure Sizes.Knows (table : Assignments) (names : List String) (sizes : Sizes) : Prop where
  sound : ∀ name size, sizes.lookup name = some size → table.size name = size
  known : ∀ name ∈ names, sizes.lookup name = some (table.size name)

namespace Assignments

variable {table : Assignments} {names : List String}

theorem knows_insert {sizes : Sizes} (hknows : sizes.Knows table names) (name : String) :
    Sizes.Knows table (name :: names) ((name, table.size name) :: sizes) := by
  refine ⟨?_, ?_⟩
  · intro other size hlookup
    rw [List.lookup_cons] at hlookup
    split at hlookup
    next heq =>
      rw [eq_of_beq heq]
      exact Option.some.inj hlookup
    next => exact hknows.sound other size hlookup
  · intro other hmem
    rw [List.lookup_cons]
    split
    next heq => rw [eq_of_beq heq]
    next hne =>
      rcases List.mem_cons.mp hmem with rfl | hmem
      · simp at hne
      · exact hknows.known other hmem

theorem computes_weightM {size : String → StateM Sizes Nat} {plain : String → Nat} {d : Expr}
    {inv : Sizes → Prop}
    (hsize : ∀ r : Ref, d = .ref r → r.isLocalRead = true →
      Computes inv (size r.name) (plain r.name)) :
    Computes inv (table.weightM size d) (table.weight plain d) := by
  cases d with
  | ref r =>
      simp only [weightM, weight]
      split
      next hread =>
        rw [Bool.and_eq_true] at hread
        exact (hsize r rfl hread.1).bind (Computes.pure _)
      next => exact Computes.pure _
  | _ => exact Computes.pure _

section Run

variable {sizes : Sizes} {name : String}

theorem run_sizeM_known {size : Nat} (depth : Nat) (hknown : sizes.lookup name = some size) :
    (table.sizeM (depth + 1) name).run sizes = (size, sizes) := by
  simp [sizeM, hknown]
  rfl

theorem run_sizeM_unassigned (depth : Nat) (hknown : sizes.lookup name = none)
    (hlookup : table.lookup name = none) :
    (table.sizeM (depth + 1) name).run sizes = (1, (name, 1) :: sizes) := by
  simp [sizeM, hknown, hlookup]
  rfl

/-- A size that is needed for the first time is worked out and put in front. -/
theorem run_sizeM_fresh {value : Expr} {depth : Nat} {weights : List Nat} {after : Sizes}
    (hknown : sizes.lookup name = none) (hlookup : table.lookup name = some value)
    (hrun : (value.nodes.mapM (table.weightM (table.sizeM depth))).run sizes = (weights, after)) :
    (table.sizeM (depth + 1) name).run sizes =
      (weights.sum, (name, weights.sum) :: after) := by
  simp [sizeM, hknown, hlookup, hrun, List.sum_eq_foldr]
  rfl

end Run

/-- One step of the search: where what the value reads is found, so is its size, and it is
remembered from then on. -/
theorem run_sizeM (hacyclic : table.Acyclic) {depth : Nat} {name : String}
    (hreads : ∀ other, table.Reads name other →
      Computes (Sizes.Knows table names) (table.sizeM depth other) (table.size other))
    {sizes : Sizes} (hknows : sizes.Knows table names) :
    ((table.sizeM (depth + 1) name).run sizes).1 = table.size name ∧
      Sizes.Knows table (name :: names) ((table.sizeM (depth + 1) name).run sizes).2 := by
  cases hknown : sizes.lookup name with
  | some size =>
      obtain rfl := hknows.sound name size hknown
      rw [run_sizeM_known depth hknown]
      exact ⟨rfl, hknows.sound, List.forall_mem_cons.mpr ⟨hknown, hknows.known⟩⟩
  | none =>
      cases hlookup : table.lookup name with
      | none =>
          have hsize : table.size name = 1 := by rw [hacyclic.size_eq, hlookup]
          rw [run_sizeM_unassigned depth hknown hlookup, ← hsize]
          exact ⟨rfl, knows_insert hknows name⟩
      | some value =>
          have hweights : Computes (Sizes.Knows table names)
              (value.nodes.mapM (table.weightM (table.sizeM depth)))
              (value.nodes.map (table.weight table.size)) := by
            apply Computes.mapM
            intro d hmem
            apply computes_weightM
            rintro r rfl hread
            simp only [Ref.isLocalRead, Bool.and_eq_true] at hread
            apply hreads
            rw [Reads, reads, hlookup]
            exact Expr.mem_locals_iff.mpr ⟨r, hmem, hread.2, rfl⟩
          have hsize : table.size name = (value.nodes.map (table.weight table.size)).sum := by
            rw [hacyclic.size_eq, hlookup]
          obtain ⟨hvalues, hafter⟩ := hweights sizes hknows
          rw [run_sizeM_fresh hknown hlookup (Prod.eta _).symm, hvalues, ← hsize]
          exact ⟨rfl, knows_insert hafter name⟩

theorem computes_sizeM (hacyclic : table.Acyclic) {depth : Nat} {name : String}
    (hsettled : table.Settled depth name) :
    Computes (Sizes.Knows table names) (table.sizeM depth name) (table.size name) := by
  induction depth generalizing name with
  | zero =>
      have hsize : table.size name = 1 := by
        rw [hacyclic.size_eq, show table.lookup name = none from hsettled]
      rw [hsize]
      exact Computes.pure _
  | succ depth ih =>
      intro sizes hknows
      obtain ⟨hvalue, hafter⟩ := run_sizeM hacyclic (fun other hreads =>
        ih (hsettled other hreads)) hknows
      exact ⟨hvalue, hafter.sound, (List.forall_mem_cons.mp hafter.known).2⟩

/-- Going through some names leaves the size of each of them known. -/
theorem knows_forM (hacyclic : table.Acyclic) {depth : Nat}
    (hsettled : ∀ name, table.Settled (depth + 1) name) (entries : Assignments) {sizes : Sizes}
    (hknows : sizes.Knows table names) :
    Sizes.Knows table ((entries.map Prod.fst).reverse ++ names)
      ((entries.forM fun entry => discard (table.sizeM (depth + 1) entry.1)).run sizes).2 := by
  induction entries generalizing names sizes with
  | nil => exact hknows
  | cons entry entries ih =>
      obtain ⟨_, hafter⟩ := run_sizeM hacyclic (fun other hreads =>
        computes_sizeM hacyclic (hsettled entry.1 other hreads)) hknows
      rw [List.map_cons, List.reverse_cons, List.append_assoc]
      exact ih hafter

/-- Whatever entries are gone through, the sizes of all of them are known in the end. -/
theorem Acyclic.lookup_forM_sizeM (hacyclic : table.Acyclic) {entries : Assignments}
    {name : String} (hkey : table.lookup name ≠ none) (hmem : name ∈ entries.map Prod.fst) :
    ((entries.forM fun entry => discard (table.sizeM table.length entry.1)).run []).2.lookup name =
      some (table.size name) := by
  obtain ⟨depth, hdepth⟩ : ∃ depth, table.length = depth + 1 := by
    cases table with
    | nil => simp at hkey
    | cons entry table => exact ⟨table.length, rfl⟩
  have hknows : Sizes.Knows table [] [] := ⟨by simp, by simp⟩
  have hall := knows_forM hacyclic (fun name => hdepth ▸ hacyclic.settled name) entries hknows
  rw [hdepth]
  apply hall.known
  rwa [List.append_nil, List.mem_reverse]

theorem Acyclic.lookup_sizes (hacyclic : table.Acyclic) {name : String}
    (hkey : table.lookup name ≠ none) : table.sizes.lookup name = some (table.size name) :=
  hacyclic.lookup_forM_sizeM hkey (mem_keys_of_lookup_ne_none hkey)

/-! ## The candidates among some assignments -/

theorem Acyclic.oversized_eq (hacyclic : table.Acyclic) :
    table.oversized =
      (table.filter fun entry => maxInlinedSize < table.size entry.1).map
        fun entry => (entry.1, table.size entry.1) := by
  rw [oversized, ← List.filterMap_eq_map, List.filterMap_filter]
  apply List.filterMap_congr
  intro entry hmem
  simp only [hacyclic.lookup_sizes (lookup_ne_none_of_mem hmem), decide_eq_true_eq,
    Function.comp_apply]

/-- Of the signals on no loop, those within the limit are candidates. -/
theorem lookup_select (table : Assignments) (name : String) :
    table.select.candidates.lookup name =
      if maxInlinedSize < table.unlooped.size name then none else table.unlooped.lookup name := by
  have hselected := lookup_filter (fun key => (table.unlooped.oversized.lookup key).isNone)
    table.unlooped name
  have hoversized : table.unlooped.oversized.lookup name =
      if maxInlinedSize < table.unlooped.size name then
        (table.unlooped.lookup name).map fun _ => table.unlooped.size name
      else none := by
    rw [table.unlooped_acyclic.oversized_eq, lookup_map fun name _ => table.unlooped.size name,
      lookup_filter fun name => maxInlinedSize < table.unlooped.size name]
    by_cases hsize : maxInlinedSize < table.unlooped.size name <;> simp [hsize]
  rw [select, hselected, hoversized]
  by_cases hsize : maxInlinedSize < table.unlooped.size name
  · cases hlookup : table.unlooped.lookup name <;> simp [hsize]
  · simp [hsize]

end Assignments

/-! ## Counting subexpressions -/

/-- The number of subexpressions that a subexpression, its operands aside, turns into. -/
def Expr.spread (values : String → Option Expr) : Expr → Nat
  | .ref r => ((Expr.ref r).replaceRead values).nodes.length
  | _ => 1

theorem Expr.length_nodes_replaceReads (values : String → Option Expr) (e : Expr) :
    (e.replaceReads values).nodes.length = (e.nodes.map (spread values)).sum := by
  induction e using refInduction with
  | ref r => simp [replaceReads_ref, nodes, spread, replaceRead]
  | step e hne ih =>
      have hspread : e.spread values = 1 := by
        cases e with
        | ref r => exact absurd rfl (hne r)
        | _ => rfl
      have hoperands : (e.children.map fun d => (d.replaceReads values).nodes.length) =
          e.children.map fun d => (d.nodes.map (spread values)).sum :=
        List.map_congr_left ih
      rw [replaceReads_of_ne_ref values hne, nodes_eq, nodes_eq e, children_mapChildren,
        List.flatMap_map, List.length_cons, List.length_flatMap, hoperands, List.map_cons,
        List.sum_cons, hspread, List.map_flatMap, List.flatMap_def, List.sum_flatten, List.map_map,
        Nat.add_comm]
      rfl

namespace Assignments

/-- The size of a value is the number of its subexpressions once the candidates in it have been
replaced, whether it is itself within the limit or not. -/
theorem size_eq_length_nodes {table : Assignments} {name : String} {value : Expr}
    (hlookup : table.unlooped.lookup name = some value) :
    table.unlooped.size name =
      (value.replaceReads table.select.candidates.inlined?).nodes.length := by
  induction name using table.unlooped_acyclic.wellFounded.induction generalizing value with
  | h name ih =>
      have hweights : value.nodes.map (table.unlooped.weight table.unlooped.size) =
          value.nodes.map (Expr.spread table.select.candidates.inlined?) := by
        apply List.map_congr_left
        intro d hmem
        cases d with
        | ref r =>
            rw [weight, Expr.spread, Expr.replaceRead]
            cases hread : r.isLocalRead with
            | false => rfl
            | true =>
                have hreads : table.unlooped.Reads name r.name := by
                  simp only [Ref.isLocalRead, Bool.and_eq_true] at hread
                  rw [Reads, reads, hlookup]
                  exact Expr.mem_locals_iff.mpr ⟨r, hmem, hread.2, rfl⟩
                rw [table.select_acyclic.inlined?_eq, table.lookup_select, contains]
                cases hvalue : table.unlooped.lookup r.name with
                | none => simp [Expr.nodes]
                | some other =>
                    -- A value over the limit stays a reference, any other is replaced.
                    by_cases hsize : maxInlinedSize < table.unlooped.size r.name
                    · simp [hsize, Expr.nodes]
                    · simpa [hsize] using ih r.name hreads hvalue
        | _ => rfl
      rw [table.unlooped_acyclic.size_eq, hlookup, Expr.length_nodes_replaceReads, ← hweights]

theorem length_nodes_le_sum_weight {table : Assignments} {size : String → Nat}
    (hsize : ∀ name, 1 ≤ size name) (e : Expr) :
    e.nodes.length ≤ (e.nodes.map (table.weight size)).sum := by
  have hweight : ∀ weight ∈ e.nodes.map (table.weight size), 1 ≤ weight := by
    rw [List.forall_mem_map]
    intro d _
    cases d with
    | ref r =>
        rw [weight]
        split
        · split
          · exact Nat.le_refl 1
          · exact hsize r.name
        · exact Nat.le_refl 1
    | _ => exact Nat.le_refl 1
  simpa using List.length_le_sum_of_one_le _ hweight

theorem one_le_sizeWithin (table : Assignments) (depth : Nat) (name : String) :
    1 ≤ table.sizeWithin depth name := by
  induction depth generalizing name with
  | zero => exact Nat.le_refl 1
  | succ depth ih =>
      rw [sizeWithin]
      split
      · exact Nat.le_refl 1
      next value _ =>
        have hlength : 1 ≤ value.nodes.length := by rw [Expr.nodes_eq]; simp
        exact hlength.trans (length_nodes_le_sum_weight ih value)

/-- Replacing what a value reads never makes it smaller. -/
theorem Acyclic.length_nodes_le_size {table : Assignments} (hacyclic : table.Acyclic)
    {name : String} {value : Expr} (hlookup : table.lookup name = some value) :
    value.nodes.length ≤ table.size name := by
  rw [hacyclic.size_eq, hlookup]
  exact length_nodes_le_sum_weight (table.one_le_sizeWithin table.length) value

end Assignments

end Rtl
