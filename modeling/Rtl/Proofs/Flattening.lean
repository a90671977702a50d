import Rtl.Proofs.InlineComplete
import Rtl.Proofs.Removal
import Rtl.Validity

/-! # Blocks do not matter

A block only groups its statements, and an empty statement does nothing. Whatever goes through the
statements of a module with a state, block by block as they nest, comes to the same state when the
blocks are spliced into their surroundings first. So the search for candidates, the removal of
vacuous accesses, inlining and the search for violations all give the same with and without blocks.
-/

namespace Rtl

namespace Stmt

mutual

/-- Go through the leaves of a statement as its blocks nest, with a state. -/
def walk {σ : Type} (step : σ → Stmt → σ) (state : σ) : Stmt → σ
  | .block body => walkAll step state body
  | s => step state s

def walkAll {σ : Type} (step : σ → Stmt → σ) (state : σ) : List Stmt → σ
  | [] => state
  | s :: ss => walkAll step (s.walk step state) ss

end

/-- What flattening leaves is flat. -/
theorem flatten_of_mem_flattenAll {s : Stmt} {ss : List Stmt} (hmem : s ∈ flattenAll ss) :
    s.flatten = [s] := by
  obtain ⟨hleaf, hne⟩ := mem_flattenAll.mp hmem
  have hblock : s.isBlock = false := isBlock_of_mem_leaves (s := .block ss) hleaf
  cases s with
  | block => simp [isBlock] at hblock
  | skip => exact absurd rfl hne
  | _ => rfl

@[simp] theorem flattenAll_flattenAll (ss : List Stmt) :
    flattenAll (flattenAll ss) = flattenAll ss := by
  calc
    flattenAll (flattenAll ss) = (flattenAll ss).flatMap flatten := flattenAll_eq _
    _ = (flattenAll ss).flatMap fun s => [s] :=
      List.flatMap_congr fun _ hmem => flatten_of_mem_flattenAll hmem
    _ = flattenAll ss := List.flatMap_singleton' _

theorem flattenAll_append (ss ts : List Stmt) :
    flattenAll (ss ++ ts) = flattenAll ss ++ flattenAll ts := by
  simp only [flattenAll_eq, List.flatMap_append]

theorem flattenAll_singleton (s : Stmt) : flattenAll [s] = s.flatten := by
  rw [flattenAll, flattenAll, List.append_nil]

section Walk

variable {σ : Type} {step : σ → Stmt → σ}

theorem walkAll_eq_foldl_walk (state : σ) (ss : List Stmt) :
    walkAll step state ss = ss.foldl (walk step) state := by
  induction ss generalizing state with
  | nil => rfl
  | cons s ss ih => exact ih _

theorem walk_eq_foldl (hskip : ∀ state, step state .skip = state) (state : σ) (s : Stmt) :
    s.walk step state = s.flatten.foldl step state := by
  induction s using leafInduction generalizing state with
  | leaf s hleaf =>
      cases s with
      | block => simp [isBlock] at hleaf
      | skip => exact hskip state
      | _ => rfl
  | block body ih =>
      rw [walk, flatten, walkAll_eq_foldl_walk, flattenAll_eq, List.foldl_flatMap]
      exact List.foldl_ext _ _ _ fun state s hmem => ih s hmem state

/-- A walk through blocks visits the statements of the flattened block one after another. -/
theorem walkAll_eq_foldl (hskip : ∀ state, step state .skip = state) (state : σ)
    (ss : List Stmt) : walkAll step state ss = (flattenAll ss).foldl step state :=
  walk_eq_foldl hskip state (.block ss)

theorem walkAll_flattenAll (hskip : ∀ state, step state .skip = state) (state : σ)
    (ss : List Stmt) : walkAll step state (flattenAll ss) = walkAll step state ss := by
  rw [walkAll_eq_foldl hskip, walkAll_eq_foldl hskip, flattenAll_flattenAll]

end Walk

end Stmt

namespace Module

@[simp] theorem statements_flatten (module : Module) :
    module.flatten.statements = module.statements :=
  Stmt.flattenAll_flattenAll module.body

/-! ## Candidates and violations -/

/-- One step of the search for writes: what has been declared and written so far. -/
def discover (state : List (String × Ty) × List Write) (s : Stmt) :
    List (String × Ty) × List Write :=
  let declared := s.local?.toList ++ state.1
  (declared, state.2 ++ s.writes declared)

theorem discover_skip (state : List (String × Ty) × List Write) :
    discover state .skip = state := by
  simp [discover, Stmt.local?, Stmt.writes, Stmt.targets]

theorem foldl_discover (ss : List Stmt) (declared : List (String × Ty)) (found : List Write) :
    (ss.foldl discover (declared, found)).2 = found ++ writesFrom declared ss := by
  induction ss generalizing declared found with
  | nil => exact (List.append_nil found).symm
  | cons s ss ih => rw [List.foldl_cons, discover, ih, writesFrom_cons, List.append_assoc]

/-- The writes of a module are found by going through its blocks as they nest. -/
theorem writes_eq_walkAll (module : Module) :
    module.writes = (Stmt.walkAll discover ([], []) module.body).2 := by
  rw [Stmt.walkAll_eq_foldl discover_skip, foldl_discover, List.nil_append]
  rfl

theorem candidates_flatten (module : Module) : module.flatten.candidates = module.candidates := by
  have hwrites : module.flatten.writes = module.writes := by
    rw [writes_eq_walkAll, writes_eq_walkAll]
    exact congrArg Prod.snd (Stmt.walkAll_flattenAll discover_skip _ _)
  rw [candidates, candidates, selection, selection, hwrites]

/-- One step of the search for violations. -/
def inspect (name : String) (found : List Violation) (s : Stmt) : List Violation :=
  found ++ s.faults.map (.inStmt name s)

theorem inspect_skip (name : String) (found : List Violation) :
    inspect name found .skip = found :=
  List.append_nil found

theorem foldl_inspect (name : String) (ss : List Stmt) (found : List Violation) :
    ss.foldl (inspect name) found =
      found ++ ss.flatMap fun s => s.faults.map (.inStmt name s) := by
  induction ss generalizing found with
  | nil => exact (List.append_nil found).symm
  | cons s ss ih => rw [List.foldl_cons, ih, inspect, List.flatMap_cons, List.append_assoc]

/-- The violations in a module are found by going through its blocks as they nest. -/
theorem violations_eq_walkAll (module : Module) :
    module.violations = Stmt.walkAll (inspect module.name) [] module.body := by
  rw [Stmt.walkAll_eq_foldl (inspect_skip _), foldl_inspect, List.nil_append]
  rfl

theorem violations_flatten (module : Module) :
    module.flatten.violations = module.violations := by
  rw [violations_eq_walkAll, violations_eq_walkAll]
  exact Stmt.walkAll_flattenAll (inspect_skip _) _ _

end Module

theorem Circuit.violations_flatten (circuit : Circuit) :
    circuit.flatten.violations = circuit.violations := by
  have hmain : circuit.flatten.mainModule?.isSome = circuit.mainModule?.isSome := by
    rw [mainModule?, mainModule?, module?, module?, flatten, List.find?_map, Option.isSome_map]
    rfl
  rw [violations, violations, hmain, flatten, List.flatMap_map]
  congr 1
  exact List.flatMap_congr fun module _ => module.violations_flatten

/-! ## Removal -/

namespace Vacuous

/-- Flattened, what remains of a list is what remains of its parts, one after the other. -/
theorem Remains.map_flattenAll_append (first rest : Remains (List Stmt)) :
    (first.append rest).map Stmt.flattenAll =
      (first.map Stmt.flattenAll).append (rest.map Stmt.flattenAll) := by
  simp only [Remains.map, Remains.append, Stmt.flattenAll_append]

theorem Remains.map_flattenAll_cons (first : Remains Stmt) (rest : Remains (List Stmt)) :
    (first.cons rest).map Stmt.flattenAll =
      (first.map Stmt.flatten).append (rest.map Stmt.flattenAll) :=
  rfl

theorem removeFromAll_flattenAll_of {ss : List Stmt}
    (ih : ∀ s ∈ ss, ∀ gone : List String,
      (removeFromAll gone s.flatten).map Stmt.flattenAll = (removeFrom gone s).map Stmt.flatten)
    (gone : List String) :
    (removeFromAll gone (Stmt.flattenAll ss)).map Stmt.flattenAll =
      (removeFromAll gone ss).map Stmt.flattenAll := by
  induction ss generalizing gone with
  | nil => rfl
  | cons s ss ihs =>
      obtain ⟨hhead, htail⟩ := List.forall_mem_cons.mp ih
      -- The rest is met with the same names, for flattening `s` changes no finding.
      have hgone : (removeFromAll gone s.flatten).gone = (removeFrom gone s).gone :=
        gone_of_findings (congrArg Remains.findings (hhead gone))
      rw [Stmt.flattenAll, removeFromAll_append, Remains.map_flattenAll_append, hhead, hgone,
        ihs htail, removeFromAll, Remains.map_flattenAll_cons]

theorem removeFromAll_flatten (gone : List String) (s : Stmt) :
    (removeFromAll gone s.flatten).map Stmt.flattenAll =
      (removeFrom gone s).map Stmt.flatten := by
  induction s using Stmt.leafInduction generalizing gone with
  | leaf s hleaf =>
      cases s with
      | block => simp [Stmt.isBlock] at hleaf
      | skip => rfl
      | _ =>
          simp [Stmt.flatten, removeFromAll, Remains.cons, Remains.map, Stmt.flattenAll_singleton]
  | block body ih =>
      rw [Stmt.flatten, removeFromAll_flattenAll_of ih, removeFrom]
      rfl

/-- Removal finds and counts the same in a flattened list, and leaves the same once its result is
flattened, too. -/
theorem removeFromAll_flattenAll (gone : List String) (ss : List Stmt) :
    (removeFromAll gone (Stmt.flattenAll ss)).map Stmt.flattenAll =
      (removeFromAll gone ss).map Stmt.flattenAll :=
  removeFromAll_flattenAll_of (fun s _ gone => removeFromAll_flatten gone s) gone

end Vacuous

/-- Logged values are alike under a function if it does not tell them apart and the same was
logged. -/
theorem Logged.map_eq_map_iff {α β : Type} {f : α → β} {x y : Logged α} :
    f <$> x = f <$> y ↔ f x.value = f y.value ∧ x.records = y.records := by
  have hmap : ∀ z : Logged α, f <$> z = ⟨f z.value, z.records ++ []⟩ := fun _ => rfl
  simp [hmap]

theorem Module.flatten_removeVacuous (module : Module) :
    Module.flatten <$> module.flatten.removeVacuous = Module.flatten <$> module.removeVacuous := by
  have hremains := Vacuous.removeFromAll_flattenAll [] module.body
  simp only [Vacuous.Remains.map, Vacuous.Remains.mk.injEq] at hremains
  obtain ⟨hresult, hfindings, hdropped, hreplaced⟩ := hremains
  rw [Logged.map_eq_map_iff]
  constructor
  · exact congrArg (fun body => { module with body }) hresult
  · simp only [removeVacuous, flatten, statements, hfindings, hdropped, hreplaced]

/-! ## Inlining -/

namespace Inline

theorem inlineStmts_append (table : Assignments) (ss ts : List Stmt) :
    inlineStmts table (ss ++ ts) = do
      let first ← inlineStmts table ss
      let rest ← inlineStmts table ts
      return first ++ rest := by
  rw [inlineStmts_eq, inlineStmts_eq, inlineStmts_eq, List.mapM_append]

theorem inlineStmts_flattenAll_of (table : Assignments) {ss : List Stmt}
    (ih : ∀ s ∈ ss, Stmt.flattenAll <$> inlineStmts table s.flatten =
      Stmt.flatten <$> inlineStmt table s) :
    Stmt.flattenAll <$> inlineStmts table (Stmt.flattenAll ss) =
      Stmt.flattenAll <$> inlineStmts table ss := by
  induction ss with
  | nil => rfl
  | cons s ss ihs =>
      obtain ⟨hhead, htail⟩ := List.forall_mem_cons.mp ih
      calc Stmt.flattenAll <$> inlineStmts table (Stmt.flattenAll (s :: ss))
        _ = do
            let first ← Stmt.flattenAll <$> inlineStmts table s.flatten
            let rest ← Stmt.flattenAll <$> inlineStmts table (Stmt.flattenAll ss)
            return first ++ rest := by
          simp [Stmt.flattenAll, inlineStmts_append, Stmt.flattenAll_append]
        _ = do
            let first ← Stmt.flatten <$> inlineStmt table s
            let rest ← Stmt.flattenAll <$> inlineStmts table ss
            return first ++ rest := by
          rw [hhead, ihs htail]
        _ = Stmt.flattenAll <$> inlineStmts table (s :: ss) := by
          simp [inlineStmts, Stmt.flattenAll]

theorem inlineStmts_flatten (table : Assignments) (s : Stmt) :
    Stmt.flattenAll <$> inlineStmts table s.flatten = Stmt.flatten <$> inlineStmt table s := by
  induction s using Stmt.leafInduction with
  | leaf s hleaf =>
      cases s with
      | block => simp [Stmt.isBlock] at hleaf
      | skip => rfl
      | _ => simp [Stmt.flatten, inlineStmts, Stmt.flattenAll_singleton]
  | block body ih =>
      rw [Stmt.flatten, inlineStmts_flattenAll_of table ih, inlineStmt]
      simp [Stmt.flatten]

/-- Inlining remembers and counts the same in a flattened list, and leaves the same once its result
is flattened, too. -/
theorem inlineStmts_flattenAll (table : Assignments) (ss : List Stmt) :
    Stmt.flattenAll <$> inlineStmts table (Stmt.flattenAll ss) =
      Stmt.flattenAll <$> inlineStmts table ss :=
  inlineStmts_flattenAll_of table fun s _ => inlineStmts_flatten table s

end Inline

namespace Module

theorem flatten_substitute (module : Module) (table : Assignments) :
    Module.flatten <$> module.flatten.substitute table =
      Module.flatten <$> module.substitute table := by
  have hrun := congrArg (fun x => x.run {}) (Inline.inlineStmts_flattenAll table module.body)
  simp only [StateT.run_map] at hrun
  rw [Logged.map_eq_map_iff]
  simp only [substitute, statements_flatten, show module.flatten.body = Stmt.flattenAll module.body
    from rfl]
  -- The two runs end with the same memory, and their results are the same once flattened.
  generalize (Inline.inlineStmts table (Stmt.flattenAll module.body)).run {} = flat at hrun ⊢
  generalize (Inline.inlineStmts table module.body).run {} = nested at hrun ⊢
  obtain ⟨flatBody, memo⟩ := flat
  obtain ⟨body, _⟩ := nested
  obtain ⟨hbody, rfl⟩ := Prod.mk.inj hrun
  exact ⟨congrArg (fun body => { module with body }) hbody, rfl⟩

theorem flatten_inlineAssignments (module : Module) :
    Module.flatten <$> module.flatten.inlineAssignments =
      Module.flatten <$> module.inlineAssignments := by
  obtain ⟨hvalue, hrecords⟩ := Logged.map_eq_map_iff.mp
    (module.flatten_substitute module.candidates.value)
  rw [Logged.map_eq_map_iff, inlineAssignments, inlineAssignments, candidates_flatten,
    Logged.value_bind, Logged.value_bind, Logged.records_bind, Logged.records_bind]
  split
  · exact ⟨congrArg (fun body => { module with body }) (Stmt.flattenAll_flattenAll _), rfl⟩
  · exact ⟨hvalue, by rw [hrecords]⟩

end Module

/-- Blocks and empty statements do not matter. The writes and the violations of a module are those
that a walk through its blocks finds, as they nest. A flattened module has the same candidates, with
the same said about the others; removal and inlining leave the same of it and log the same; and a
circuit of flattened modules has the same violations in the same order. -/
theorem flattening_irrelevant :
    (∀ module : Module,
      module.writes = (Stmt.walkAll Module.discover ([], []) module.body).2 ∧
        module.violations = Stmt.walkAll (Module.inspect module.name) [] module.body ∧
        module.flatten.candidates = module.candidates ∧
        Module.flatten <$> module.flatten.removeVacuous =
          Module.flatten <$> module.removeVacuous ∧
        Module.flatten <$> module.flatten.inlineAssignments =
          Module.flatten <$> module.inlineAssignments) ∧
      ∀ circuit : Circuit, circuit.flatten.violations = circuit.violations :=
  ⟨fun module => ⟨module.writes_eq_walkAll, module.violations_eq_walkAll,
    module.candidates_flatten, module.flatten_removeVacuous, module.flatten_inlineAssignments⟩,
    Circuit.violations_flatten⟩

end Rtl
