import Rtl.Pass.Manager

/-! # What a manager lets run

Whether a pass may run is a matter of what has happened before: a property is established if it
has been assumed and no pass that may break it has completed since, in whichever run that was.
The manager keeps a set of properties instead of the history, and that set holds exactly what the
history establishes, whatever becomes of the runs.
-/

namespace Rtl

/-! ## Histories -/

/-- Something that bears on which properties are established. -/
inductive Occurrence where
  | assumed (prerequisites : List Prerequisite)
  | completed (info : PassInfo)

/-- The property has been assumed, and no pass that may break it has completed since. -/
def Established (past : List Occurrence) (prerequisite : Prerequisite) : Prop :=
  ∃ before assumed after, past = before ++ .assumed assumed :: after ∧ prerequisite ∈ assumed ∧
    ∀ info, .completed info ∈ after → info.preservesAll = true

theorem not_established_nil (prerequisite : Prerequisite) : ¬ Established [] prerequisite := by
  rintro ⟨before, assumed, after, hpast, _⟩
  simp at hpast

/-- What is established after one more occurrence has just been assumed, or was established
before and has not been broken. -/
theorem established_concat {past : List Occurrence} {last : Occurrence}
    {prerequisite : Prerequisite} :
    Established (past ++ [last]) prerequisite ↔
      (∃ assumed, last = .assumed assumed ∧ prerequisite ∈ assumed) ∨
        Established past prerequisite ∧
          ∀ info, last = .completed info → info.preservesAll = true := by
  constructor
  · rintro ⟨before, assumed, after, hpast, hmem, hkept⟩
    rcases List.eq_nil_or_concat after with rfl | ⟨later, occurrence, rfl⟩
    · obtain ⟨-, hlast⟩ := List.append_inj' hpast rfl
      exact .inl ⟨assumed, List.singleton_inj.mp hlast, hmem⟩
    · rw [List.concat_eq_append] at hpast hkept
      rw [← List.cons_append, ← List.append_assoc] at hpast
      obtain ⟨rfl, hlast⟩ := List.append_inj' hpast rfl
      obtain rfl := List.singleton_inj.mp hlast
      refine .inr ⟨⟨before, assumed, later, rfl, hmem, ?_⟩, ?_⟩
      · exact fun info hinfo => hkept info (List.mem_append_left _ hinfo)
      · rintro info rfl
        exact hkept info (List.mem_append_right _ List.mem_cons_self)
  · rintro (⟨assumed, rfl, hmem⟩ | ⟨⟨before, assumed, after, rfl, hmem, hkept⟩, hlast⟩)
    · exact ⟨past, assumed, [], rfl, hmem, by simp⟩
    · refine ⟨before, assumed, after ++ [last], by simp, hmem, ?_⟩
      intro info hinfo
      rcases List.mem_append.mp hinfo with hinfo | hinfo
      · exact hkept info hinfo
      · exact hlast info (List.mem_singleton.mp hinfo).symm

theorem established_concat_assumed {past : List Occurrence} {assumed : List Prerequisite}
    {prerequisite : Prerequisite} :
    Established (past ++ [.assumed assumed]) prerequisite ↔
      Established past prerequisite ∨ prerequisite ∈ assumed := by
  simp [established_concat, or_comm]

theorem established_concat_completed {past : List Occurrence} {info : PassInfo}
    {prerequisite : Prerequisite} :
    Established (past ++ [.completed info]) prerequisite ↔
      Established past prerequisite ∧ info.preservesAll = true := by
  simp [established_concat]

theorem established_append_completed {past : List Occurrence} {infos : List PassInfo}
    {prerequisite : Prerequisite} :
    Established (past ++ infos.map .completed) prerequisite ↔
      Established past prerequisite ∧ ∀ info ∈ infos, info.preservesAll = true := by
  induction infos generalizing past with
  | nil => simp
  | cons info infos ih =>
      rw [List.map_cons, List.append_cons, ih, established_concat_completed, List.forall_mem_cons,
        and_assoc]

/-- The list holds the properties that the past establishes, and no others. -/
def Reflects (established : List Prerequisite) (past : List Occurrence) : Prop :=
  ∀ prerequisite, prerequisite ∈ established ↔ Established past prerequisite

namespace Reflects

variable {established : List Prerequisite} {past : List Occurrence}

theorem nil : Reflects [] [] :=
  fun prerequisite => iff_of_false List.not_mem_nil (not_established_nil prerequisite)

theorem assume (hreflects : Reflects established past) (assumed : List Prerequisite) :
    Reflects (established ++ assumed) (past ++ [.assumed assumed]) := by
  intro prerequisite
  rw [List.mem_append, hreflects, established_concat_assumed]

theorem complete (hreflects : Reflects established past) (info : PassInfo) :
    Reflects (if info.preservesAll then established else []) (past ++ [.completed info]) := by
  intro prerequisite
  rw [established_concat_completed, ← hreflects]
  cases info.preservesAll <;> simp

theorem missing?_eq_none_iff (hreflects : Reflects established past) {info : PassInfo} :
    info.missing? established = none ↔
      ∀ prerequisite ∈ info.prerequisites, Established past prerequisite := by
  simp [PassInfo.missing?, hreflects _]

theorem missing?_eq_some_iff (hreflects : Reflects established past) {info : PassInfo}
    {prerequisite : Prerequisite} :
    info.missing? established = some prerequisite ↔
      ∃ met others, info.prerequisites = met ++ prerequisite :: others ∧
        (∀ other ∈ met, Established past other) ∧ ¬ Established past prerequisite := by
  rw [PassInfo.missing?, List.find?_eq_some_iff_append]
  simp only [List.contains_eq_mem, Bool.not_not, Bool.not_eq_true', decide_eq_true_eq,
    decide_eq_false_iff_not, hreflects _]
  constructor
  · rintro ⟨hnot, met, others, hlist, hmet⟩
    exact ⟨met, others, hlist, hmet, hnot⟩
  · rintro ⟨met, others, hlist, hmet, hnot⟩
    exact ⟨hnot, met, others, hlist, hmet⟩

end Reflects

/-! ## Runs -/

/-- What passes make of a circuit one after another, each of what the one before it has left; or
the failure of the first that fails. -/
def Pass.chain (passes : List Pass) (circuit : Circuit) : Except Failure Circuit :=
  passes.foldlM (fun circuit pass => (pass.run circuit).value) circuit

theorem Pass.chain_cons_ok {pass : Pass} {circuit left : Circuit}
    (hok : (pass.run circuit).value = .ok left) (passes : List Pass) :
    Pass.chain (pass :: passes) circuit = Pass.chain passes left := by
  simp only [chain, List.foldlM_cons, hok]
  rfl

theorem Pass.chain_cons_error {pass : Pass} {circuit : Circuit} {failure : Failure}
    (herror : (pass.run circuit).value = .error failure) (passes : List Pass) :
    Pass.chain (pass :: passes) circuit = .error failure := by
  simp only [chain, List.foldlM_cons, herror]
  rfl

/-- The passes that complete in such a chain, up to the first that fails. -/
def Pass.completing (circuit : Circuit) : List Pass → List Pass
  | [] => []
  | pass :: passes =>
      match (pass.run circuit).value with
      | .ok left => pass :: completing left passes
      | .error _ => []

/-- The passes that have completed in a run, out of those that were started. -/
def Report.completed (report : Report) (passes : List Pass) (circuit : Circuit) : List PassInfo :=
  (Pass.completing circuit (passes.take report.started.length)).map Pass.info

/-- What passes leave of the past once they have all completed. -/
def Pass.completions (passes : List Pass) : List Occurrence :=
  passes.map fun pass => .completed pass.info

/-- What a run of the given passes does, with a past that says what is established. -/
structure Report.Lawful (report : Report) (past : List Occurrence) (passes : List Pass)
    (circuit : Circuit) : Prop where
  /-- Passes are started in order, and none is left out. -/
  order : report.started <+: passes.map Pass.info
  /-- A pass is started exactly if those before it have completed and all of its prerequisites
  are established by then. -/
  started_iff : ∀ {before pass after}, passes = before ++ pass :: after →
    (before.length < report.started.length ↔
      before.length ≤ (report.completed passes circuit).length ∧
        ∀ prerequisite ∈ pass.info.prerequisites,
          Established (past ++ Pass.completions before) prerequisite)
  /-- A pass whose turn it is and that may not run ends the run, which names the first
  prerequisite that is not established. -/
  refused : ∀ {before pass after met prerequisite others}, passes = before ++ pass :: after →
    before.length ≤ (report.completed passes circuit).length →
    pass.info.prerequisites = met ++ prerequisite :: others →
    (∀ other ∈ met, Established (past ++ Pass.completions before) other) →
    ¬ Established (past ++ Pass.completions before) prerequisite →
    report.outcome = .error (.error (.missingPrerequisite pass.info.name prerequisite))
  /-- If no pass is refused, either because all are started or because one fails, the outcome is
  what the passes that are started make of the circuit. -/
  outcome : report.started.length = passes.length ∨
      (report.completed passes circuit).length < report.started.length →
    report.outcome = Pass.chain (passes.take report.started.length) circuit
  /-- The completed passes, and only these, bear on what is established afterwards. -/
  established : Reflects report.established
    (past ++ (report.completed passes circuit).map .completed)

namespace Report

variable {report : Report} {past : List Occurrence} {passes : List Pass} {circuit : Circuit}

theorem completed_of_started_nil (hnone : report.started = []) :
    report.completed passes circuit = [] := by
  rw [completed, hnone]
  rfl

theorem completed_of_ok {pass : Pass} {left : Circuit} {rest : Report}
    (hok : (pass.run circuit).value = .ok left)
    (hstarted : report.started = pass.info :: rest.started) :
    report.completed (pass :: passes) circuit = pass.info :: rest.completed passes left := by
  simp [completed, hstarted, Pass.completing, hok]

theorem completed_of_error {pass : Pass} {failure : Failure}
    (herror : (pass.run circuit).value = .error failure) (hstarted : report.started = [pass.info]) :
    report.completed (pass :: passes) circuit = [] := by
  simp [completed, hstarted, Pass.completing, herror]

/-! ### One pass after another -/

section Cases

variable {pass : Pass} {failure : Failure} {established : List Prerequisite}
  (hreflects : Reflects established past)
include hreflects

theorem lawful_nil (hstarted : report.started = []) (houtcome : report.outcome = .ok circuit)
    (hestablished : report.established = established) : report.Lawful past [] circuit where
  order := by simp [hstarted]
  started_iff hsplit := by simp at hsplit
  refused hsplit := by simp at hsplit
  outcome _ := by
    rw [houtcome, List.take_nil]
    rfl
  established := by
    rw [completed_of_started_nil hstarted, hestablished, List.map_nil, List.append_nil]
    exact hreflects

/-- The first pass is refused. -/
theorem lawful_refused {missing : Prerequisite}
    (hmissing : pass.info.missing? established = some missing) (hstarted : report.started = [])
    (houtcome : report.outcome =
      .error (.error (.missingPrerequisite pass.info.name missing)))
    (hestablished : report.established = established) :
    report.Lawful past (pass :: passes) circuit := by
  have hcompleted : report.completed (pass :: passes) circuit = [] :=
    completed_of_started_nil hstarted
  have hpast : past ++ Pass.completions [] = past := List.append_nil past
  exact {
    order := by simp [hstarted]
    started_iff := by
      intro before first after hsplit
      rw [hstarted, hcompleted]
      cases before with
      | nil =>
          obtain ⟨rfl, -⟩ := List.cons.inj hsplit
          rw [hpast, ← hreflects.missing?_eq_none_iff, hmissing]
          simp
      | cons => simp
    refused := by
      intro before first after met prerequisite others hsplit hlength hlist hmet hnot
      rw [hcompleted] at hlength
      obtain rfl := List.eq_nil_of_length_eq_zero (Nat.le_zero.mp hlength)
      obtain ⟨rfl, -⟩ := List.cons.inj hsplit
      rw [hpast] at hmet hnot
      have hfirst := hreflects.missing?_eq_some_iff.mpr ⟨met, others, hlist, hmet, hnot⟩
      rw [houtcome, ← Option.some.inj (hmissing.symm.trans hfirst)]
    outcome := by simp [hstarted]
    established := by
      rw [hcompleted, hestablished, List.map_nil, List.append_nil]
      exact hreflects }

/-- The first pass fails. -/
theorem lawful_failed (hready : pass.info.missing? established = none)
    (herror : (pass.run circuit).value = .error failure) (hstarted : report.started = [pass.info])
    (houtcome : report.outcome = .error failure)
    (hestablished : report.established = established) :
    report.Lawful past (pass :: passes) circuit := by
  have hcompleted : report.completed (pass :: passes) circuit = [] :=
    completed_of_error herror hstarted
  have hpast : past ++ Pass.completions [] = past := List.append_nil past
  rw [hreflects.missing?_eq_none_iff] at hready
  exact {
    order := by simp [hstarted]
    started_iff := by
      intro before first after hsplit
      rw [hstarted, hcompleted]
      cases before with
      | nil =>
          obtain ⟨rfl, -⟩ := List.cons.inj hsplit
          rw [hpast]
          simpa using hready
      | cons => simp
    refused := by
      intro before first after met prerequisite others hsplit hlength hlist _ hnot
      rw [hcompleted] at hlength
      obtain rfl := List.eq_nil_of_length_eq_zero (Nat.le_zero.mp hlength)
      obtain ⟨rfl, -⟩ := List.cons.inj hsplit
      rw [hpast] at hnot
      exact absurd (hready prerequisite (by simp [hlist])) hnot
    outcome := by
      intro _
      rw [houtcome, hstarted, List.length_singleton, List.take_succ_cons,
        Pass.chain_cons_error herror]
    established := by
      rw [hcompleted, hestablished, List.map_nil, List.append_nil]
      exact hreflects }

/-- The first pass completes, and the others run on what it has left. -/
theorem lawful_completed {left : Circuit} {rest : Report}
    (hready : pass.info.missing? established = none)
    (hok : (pass.run circuit).value = .ok left)
    (hrest : rest.Lawful (past ++ [.completed pass.info]) passes left)
    (hstarted : report.started = pass.info :: rest.started)
    (houtcome : report.outcome = rest.outcome)
    (hestablished : report.established = rest.established) :
    report.Lawful past (pass :: passes) circuit := by
  have hcompleted : report.completed (pass :: passes) circuit =
      pass.info :: rest.completed passes left := completed_of_ok hok hstarted
  have hpast : ∀ before, past ++ Pass.completions (pass :: before) =
      past ++ [.completed pass.info] ++ Pass.completions before := by
    simp [Pass.completions]
  rw [hreflects.missing?_eq_none_iff] at hready
  exact {
    order := by
      rw [hstarted, List.map_cons, List.prefix_cons_inj]
      exact hrest.order
    started_iff := by
      intro before first after hsplit
      rw [hstarted, hcompleted]
      cases before with
      | nil =>
          obtain ⟨rfl, -⟩ := List.cons.inj hsplit
          simpa [Pass.completions] using hready
      | cons second before =>
          obtain ⟨rfl, htail⟩ := List.cons.inj hsplit
          rw [hpast]
          simpa using hrest.started_iff htail
    refused := by
      intro before first after met prerequisite others hsplit hlength hlist hmet hnot
      cases before with
      | nil =>
          obtain ⟨rfl, -⟩ := List.cons.inj hsplit
          refine absurd (hready prerequisite (by simp [hlist])) ?_
          simpa [Pass.completions] using hnot
      | cons second before =>
          obtain ⟨rfl, htail⟩ := List.cons.inj hsplit
          rw [hcompleted, List.length_cons, List.length_cons, Nat.succ_le_succ_iff] at hlength
          rw [hpast] at hmet hnot
          rw [houtcome]
          exact hrest.refused htail hlength hlist hmet hnot
    outcome := by
      rw [houtcome, hstarted, hcompleted, List.length_cons, List.take_succ_cons,
        Pass.chain_cons_ok hok]
      simpa using hrest.outcome
    established := by
      rw [hcompleted, hestablished, List.map_cons, List.append_cons]
      exact hrest.established }

end Cases

end Report

namespace Manager

/-- Every run does what the past allows. The induction is on the passes; each adds what it has
completed to the past of those after it. -/
theorem lawful_runPasses {established : List Prerequisite} {past : List Occurrence}
    (hreflects : Reflects established past) (circuit : Circuit) (passes : List Pass) :
    (runPasses established circuit passes).Lawful past passes circuit := by
  induction passes generalizing established past circuit with
  | nil => exact Report.lawful_nil hreflects rfl rfl rfl
  | cons pass passes ih =>
      rw [runPasses]
      cases hmissing : pass.info.missing? established with
      | some missing => exact Report.lawful_refused hreflects hmissing rfl rfl rfl
      | none =>
          dsimp only
          cases hresult : (pass.run circuit).value with
          | error failure => exact Report.lawful_failed hreflects hmissing hresult rfl rfl rfl
          | ok left =>
              exact Report.lawful_completed hreflects hmissing hresult
                (ih (hreflects.complete pass.info) left) rfl rfl rfl

/-! ## Sequences of operations -/

/-- What can happen to a manager. A pass with a state of its own may come to behave differently,
but not to say anything else about itself. -/
inductive Op where
  | assume (prerequisites : List Prerequisite)
  | add (pass : Pass)
  | run (circuit : Circuit)
  | evolve (change : Pass → Pass) (keeps : ∀ pass, (change pass).info = pass.info)

def apply (manager : Manager) : Op → Manager
  | .assume prerequisites => manager.assume prerequisites
  | .add pass => manager.addPass pass
  | .run circuit => (manager.run circuit).2
  | .evolve change _ => { manager with passes := manager.passes.map change }

/-- What an operation adds to the past. -/
def occurrences (manager : Manager) : Op → List Occurrence
  | .assume prerequisites => [.assumed prerequisites]
  | .run circuit =>
      ((manager.run circuit).1.completed manager.passes circuit).map .completed
  | .add _ | .evolve _ _ => []

/-- What some operations add to the past, one after another. -/
def historyFrom (manager : Manager) : List Op → List Occurrence
  | [] => []
  | op :: ops => manager.occurrences op ++ historyFrom (manager.apply op) ops

/-- A new manager after some operations. -/
def after (ops : List Op) : Manager :=
  ops.foldl apply {}

/-- All that has happened to a new manager in some operations. -/
def history (ops : List Op) : List Occurrence :=
  historyFrom {} ops

/-- What the passes that are added say about themselves, in the order in which they are added. -/
def added (ops : List Op) : List PassInfo :=
  ops.filterMap fun
    | .add pass => some pass.info
    | _ => none

variable {manager : Manager} {past : List Occurrence}

theorem lawful_run (hreflects : Reflects manager.established past) (circuit : Circuit) :
    (manager.run circuit).1.Lawful past manager.passes circuit :=
  lawful_runPasses hreflects circuit manager.passes

theorem exists_completed_of_lost (hreflects : Reflects manager.established past)
    {circuit : Circuit} {prerequisite : Prerequisite}
    (hbefore : prerequisite ∈ manager.established)
    (hlost : prerequisite ∉ (manager.run circuit).2.established) :
    ∃ info ∈ (manager.run circuit).1.completed manager.passes circuit,
      info.preservesAll = false := by
  have hkept : prerequisite ∈ (manager.run circuit).2.established ↔ _ :=
    ((lawful_run hreflects circuit).established prerequisite).trans established_append_completed
  rw [hreflects] at hbefore
  simpa [hkept, hbefore] using hlost

theorem reflects_apply (hreflects : Reflects manager.established past) (op : Op) :
    Reflects (manager.apply op).established (past ++ manager.occurrences op) := by
  cases op with
  | assume prerequisites => exact hreflects.assume prerequisites
  | run circuit => exact (lawful_run hreflects circuit).established
  | add | evolve =>
      rw [occurrences, List.append_nil]
      exact hreflects

theorem reflects_foldl (hreflects : Reflects manager.established past) (ops : List Op) :
    Reflects (ops.foldl apply manager).established (past ++ manager.historyFrom ops) := by
  induction ops generalizing manager past with
  | nil =>
      rw [historyFrom, List.append_nil]
      exact hreflects
  | cons op ops ih =>
      rw [historyFrom, ← List.append_assoc]
      exact ih (reflects_apply hreflects op)

theorem infos_apply (manager : Manager) (op : Op) :
    (manager.apply op).passes.map Pass.info = manager.passes.map Pass.info ++ added [op] := by
  cases op with
  | add pass => simp [apply, addPass, added]
  | evolve change keeps => simp [apply, added, keeps]
  | assume | run => simp [apply, assume, run, added]

theorem infos_foldl (manager : Manager) (ops : List Op) :
    (ops.foldl apply manager).passes.map Pass.info =
      manager.passes.map Pass.info ++ added ops := by
  induction ops generalizing manager with
  | nil => simp [added]
  | cons op ops ih =>
      rw [List.foldl_cons, ih, infos_apply, List.append_assoc, added, added, added,
        ← List.filterMap_append, List.singleton_append]

/-- However operations follow each other and however runs end, the next run starts the passes in
the order in which they were added, a pass exactly if those before it have completed and its
prerequisites are established by what has happened so far; if they are not, the run ends there and
names the first that is missing. The run leaves the passes as they are, and what was established is
lost only to a pass that has completed and does not preserve it. -/
theorem run_respects_prerequisites (ops : List Op) (circuit : Circuit) :
    (after ops).passes.map Pass.info = added ops ∧
      ((after ops).run circuit).1.Lawful (history ops) (after ops).passes circuit ∧
      ((after ops).run circuit).2.passes = (after ops).passes ∧
      ∀ prerequisite ∈ (after ops).established,
        prerequisite ∉ ((after ops).run circuit).2.established →
          ∃ info ∈ ((after ops).run circuit).1.completed (after ops).passes circuit,
            info.preservesAll = false := by
  have hreflects : Reflects (after ops).established (history ops) :=
    @reflects_foldl {} [] Reflects.nil ops
  exact ⟨infos_foldl {} ops, lawful_run hreflects circuit, rfl,
    fun _ => exists_completed_of_lost hreflects⟩

end Manager

end Rtl
