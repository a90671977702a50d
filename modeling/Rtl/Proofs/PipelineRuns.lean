import Rtl.Pipeline
import Rtl.Proofs.ManagerHistory
import Rtl.Proofs.Validity
import Rtl.Proofs.Workers

/-! # What pipelines compute

A pipeline applies its passes one after another and checks some of the circuits in between. The
specification here knows neither managers nor workers nor prerequisites: it lists the circuits
that arise and looks for the first one that is checked and not valid.
-/

namespace Rtl

/-- What the pass of a given name makes of a circuit. -/
def Circuit.applyNamed (circuit : Circuit) (name : String) : Circuit :=
  if name = PassInfo.removeVacuous.name then
    circuit.mapModules fun module => module.removeVacuous.value
  else if name = PassInfo.inlineAssignments.name then
    circuit.mapModules fun module => module.inlineAssignments.value
  else circuit

/-- The circuit that the pass at a position is given; past the last pass, the final circuit. -/
def Circuit.stage (circuit : Circuit) (names : List String) (position : Nat) : Circuit :=
  (names.take position).foldl applyNamed circuit

namespace PipelineOptions

/-- The positions at which circuits are checked. -/
def checkpoints (options : PipelineOptions) : List Nat :=
  (List.range (options.passes.length + 1)).filter fun position =>
    options.verify || options.passes[position]? == some PassInfo.verify.name

/-- The first circuit that fails a check is what a pipeline of known passes complains about. -/
def verdict (options : PipelineOptions) (circuit : Circuit) : Except PipelineError Circuit :=
  match options.checkpoints.find? fun position =>
      (circuit.stage options.passes position).violations ≠ [] with
  | some position => .error (.invalid (circuit.stage options.passes position).violations)
  | none => .ok (circuit.stage options.passes options.passes.length)

/-- The first name that no pass has. -/
def unknown? (options : PipelineOptions) : Option String :=
  options.passes.find? fun name => name ∉ PassInfo.all.map PassInfo.name

def specified (options : PipelineOptions) (circuit : Circuit) : Except PipelineError Circuit :=
  match options.unknown? with
  | some name => .error (.unknownPass name)
  | none => options.verdict circuit

end PipelineOptions

/-! ## Passes over modules -/

/-- A pass that never crashes does the same to each module, by however many jobs. -/
theorem ModulePass.value_run_adapt_ofFunction (info : PassInfo) (f : Module → Logged Module)
    (jobs : Nat) (circuit : Circuit) :
    (((ofFunction info f).adapt jobs).run circuit).value =
      .ok (circuit.mapModules fun module => (f module).value) := by
  apply value_run_adapt
  rw [List.map_map]
  rfl

/-! ## Passes by name -/

namespace Pass

theorem value_run_verify (circuit : Circuit) :
    (verify.run circuit).value =
      if circuit.violations ≠ [] then .error (.error (.invalid circuit.violations))
      else .ok circuit := by
  simp only [verify]
  split
  next hnone => simp [hnone]
  next hsome =>
    rw [if_pos hsome]
    rfl

theorem ofName?_eq_none_iff {jobs : Nat} {name : String} :
    ofName? jobs name = none ↔ name ∉ PassInfo.all.map PassInfo.name := by
  rw [ofName?]
  split
  next hname => simp [hname, PassInfo.all]
  split
  next hname => simp [hname, PassInfo.all]
  split
  next hname => simp [hname, PassInfo.all]
  next hremove hinline hverify => simp [hremove, hinline, hverify, PassInfo.all]

section Named

variable {jobs : Nat} {name : String} {pass : Pass} (hpass : ofName? jobs name = some pass)
include hpass

/-- The passes that there are. -/
theorem cases_of_ofName? :
    (name = PassInfo.removeVacuous.name ∧ pass = ModulePass.removeVacuous.adapt jobs) ∨
      (name = PassInfo.inlineAssignments.name ∧ pass = ModulePass.inlineAssignments.adapt jobs) ∨
      (name = PassInfo.verify.name ∧ pass = verify) := by
  rw [ofName?] at hpass
  split at hpass
  next hname => exact .inl ⟨hname, (Option.some.inj hpass).symm⟩
  split at hpass
  next hname => exact .inr (.inl ⟨hname, (Option.some.inj hpass).symm⟩)
  split at hpass
  next hname => exact .inr (.inr ⟨hname, (Option.some.inj hpass).symm⟩)
  next => simp at hpass

theorem info_of_ofName? : pass.info ∈ PassInfo.all := by
  rcases cases_of_ofName? hpass with ⟨_, rfl⟩ | ⟨_, rfl⟩ | ⟨_, rfl⟩
  · exact List.mem_cons_self
  · exact List.mem_cons_of_mem _ List.mem_cons_self
  · exact List.mem_of_getLast? rfl

/-- What a named pass does: the one that checks may refuse a circuit, and no other does. -/
theorem value_run_of_ofName? (circuit : Circuit) :
    (pass.run circuit).value =
      if name = PassInfo.verify.name ∧ circuit.violations ≠ [] then
        .error (.error (.invalid circuit.violations))
      else .ok (circuit.applyNamed name) := by
  rcases cases_of_ofName? hpass with ⟨rfl, rfl⟩ | ⟨rfl, rfl⟩ | ⟨rfl, rfl⟩
  · rw [if_neg fun h => absurd h.1 (by decide)]
    exact ModulePass.value_run_adapt_ofFunction ..
  · rw [if_neg fun h => absurd h.1 (by decide)]
    exact ModulePass.value_run_adapt_ofFunction ..
  · rw [value_run_verify]
    simp only [true_and]
    rfl

end Named

end Pass

/-- Every known pass can run where all properties are established, and leaves them so. -/
theorem PassInfo.of_mem_all {info : PassInfo} (hmem : info ∈ all) :
    info.missing? Prerequisite.all = none ∧ info.preservesAll = true := by
  have hall : ∀ info ∈ all, info.missing? Prerequisite.all = none ∧ info.preservesAll = true := by
    decide
  exact hall info hmem

/-- So a run of known passes is nothing but the passes. -/
theorem Manager.outcome_runPasses_of_known {passes : List Pass}
    (hknown : ∀ pass ∈ passes, pass.info ∈ PassInfo.all) (circuit : Circuit) :
    (runPasses Prerequisite.all circuit passes).outcome = Pass.chain passes circuit := by
  induction passes generalizing circuit with
  | nil => rfl
  | cons pass passes ih =>
      obtain ⟨hmet, hpreserves⟩ := PassInfo.of_mem_all (hknown pass (by simp))
      simp only [runPasses, hmet, hpreserves, if_true]
      cases hvalue : (pass.run circuit).value with
      | error failure => rw [Pass.chain_cons_error hvalue]
      | ok left =>
          rw [Pass.chain_cons_ok hvalue]
          exact ih (fun other hother => hknown other (List.mem_cons_of_mem _ hother)) left

/-! ## Plans -/

namespace PipelineOptions

variable {verify : Bool} {jobs : Option Nat} {name : String} {names : List String}

/-- The check that stands before each pass, and after the last one, if checks are asked for. -/
def guards (verify : Bool) : List Pass :=
  if verify then [.verify] else []

theorem plan_nil : plan ⟨verify, jobs, []⟩ = .ok (guards verify) := by
  cases verify <;> rfl

theorem passesFor_congr (others : List String) :
    passesFor ⟨verify, jobs, others⟩ names = passesFor ⟨verify, jobs, names⟩ names := by
  suffices hall : ∀ more, passesFor ⟨verify, jobs, others⟩ more =
      passesFor ⟨verify, jobs, names⟩ more from hall names
  intro more
  induction more with
  | nil => rfl
  | cons name more ih => simp only [passesFor, ih]

theorem plan_cons_unknown (hnone : Pass.ofName? (jobs.getD 1) name = none) :
    plan ⟨verify, jobs, name :: names⟩ = .error (.unknownPass name) := by
  simp only [plan, passesFor, hnone]
  rfl

theorem plan_cons_known {pass : Pass} (hpass : Pass.ofName? (jobs.getD 1) name = some pass) :
    plan ⟨verify, jobs, name :: names⟩ =
      (plan ⟨verify, jobs, names⟩).map fun passes => guards verify ++ pass :: passes := by
  simp only [plan, passesFor, hpass, passesFor_congr (name :: names)]
  cases passesFor ⟨verify, jobs, names⟩ names <;> rfl

theorem checkpoints_cons :
    checkpoints ⟨verify, jobs, name :: names⟩ =
      (if verify ∨ name = PassInfo.verify.name then [0] else []) ++
        (checkpoints ⟨verify, jobs, names⟩).map Nat.succ := by
  simp only [checkpoints, List.length_cons]
  rw [List.range_succ_eq_map, List.filter_cons, List.filter_map]
  simp only [Bool.or_eq_true, beq_iff_eq, List.getElem?_cons_zero, Option.some_inj]
  split <;> rfl

theorem verdict_nil (circuit : Circuit) :
    verdict ⟨verify, jobs, []⟩ circuit =
      if verify ∧ circuit.violations ≠ [] then .error (.invalid circuit.violations)
      else .ok circuit := by
  have hstage : ∀ position, circuit.stage [] position = circuit := fun position => by
    rw [Circuit.stage, List.take_nil, List.foldl_nil]
  by_cases hvalid : circuit.violations = [] <;> cases verify <;>
    simp [verdict, checkpoints, hstage, hvalid]

/-- The circuit that the first pass is given is checked first, if at all. -/
theorem verdict_cons (circuit : Circuit) :
    verdict ⟨verify, jobs, name :: names⟩ circuit =
      if (verify ∨ name = PassInfo.verify.name) ∧ circuit.violations ≠ [] then
        .error (.invalid circuit.violations)
      else verdict ⟨verify, jobs, names⟩ (circuit.applyNamed name) := by
  have hzero : circuit.stage (name :: names) 0 = circuit := rfl
  have hsucc : ∀ position, circuit.stage (name :: names) (position + 1) =
      (circuit.applyNamed name).stage names position := fun _ => rfl
  simp only [verdict, checkpoints_cons, List.find?_append, List.find?_map, Function.comp_def,
    List.length_cons, Nat.succ_eq_add_one, hsucc]
  by_cases hcheck : (verify ∨ name = PassInfo.verify.name) ∧ circuit.violations ≠ []
  · simp [hcheck.1, hcheck.2, hzero]
  · have hnone : (if verify ∨ name = PassInfo.verify.name then [0] else []).find?
        (fun position => decide ((circuit.stage (name :: names) position).violations ≠ [])) =
          none := by
      split
      next hchecked => simpa [hzero, hchecked] using hcheck
      next => rfl
    rw [if_neg hcheck, hnone, Option.none_or]
    cases (checkpoints ⟨verify, jobs, names⟩).find? fun position =>
      decide (((circuit.applyNamed name).stage names position).violations ≠ []) <;> rfl

theorem chain_guards (passes : List Pass) (circuit : Circuit) :
    Pass.chain (guards verify ++ passes) circuit =
      if verify ∧ circuit.violations ≠ [] then .error (.error (.invalid circuit.violations))
      else Pass.chain passes circuit := by
  cases verify with
  | false => simp [guards]
  | true =>
      have hverify := Pass.value_run_verify circuit
      simp only [guards, if_true, true_and, List.singleton_append]
      split at hverify
      next hinvalid => rw [if_pos hinvalid, Pass.chain_cons_error hverify]
      next hvalid => rw [if_neg hvalid, Pass.chain_cons_ok hverify]

theorem chain_named {pass : Pass} (hpass : Pass.ofName? (jobs.getD 1) name = some pass)
    (passes : List Pass) (circuit : Circuit) :
    Pass.chain (pass :: passes) circuit =
      if name = PassInfo.verify.name ∧ circuit.violations ≠ [] then
        .error (.error (.invalid circuit.violations))
      else Pass.chain passes (circuit.applyNamed name) := by
  have hrun := Pass.value_run_of_ofName? hpass circuit
  split at hrun
  next hrefused => rw [if_pos hrefused, Pass.chain_cons_error hrun]
  next hpassed => rw [if_neg hpassed, Pass.chain_cons_ok hrun]

/-- A pipeline of known passes has a plan, and the plan carries out the specification. -/
theorem exists_plan (hknown : ∀ name ∈ names, name ∈ PassInfo.all.map PassInfo.name) :
    ∃ passes, plan ⟨verify, jobs, names⟩ = .ok passes ∧
      (∀ pass ∈ passes, pass.info ∈ PassInfo.all) ∧
      ∀ circuit, Pass.chain passes circuit =
        (verdict ⟨verify, jobs, names⟩ circuit).mapError Failure.error := by
  have hguards : ∀ pass ∈ guards verify, pass.info ∈ PassInfo.all := by
    cases verify <;> simp [guards, Pass.verify, PassInfo.all]
  induction names with
  | nil =>
      refine ⟨guards verify, plan_nil, hguards, fun circuit => ?_⟩
      rw [← List.append_nil (guards verify), chain_guards, verdict_nil]
      split <;> rfl
  | cons name names ih =>
      obtain ⟨passes, hplan, hinfos, hchain⟩ :=
        ih fun other hother => hknown other (List.mem_cons_of_mem _ hother)
      obtain ⟨pass, hpass⟩ : ∃ pass, Pass.ofName? (jobs.getD 1) name = some pass := by
        rw [← Option.ne_none_iff_exists', Ne, Pass.ofName?_eq_none_iff, not_not]
        exact hknown name List.mem_cons_self
      refine ⟨guards verify ++ pass :: passes, ?_, ?_, fun circuit => ?_⟩
      · rw [plan_cons_known hpass, hplan]
        rfl
      · rw [List.forall_mem_append, List.forall_mem_cons]
        exact ⟨hguards, Pass.info_of_ofName? hpass, hinfos⟩
      · rw [chain_guards, chain_named hpass, hchain, verdict_cons]
        by_cases hvalid : circuit.violations = []
        · simp [hvalid]
        · by_cases hasked : verify = true <;> by_cases hname : name = PassInfo.verify.name <;>
            simp [hvalid, hasked, hname, Except.mapError]

theorem plan_unknown {name : String} (hunknown : unknown? ⟨verify, jobs, names⟩ = some name) :
    plan ⟨verify, jobs, names⟩ = .error (.unknownPass name) := by
  induction names with
  | nil => simp [unknown?] at hunknown
  | cons other names ih =>
      rw [unknown?, List.find?_cons] at hunknown
      split at hunknown
      next hother =>
        obtain rfl := Option.some.inj hunknown
        exact plan_cons_unknown (Pass.ofName?_eq_none_iff.mpr (of_decide_eq_true hother))
      next =>
        cases hpass : Pass.ofName? (jobs.getD 1) other with
        | none => simp_all [Pass.ofName?_eq_none_iff]
        | some pass => rw [plan_cons_known hpass, ih hunknown, Except.map]

theorem value_run_eq_specified (options : PipelineOptions) (circuit : Circuit) :
    (options.run circuit).value = (options.specified circuit).mapError Failure.error := by
  cases hunknown : options.unknown? with
  | some name => simp only [run, specified, plan_unknown hunknown, hunknown, Except.mapError]
  | none =>
      have hknown : ∀ name ∈ options.passes, name ∈ PassInfo.all.map PassInfo.name := by
        simpa [unknown?] using hunknown
      obtain ⟨passes, hplan, hinfos, hchain⟩ := exists_plan hknown
      simp only [run, specified, hunknown]
      rw [← hchain circuit, ← Manager.outcome_runPasses_of_known hinfos circuit]
      simp [hplan, Manager.run]

/-- Pipelines complain about names and about circuits, and about nothing else. -/
theorem exists_of_run_error {options : PipelineOptions} {circuit : Circuit} {failure : Failure}
    (hfailure : (options.run circuit).value = .error failure) :
    (∃ name, failure = .error (.unknownPass name)) ∨
      ∃ violations, failure = .error (.invalid violations) := by
  rw [value_run_eq_specified, specified] at hfailure
  split at hfailure
  next name _ => exact .inl ⟨name, (Except.error.inj hfailure).symm⟩
  next =>
    rw [verdict] at hfailure
    split at hfailure
    next => exact .inr ⟨_, (Except.error.inj hfailure).symm⟩
    next => exact absurd hfailure (by simp [Except.mapError])

/-- A pipeline yields what its specification says. As every property is established beforehand,
no prerequisite is ever missing; the passes at hand do not crash; and the number of jobs does not
matter. -/
theorem run_meets_specification (options : PipelineOptions) (circuit : Circuit) :
    (options.run circuit).value = (options.specified circuit).mapError Failure.error ∧
      (options.run circuit).value ≠ .error .crash ∧
      (∀ pass prerequisite, (options.run circuit).value ≠
        .error (.error (.missingPrerequisite pass prerequisite))) ∧
      (∀ pass module, (options.run circuit).value ≠
        .error (.error (.workerCrashed pass module))) ∧
      ∀ jobs, (run { options with jobs } circuit).value = (options.run circuit).value := by
  refine ⟨value_run_eq_specified options circuit, ?_, ?_, ?_, fun jobs => ?_⟩
  · intro hcrash
    simpa using exists_of_run_error hcrash
  · intro pass prerequisite hmissing
    simpa using exists_of_run_error hmissing
  · intro pass module hcrashed
    simpa using exists_of_run_error hcrashed
  · -- The specification does not look at the number of jobs.
    rw [value_run_eq_specified, value_run_eq_specified options]
    rfl

end PipelineOptions

end Rtl
