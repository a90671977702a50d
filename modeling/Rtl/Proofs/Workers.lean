import Mathlib.Data.List.Perm.Basic
import Mathlib.Logic.Relation
import Rtl.Pass
import Rtl.Proofs.Lookup

/-! # Runs by workers

Modules wait for a free worker, which runs the pass on one of them and sends what comes out to the
receiver, together with the position of the module. A worker whose module crashes the pass sends
nothing. Reports are received in any order. Every such run comes to an end, and whatever the order
was, it ends with what a run in turn ends with; or, if modules were lost, with the complaint about
the first of them.
-/

namespace Rtl

open Relation

/-- A run by workers at some moment: the modules that wait and those that workers are busy with,
each with its position; the reports under way; and the reports received, in order of arrival. -/
structure Crew where
  waiting : List (Module × Nat)
  busy : List (Module × Nat) := []
  sent : List (Nat × Module) := []
  received : List (Nat × Module) := []

namespace Crew

def start (modules : List Module) : Crew :=
  { waiting := modules.zipIdx }

/-- All modules have been worked on, and all reports have arrived. -/
def IsDone (crew : Crew) : Prop :=
  crew.waiting = [] ∧ crew.busy = [] ∧ crew.sent = []

/-- A module has to be taken, finished and, if it comes through, reported. -/
def remaining (crew : Crew) : Nat :=
  3 * crew.waiting.length + 2 * crew.busy.length + crew.sent.length

end Crew

namespace ModulePass

/-- What the pass makes of a module, unless it crashes. -/
def result? (pass : ModulePass) (module : Module) : Option Module :=
  (pass.run module).value

/-- What a worker sends about a module and its position, unless the pass crashes. -/
def report? (pass : ModulePass) (job : Module × Nat) : Option (Nat × Module) :=
  (pass.result? job.1).map fun result => (job.2, result)

/-- What may happen next, with the given number of workers. -/
inductive Step (pass : ModulePass) (workers : Nat) : Crew → Crew → Prop where
  /-- A free worker takes the module that has waited longest. -/
  | take {crew : Crew} {job : Module × Nat} {rest : List (Module × Nat)}
      (hfree : crew.busy.length < workers) (hnext : crew.waiting = job :: rest) :
      Step pass workers crew { crew with waiting := rest, busy := job :: crew.busy }
  /-- Any of the busy workers is the next to be done. -/
  | finish {crew : Crew} {job : Module × Nat} (hbusy : job ∈ crew.busy) :
      Step pass workers crew
        { crew with busy := crew.busy.erase job, sent := (pass.report? job).toList ++ crew.sent }
  /-- Any of the reports under way is the next to arrive. -/
  | receive {crew : Crew} {report : Nat × Module} (hsent : report ∈ crew.sent) :
      Step pass workers crew
        { crew with sent := crew.sent.erase report, received := crew.received ++ [report] }

/-- The crew can come about when the modules are run by so many jobs. -/
def Reached (pass : ModulePass) (jobs : Nat) (modules : List Module) : Crew → Prop :=
  ReflTransGen (pass.Step (min jobs modules.length)) (.start modules)

/-- What a run ends with, given the reports in the order in which they have arrived. -/
def conclude (pass : ModulePass) (circuit : Circuit) (received : List (Nat × Module)) :
    Except Failure Circuit :=
  match assemble pass.info received (circuit.modules.map Module.name).zipIdx with
  | .error error => .error (.error error)
  | .ok modules => .ok { circuit with modules }

variable {pass : ModulePass} {workers jobs : Nat} {modules : List Module} {circuit : Circuit}
  {crew next : Crew}

/-! ## Every run comes to an end -/

theorem Step.remaining_lt (hstep : pass.Step workers crew next) :
    next.remaining < crew.remaining := by
  cases hstep with
  | take hfree hnext =>
      simp only [Crew.remaining, hnext, List.length_cons]
      omega
  | @finish job hbusy =>
      have hlength := List.length_erase_add_one hbusy
      have hreport : (pass.report? job).toList.length ≤ 1 := by
        cases pass.report? job <;> simp
      simp only [Crew.remaining, List.length_append]
      omega
  | receive hsent =>
      have hlength := List.length_erase_add_one hsent
      simp only [Crew.remaining]
      omega

theorem step_wellFounded (pass : ModulePass) (workers : Nat) :
    WellFounded fun next crew => pass.Step workers crew next :=
  Subrelation.wf Step.remaining_lt (measure Crew.remaining).wf

/-- As long as there is a worker, there is something to do until all is done. -/
theorem exists_step (hworkers : 0 < workers) (hleft : ¬ crew.IsDone) :
    ∃ next, pass.Step workers crew next := by
  cases hbusy : crew.busy with
  | cons job rest => exact ⟨_, .finish (by rw [hbusy]; exact List.mem_cons_self)⟩
  | nil =>
      cases hwaiting : crew.waiting with
      | cons job rest => exact ⟨_, .take (by rwa [hbusy]) hwaiting⟩
      | nil =>
          cases hsent : crew.sent with
          | cons report rest => exact ⟨_, .receive (by rw [hsent]; exact List.mem_cons_self)⟩
          | nil => exact absurd ⟨hwaiting, hbusy, hsent⟩ hleft

/-! ## No report is lost or made up -/

/-- The reports received, those under way and those to come. -/
def accounted (pass : ModulePass) (crew : Crew) : List (Nat × Module) :=
  crew.received ++ (crew.sent ++ (crew.busy ++ crew.waiting).filterMap pass.report?)

theorem filterMap_report?_cons (job : Module × Nat) (rest : List (Module × Nat)) :
    (job :: rest).filterMap pass.report? =
      (pass.report? job).toList ++ rest.filterMap pass.report? := by
  rw [List.filterMap_cons]
  cases pass.report? job <;> rfl

theorem Step.accounted_perm (hstep : pass.Step workers crew next) :
    (pass.accounted next).Perm (pass.accounted crew) := by
  cases hstep with
  | @take job rest hfree hnext =>
      rw [accounted, accounted, hnext]
      exact ((List.perm_middle.symm.filterMap _).append_left _).append_left _
  | @finish job hbusy =>
      -- What the worker sends was counted as still to come.
      have hjobs : ((pass.report? job).toList ++
          (crew.busy.erase job ++ crew.waiting).filterMap pass.report?).Perm
            ((crew.busy ++ crew.waiting).filterMap pass.report?) := by
        rw [← filterMap_report?_cons, ← List.cons_append]
        exact ((List.perm_cons_erase hbusy).symm.append_right _).filterMap _
      rw [accounted, accounted, List.append_assoc]
      refine List.Perm.append_left _ ?_
      exact (List.perm_append_comm_assoc ..).trans (hjobs.append_left _)
  | @receive report hsent =>
      rw [accounted, accounted, List.append_assoc]
      refine List.Perm.append_left _ ?_
      exact (List.perm_cons_erase hsent).symm.append_right _

theorem Reached.accounted_perm (hreached : pass.Reached jobs modules crew) :
    (pass.accounted crew).Perm (modules.zipIdx.filterMap pass.report?) := by
  induction hreached with
  | refl => exact List.Perm.refl _
  | tail _ hstep ih => exact hstep.accounted_perm.trans ih

/-- At the end, the reports on the modules that came through have arrived, in some order. -/
theorem Reached.received_perm (hreached : pass.Reached jobs modules crew) (hdone : crew.IsDone) :
    crew.received.Perm (modules.zipIdx.filterMap pass.report?) := by
  have haccounted := hreached.accounted_perm
  obtain ⟨hwaiting, hbusy, hsent⟩ := hdone
  simpa [accounted, hwaiting, hbusy, hsent] using haccounted

/-! ## Every order is possible -/

theorem work_off (hworkers : 0 < workers) (waiting : List (Module × Nat))
    (sent received : List (Nat × Module)) :
    ReflTransGen (pass.Step workers) ⟨waiting, [], sent, received⟩
      ⟨[], [], (waiting.filterMap pass.report?).reverse ++ sent, received⟩ := by
  induction waiting generalizing sent with
  | nil => exact .refl
  | cons job rest ih =>
      have htake : pass.Step workers ⟨job :: rest, [], sent, received⟩
          ⟨rest, [job], sent, received⟩ := .take hworkers rfl
      have hfinish : pass.Step workers ⟨rest, [job], sent, received⟩
          ⟨rest, [], (pass.report? job).toList ++ sent, received⟩ := by
        have hstep := @Step.finish pass workers ⟨rest, [job], sent, received⟩ job (by simp)
        rwa [List.erase_cons_head] at hstep
      have hreverse : ((job :: rest).filterMap pass.report?).reverse ++ sent =
          (rest.filterMap pass.report?).reverse ++ ((pass.report? job).toList ++ sent) := by
        rw [filterMap_report?_cons, List.reverse_append, List.append_assoc]
        cases pass.report? job <;> rfl
      rw [hreverse]
      exact .head htake (.head hfinish (ih _))

theorem receive_all {order sent : List (Nat × Module)} (horder : order.Perm sent)
    (received : List (Nat × Module)) :
    ReflTransGen (pass.Step workers) ⟨[], [], sent, received⟩ ⟨[], [], [], received ++ order⟩ := by
  induction order generalizing sent received with
  | nil =>
      obtain rfl := horder.nil_eq
      rw [List.append_nil]
  | cons report order ih =>
      obtain ⟨hsent, horder⟩ := List.cons_perm_iff_perm_erase.mp horder
      rw [← List.singleton_append, ← List.append_assoc]
      exact .head (.receive hsent) (ih horder _)

/-- The reports may arrive in any order whatsoever. -/
theorem exists_reached (hworkers : 0 < min jobs modules.length) {order : List (Nat × Module)}
    (horder : order.Perm (modules.zipIdx.filterMap pass.report?)) :
    ∃ crew, pass.Reached jobs modules crew ∧ crew.IsDone ∧ crew.received = order := by
  refine ⟨⟨[], [], [], order⟩, ?_, ⟨rfl, rfl, rfl⟩, rfl⟩
  have hworked := @work_off pass _ hworkers modules.zipIdx [] []
  rw [List.append_nil] at hworked
  exact hworked.trans (receive_all (horder.trans (List.reverse_perm _).symm) [])

/-! ## The order does not matter -/

/-- Reports are told apart by their positions. -/
theorem pairwise_report? (pass : ModulePass) (modules : List Module) :
    (modules.zipIdx.filterMap pass.report?).Pairwise fun first second => first.1 ≠ second.1 := by
  have hpositions : modules.zipIdx.Pairwise fun first second => first.2 ≠ second.2 := by
    rw [← List.pairwise_map, List.zipIdx_map_snd]
    exact List.nodup_range'
  refine hpositions.filterMap _ ?_
  intro first second hne report hreport other hother
  obtain ⟨_, _, rfl⟩ := Option.map_eq_some_iff.mp hreport
  obtain ⟨_, _, rfl⟩ := Option.map_eq_some_iff.mp hother
  exact hne

/-- Whatever the order, a position is looked up in the report on its own module. -/
theorem lookup_of_perm {order : List (Nat × Module)}
    (horder : order.Perm (modules.zipIdx.filterMap pass.report?)) (position : Nat) :
    order.lookup position = modules[position]?.bind pass.result? := by
  have hnodup : (order.map Prod.fst).Nodup :=
    List.pairwise_map.mpr ((horder.pairwise_iff Ne.symm).mpr (pass.pairwise_report? modules))
  apply Option.ext
  intro result
  rw [Assignments.lookup_eq_some_iff_mem hnodup, horder.mem_iff, List.mem_filterMap,
    Option.bind_eq_some_iff]
  constructor
  · rintro ⟨⟨module, index⟩, hmem, hreport⟩
    obtain ⟨_, hresult, heq⟩ := Option.map_eq_some_iff.mp hreport
    obtain ⟨rfl, rfl⟩ := Prod.mk.inj heq
    exact ⟨module, List.mem_zipIdx_iff_getElem?.mp hmem, hresult⟩
  · rintro ⟨module, hmodule, hresult⟩
    refine ⟨(module, position), List.mem_zipIdx_iff_getElem?.mpr hmodule, ?_⟩
    rw [report?, hresult]
    rfl

/-- Reports that hold a result for each position are put together to the list of the results. -/
theorem assemble_eq_ok {info : PassInfo} {reports : List (Nat × Module)} {names : List String}
    {results : List Module} {start : Nat} (hlength : names.length = results.length)
    (hreports : ∀ offset, offset < results.length →
      reports.lookup (start + offset) = results[offset]?) :
    assemble info reports (names.zipIdx start) = .ok results := by
  induction names generalizing results start with
  | nil =>
      obtain rfl := List.eq_nil_of_length_eq_zero hlength.symm
      rfl
  | cons name names ih =>
      obtain _ | ⟨result, results⟩ := results
      · simp at hlength
      have hfirst : reports.lookup start = some result := by
        simpa using hreports 0 (by simp)
      have hrest : assemble info reports (names.zipIdx (start + 1)) = .ok results := by
        refine ih (Nat.succ.inj hlength) fun offset hoffset => ?_
        simpa [Nat.add_assoc, Nat.add_comm 1] using hreports (offset + 1) (by simpa using hoffset)
      rw [List.zipIdx_cons, assemble, hfirst, hrest]
      rfl

/-- The first position without a report is complained about, whatever comes after it. -/
theorem assemble_eq_error {info : PassInfo} {reports : List (Nat × Module)} {before : List String}
    {start : Nat} (hbefore : ∀ offset < before.length, reports.lookup (start + offset) ≠ none)
    (hlost : reports.lookup (start + before.length) = none) (lost : String)
    (after : List String) :
    assemble info reports ((before ++ lost :: after).zipIdx start) =
      .error (.workerCrashed info.name lost) := by
  induction before generalizing start with
  | nil =>
      rw [List.nil_append, List.zipIdx_cons, assemble]
      rw [List.length_nil, Nat.add_zero] at hlost
      rw [hlost]
  | cons name before ih =>
      obtain ⟨result, hresult⟩ := Option.ne_none_iff_exists'.mp (hbefore 0 (by simp))
      have hrest := @ih (start + 1)
        (fun offset hoffset => by
          have hlater := hbefore (offset + 1) (by simpa using hoffset)
          rwa [← Nat.add_assoc, Nat.add_right_comm] at hlater)
        (by rwa [List.length_cons, ← Nat.add_assoc, Nat.add_right_comm] at hlost)
      rw [List.cons_append, List.zipIdx_cons, assemble, show reports.lookup start = some result
        from hresult, hrest]
      rfl

theorem value_reports (positioned : List (Module × Nat)) :
    (pass.reports positioned).value = positioned.filterMap pass.report? := by
  induction positioned with
  | nil => rfl
  | cons job positioned ih =>
      rw [filterMap_report?_cons, ← ih]
      rfl

theorem value_run_adapt_workers (hjobs : 1 < jobs) (hseveral : 1 < circuit.modules.length) :
    ((pass.adapt jobs).run circuit).value =
      pass.conclude circuit (circuit.modules.zipIdx.filterMap pass.report?) := by
  simp only [adapt, hjobs, hseveral, and_self, if_true, Logged.value_bind, runByWorkers,
    value_reports, Logged.value_pure, conclude]
  cases assemble pass.info (circuit.modules.zipIdx.filterMap pass.report?)
    (circuit.modules.map Module.name).zipIdx <;> rfl

/-- Only what the reports say about each position counts. -/
theorem conclude_of_perm {order : List (Nat × Module)}
    (horder : order.Perm (circuit.modules.zipIdx.filterMap pass.report?)) :
    pass.conclude circuit order =
      pass.conclude circuit (circuit.modules.zipIdx.filterMap pass.report?) := by
  have hassemble : ∀ named, assemble pass.info order named =
      assemble pass.info (circuit.modules.zipIdx.filterMap pass.report?) named := by
    intro named
    induction named with
    | nil => rfl
    | cons entry named ih =>
        rw [assemble, assemble, lookup_of_perm horder, lookup_of_perm (.refl _), ih]
  rw [conclude, conclude, hassemble]

/-! ## What a run ends with -/

theorem value_runInTurn {results : List Module}
    (hresults : modules.map pass.result? = results.map some) :
    (pass.runInTurn modules).value = some results := by
  induction modules generalizing results with
  | nil =>
      obtain rfl := List.map_eq_nil_iff.mp hresults.symm
      rfl
  | cons module modules ih =>
      obtain ⟨result, rest, rfl, hresult, hrest⟩ := List.map_eq_cons_iff.mp hresults.symm
      simp only [runInTurn, Logged.value_bind]
      rw [show (pass.run module).value = some result from hresult.symm]
      simp only [Logged.value_bind, ih hrest.symm]
      rfl

theorem conclude_of_results {results : List Module}
    (hresults : circuit.modules.map pass.result? = results.map some) :
    pass.conclude circuit (circuit.modules.zipIdx.filterMap pass.report?) =
      .ok { circuit with modules := results } := by
  have hlength : circuit.modules.length = results.length := by
    simpa using congrArg List.length hresults
  have hassemble : assemble pass.info (circuit.modules.zipIdx.filterMap pass.report?)
      (circuit.modules.map Module.name).zipIdx = .ok results := by
    apply assemble_eq_ok (by rw [List.length_map, hlength])
    intro offset hoffset
    have hentry := congrArg (·[offset]?) hresults
    simp only [List.getElem?_map, List.getElem?_eq_getElem hoffset, Option.map_some] at hentry
    obtain ⟨module, hmodule, hresult⟩ := Option.map_eq_some_iff.mp hentry
    rw [Nat.zero_add, lookup_of_perm (.refl _), hmodule, Option.bind_some, hresult,
      List.getElem?_eq_getElem hoffset]
  rw [conclude, hassemble]

/-- If no module crashes the pass, the number of jobs makes no difference. -/
theorem value_run_adapt (jobs : Nat) {results : List Module}
    (hresults : circuit.modules.map pass.result? = results.map some) :
    ((pass.adapt jobs).run circuit).value = .ok { circuit with modules := results } := by
  by_cases hparallel : 1 < jobs ∧ 1 < circuit.modules.length
  · rw [value_run_adapt_workers hparallel.1 hparallel.2, conclude_of_results hresults]
  · simp only [adapt, hparallel, if_false, Logged.value_bind, value_runInTurn hresults,
      Logged.value_pure]

theorem conclude_of_lost {before after : List Module} {lost : Module}
    (hsplit : circuit.modules = before ++ lost :: after)
    (hbefore : ∀ module ∈ before, pass.result? module ≠ none) (hlost : pass.result? lost = none) :
    pass.conclude circuit (circuit.modules.zipIdx.filterMap pass.report?) =
      .error (.error (.workerCrashed pass.info.name lost.name)) := by
  have hassemble : assemble pass.info (circuit.modules.zipIdx.filterMap pass.report?)
      (circuit.modules.map Module.name).zipIdx =
        .error (.workerCrashed pass.info.name lost.name) := by
    rw [hsplit, List.map_append, List.map_cons]
    apply assemble_eq_error
    · intro offset hoffset
      rw [List.length_map] at hoffset
      rw [Nat.zero_add, lookup_of_perm (.refl _), List.getElem?_append_left hoffset,
        List.getElem?_eq_getElem hoffset, Option.bind_some]
      exact hbefore _ (List.getElem_mem hoffset)
    · rw [Nat.zero_add, lookup_of_perm (.refl _), List.length_map, List.getElem?_append_right
        (Nat.le_refl _), Nat.sub_self, List.getElem?_cons_zero, Option.bind_some, hlost]
  rw [conclude, hassemble]

/-- Runs by workers end, every order of the reports is possible, and they all end alike. If no
module crashes the pass, that is as a run in turn ends: the main name stays, and each module is
replaced by what the pass makes of it. Otherwise it is with the complaint about the first module
that does. -/
theorem workers_agree (pass : ModulePass) (circuit : Circuit) (jobs : Nat) (hjobs : 1 < jobs)
    (hseveral : 1 < circuit.modules.length) :
    (WellFounded fun next crew => pass.Step (min jobs circuit.modules.length) crew next) ∧
      (∀ crew, pass.Reached jobs circuit.modules crew →
        (¬ crew.IsDone → ∃ next, pass.Step (min jobs circuit.modules.length) crew next) ∧
          (crew.IsDone →
            pass.conclude circuit crew.received = ((pass.adapt jobs).run circuit).value)) ∧
      (∀ order : List (Nat × Module),
        order.Perm (circuit.modules.zipIdx.filterMap pass.report?) →
          ∃ crew, pass.Reached jobs circuit.modules crew ∧ crew.IsDone ∧ crew.received = order) ∧
      (∀ results, circuit.modules.map pass.result? = results.map some →
        ((pass.adapt jobs).run circuit).value = .ok { circuit with modules := results } ∧
          ((pass.adapt 1).run circuit).value = .ok { circuit with modules := results }) ∧
      ∀ before lost after, circuit.modules = before ++ lost :: after →
        (∀ module ∈ before, pass.result? module ≠ none) → pass.result? lost = none →
          ((pass.adapt jobs).run circuit).value =
            .error (.error (.workerCrashed pass.info.name lost.name)) := by
  have hworkers : 0 < min jobs circuit.modules.length := by omega
  refine ⟨pass.step_wellFounded _, fun crew hreached => ⟨exists_step hworkers, fun hdone => ?_⟩,
    fun order horder => exists_reached hworkers horder,
    fun results hresults => ⟨value_run_adapt jobs hresults, value_run_adapt 1 hresults⟩, ?_⟩
  · rw [value_run_adapt_workers hjobs hseveral]
    exact conclude_of_perm (hreached.received_perm hdone)
  · intro before lost after hsplit hbefore hlost
    rw [value_run_adapt_workers hjobs hseveral]
    exact conclude_of_lost hsplit hbefore hlost

end ModulePass

/-- Relabels modules, and crashes on those of the given names. -/
def relabel (fatal : List String) : ModulePass where
  info := { name := "relabel", prerequisites := [], preservesAll := true }
  run module :=
    return if module.name ∈ fatal then none else some { module with name := module.name ++ "2" }

def quartet : Circuit :=
  { main := "a", modules := [{ name := "a" }, { name := "b" }, { name := "c" }, { name := "d" }] }

/-- Two of four modules are lost, and the reports on the others arrive in reverse; with none lost,
three jobs do what one does. -/
theorem quartet_workers_agree :
    1 < 3 ∧ 1 < quartet.modules.length ∧
      (relabel ["b", "d"]).conclude quartet [(2, { name := "c2" }), (0, { name := "a2" })] =
        .error (.error (.workerCrashed "relabel" "b")) ∧
      (((relabel []).adapt 3).run quartet).value = (((relabel []).adapt 1).run quartet).value := by
  have hjobs : 1 < 3 := by decide
  have hseveral : 1 < quartet.modules.length := by decide
  refine ⟨hjobs, hseveral, ?_, ?_⟩
  · obtain ⟨_, hends, horders, _, hlost⟩ :=
      ModulePass.workers_agree (relabel ["b", "d"]) quartet 3 hjobs hseveral
    obtain ⟨crew, hreached, hdone, hreceived⟩ :=
      horders [(2, { name := "c2" }), (0, { name := "a2" })] (by decide)
    rw [← hreceived, (hends crew hreached).2 hdone]
    exact hlost [{ name := "a" }] { name := "b" } _ rfl (by decide) (by decide)
  · obtain ⟨_, _, _, hresults, _⟩ :=
      ModulePass.workers_agree (relabel []) quartet 3 hjobs hseveral
    obtain ⟨hthree, hone⟩ := hresults
      [{ name := "a2" }, { name := "b2" }, { name := "c2" }, { name := "d2" }] (by decide)
    rw [hthree, hone]

end Rtl
