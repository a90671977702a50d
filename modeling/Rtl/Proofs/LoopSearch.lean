import Mathlib.Data.Multiset.AddSub
import Mathlib.Logic.Relation
import Rtl.Inline.Loop

/-! # The search for loops

The search for a loop through a signal is a loop itself: it takes one of the names that are still
to be visited and puts what its value reads in the place of it. Whichever name it takes each time,
it comes to an end, and it finds the signal again exactly if the signal reaches itself through the
values of others.
-/

namespace Rtl

open Relation

theorem Expr.mem_locals_iff {e : Expr} {name : String} :
    name ∈ e.locals ↔ ∃ r : Ref, .ref r ∈ e.nodes ∧ r.kind.isLocal = true ∧ r.name = name := by
  rw [locals, List.mem_filterMap]
  constructor
  · rintro ⟨d, hmem, hsome⟩
    cases d with
    | ref r =>
        simp only [Option.ite_none_right_eq_some, Option.some.injEq] at hsome
        exact ⟨r, hmem, hsome⟩
    | _ => simp at hsome
  · rintro ⟨r, hmem, hlocal, hname⟩
    exact ⟨.ref r, hmem, by simp [hlocal, hname]⟩

namespace Assignments

/-- The value of the first signal mentions the second. -/
def Reads (table : Assignments) (name other : String) : Prop :=
  other ∈ table.reads name

theorem Reads.lookup_ne_none {table : Assignments} {name other : String}
    (hreads : table.Reads name other) : table.lookup name ≠ none := by
  intro hnone
  simp [Reads, reads, hnone] at hreads

theorem reads_iff {table : Assignments} {name other : String} :
    table.Reads name other ↔ ∃ value, table.lookup name = some value ∧
      ∃ r : Ref, .ref r ∈ value.nodes ∧ r.kind.isLocal = true ∧ r.name = other := by
  rw [Reads, reads]
  cases table.lookup name with
  | none => simp
  | some value => simp [Expr.mem_locals_iff]

/-- A search at some moment: under way, with the names that it has seen and those that are still
to be visited, in no order; or at its end. -/
inductive LoopSearch where
  | underway (seen : List String) (work : Multiset String)
  | ended (found : Bool)

namespace LoopSearch

/-- At first, what the value of the signal reads is to be visited. -/
def begin (table : Assignments) (start : String) : LoopSearch :=
  .underway [] (table.reads start)

/-- What may happen next. Any of the names that are still to be visited may be taken. -/
inductive Step (table : Assignments) (start : String) : LoopSearch → LoopSearch → Prop where
  | exhaust {seen : List String} : Step table start (.underway seen 0) (.ended false)
  | find {seen : List String} {work : Multiset String} :
      Step table start (.underway seen (start ::ₘ work)) (.ended true)
  | pass {seen : List String} {work : Multiset String} {name : String} (hne : name ≠ start)
      (hseen : name ∈ seen) :
      Step table start (.underway seen (name ::ₘ work)) (.underway seen work)
  | visit {seen : List String} {work : Multiset String} {name : String} (hne : name ≠ start)
      (hnew : name ∉ seen) :
      Step table start (.underway seen (name ::ₘ work))
        (.underway (name :: seen) (table.reads name + work))

/-- The names that are still to be visited, with those that can still come up. -/
def remaining (table : Assignments) : LoopSearch → Nat
  | .underway seen work => work.card + table.pending seen + 1
  | .ended _ => 0

/-- What is known of a search under way: the names to be visited are reached from `start`, which
has not been seen, and whatever is read by `start` or a name seen is seen or to be visited. -/
structure Consistent (table : Assignments) (start : String) (seen : List String)
    (work : Multiset String) : Prop where
  reached : ∀ name ∈ work, TransGen table.Reads start name
  unseen : start ∉ seen
  covered : ∀ name ∈ start :: seen, ∀ other, table.Reads name other → other ∈ seen ∨ other ∈ work

/-- What is known of a search at any moment. -/
def Sound (table : Assignments) (start : String) : LoopSearch → Prop
  | .underway seen work => Consistent table start seen work
  | .ended found => found = true ↔ TransGen table.Reads start start

variable {table : Assignments} {start name : String} {seen : List String}
  {work : Multiset String} {search next : LoopSearch}

/-! ## Every search comes to an end -/

theorem Step.remaining_lt (hstep : Step table start search next) :
    next.remaining table < search.remaining table := by
  cases hstep with
  | exhaust | find => simp [remaining]
  | pass => simp [remaining]
  | visit _ hnew =>
      have hle := table.reads_add_pending_le hnew
      simp only [remaining, Multiset.card_add, Multiset.coe_card, Multiset.card_cons]
      omega

theorem step_wellFounded (table : Assignments) (start : String) :
    WellFounded fun next search => Step table start search next :=
  Subrelation.wf Step.remaining_lt (measure (remaining table)).wf

/-- A search under way can go on. -/
theorem exists_step (table : Assignments) (start : String) (seen : List String)
    (work : Multiset String) : ∃ next, Step table start (.underway seen work) next := by
  induction work using Multiset.induction with
  | empty => exact ⟨_, .exhaust⟩
  | cons name work =>
      by_cases hstart : name = start
      · subst hstart
        exact ⟨_, .find⟩
      · by_cases hseen : name ∈ seen
        · exact ⟨_, .pass hstart hseen⟩
        · exact ⟨_, .visit hstart hseen⟩

/-! ## What a search finds -/

namespace Consistent

theorem begin (table : Assignments) (start : String) :
    Consistent table start [] (table.reads start) where
  reached name hmem := .single (Multiset.mem_coe.mp hmem)
  unseen := List.not_mem_nil
  covered name hname other hreads := by
    obtain rfl : name = start := by simpa using hname
    exact .inr (Multiset.mem_coe.mpr hreads)

/-- With nothing left to visit, no path leads from `start` out of the names seen, and `start` is
not among them. -/
theorem not_looped (hsearch : Consistent table start seen 0) :
    ¬ TransGen table.Reads start start := by
  intro hloop
  have hstays : ∀ other, TransGen table.Reads start other → other ∈ seen := by
    intro other hpath
    induction hpath with
    | single hreads => simpa using hsearch.covered start List.mem_cons_self _ hreads
    | tail _ hreads ih => simpa using hsearch.covered _ (List.mem_cons_of_mem _ ih) _ hreads
  exact hsearch.unseen (hstays start hloop)

theorem pass (hsearch : Consistent table start seen (name ::ₘ work)) (hseen : name ∈ seen) :
    Consistent table start seen work where
  reached other hmem := hsearch.reached other (Multiset.mem_cons_of_mem hmem)
  unseen := hsearch.unseen
  covered first hfirst other hreads := by
    rcases hsearch.covered first hfirst other hreads with hold | hmem
    · exact .inl hold
    · rcases Multiset.mem_cons.mp hmem with rfl | hmem
      · exact .inl hseen
      · exact .inr hmem

theorem visit (hsearch : Consistent table start seen (name ::ₘ work)) (hne : name ≠ start) :
    Consistent table start (name :: seen) (table.reads name + work) where
  reached other hmem := by
    rcases Multiset.mem_add.mp hmem with hreads | hmem
    · exact (hsearch.reached name (Multiset.mem_cons_self _ _)).tail (Multiset.mem_coe.mp hreads)
    · exact hsearch.reached other (Multiset.mem_cons_of_mem hmem)
  unseen := by
    simp only [List.mem_cons, not_or]
    exact ⟨hne.symm, hsearch.unseen⟩
  covered first hfirst other hreads := by
    by_cases hname : first = name
    · -- What the new name reads is put to be visited.
      subst hname
      exact .inr (Multiset.mem_add.mpr (.inl (Multiset.mem_coe.mpr hreads)))
    · have hold : first ∈ start :: seen := by
        simp only [List.mem_cons, hname, false_or] at hfirst ⊢
        exact hfirst
      rcases hsearch.covered first hold other hreads with hold | hmem
      · exact .inl (List.mem_cons_of_mem _ hold)
      · rcases Multiset.mem_cons.mp hmem with rfl | hmem
        · exact .inl List.mem_cons_self
        · exact .inr (Multiset.mem_add.mpr (.inr hmem))

end Consistent

theorem Step.sound (hstep : Step table start search next) (hsound : search.Sound table start) :
    next.Sound table start := by
  cases hstep with
  | exhaust => exact iff_of_false Bool.false_ne_true hsound.not_looped
  | find => exact iff_of_true rfl (hsound.reached start (Multiset.mem_cons_self _ _))
  | pass _ hseen => exact hsound.pass hseen
  | visit hne _ => exact hsound.visit hne

/-- Whatever names are taken, what the search ends with is right. -/
theorem sound_of_run (hrun : ReflTransGen (Step table start) (begin table start) search) :
    search.Sound table start := by
  induction hrun with
  | refl => exact Consistent.begin table start
  | tail _ hstep ih => exact hstep.sound ih

end LoopSearch

/-! ## The search that is run -/

open LoopSearch

/-- Taking the names in the order of a list is one way to go through them. -/
theorem run_reaches (table : Assignments) (start : String) (seen work : List String) :
    ReflTransGen (Step table start) (.underway seen work)
      (.ended (table.reaches start seen work)) := by
  fun_induction table.reaches start seen work with
  | case1 => exact .single .exhaust
  | case2 =>
      rw [← Multiset.cons_coe]
      exact .single .find
  | case3 seen name work hne hseen ih =>
      rw [← Multiset.cons_coe]
      exact .head (.pass hne hseen) ih
  | case4 seen name work hne hnew ih =>
      rw [← Multiset.coe_add] at ih
      rw [← Multiset.cons_coe]
      exact .head (.visit hne hnew) ih

/-- The search finds exactly the signals that reach themselves in one or more steps. -/
theorem isLooped_iff (table : Assignments) (name : String) :
    table.isLooped name = true ↔ TransGen table.Reads name name :=
  sound_of_run (run_reaches table name [] (table.reads name))

/-- Searching for a loop comes to an end, whichever of the names to be visited is taken each time,
and all these searches, the one that is run among them, end with the same answer: whether the
signal reaches itself in one or more steps from a signal of the table to a wire or node that its
value refers to. -/
theorem isLooped_decides_loops (table : Assignments) (start : String) :
    (WellFounded fun next search => Step table start search next) ∧
      (∀ search, (∃ next, Step table start search next) ∨ ∃ found, search = .ended found) ∧
      (∀ found, ReflTransGen (Step table start) (begin table start) (.ended found) ↔
        found = table.isLooped start) ∧
      (table.isLooped start = true ↔
        TransGen (fun name other => ∃ value, table.lookup name = some value ∧
          ∃ r : Ref, .ref r ∈ value.nodes ∧ r.kind.isLocal = true ∧ r.name = other)
          start start) := by
  refine ⟨step_wellFounded table start, ?_, ?_, ?_⟩
  · intro search
    cases search with
    | underway seen work => exact .inl (exists_step table start seen work)
    | ended found => exact .inr ⟨found, rfl⟩
  · intro found
    constructor
    · intro hrun
      rw [Bool.eq_iff_iff, isLooped_iff]
      exact sound_of_run hrun
    · rintro rfl
      exact run_reaches table start [] (table.reads start)
  · rw [isLooped_iff]
    have hsame : table.Reads = fun name other => ∃ value, table.lookup name = some value ∧
        ∃ r : Ref, .ref r ∈ value.nodes ∧ r.kind.isLocal = true ∧ r.name = other := by
      funext name other
      exact propext reads_iff
    rw [hsame]

end Assignments

end Rtl
