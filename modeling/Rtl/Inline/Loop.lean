import Rtl.Inline.Assignment

/-! # Combinational loops

A signal is on a loop if its value reads it, directly or through the values of others. The
search keeps a list of names still to visit and visits each name once.
-/

namespace Rtl

/-- The wires and nodes that an expression mentions, in preorder. -/
def Expr.locals (e : Expr) : List String :=
  e.nodes.filterMap fun
    | .ref r => if r.kind.isLocal then some r.name else none
    | _ => none

namespace Assignments

/-- The wires and nodes in the value of a signal, if it has one. -/
def reads (table : Assignments) (name : String) : List String :=
  ((table.lookup name).map Expr.locals).getD []

/-- How many names the values of the signals not yet seen can still bring up. -/
def pending : Assignments → (seen : List String) → Nat
  | [], _ => 0
  | (name, value) :: table, seen =>
      (if name ∈ seen then 0 else value.locals.length) + pending table seen

theorem pending_cons_le (table : Assignments) (seen : List String) (name : String) :
    table.pending (name :: seen) ≤ table.pending seen := by
  induction table with
  | nil => simp [pending]
  | cons entry table ih =>
      simp only [pending, List.mem_cons]
      grind

theorem reads_add_pending_le (table : Assignments) {seen : List String} {name : String}
    (hnew : name ∉ seen) :
    (table.reads name).length + table.pending (name :: seen) ≤ table.pending seen := by
  induction table with
  | nil => simp [pending, reads]
  | cons entry table ih =>
      obtain ⟨key, value⟩ := entry
      by_cases hkey : name = key
      · subst hkey
        have hle := pending_cons_le table seen name
        simp [pending, reads, hnew]
        omega
      · have hlookup : (name == key) = false := by simpa using hkey
        simp only [pending, reads, List.lookup_cons, hlookup, List.mem_cons, Ne.symm hkey,
          false_or] at ih ⊢
        omega

/-- Whether `start` can be reached from one of the names in `work`, through the values of
signals that are not yet seen. -/
def reaches (table : Assignments) (start : String) (seen : List String) : List String → Bool
  | [] => false
  | name :: work =>
      if name = start then true
      else if _hseen : name ∈ seen then table.reaches start seen work
      else table.reaches start (name :: seen) (table.reads name ++ work)
termination_by work => work.length + table.pending seen
decreasing_by
  · simp
  · have := reads_add_pending_le table ‹name ∉ seen›
    simp
    omega

/-- Whether a signal is on a loop. -/
def isLooped (table : Assignments) (name : String) : Bool :=
  table.reaches name [] (table.reads name)

/-- The assignments whose signals are on no loop. -/
def unlooped (table : Assignments) : Assignments :=
  table.filter fun entry => !table.isLooped entry.1

end Assignments

end Rtl
