import Rtl.Inline.Substitution
import Rtl.Proofs.Acyclic
import Rtl.Proofs.Leaves
import Rtl.Proofs.Walk

/-! # Inlining without memory

The value that a candidate stands for is its own value with the reads of candidates replaced
in turn. The inliner, which remembers the values it has worked out, replaces every read by
exactly this value, in whatever order it comes to need them.
-/

namespace Rtl

namespace Expr

/-- Replace a read of a wire or node that `values` knows. -/
def replaceRead (values : String → Option Expr) : Expr → Expr
  | .ref r => if r.isLocalRead then (values r.name).getD (.ref r) else .ref r
  | e => e

/-- Replace every read that `values` knows, all at once. -/
def replaceReads (values : String → Option Expr) : Expr → Expr :=
  bottomUp (replaceRead values)

theorem replaceReads_ref (values : String → Option Expr) (r : Ref) :
    (Expr.ref r).replaceReads values =
      if r.isLocalRead then (values r.name).getD (.ref r) else .ref r := rfl

theorem replaceReads_of_ne_ref (values : String → Option Expr) {e : Expr}
    (hne : ∀ r, e ≠ .ref r) : e.replaceReads values = e.mapChildren (replaceReads values) := by
  rw [replaceReads, bottomUp_eq]
  cases e with
  | ref r => exact absurd rfl (hne r)
  | _ => rfl

/-- To prove something of all expressions, prove it of references, and of other expressions
from their operands. -/
theorem refInduction {motive : Expr → Prop} (ref : ∀ r, motive (.ref r))
    (step : ∀ e, (∀ r, e ≠ .ref r) → (∀ d ∈ e.children, motive d) → motive e) (e : Expr) :
    motive e := by
  induction e using induction with
  | step e ih =>
      by_cases href : ∃ r, e = .ref r
      · obtain ⟨r, rfl⟩ := href
        exact ref r
      · exact step e (fun r heq => href ⟨r, heq⟩) ih

theorem replaceReads_congr {values others : String → Option Expr} {e : Expr}
    (heq : ∀ name ∈ e.locals, values name = others name) :
    e.replaceReads values = e.replaceReads others := by
  induction e using refInduction with
  | ref r =>
      rw [replaceReads_ref, replaceReads_ref]
      cases hread : r.isLocalRead with
      | false => rfl
      | true =>
          have hlocal : r.kind.isLocal = true := by
            simp only [Ref.isLocalRead, Bool.and_eq_true] at hread
            exact hread.2
          rw [heq r.name (mem_locals_iff.mpr ⟨r, mem_nodes_self _, hlocal, rfl⟩)]
  | step e hne ih =>
      rw [replaceReads_of_ne_ref values hne, replaceReads_of_ne_ref others hne]
      apply mapChildren_congr
      intro d hchild
      apply ih d hchild
      intro name hmem
      obtain ⟨r, hnode, hr⟩ := mem_locals_iff.mp hmem
      exact heq name (mem_locals_iff.mpr ⟨r, mem_nodes_of_mem_children hchild hnode, hr⟩)

theorem replaceReads_none (e : Expr) : e.replaceReads (fun _ => none) = e := by
  induction e using refInduction with
  | ref r => rw [replaceReads_ref]; split <;> rfl
  | step e hne ih => rw [replaceReads_of_ne_ref _ hne, mapChildren_eq_self ih]

end Expr

namespace Assignments

/-- The value of a signal with all reads replaced, where values that read each other are
followed `depth` deep. -/
def expand? (table : Assignments) : (depth : Nat) → (name : String) → Option Expr
  | 0, _ => none
  | depth + 1, name => (table.lookup name).map (Expr.replaceReads (table.expand? depth))

/-- The value that a signal stands for. -/
def inlined? (table : Assignments) (name : String) : Option Expr :=
  table.expand? table.length name

theorem Settled.expand?_succ {table : Assignments} {depth : Nat} {name : String}
    (hsettled : table.Settled depth name) :
    table.expand? (depth + 1) name = table.expand? depth name := by
  induction depth generalizing name with
  | zero =>
      have hnone : table.lookup name = none := hsettled
      simp [expand?, hnone]
  | succ depth ih =>
      rw [expand?, expand?]
      cases hlookup : table.lookup name with
      | none => rfl
      | some value =>
          have heq : value.replaceReads (table.expand? (depth + 1)) =
              value.replaceReads (table.expand? depth) := by
            apply Expr.replaceReads_congr
            intro other hmem
            exact ih (hsettled other (by simpa [Reads, reads, hlookup] using hmem))
          simp [heq]

/-- Without loops, the depth of the table is enough. -/
theorem Acyclic.inlined?_eq {table : Assignments} (hacyclic : table.Acyclic) (name : String) :
    table.inlined? name = (table.lookup name).map (Expr.replaceReads table.inlined?) := by
  rw [inlined?, ← (hacyclic.settled name).expand?_succ]
  rfl

end Assignments

namespace Inline

/-- Every value that is remembered is the one its signal stands for. -/
def Memo.Sound (table : Assignments) (memo : Memo) : Prop :=
  ∀ name value, memo.resolved.lookup name = some value → table.inlined? name = some value

theorem Memo.sound_empty (table : Assignments) : Memo.Sound table {} := by
  intro name value hlookup
  simp at hlookup

theorem Memo.Sound.insert {table : Assignments} {memo : Memo} (hsound : memo.Sound table)
    {name : String} {value : Expr} (hvalue : table.inlined? name = some value) :
    Memo.Sound table { memo with resolved := (name, value) :: memo.resolved } := by
  intro other stored hlookup
  rw [List.lookup_cons] at hlookup
  by_cases heq : other = name
  · subst heq
    simp only [beq_self_eq_true, Option.some.injEq] at hlookup
    rw [hvalue, hlookup]
  · have hbeq : (other == name) = false := by simpa using heq
    simp only [hbeq] at hlookup
    exact hsound other stored hlookup

theorem computes_replaceRead {table : Assignments}
    {resolve : String → StateM Memo (Option Expr)} {values : String → Option Expr} {r : Ref}
    (hresolve : r.isLocalRead = true → Computes (Memo.Sound table) (resolve r.name)
      (values r.name)) :
    Computes (Memo.Sound table) (replaceRead resolve (.ref r))
      (Expr.replaceRead values (.ref r)) := by
  simp only [replaceRead, Expr.replaceRead]
  cases hread : r.isLocalRead with
  | false => exact Computes.pure _
  | true =>
      simp only [↓reduceIte]
      refine (hresolve hread).bind ?_
      cases values r.name with
      | none => exact Computes.pure _
      | some value =>
          -- Counting the read leaves the remembered values alone.
          intro memo hsound
          exact ⟨rfl, hsound⟩

theorem computes_replaceReads {table : Assignments}
    {resolve : String → StateM Memo (Option Expr)} {values : String → Option Expr} {e : Expr}
    (hresolve : ∀ name ∈ e.locals, Computes (Memo.Sound table) (resolve name) (values name)) :
    Computes (Memo.Sound table) (e.bottomUpM (replaceRead resolve)) (e.replaceReads values) := by
  apply Computes.bottomUpM
  intro d hmem
  cases d with
  | ref r =>
      apply computes_replaceRead
      intro hread
      simp only [Ref.isLocalRead, Bool.and_eq_true] at hread
      exact hresolve r.name (Expr.mem_locals_iff.mpr ⟨r, hmem, hread.2, rfl⟩)
  | _ => exact Computes.pure _

section Run

variable {table : Assignments} {memo : Memo} {name : String}

theorem run_resolve_known {value : Expr} (depth : Nat)
    (hknown : memo.resolved.lookup name = some value) :
    (resolve table (depth + 1) name).run memo = (some value, memo) := by
  simp [resolve, hknown]
  rfl

theorem run_resolve_unassigned (depth : Nat) (hknown : memo.resolved.lookup name = none)
    (hlookup : table.lookup name = none) :
    (resolve table (depth + 1) name).run memo = (none, memo) := by
  simp [resolve, hknown, hlookup]
  rfl

/-- A value that is needed for the first time is worked out and put in front. -/
theorem run_resolve_fresh {value inlined : Expr} {depth : Nat} {after : Memo}
    (hknown : memo.resolved.lookup name = none) (hlookup : table.lookup name = some value)
    (hrun : (value.bottomUpM (replaceRead (resolve table depth))).run memo = (inlined, after)) :
    (resolve table (depth + 1) name).run memo =
      (some inlined, { after with resolved := (name, inlined) :: after.resolved }) := by
  simp [resolve, hknown, hlookup, hrun]
  rfl

end Run

/-- Looking a value up, or working it out and remembering it, gives what the signal stands
for, provided the depth left is enough. -/
theorem computes_resolve {table : Assignments} (hacyclic : table.Acyclic) {depth : Nat}
    {name : String} (hsettled : table.Settled depth name) :
    Computes (Memo.Sound table) (resolve table depth name) (table.inlined? name) := by
  induction depth generalizing name with
  | zero =>
      have hnone : table.inlined? name = none := by
        rw [hacyclic.inlined?_eq, show table.lookup name = none from hsettled]
        rfl
      rw [hnone]
      exact Computes.pure _
  | succ depth ih =>
      intro memo hsound
      cases hknown : memo.resolved.lookup name with
      | some value =>
          rw [run_resolve_known depth hknown]
          exact ⟨(hsound name value hknown).symm, hsound⟩
      | none =>
          cases hlookup : table.lookup name with
          | none =>
              rw [run_resolve_unassigned depth hknown hlookup, hacyclic.inlined?_eq, hlookup]
              exact ⟨rfl, hsound⟩
          | some value =>
              have hinlined : table.inlined? name = some (value.replaceReads table.inlined?) := by
                rw [hacyclic.inlined?_eq, hlookup]
                rfl
              -- What the value reads is settled one step earlier.
              have hreads : ∀ other ∈ value.locals,
                  Computes (Memo.Sound table) (resolve table depth other)
                    (table.inlined? other) := by
                intro other hmem
                exact ih (hsettled other (by simpa [Assignments.Reads, Assignments.reads, hlookup]
                  using hmem))
              obtain ⟨hvalue, hsound⟩ := computes_replaceReads hreads memo hsound
              rw [← hvalue] at hinlined
              rw [run_resolve_fresh hknown hlookup rfl, hinlined]
              exact ⟨rfl, hsound.insert hinlined⟩

theorem computes_substitute {table : Assignments} (hacyclic : table.Acyclic) (e : Expr) :
    Computes (Memo.Sound table) (substitute table e) (e.replaceReads table.inlined?) :=
  computes_replaceReads fun name _ => computes_resolve hacyclic (hacyclic.settled name)

/-! ## Statements -/

/-- What becomes of a statement that is not a block. -/
def inlineLeaf (table : Assignments) (s : Stmt) : Stmt :=
  if isAbsorbed table s then .skip else s.mapExprs (Expr.replaceReads table.inlined?)

theorem isBlock_inlineLeaf (table : Assignments) (s : Stmt) (hleaf : s.isBlock = false) :
    (inlineLeaf table s).isBlock = false := by
  rw [inlineLeaf]
  split
  · rfl
  · rw [Stmt.isBlock_mapExprs]
    exact hleaf

theorem inlineStmts_eq (table : Assignments) (ss : List Stmt) :
    inlineStmts table ss = ss.mapM (inlineStmt table) := by
  induction ss with
  | nil => simp [inlineStmts]
  | cons s ss ih => simp [inlineStmts, ih]

theorem inlineStmt_of_not_block (table : Assignments) {s : Stmt} (hleaf : s.isBlock = false) :
    inlineStmt table s =
      if isAbsorbed table s then return .skip else s.mapExprsM (substitute table) := by
  cases s with
  | block => simp [Stmt.isBlock] at hleaf
  | _ => simp only [inlineStmt]

theorem computes_inlineStmt {table : Assignments} (hacyclic : table.Acyclic) (s : Stmt) :
    Computes (Memo.Sound table) (inlineStmt table s) (s.mapLeaves (inlineLeaf table)) := by
  induction s using Stmt.leafInduction with
  | leaf s hleaf =>
      rw [inlineStmt_of_not_block table hleaf, Stmt.mapLeaves_of_not_block _ hleaf, inlineLeaf]
      split
      · exact Computes.pure _
      · exact Computes.mapExprsM fun e _ => computes_substitute hacyclic e
  | block body ih =>
      rw [inlineStmt, Stmt.mapLeaves, inlineStmts_eq, Stmt.mapLeavesAll_eq]
      exact (Computes.mapM ih).bind (Computes.pure _)

theorem computes_inlineStmts {table : Assignments} (hacyclic : table.Acyclic) (ss : List Stmt) :
    Computes (Memo.Sound table) (inlineStmts table ss)
      (Stmt.mapLeavesAll (inlineLeaf table) ss) := by
  rw [inlineStmts_eq, Stmt.mapLeavesAll_eq]
  exact Computes.mapM fun s _ => computes_inlineStmt hacyclic s

theorem inlineLeaf_nil (s : Stmt) : inlineLeaf [] s = s := by
  have hkept : isAbsorbed [] s = false := by
    unfold isAbsorbed
    split <;> rfl
  rw [inlineLeaf, hkept]
  exact Stmt.mapExprs_eq_self fun e _ => Expr.replaceReads_none e

end Inline

namespace Module

theorem candidates_acyclic (module : Module) : module.candidates.value.Acyclic :=
  Assignments.select_acyclic _

theorem body_substitute {table : Assignments} (hacyclic : table.Acyclic) (module : Module) :
    (module.substitute table).value.body =
      Stmt.mapLeavesAll (Inline.inlineLeaf table) module.body :=
  (Inline.computes_inlineStmts hacyclic module.body {} (Inline.Memo.sound_empty _)).1

/-- Inlining replaces leaf by leaf, every one by itself. -/
theorem inlineAssignments_body (module : Module) :
    module.inlineAssignments.value.body =
      Stmt.mapLeavesAll (Inline.inlineLeaf module.candidates.value) module.body := by
  rw [inlineAssignments, Logged.value_bind]
  split
  next hempty =>
    rw [List.isEmpty_iff.mp hempty]
    exact (Stmt.mapLeavesAll_eq_self fun s _ => Inline.inlineLeaf_nil s).symm
  next => exact body_substitute module.candidates_acyclic module

end Module

end Rtl
