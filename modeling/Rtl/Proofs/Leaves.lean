import Mathlib.Data.List.Forall2
import Rtl.Circuit
import Rtl.Proofs.Walk

/-! # Statements that are not blocks

Passes go through blocks and act on the statements in them. What a pass does to a module is
said by what it does to each of these *leaves*; the blocks around them stay. What it does to
a leaf that it keeps is said by what it does to the expressions in it.
-/

namespace Rtl.Stmt

def isBlock : Stmt → Bool
  | .block _ => true
  | _ => false

def isAttach : Stmt → Bool
  | .attach _ => true
  | _ => false

mutual

/-- The statements that are not blocks, in order. Empty ones are included. -/
def leaves : Stmt → List Stmt
  | .block body => leavesAll body
  | s => [s]

def leavesAll : List Stmt → List Stmt
  | [] => []
  | s :: ss => s.leaves ++ leavesAll ss

end

mutual

/-- Replace every leaf. -/
def mapLeaves (f : Stmt → Stmt) : Stmt → Stmt
  | .block body => .block (mapLeavesAll f body)
  | s => f s

def mapLeavesAll (f : Stmt → Stmt) : List Stmt → List Stmt
  | [] => []
  | s :: ss => s.mapLeaves f :: mapLeavesAll f ss

end

mutual

/-- The blocks of two statements correspond, and so do their leaves, one by one. -/
def Leafwise (related : Stmt → Stmt → Prop) : Stmt → Stmt → Prop
  | .block body, .block others => LeafwiseAll related body others
  | .block _, _ => False
  | s, t => related s t

def LeafwiseAll (related : Stmt → Stmt → Prop) : List Stmt → List Stmt → Prop
  | [], [] => True
  | s :: ss, t :: ts => s.Leafwise related t ∧ LeafwiseAll related ss ts
  | _, _ => False

end

/-- The location that a statement drives or invalidates. -/
def sink? : Stmt → Option Expr
  | .connect sink _ => some sink
  | .invalidate target => some target
  | _ => none

/-- The statement with its expressions blanked out. -/
def outline (s : Stmt) : Stmt :=
  s.mapExprs fun _ => default

/-- The statements differ in nothing but the expressions they hold, and these are related one
by one. -/
structure Agree (same : Expr → Expr → Prop) (s t : Stmt) : Prop where
  outline : t.outline = s.outline
  exprs : List.Forall₂ same s.exprs t.exprs

theorem mem_exprs_of_mem_sink? {s : Stmt} {e : Expr} (hmem : e ∈ s.sink?) : e ∈ s.exprs := by
  cases s <;> simp_all [sink?, exprs]

@[simp] theorem isBlock_mapExprs (f : Expr → Expr) (s : Stmt) :
    (s.mapExprs f).isBlock = s.isBlock := by
  cases s <;> rfl

theorem agree_mapExprs {same : Expr → Expr → Prop} {f : Expr → Expr} {s : Stmt}
    (hsame : ∀ e ∈ s.exprs, same e (f e)) : s.Agree same (s.mapExprs f) := by
  refine ⟨?_, ?_⟩
  · rw [Stmt.outline, mapExprs_mapExprs, Stmt.outline]
  · rw [exprs_mapExprs, List.forall₂_map_right_iff, List.forall₂_same]
    exact hsame

/-- To prove something of all statements, prove it of leaves, and of a block from the
statements in it. -/
theorem leafInduction {motive : Stmt → Prop} (leaf : ∀ s, s.isBlock = false → motive s)
    (block : ∀ body, (∀ s ∈ body, motive s) → motive (.block body)) (s : Stmt) : motive s :=
  match s with
  | .block body => block body fun t _hmem => leafInduction leaf block t
  | .connect .. | .invalidate _ | .attach _ | .wire .. | .node .. | .register .. | .print ..
  | .skip => leaf _ rfl
termination_by sizeOf s
decreasing_by
  have hlt := List.sizeOf_lt_of_mem _hmem
  simp only [Stmt.block.sizeOf_spec]
  omega

theorem leavesAll_eq (ss : List Stmt) : leavesAll ss = ss.flatMap leaves := by
  induction ss with
  | nil => rfl
  | cons s ss ih => simp [leavesAll, ih]

theorem leaves_of_not_block {s : Stmt} (hleaf : s.isBlock = false) : s.leaves = [s] := by
  cases s <;> simp_all [leaves, isBlock]

theorem isBlock_of_mem_leaves {s t : Stmt} (hmem : t ∈ s.leaves) : t.isBlock = false := by
  induction s using leafInduction with
  | leaf s hleaf =>
      rw [leaves_of_not_block hleaf, List.mem_singleton] at hmem
      exact hmem ▸ hleaf
  | block body ih =>
      rw [leaves, leavesAll_eq, List.mem_flatMap] at hmem
      obtain ⟨s, hs, ht⟩ := hmem
      exact ih s hs ht

theorem mapLeavesAll_eq (f : Stmt → Stmt) (ss : List Stmt) :
    mapLeavesAll f ss = ss.map (mapLeaves f) := by
  induction ss with
  | nil => rfl
  | cons s ss ih => simp [mapLeavesAll, ih]

theorem mapLeaves_of_not_block (f : Stmt → Stmt) {s : Stmt} (hleaf : s.isBlock = false) :
    s.mapLeaves f = f s := by
  cases s <;> simp_all [mapLeaves, isBlock]

/-- Replacing leaves by leaves replaces them in the list of leaves. -/
theorem leaves_mapLeaves {f : Stmt → Stmt} (hleaf : ∀ s, s.isBlock = false → (f s).isBlock = false)
    (s : Stmt) : (s.mapLeaves f).leaves = s.leaves.map f := by
  induction s using leafInduction with
  | leaf s h =>
      rw [mapLeaves_of_not_block f h, leaves_of_not_block h, leaves_of_not_block (hleaf s h)]
      rfl
  | block body ih =>
      rw [mapLeaves, leaves, leaves, leavesAll_eq, leavesAll_eq, mapLeavesAll_eq, List.flatMap_map,
        List.map_flatMap]
      exact List.flatMap_congr ih

theorem leavesAll_mapLeavesAll {f : Stmt → Stmt}
    (hleaf : ∀ s, s.isBlock = false → (f s).isBlock = false) (ss : List Stmt) :
    leavesAll (mapLeavesAll f ss) = (leavesAll ss).map f := by
  have hblock := leaves_mapLeaves hleaf (.block ss)
  rwa [mapLeaves, leaves, leaves] at hblock

theorem mapLeaves_eq_self {f : Stmt → Stmt} {s : Stmt} (heq : ∀ t ∈ s.leaves, f t = t) :
    s.mapLeaves f = s := by
  induction s using leafInduction with
  | leaf s hleaf =>
      rw [mapLeaves_of_not_block f hleaf]
      exact heq s (by simp [leaves_of_not_block hleaf])
  | block body ih =>
      rw [mapLeaves, mapLeavesAll_eq]
      have hbody : body.map (mapLeaves f) = body.map id := by
        apply List.map_congr_left
        intro s hmem
        apply ih s hmem
        intro t ht
        exact heq t (by rw [leaves, leavesAll_eq]; exact List.mem_flatMap.mpr ⟨s, hmem, ht⟩)
      rw [hbody, List.map_id]

theorem mapLeavesAll_eq_self {f : Stmt → Stmt} {ss : List Stmt}
    (heq : ∀ t ∈ leavesAll ss, f t = t) : mapLeavesAll f ss = ss := by
  have hblock := mapLeaves_eq_self (s := .block ss) heq
  rwa [mapLeaves, Stmt.block.injEq] at hblock

theorem leafwiseAll_iff (related : Stmt → Stmt → Prop) (ss ts : List Stmt) :
    LeafwiseAll related ss ts ↔ List.Forall₂ (Leafwise related) ss ts := by
  induction ss generalizing ts with
  | nil => cases ts <;> simp [LeafwiseAll]
  | cons s ss ih => cases ts <;> simp [LeafwiseAll, ih]

theorem leafwise_of_not_block {related : Stmt → Stmt → Prop} {s t : Stmt}
    (hleaf : s.isBlock = false) (hrelated : related s t) : s.Leafwise related t := by
  cases s with
  | block => simp [isBlock] at hleaf
  | _ => simpa [Leafwise] using hrelated

theorem leafwise_mapLeaves {related : Stmt → Stmt → Prop} {f : Stmt → Stmt} {s : Stmt}
    (hrelated : ∀ t ∈ s.leaves, related t (f t)) : s.Leafwise related (s.mapLeaves f) := by
  induction s using leafInduction with
  | leaf s hleaf =>
      rw [mapLeaves_of_not_block f hleaf]
      exact leafwise_of_not_block hleaf (hrelated s (by simp [leaves_of_not_block hleaf]))
  | block body ih =>
      rw [mapLeaves, mapLeavesAll_eq, Leafwise, leafwiseAll_iff, List.forall₂_map_right_iff,
        List.forall₂_same]
      intro s hmem
      apply ih s hmem
      intro t ht
      exact hrelated t (by rw [leaves, leavesAll_eq]; exact List.mem_flatMap.mpr ⟨s, hmem, ht⟩)

theorem leafwiseAll_mapLeavesAll {related : Stmt → Stmt → Prop} {f : Stmt → Stmt}
    {ss : List Stmt} (hrelated : ∀ t ∈ leavesAll ss, related t (f t)) :
    LeafwiseAll related ss (mapLeavesAll f ss) := by
  have hblock := leafwise_mapLeaves (s := .block ss) hrelated
  rwa [mapLeaves, Leafwise] at hblock

/-- The leaves that are not empty are the statements of the flattened block. -/
theorem flatten_eq (s : Stmt) : s.flatten = s.leaves.filter fun t => !t.isSkip := by
  induction s using leafInduction with
  | leaf s hleaf => cases s <;> simp_all [flatten, leaves, isSkip, isBlock]
  | block body ih =>
      rw [flatten, leaves, flattenAll_eq, leavesAll_eq, List.filter_flatMap]
      exact List.flatMap_congr ih

theorem flattenAll_eq_filter (ss : List Stmt) :
    flattenAll ss = (leavesAll ss).filter fun t => !t.isSkip :=
  flatten_eq (.block ss)

theorem mem_flattenAll {s : Stmt} {ss : List Stmt} :
    s ∈ flattenAll ss ↔ s ∈ leavesAll ss ∧ s ≠ .skip := by
  rw [flattenAll_eq_filter, List.mem_filter]
  refine and_congr_right fun _ => ?_
  cases s <;> simp [isSkip]

end Rtl.Stmt
