import Rtl.Inline.Assignment

/-! # The size of inlined values

The size of a value is the number of its subexpressions once every signal that it reads has
been replaced in turn. A signal whose value would grow beyond the limit is not replaced, so a
read of it counts as the one reference that it stays.
-/

namespace Rtl

/-- A read of a wire or node. -/
def Ref.isLocalRead (r : Ref) : Bool :=
  r.facing == .read && r.kind.isLocal

/-- The largest value that a signal may be replaced by. -/
def maxInlinedSize : Nat := 128

/-- Sizes that have been worked out. -/
abbrev Sizes := List (String × Nat)

namespace Assignments

/-- The contribution of a subexpression, its operands aside. -/
def weightM (table : Assignments) (size : String → StateM Sizes Nat) : Expr → StateM Sizes Nat
  | .ref r => do
      if r.isLocalRead && table.contains r.name then
        let inlined ← size r.name
        return if maxInlinedSize < inlined then 1 else inlined
      else return 1
  | _ => return 1

/-- The size of the value of `name`, looked up or else worked out and remembered. Values that
read each other are followed `depth` deep. -/
def sizeM (table : Assignments) : (depth : Nat) → (name : String) → StateM Sizes Nat
  | 0, _ => return 1
  | depth + 1, name => do
      match (← get).lookup name with
      | some size => return size
      | none =>
          let weights ← match table.lookup name with
            | none => pure [1]
            | some value => value.nodes.mapM (table.weightM (table.sizeM depth))
          let size := weights.foldr (· + ·) 0
          modify ((name, size) :: ·)
          return size

/-- The sizes of all values. Without loops, no chain of values is longer than the table. -/
def sizes (table : Assignments) : Sizes :=
  ((table.forM fun entry => discard (table.sizeM table.length entry.1)).run []).2

/-- The signals whose values are over the limit, with the size of the value. -/
def oversized (table : Assignments) : Sizes :=
  let sizes := table.sizes
  table.filterMap fun entry =>
    match sizes.lookup entry.1 with
    | some size => if maxInlinedSize < size then some (entry.1, size) else none
    | none => none

end Assignments

end Rtl
