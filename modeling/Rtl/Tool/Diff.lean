/-! # Line differences

Two texts are aligned along a longest common subsequence of their lines. Lines that the
texts begin and end with in common are set aside first. Among equally good alignments, what
is added stands as late as possible.
-/

namespace Rtl.Diff

inductive Change where
  | removed (line : String)
  | kept (line : String)
  | added (line : String)
deriving DecidableEq

/-- From the lengths of longest common subsequences of a list with each tail of `ys`, the
same for the list with `x` in front. -/
def extendRow (x : String) : (ys : List String) → (row : List Nat) → List Nat
  | [], _ => [0]
  | y :: ys, row =>
      let rest := extendRow x ys row.tail
      let here := if x = y then row.tail.headD 0 + 1 else max (row.headD 0) (rest.headD 0)
      here :: rest

/-- The length of a longest common subsequence. -/
def commonLength (xs ys : List String) : Nat :=
  (xs.foldr (fun x row => extendRow x ys row) (List.replicate (ys.length + 1) 0)).headD 0

/-- Align two lists of lines that are given, and aligned, from the last line to the first. -/
def alignBack : List String → List String → List Change
  | [], [] => []
  | [], y :: ys => .added y :: alignBack [] ys
  | x :: xs, [] => .removed x :: alignBack xs []
  | x :: xs, y :: ys =>
      let length := commonLength (x :: xs) (y :: ys)
      if length = commonLength (x :: xs) ys then .added y :: alignBack (x :: xs) ys
      else if length = commonLength xs (y :: ys) then .removed x :: alignBack xs (y :: ys)
      else .kept x :: alignBack xs ys
termination_by xs ys => xs.length + ys.length

/-- The longest common beginning of two lists, and what follows it in each. -/
def splitCommon : List String → List String → List String × List String × List String
  | x :: xs, y :: ys =>
      if x = y then
        let (common, xs, ys) := splitCommon xs ys
        (x :: common, xs, ys)
      else ([], x :: xs, y :: ys)
  | xs, ys => ([], xs, ys)

def changes (before after : List String) : List Change :=
  let (leading, before, after) := splitCommon before after
  let (trailing, before, after) := splitCommon before.reverse after.reverse
  leading.map .kept ++ (alignBack before after).reverse ++ (trailing.reverse.map .kept)

end Rtl.Diff
