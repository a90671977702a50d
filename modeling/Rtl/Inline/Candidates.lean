import Rtl.Inline.Loop
import Rtl.Inline.Size
import Rtl.Log

/-! # Candidates for inlining

The single assignments of a module, less the signals on combinational loops, less the
signals whose values would grow beyond the limit.
-/

namespace Rtl

/-- The candidates among some assignments, and why the others are none. -/
structure Selection where
  looped : List String
  oversized : Sizes
  candidates : Assignments

namespace Assignments

def select (table : Assignments) : Selection :=
  let unlooped := table.unlooped
  let oversized := unlooped.oversized
  { looped := (table.filter fun entry => table.isLooped entry.1).map Prod.fst
    oversized
    candidates := unlooped.filter fun entry => (oversized.lookup entry.1).isNone }

end Assignments

namespace Selection

def records (selection : Selection) : List Record :=
  (selection.looped.map fun name =>
    ⟨.debug, .inlining, "inline-single-assignment: `" ++ name ++
      "` is part of a combinational loop, not inlining it"⟩) ++
  (selection.oversized.map fun (name, size) =>
    ⟨.debug, .inlining, "inline-single-assignment: `" ++ name ++ "` would expand to " ++
      toString size ++ " expression(s), keeping it"⟩)

end Selection

def Module.selection (module : Module) : Selection :=
  (singleAssignments module.writes).select

/-- The signals that inlining removes, with the values they are assigned. -/
def Module.candidates (module : Module) : Logged Assignments :=
  let selection := module.selection
  ⟨selection.candidates, selection.records⟩

end Rtl
