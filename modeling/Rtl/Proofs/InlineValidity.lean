import Rtl.Proofs.Replacement
import Rtl.Proofs.Validity
import Rtl.Sample

/-! # Inlining keeps circuits valid

Where references carry the types that signals are declared with, a value has the type of the
reads that it replaces. Values come from positions that are read, and only reads are replaced:
sources stay sources, and sinks keep their roots.
-/

namespace Rtl

/-- The indices along a chain are replaced one by one. -/
theorem Expr.indices_replaceReads {values : String → Option Expr} {e : Expr}
    (hroot : e.root?.isSome = true)
    (hkept : ∀ r ∈ e.root?, r.isLocalRead = true → values r.name = none) :
    (e.replaceReads values).indices = e.indices.map (replaceReads values) := by
  induction e using refInduction with
  | ref r =>
      rw [replaceReads_ref_eq_self (hkept r rfl)]
      rfl
  | step e hne ih =>
      rw [replaceReads_of_ne_ref values hne]
      cases e with
      | subField base | subIndex base => exact ih base (by simp [children]) hroot hkept
      | subAccess base index =>
          simp only [mapChildren, indices, List.map_cons]
          rw [ih base (by simp [children]) hroot hkept]
      | ref r => exact absurd rfl (hne r)
      | _ => simp [root?] at hroot

namespace Module

/-- What makes a value fit to replace the reads of a signal. -/
structure Fits (module : Module) (name : String) (value : Expr) : Prop where
  ty : ∀ r ∈ module.refs, r.name = name → value.ty = r.ty
  source : value.ValidSource
  noPlaceholder : value.NoPlaceholder

section Replace

variable {module : Module} {values : String → Option Expr}
  (hfits : ∀ name value, values name = some value → module.Fits name value)
include hfits

theorem typesReads_of_fits : module.TypesReads values :=
  fun name value hvalue => (hfits name value hvalue).ty

theorem accessesValid_replaceReads {e : Expr} (hmentions : module.Mentions e)
    (hvalid : e.AccessesValid) : (e.replaceReads values).AccessesValid := by
  intro d hmem
  rcases Expr.mem_nodes_replaceReads hmem with ⟨c, hc, rfl⟩ | ⟨name, value, hvalue, hd⟩
  · rw [Expr.isValidAccess_mapChildren]
    · exact hvalid c hc
    · intro child hchild
      have hnode := Expr.mem_nodes_of_mem_children hchild child.mem_nodes_self
      exact (typesReads_of_fits hfits).ty_replaceReads
        (hmentions.of_mem_nodes (Expr.mem_nodes_trans hc hnode))
  · exact (hfits name value hvalue).source.accesses d hd

theorem readsOnly_replaceReads {e : Expr} (hreads : e.ReadsOnly) :
    (e.replaceReads values).ReadsOnly := by
  intro d hmem
  rcases Expr.mem_nodes_replaceReads hmem with ⟨c, hc, rfl⟩ | ⟨name, value, hvalue, hd⟩
  · rw [Expr.isWriteRef_mapChildren]
    exact hreads c hc
  · exact (hfits name value hvalue).source.readsOnly d hd

theorem validSource_replaceReads {e : Expr} (hmentions : module.Mentions e)
    (hvalid : e.ValidSource) : (e.replaceReads values).ValidSource :=
  ⟨readsOnly_replaceReads hfits hvalid.readsOnly,
    accessesValid_replaceReads hfits hmentions hvalid.accesses⟩

theorem noPlaceholder_replaceReads {e : Expr} (hnone : e.NoPlaceholder) :
    (e.replaceReads values).NoPlaceholder := by
  intro d hmem
  rcases Expr.mem_nodes_replaceReads hmem with ⟨c, hc, rfl⟩ | ⟨name, value, hvalue, hd⟩
  · rw [Expr.isPlaceholder_mapChildren]
    exact hnone c hc
  · exact (hfits name value hvalue).noPlaceholder d hd

theorem validSink_replaceReads {e : Expr} (hmentions : module.Mentions e)
    (hvalid : e.ValidSink) : (e.replaceReads values).ValidSink := by
  obtain ⟨r, hroot, hwrite⟩ := hvalid.root
  have hkept : ∀ q ∈ e.root?, q.isLocalRead = true → values q.name = none := by
    intro q hq hread
    obtain rfl := Option.some.inj (hroot.symm.trans hq)
    simp [Ref.isLocalRead, hwrite] at hread
  refine ⟨⟨r, ?_, hwrite⟩, accessesValid_replaceReads hfits hmentions hvalid.accesses, ?_⟩
  · rw [Expr.root?_replaceReads hkept, hroot]
  rw [Expr.indices_replaceReads (by simp [hroot]) hkept]
  intro index hmem
  obtain ⟨before, hbefore, rfl⟩ := List.mem_map.mp hmem
  have hindex := hmentions.of_mem_nodes (Expr.mem_nodes_of_mem_indices hbefore)
  exact validSource_replaceReads hfits hindex (hvalid.indices before hbefore)

theorem valid_mapExprs_replaceReads {s : Stmt} (hmem : s ∈ module.statements)
    (hvalid : s.Valid) : (s.mapExprs (Expr.replaceReads values)).Valid := by
  have hmentions : ∀ e ∈ s.exprs, module.Mentions e :=
    fun e he => mentions_of_mem_exprs (mem_exprs.mpr ⟨s, hmem, he⟩)
  apply hvalid.mapExprs
  · exact fun e he => (typesReads_of_fits hfits).ty_replaceReads (hmentions e he)
  · exact fun e he => noPlaceholder_replaceReads hfits (hvalid.noPlaceholder e he)
  · exact fun e he => accessesValid_replaceReads hfits (hmentions e he) (hvalid.accesses he)
  · exact fun e _ => readsOnly_replaceReads hfits
  · intro sink hsink
    exact validSink_replaceReads hfits (hmentions sink (Stmt.mem_exprs_of_mem_sink? hsink))

end Replace

/-! ## Candidates fit -/

theorem Assigns.validSource {module : Module} (hvalid : module.Valid) {name : String}
    {value : Expr} (hassigns : module.Assigns name value) : value.ValidSource := by
  obtain ⟨s, hs, rfl | ⟨r, _, rfl⟩⟩ := hassigns.assigned
  · exact (hvalid _ hs).parts.2
  · exact (hvalid _ hs).parts.2.2

theorem Assigns.noPlaceholder {module : Module} (hvalid : module.Valid) {name : String}
    {value : Expr} (hassigns : module.Assigns name value) : value.NoPlaceholder := by
  obtain ⟨s, hs, he⟩ := Module.mem_exprs.mp hassigns.mem_exprs
  exact (hvalid s hs).noPlaceholder value he

/-- The values that candidates stand for fit, for the values that they are assigned do, and
replacing reads by values that fit yields such values again. -/
theorem fits_of_expand? {module : Module} (hvalid : module.Valid) (htyped : module.LocalsTyped)
    (depth : Nat) {name : String} {value : Expr}
    (hvalue : module.candidates.value.expand? depth name = some value) :
    module.Fits name value := by
  induction depth generalizing name value with
  | zero => simp [Assignments.expand?] at hvalue
  | succ depth ih =>
      obtain ⟨assigned, hlookup, rfl⟩ := Option.map_eq_some_iff.mp hvalue
      have hassigns := assigns_of_candidate hlookup
      have hmentions := mentions_of_mem_exprs hassigns.mem_exprs
      have hfits : ∀ name value, module.candidates.value.expand? depth name = some value →
          module.Fits name value := fun _ _ => ih
      exact ⟨htyped.typesReads (depth + 1) name _ hvalue,
        validSource_replaceReads hfits hmentions (hassigns.validSource hvalid),
        noPlaceholder_replaceReads hfits (hassigns.noPlaceholder hvalid)⟩

theorem valid_inlineAssignments {module : Module} (hvalid : module.Valid)
    (htyped : module.LocalsTyped) : module.inlineAssignments.value.Valid := by
  intro t ht
  rw [statements, inlineAssignments_body, Stmt.mem_flattenAll,
    Stmt.leavesAll_mapLeavesAll (Inline.isBlock_inlineLeaf _)] at ht
  obtain ⟨hleaf, hne⟩ := ht
  obtain ⟨s, hs, rfl⟩ := List.mem_map.mp hleaf
  rw [Inline.inlineLeaf] at hne ⊢
  split at hne
  next => exact absurd rfl hne
  next hkept =>
    rw [if_neg hkept]
    have hstmt : s ∈ module.statements := by
      refine Stmt.mem_flattenAll.mpr ⟨hs, ?_⟩
      rintro rfl
      exact hne rfl
    exact valid_mapExprs_replaceReads (fun _ _ => fits_of_expand? hvalid htyped _) hstmt
      (hvalid s hstmt)

theorem name_inlineAssignments (module : Module) :
    module.inlineAssignments.value.name = module.name := by
  rw [inlineAssignments, Logged.value_bind]
  split <;> rfl

end Module

/-- Inlining in every module of a valid circuit leaves a valid circuit, provided that
references to wires and nodes carry the types these are declared with. -/
theorem Circuit.inlineAssignments_preserves_validity (circuit : Circuit)
    (hvalid : circuit.violations = [])
    (htyped : ∀ module ∈ circuit.modules, module.LocalsTyped) :
    (circuit.mapModules fun module => module.inlineAssignments.value).violations = [] := by
  apply Circuit.violations_mapModules hvalid Module.name_inlineAssignments
  intro module hmem hmodule
  exact Module.valid_inlineAssignments hmodule (htyped module hmem)

/-- Two modules, one with a chain of candidates and one that reads through a vector without
elements. -/
theorem multiModule_inlined_valid :
    Sample.multiModule.violations = [] ∧
      (∀ module ∈ Sample.multiModule.modules, module.LocalsTyped) ∧
      (Sample.multiModule.mapModules fun module =>
        module.inlineAssignments.value).violations = [] :=
  ⟨by decide, by decide,
    Sample.multiModule.inlineAssignments_preserves_validity (by decide) (by decide)⟩

end Rtl
