import Rtl.Proofs.Replacement
import Rtl.Proofs.Size
import Rtl.Sample

/-! # Inlining is complete

After one run no candidate is left, so that a second run changes nothing. The assignments that
remain after the first run are those that are no candidates, with the candidates in their values
replaced. A signal on a loop stays on it, for so do the signals in between; and a value beyond
the limit has been measured as it stands after the run, so that it is beyond the limit still.
-/

namespace Rtl

open Relation

namespace Assignments

/-! ## The assignments that remain -/

/-- What is left of a table once its candidates have been replaced. -/
def remaining (table : Assignments) : Assignments :=
  (table.filter fun entry => !table.select.candidates.contains entry.1).map
    fun entry => (entry.1, entry.2.replaceReads table.select.candidates.inlined?)

variable {table : Assignments} {name other : String}

theorem lookup_remaining (table : Assignments) (name : String) :
    table.remaining.lookup name =
      if table.select.candidates.contains name then none
      else (table.lookup name).map (Expr.replaceReads table.select.candidates.inlined?) := by
  rw [remaining, lookup_map fun _ => Expr.replaceReads table.select.candidates.inlined?,
    lookup_filter fun key => !table.select.candidates.contains key]
  cases table.select.candidates.contains name <;> rfl

theorem lookup_unlooped (table : Assignments) (name : String) :
    table.unlooped.lookup name = if table.isLooped name then none else table.lookup name := by
  rw [unlooped, lookup_filter fun key => !table.isLooped key]
  cases table.isLooped name <;> rfl

theorem lookup_select_of_isLooped (hlooped : table.isLooped name = true) :
    table.select.candidates.lookup name = none := by
  rw [lookup_select, lookup_unlooped, hlooped]
  simp

/-- Reading is kept between signals that are no candidates. -/
theorem Reads.remaining (hreads : table.Reads name other)
    (hname : table.select.candidates.lookup name = none)
    (hother : table.select.candidates.lookup other = none) :
    table.remaining.Reads name other := by
  obtain ⟨value, hvalue⟩ := Option.ne_none_iff_exists'.mp hreads.lookup_ne_none
  simp only [Reads, reads, lookup_remaining, contains, hname, hvalue] at hreads ⊢
  obtain ⟨r, hmem, hlocal, rfl⟩ := Expr.mem_locals_iff.mp hreads
  refine Expr.mem_locals_iff.mpr ⟨r, ?_, hlocal, rfl⟩
  have hkept : (Expr.ref r).replaceReads table.select.candidates.inlined? = .ref r := by
    apply Expr.replaceReads_ref_eq_self
    intro _
    rw [table.select_acyclic.inlined?_eq, hother, Option.map_none]
  rw [← hkept]
  exact Expr.replaceReads_mem_nodes hmem

/-- A path that can be closed to a loop is a path still, for all signals along it are on that
loop. -/
theorem transGen_remaining (hpath : TransGen table.Reads name other)
    (hback : ReflTransGen table.Reads other name) : TransGen table.remaining.Reads name other := by
  have hkept : ∀ {key : String}, TransGen table.Reads key key →
      table.select.candidates.lookup key = none :=
    fun hloop => lookup_select_of_isLooped ((table.isLooped_iff _).mpr hloop)
  induction hpath with
  | single hreads =>
      exact .single (hreads.remaining (hkept (.head' hreads hback)) (hkept (.tail' hback hreads)))
  | tail hpath hreads ih =>
      have hmiddle := hkept ((TransGen.head' hreads hback).trans hpath)
      have hother := hkept (.tail' (hback.trans hpath.to_reflTransGen) hreads)
      exact (ih (.head hreads hback)).tail (hreads.remaining hmiddle hother)

theorem isLooped_remaining (hlooped : table.isLooped name = true) :
    table.remaining.isLooped name = true := by
  rw [isLooped_iff] at hlooped ⊢
  exact transGen_remaining hlooped .refl

/-- A signal on no loop that is no candidate has a value beyond the limit, and what remains of
the value is as large as it was measured to be. -/
theorem maxInlinedSize_lt_of_remaining {value : Expr}
    (hlookup : table.remaining.lookup name = some value)
    (hfree : table.isLooped name = false) : maxInlinedSize < value.nodes.length := by
  rw [lookup_remaining, Option.ite_none_left_eq_some, Option.map_eq_some_iff] at hlookup
  obtain ⟨hkept, assigned, hassigned, rfl⟩ := hlookup
  have hunlooped : table.unlooped.lookup name = some assigned := by
    rw [lookup_unlooped, hfree, hassigned]
    rfl
  rw [← size_eq_length_nodes hunlooped]
  by_contra hsize
  apply hkept
  rw [contains, lookup_select, if_neg hsize, hunlooped]
  rfl

/-- What remains holds no candidates. -/
theorem select_remaining (table : Assignments) : table.remaining.select.candidates = [] := by
  rw [List.eq_nil_iff_forall_not_mem]
  intro entry hentry
  obtain ⟨value, hvalue⟩ := Option.ne_none_iff_exists'.mp (lookup_ne_none_of_mem hentry)
  rw [lookup_select, Option.ite_none_left_eq_some] at hvalue
  obtain ⟨hsize, hunlooped⟩ := hvalue
  have hle := table.remaining.unlooped_acyclic.length_nodes_le_size hunlooped
  rw [lookup_unlooped, Option.ite_none_left_eq_some] at hunlooped
  obtain ⟨hloop, hlookup⟩ := hunlooped
  -- The signal was on no loop before either, so it has been kept for the size of its value.
  have hfree : table.isLooped entry.1 = false := Bool.eq_false_iff.mpr (mt isLooped_remaining hloop)
  have hlt := maxInlinedSize_lt_of_remaining hlookup hfree
  omega

end Assignments

/-! ## Writes after inlining -/

/-- The write with another value. -/
def Write.mapValue (f : Expr → Expr) (write : Write) : Write :=
  { write with value? := write.value?.map f }

theorem Stmt.targets_connect_of_ne_ref {sink : Expr} (source : Expr) (hne : ∀ r, sink ≠ .ref r) :
    (Stmt.connect sink source).targets = sink.root?.toList.map fun r => (r.name, none) := by
  cases sink with
  | ref r => exact absurd rfl (hne r)
  | _ => rfl

theorem Stmt.partials_connect_of_ne_ref {sink : Expr} (source : Expr) (hne : ∀ r, sink ≠ .ref r) :
    (Stmt.connect sink source).partials = [sink] := by
  cases sink with
  | ref r => exact absurd rfl (hne r)
  | _ => rfl

/-- A statement writes the same signals after replacing, unless it drives a signal by a read that
is replaced. -/
theorem Stmt.targets_mapExprs_replaceReads {values : String → Option Expr} {s : Stmt}
    (hwhole : ∀ r source, s = .connect (.ref r) source → values r.name = none)
    (hpartial : ∀ e ∈ s.partials, ∀ r ∈ e.root?, r.isLocalRead = true → values r.name = none) :
    (s.mapExprs (Expr.replaceReads values)).targets =
      s.targets.map fun target => (target.1, target.2.map (Expr.replaceReads values)) := by
  have hroots : ∀ e ∈ s.partials, (e.replaceReads values).root? = e.root? :=
    fun e he => Expr.root?_replaceReads (hpartial e he)
  cases s with
  | connect sink source =>
      by_cases href : ∃ r, sink = .ref r
      · obtain ⟨r, rfl⟩ := href
        have hsink : (Expr.ref r).replaceReads values = .ref r :=
          Expr.replaceReads_ref_eq_self fun _ => hwhole r source rfl
        simp [mapExprs, hsink, targets]
      · have hne : ∀ r, sink ≠ .ref r := fun r heq => href ⟨r, heq⟩
        have hreplaced : ∀ r, sink.replaceReads values ≠ .ref r := by
          rw [Expr.replaceReads_of_ne_ref values hne]
          cases sink <;> simp_all [Expr.mapChildren]
        rw [mapExprs, targets_connect_of_ne_ref _ hreplaced, targets_connect_of_ne_ref _ hne,
          hroots sink (by simp [partials_connect_of_ne_ref source hne])]
        simp
  | invalidate target =>
      rw [mapExprs, targets, targets, hroots target (by simp [partials])]
      simp
  | attach members =>
      have hmembers : (members.map (Expr.replaceReads values)).filterMap Expr.root? =
          members.filterMap Expr.root? := by
        rw [List.filterMap_map]
        exact List.filterMap_congr hroots
      rw [mapExprs, targets, targets, hmembers]
      simp
  | _ => rfl

/-- The writes of one statement, given what has been declared. -/
def Stmt.writes (declared : List (String × Ty)) (s : Stmt) : List Write :=
  s.targets.filterMap fun (name, value?) =>
    (declared.lookup name).map fun ty => ⟨name, ty, value?⟩

theorem writesFrom_cons (declared : List (String × Ty)) (s : Stmt) (ss : List Stmt) :
    writesFrom declared (s :: ss) =
      s.writes (s.local?.toList ++ declared) ++ writesFrom (s.local?.toList ++ declared) ss := rfl

section Keep

variable {keep : String → Bool} {f : Expr → Expr} {declared : List (String × Ty)}

theorem Stmt.filter_writes_eq_nil {s : Stmt}
    (hdropped : ∀ target ∈ s.targets, keep target.1 = false) :
    ((s.writes declared).filter fun write => keep write.name) = [] := by
  rw [List.filter_eq_nil_iff]
  intro write hmem
  obtain ⟨target, htarget, hsome⟩ := List.mem_filterMap.mp hmem
  obtain ⟨ty, _, rfl⟩ := Option.map_eq_some_iff.mp hsome
  simp [hdropped target htarget]

theorem Stmt.writes_mapExprs {s : Stmt}
    (htargets : (s.mapExprs f).targets = s.targets.map fun target => (target.1, target.2.map f)) :
    (s.mapExprs f).writes (declared.filter fun entry => keep entry.1) =
      ((s.writes declared).filter fun write => keep write.name).map (Write.mapValue f) := by
  rw [writes, writes, htargets, List.filterMap_map, List.filter_filterMap, List.map_filterMap]
  apply List.filterMap_congr
  intro target _
  simp only [Function.comp_apply, Assignments.lookup_filter keep]
  cases hkeep : keep target.1 <;> cases hlookup : declared.lookup target.1 <;>
    simp [Option.filter_some, hkeep, Write.mapValue]

/-- What becomes of statements when signals are left out: those that declare or assign such a
signal go, and the others keep what they declare and what they write. -/
structure LeavesOut (keep : String → Bool) (absorbed : Stmt → Bool) (f : Expr → Expr) (s : Stmt) :
    Prop where
  dropped : absorbed s = true → ∀ target ∈ s.targets, keep target.1 = false
  declared : ∀ entry ∈ s.local?, keep entry.1 = !absorbed s
  locals : absorbed s = false → (s.mapExprs f).local? = s.local?
  targets : absorbed s = false →
    (s.mapExprs f).targets = s.targets.map fun target => (target.1, target.2.map f)

/-- Leaving out signals leaves out their writes, and the other writes stay. -/
theorem writesFrom_map_filter {absorbed : Stmt → Bool} {ss : List Stmt}
    (hss : ∀ s ∈ ss, LeavesOut keep absorbed f s) (declared : List (String × Ty)) :
    writesFrom (declared.filter fun entry => keep entry.1)
        ((ss.filter fun s => !absorbed s).map (Stmt.mapExprs f)) =
      ((writesFrom declared ss).filter fun write => keep write.name).map (Write.mapValue f) := by
  induction ss generalizing declared with
  | nil => rfl
  | cons s ss ih =>
      obtain ⟨hs, hss⟩ := List.forall_mem_cons.mp hss
      rw [writesFrom_cons, List.filter_append, List.map_append, ← ih hss, List.filter_append]
      -- What is declared so far loses exactly the signals that are left out.
      have hlocal : (s.local?.toList.filter fun entry => keep entry.1) =
          if absorbed s then [] else s.local?.toList := by
        cases hentry : s.local? with
        | none => simp
        | some entry => cases habsorbed : absorbed s <;> simp [hs.declared entry hentry, habsorbed]
      cases habsorbed : absorbed s with
      | true =>
          rw [Stmt.filter_writes_eq_nil (hs.dropped habsorbed), hlocal]
          simp [habsorbed]
      | false =>
          rw [← Stmt.writes_mapExprs (hs.targets habsorbed), List.filter_append, hlocal]
          simp [habsorbed, writesFrom_cons, hs.locals habsorbed]

theorem singleAssignments_map_filter (keep : String → Bool) {writes : List Write}
    (hassigned : ∀ write ∈ writes, (write.mapValue f).assigned? = write.assigned?.map f) :
    singleAssignments ((writes.filter fun write => keep write.name).map (Write.mapValue f)) =
      ((singleAssignments writes).filter fun entry => keep entry.1).map
        fun entry => (entry.1, f entry.2) := by
  rw [singleAssignments, singleAssignments, List.filterMap_map, List.filterMap_filter,
    List.filter_filterMap, List.map_filterMap]
  apply List.filterMap_congr
  intro write hwrite
  have hcount : keep write.name = true →
      ((writes.filter fun other => keep other.name).map (Write.mapValue f)).countP
        (·.name == write.name) = writes.countP (·.name == write.name) := by
    intro hkeep
    rw [List.countP_map, List.countP_filter]
    apply List.countP_congr
    intro other _
    have hname : (other.mapValue f).name = other.name := rfl
    simp only [Function.comp_apply, hname, Bool.and_eq_true, beq_iff_eq, and_iff_left_iff_imp]
    intro heq
    rw [heq, hkeep]
  cases hkeep : keep write.name with
  | true =>
      have hname : (write.mapValue f).name = write.name := rfl
      simp only [Function.comp_apply, hname, hcount hkeep, hassigned write hwrite, ↓reduceIte]
      split <;> cases write.assigned? <;> simp [Option.filter_some, hkeep]
  | false =>
      rw [if_neg Bool.false_ne_true]
      split <;> cases write.assigned? <;> simp [Option.filter_some, hkeep]

end Keep

namespace Module

theorem statements_inlineAssignments (module : Module) :
    module.inlineAssignments.value.statements =
      (module.statements.filter fun s => !Inline.isAbsorbed module.candidates.value s).map
        (Stmt.mapExprs (Expr.replaceReads module.candidates.value.inlined?)) := by
  rw [statements, statements, inlineAssignments_body, Stmt.flattenAll_eq_filter,
    Stmt.flattenAll_eq_filter, Stmt.leavesAll_mapLeavesAll (Inline.isBlock_inlineLeaf _),
    List.filter_map, List.filter_filter]
  have hfilter : (Stmt.leavesAll module.body).filter
      ((fun t => !t.isSkip) ∘ Inline.inlineLeaf module.candidates.value) =
      (Stmt.leavesAll module.body).filter fun s =>
        !Inline.isAbsorbed module.candidates.value s && !s.isSkip := by
    apply List.filter_congr
    intro s _
    rw [Function.comp_apply, Inline.inlineLeaf]
    split
    next habsorbed => simp [habsorbed, Stmt.isSkip]
    next hkept => cases s <;> simp_all [Stmt.mapExprs, Stmt.isSkip]
  rw [hfilter]
  apply List.map_congr_left
  intro s hs
  have hkept := (List.mem_filter.mp hs).2
  rw [Inline.inlineLeaf, if_neg]
  simp_all

variable {module : Module}

theorem inlined?_eq_none {name : String} (hnone : module.candidates.value.lookup name = none) :
    module.candidates.value.inlined? name = none := by
  rw [module.candidates_acyclic.inlined?_eq, hnone, Option.map_none]

/-- Inlining leaves out the candidates. -/
theorem leavesOut (htyped : module.LocalsTyped)
    (hundeclared : module.NoneDeclaredLater Stmt.partials) {s : Stmt} (hs : s ∈ module.statements) :
    LeavesOut (fun name => !module.candidates.value.contains name)
      (Inline.isAbsorbed module.candidates.value)
      (Expr.replaceReads module.candidates.value.inlined?) s where
  dropped habsorbed := by
    cases s with
    | connect sink source => cases sink <;> simp_all [Inline.isAbsorbed, Stmt.targets]
    | _ => simp_all [Inline.isAbsorbed, Stmt.targets]
  declared := by
    intro entry hentry
    cases s with
    | wire | node =>
        obtain rfl := Option.some.inj hentry
        rfl
    | _ => simp [Stmt.local?] at hentry
  locals _ := by
    apply Stmt.local?_mapExprs
    intro e he
    exact (htyped.typesReads _).ty_replaceReads
      (mentions_of_mem_exprs (mem_exprs.mpr ⟨s, hs, he⟩))
  targets hkept := by
    apply Stmt.targets_mapExprs_replaceReads
    · rintro r source rfl
      apply inlined?_eq_none
      simpa [Inline.isAbsorbed, Assignments.contains] using hkept
    · intro e he r hroot hread
      exact inlined?_eq_none (hundeclared.lookup_eq_none hs he hroot hread)

theorem assigned?_mapValue (htyped : module.LocalsTyped) {write : Write}
    (hwrite : write ∈ module.writes) :
    (write.mapValue (Expr.replaceReads module.candidates.value.inlined?)).assigned? =
      write.assigned?.map (Expr.replaceReads module.candidates.value.inlined?) := by
  cases hvalue : write.value? with
  | none => simp [Write.mapValue, Write.assigned?, hvalue]
  | some value =>
      obtain ⟨⟨s, hs, htarget⟩, _⟩ := mem_writesFrom hwrite
      have hmem : value ∈ s.exprs := by
        rw [hvalue] at htarget
        rcases Stmt.mem_targets_some htarget with rfl | ⟨r, _, rfl⟩ <;> simp [Stmt.exprs]
      have hty : (value.replaceReads module.candidates.value.inlined?).ty = value.ty :=
        (htyped.typesReads _).ty_replaceReads
          (mentions_of_mem_exprs (mem_exprs.mpr ⟨s, hs, hmem⟩))
      have hfree : (value.replaceReads module.candidates.value.inlined?).isLogicFree =
          value.isLogicFree :=
        Expr.isLogicFree_replaceReads (fun _ _ => isLogicFree_expand? _) value
      simp only [Write.mapValue, Write.assigned?, hvalue, Option.map_some, Option.filter_some, hty,
        hfree]
      split <;> rfl

theorem singleAssignments_inlineAssignments (htyped : module.LocalsTyped)
    (hundeclared : module.NoneDeclaredLater Stmt.partials) :
    singleAssignments module.inlineAssignments.value.writes =
      (singleAssignments module.writes).remaining := by
  have hwrites : module.inlineAssignments.value.writes =
      (module.writes.filter fun write => !module.candidates.value.contains write.name).map
        (Write.mapValue (Expr.replaceReads module.candidates.value.inlined?)) := by
    rw [writes, statements_inlineAssignments]
    exact writesFrom_map_filter (fun s hs => leavesOut htyped hundeclared hs) []
  rw [hwrites]
  exact singleAssignments_map_filter (fun name => !module.candidates.value.contains name)
    fun write hwrite => assigned?_mapValue htyped hwrite

theorem candidates_inlineAssignments (htyped : module.LocalsTyped)
    (hundeclared : module.NoneDeclaredLater Stmt.partials) :
    module.inlineAssignments.value.candidates.value = [] := by
  have hcandidates : module.inlineAssignments.value.candidates.value =
      (singleAssignments module.inlineAssignments.value.writes).select.candidates := rfl
  rw [hcandidates, singleAssignments_inlineAssignments htyped hundeclared,
    Assignments.select_remaining]

theorem inlineAssignments_eq_self (hempty : module.candidates.value = []) :
    module.inlineAssignments.value = module := by
  rw [inlineAssignments, Logged.value_bind, hempty]
  rfl

/-- Inlining is complete after one run: no candidate is left, and a second run changes nothing.
This takes references to wires and nodes to carry the types of all declarations of their names, and
wires and nodes that are driven through reads, other than by an assignment to the whole signal, not
to be declared by a later statement. -/
theorem inlineAssignments_complete (module : Module) (htyped : module.LocalsTyped)
    (hundeclared : module.NoneDeclaredLater Stmt.partials) :
    module.inlineAssignments.value.candidates.value = [] ∧
      module.inlineAssignments.value.inlineAssignments.value = module.inlineAssignments.value :=
  ⟨candidates_inlineAssignments htyped hundeclared,
    inlineAssignments_eq_self (candidates_inlineAssignments htyped hundeclared)⟩

end Module

/-- Values that double in size until one is over the limit, beside a loop. -/
def doubling : Module := Build.toModule "Doubling" do
  let a ← Build.input "a" (Sample.uint 8)
  let out ← Build.output "out" (Sample.uint 2048)
  let large ← [("x2", 16), ("x4", 32), ("x8", 64), ("x16", 128), ("x32", 256), ("x64", 512),
      ("x128", 1024), ("x256", 2048)].foldlM
    (fun e entry => Build.node entry.1 (.apply .cat [e, e] (Sample.uint entry.2))) a
  let p ← Build.wire "p" (Sample.uint 2048)
  let q ← Build.wire "q" (Sample.uint 2048)
  Build.connect p q
  Build.connect q (.apply .asUInt [p] (Sample.uint 2048))
  Build.connect out p
  Build.connect out large

theorem doubling_inlined_complete :
    doubling.LocalsTyped ∧ doubling.NoneDeclaredLater Stmt.partials ∧
      doubling.candidates.value.map Prod.fst = ["x2", "x4", "x8", "x16", "x32", "x64", "x256"] ∧
      doubling.inlineAssignments.value.candidates.value = [] ∧
      doubling.inlineAssignments.value.inlineAssignments.value =
        doubling.inlineAssignments.value := by
  have htyped : doubling.LocalsTyped := by decide
  have hundeclared : doubling.NoneDeclaredLater Stmt.partials := by decide
  exact ⟨htyped, hundeclared, by decide +kernel,
    doubling.inlineAssignments_complete htyped hundeclared⟩

/-- A wire that is invalidated through a read before it is declared, beside a loop. -/
def premature : Module := Build.toModule "Premature" do
  let a ← Build.wire "a" (Sample.uint 8)
  let b ← Build.wire "b" (Sample.uint 8)
  let n := Expr.ref (.wire "n" (Sample.uint 8))
  Build.connect a b
  Build.connect b a
  Build.addStmt (.invalidate n)
  discard (Build.wire "n" (Sample.uint 8))
  Build.connect n a

/-- The invalidation does not count as a write of `n`, but it turns into one of `a`, which takes
`a` off the loop. -/
theorem premature_inlined_incomplete :
    (premature.locals.map Prod.fst).Nodup ∧ premature.LocalsTyped ∧
      premature.inlineAssignments.value.candidates.value ≠ [] ∧
      premature.inlineAssignments.value.inlineAssignments.value ≠
        premature.inlineAssignments.value := by
  exact ⟨by decide, by decide, by decide +kernel, by decide +kernel⟩

end Rtl
