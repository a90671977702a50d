import Rtl.Proofs.InlineComplete
import Rtl.Proofs.InlineValidity

/-! # References after inlining

The declaration of a candidate is dropped, so no reference to it may stay. Reads are replaced, and
in the values that replace them too. Among valid statements that leaves the roots of sinks, which
have either been dropped with the assignment or kept the signal from being a candidate, and what
the members of attachments refer to, where the facing of a reference is not checked.
-/

namespace Rtl

/-! ## Well declared modules -/

/-- The signal that a statement declares, with its kind and its type. -/
def Stmt.declaration? : Stmt → Option (String × Kind × Ty)
  | .wire name ty => some (name, .wire, ty)
  | .node name value => some (name, .node, value.ty)
  | .register name ty _ _ => some (name, .register, ty)
  | _ => none

namespace Module

/-- All signals of a module. -/
def declarations (module : Module) : List (String × Kind × Ty) :=
  module.ports.map (fun port => (port.name, .port, port.ty)) ++
    module.statements.filterMap Stmt.declaration?

/-- Names are unique, wires and nodes are declared before they are mentioned, and references carry
the kind and the type of what they refer to. -/
structure WellDeclared (module : Module) : Prop where
  unique : (module.declarations.map Prod.fst).Nodup
  notWithin : ∀ s ∈ module.statements, ∀ entry ∈ s.local?, s.mentions entry.1 = false
  notBefore : module.statements.Pairwise fun s t =>
    ∀ entry ∈ t.local?, s.mentions entry.1 = false
  resolved : ∀ r ∈ module.refs, ∀ entry ∈ module.declarations, entry.1 = r.name →
    entry.2 = (r.kind, r.ty)

instance (module : Module) : Decidable module.WellDeclared :=
  decidable_of_iff
    ((module.declarations.map Prod.fst).Nodup ∧
      (∀ s ∈ module.statements, ∀ entry ∈ s.local?, s.mentions entry.1 = false) ∧
      (module.statements.Pairwise fun s t => ∀ entry ∈ t.local?, s.mentions entry.1 = false) ∧
      ∀ r ∈ module.refs, ∀ entry ∈ module.declarations, entry.1 = r.name →
        entry.2 = (r.kind, r.ty))
    ⟨fun ⟨hunique, hwithin, hbefore, hresolved⟩ => ⟨hunique, hwithin, hbefore, hresolved⟩,
      fun h => ⟨h.unique, h.notWithin, h.notBefore, h.resolved⟩⟩

theorem mem_declarations_of_mem_locals {module : Module} {name : String} {ty : Ty}
    (hlocal : (name, ty) ∈ module.locals) :
    ∃ kind : Kind, kind.isLocal = true ∧ (name, kind, ty) ∈ module.declarations := by
  obtain ⟨s, hs, hentry⟩ := List.mem_filterMap.mp hlocal
  have hdeclares : ∀ {kind : Kind}, s.declaration? = some (name, kind, ty) →
      (name, kind, ty) ∈ module.declarations :=
    fun h => List.mem_append_right _ (List.mem_filterMap.mpr ⟨s, hs, h⟩)
  cases s with
  | wire =>
      obtain ⟨rfl, rfl⟩ := Prod.mk.inj (Option.some.inj hentry)
      exact ⟨.wire, rfl, hdeclares rfl⟩
  | node =>
      obtain ⟨rfl, rfl⟩ := Prod.mk.inj (Option.some.inj hentry)
      exact ⟨.node, rfl, hdeclares rfl⟩
  | _ => simp [Stmt.local?] at hentry

namespace WellDeclared

variable {module : Module} (hdeclared : module.WellDeclared)
include hdeclared

theorem localsResolved : module.LocalsResolved := by
  intro r hr hlocal
  obtain ⟨⟨_, ty⟩, hentry, rfl⟩ := List.mem_map.mp hlocal
  obtain ⟨kind, hkind, hmem⟩ := mem_declarations_of_mem_locals hentry
  obtain ⟨rfl, _⟩ := Prod.mk.inj (hdeclared.resolved r hr _ hmem rfl)
  exact hkind

theorem localsTyped : module.LocalsTyped := by
  intro r hr entry hentry hname
  obtain ⟨kind, _, hmem⟩ := mem_declarations_of_mem_locals hentry
  exact (Prod.mk.inj (hdeclared.resolved r hr _ hmem hname)).2.symm

end WellDeclared

end Module

/-! ## Reads of candidates -/

namespace Expr

/-- A reference after replacing has been kept, or it is part of the value of a read. -/
theorem ref_mem_nodes_replaceReads {values : String → Option Expr} {e : Expr} {r : Ref}
    (hmem : .ref r ∈ (e.replaceReads values).nodes) :
    (.ref r ∈ e.nodes ∧ (r.isLocalRead = true → values r.name = none)) ∨
      ∃ name ∈ e.locals, ∃ value, values name = some value ∧ .ref r ∈ value.nodes := by
  induction e using refInduction with
  | ref q =>
      by_cases hkept : q.isLocalRead = true → values q.name = none
      · rw [replaceReads_ref_eq_self hkept] at hmem
        obtain rfl : r = q := by simpa [nodes] using hmem
        exact .inl ⟨hmem, hkept⟩
      · obtain ⟨hread, hsome⟩ := Classical.not_imp.mp hkept
        obtain ⟨value, hvalue⟩ := Option.ne_none_iff_exists'.mp hsome
        rw [replaceReads_ref, if_pos hread, hvalue, Option.getD_some] at hmem
        simp only [Ref.isLocalRead, Bool.and_eq_true] at hread
        refine .inr ⟨q.name, ?_, value, hvalue, hmem⟩
        exact mem_locals_iff.mpr ⟨q, mem_nodes_self _, hread.2, rfl⟩
  | step e hne ih =>
      rw [replaceReads_of_ne_ref values hne, mem_nodes_iff, children_mapChildren] at hmem
      rcases hmem with heq | ⟨_, hchild, hmem⟩
      · cases e with
        | ref q => exact absurd rfl (hne q)
        | _ => simp [mapChildren] at heq
      · obtain ⟨d, hd, rfl⟩ := List.mem_map.mp hchild
        rcases ih d hd hmem with ⟨hmem, hkept⟩ | ⟨name, hname, hvalue⟩
        · exact .inl ⟨mem_nodes_of_mem_children hd hmem, hkept⟩
        · obtain ⟨q, hq, hlocal⟩ := mem_locals_iff.mp hname
          exact .inr ⟨name, mem_locals_iff.mpr ⟨q, mem_nodes_of_mem_children hd hq, hlocal⟩, hvalue⟩

end Expr

namespace Assignments

variable {table : Assignments}

/-- The value reads no signal of the table. -/
def ReadsNone (table : Assignments) (value : Expr) : Prop :=
  ∀ r : Ref, .ref r ∈ value.nodes → r.isLocalRead = true → table.lookup r.name = none

/-- If the values of what an expression reads are rid of such reads, so is the expression. -/
theorem Acyclic.readsNone_replaceReads (hacyclic : table.Acyclic) {e : Expr}
    (hvalues : ∀ name ∈ e.locals, ∀ value, table.inlined? name = some value →
      table.ReadsNone value) :
    table.ReadsNone (e.replaceReads table.inlined?) := by
  intro r hmem hread
  rcases Expr.ref_mem_nodes_replaceReads hmem with ⟨_, hkept⟩ | ⟨name, hname, value, hvalue, hmem⟩
  · have hnone := hkept hread
    rw [hacyclic.inlined?_eq] at hnone
    exact Option.map_eq_none_iff.mp hnone
  · exact hvalues name hname value hvalue r hmem hread

/-- What a signal stands for reads no signal of the table, for what the signal reads does not. -/
theorem Acyclic.readsNone_of_inlined? (hacyclic : table.Acyclic) {name : String} {value : Expr}
    (hvalue : table.inlined? name = some value) : table.ReadsNone value := by
  induction name using hacyclic.wellFounded.induction generalizing value with
  | _ name ih =>
      rw [hacyclic.inlined?_eq] at hvalue
      obtain ⟨assigned, hlookup, rfl⟩ := Option.map_eq_some_iff.mp hvalue
      refine hacyclic.readsNone_replaceReads fun other hother value hvalue => ?_
      exact ih other (by simpa [Reads, reads, hlookup] using hother) hvalue

end Assignments

namespace Module

variable {module : Module}

theorem mentions_expand? (depth : Nat) {name : String} {value : Expr}
    (hvalue : module.candidates.value.expand? depth name = some value) :
    module.Mentions value := by
  induction depth generalizing name value with
  | zero => simp [Assignments.expand?] at hvalue
  | succ depth ih =>
      obtain ⟨assigned, hlookup, rfl⟩ := Option.map_eq_some_iff.mp hvalue
      intro r hmem
      rcases Expr.ref_mem_nodes_replaceReads hmem with ⟨hmem, _⟩ | ⟨_, _, inner, hinner, hmem⟩
      · exact mentions_of_mem_exprs (assigns_of_candidate hlookup).mem_exprs r hmem
      · exact ih hinner r hmem

end Module

/-! ## Drives of candidates -/

/-- The only reference of a valid sink that faces writing is its root. -/
theorem Expr.root?_of_write {e : Expr} (hroot : e.root?.isSome = true)
    (hindices : ∀ index ∈ e.indices, index.ReadsOnly) {r : Ref} (hmem : .ref r ∈ e.nodes)
    (hwrite : r.facing = .write) : e.root? = some r := by
  induction e using induction with
  | step e ih =>
      cases e with
      | ref q =>
          obtain rfl : r = q := by simpa [nodes] using hmem
          rfl
      | subField base | subIndex base =>
          have hbase : .ref r ∈ base.nodes := by simpa [nodes] using hmem
          exact ih base (by simp [children]) hroot hindices hbase
      | subAccess base index =>
          obtain ⟨hindex, hindices⟩ := List.forall_mem_cons.mp hindices
          have hparts : .ref r ∈ base.nodes ∨ .ref r ∈ index.nodes := by simpa [nodes] using hmem
          rcases hparts with hbase | hread
          · exact ih base (by simp [children]) hroot hindices hbase
          · have hfacing := hindex _ hread
            simp [isWriteRef, hwrite] at hfacing
      | _ => simp [root?] at hroot

/-- What a statement drives it drives in part, unless it assigns a value to the whole signal. -/
theorem Stmt.mem_partials_or {s : Stmt} {e : Expr} (hsink : e ∈ s.sink?) :
    e ∈ s.partials ∨ ∃ r source, e = .ref r ∧ s = .connect (.ref r) source := by
  cases s with
  | connect sink source =>
      obtain rfl := Option.some.inj hsink
      cases sink with
      | ref r => exact .inr ⟨r, source, rfl, rfl⟩
      | _ => exact .inl List.mem_cons_self
  | invalidate target =>
      obtain rfl := Option.some.inj hsink
      exact .inl List.mem_cons_self
  | _ => simp [sink?] at hsink

namespace Module

variable {module : Module}

/-- A valid statement that is kept drives no candidate, unless it is an attachment. -/
theorem WellDeclared.isAttach_of_write (hdeclared : module.WellDeclared) (hvalid : module.Valid)
    {s : Stmt} (hs : s ∈ module.statements)
    (hkept : Inline.isAbsorbed module.candidates.value s = false) {e : Expr} (he : e ∈ s.exprs)
    {r : Ref} (hmem : .ref r ∈ e.nodes) (hwrite : r.facing = .write)
    (hcandidate : module.candidates.value.contains r.name = true) : s.isAttach = true := by
  cases hattach : s.isAttach with
  | true => rfl
  | false =>
      exfalso
      rcases (hvalid s hs).sink_or_source hattach he with ⟨hsink, hdriven⟩ | hsource
      · obtain ⟨q, hq, _⟩ := hdriven.root
        have hroot : e.root? = some r := Expr.root?_of_write (by simp [hq])
          (fun index hindex => (hdriven.indices index hindex).readsOnly) hmem hwrite
        rcases Stmt.mem_partials_or hsink with hpartial | ⟨p, source, rfl, rfl⟩
        · -- It is mentioned here, so it has been declared before, and this is a write of its own.
          obtain ⟨before, after, hsplit⟩ := List.append_of_mem hs
          have hnone := lookup_eq_none_of_mem_partials hsplit hpartial hroot fun t ht hname => by
            obtain ⟨entry, hentry, heq⟩ := Option.map_eq_some_iff.mp hname
            have hbefore := hdeclared.notBefore
            rw [hsplit] at hbefore
            have hnot := (List.pairwise_cons.mp (List.pairwise_append.mp hbefore).2.1).1 t ht
              entry hentry
            rw [heq, Stmt.mentions_of_mem he hmem] at hnot
            exact Bool.noConfusion hnot
          simp [Assignments.contains, hnone] at hcandidate
        · obtain rfl := Option.some.inj hroot
          exact Bool.noConfusion (hkept.symm.trans hcandidate)
      · have hfacing := hsource.readsOnly _ hmem
        simp [Expr.isWriteRef, hwrite] at hfacing

/-! ## What is left -/

theorem mem_refs_inlineAssignments {r : Ref} :
    r ∈ module.inlineAssignments.value.refs ↔
      ∃ s ∈ module.statements, Inline.isAbsorbed module.candidates.value s = false ∧
        ∃ e ∈ s.exprs, .ref r ∈ (e.replaceReads module.candidates.value.inlined?).nodes := by
  rw [mem_refs]
  simp only [mem_exprs, statements_inlineAssignments, List.mem_map, List.mem_filter,
    Bool.not_eq_true']
  constructor
  · rintro ⟨_, ⟨_, ⟨s, ⟨hs, hkept⟩, rfl⟩, hleft⟩, hmem⟩
    rw [Stmt.exprs_mapExprs] at hleft
    obtain ⟨e, he, rfl⟩ := List.mem_map.mp hleft
    exact ⟨s, hs, hkept, e, he, hmem⟩
  · rintro ⟨s, hs, hkept, e, he, hmem⟩
    refine ⟨_, ⟨_, ⟨s, ⟨hs, hkept⟩, rfl⟩, ?_⟩, hmem⟩
    rw [Stmt.exprs_mapExprs]
    exact List.mem_map_of_mem he

/-- A reference to a candidate is kept only if it faces writing, and no value holds such a one. -/
theorem WellDeclared.write_of_mem_replaceReads (hdeclared : module.WellDeclared)
    (hvalid : module.Valid) {e : Expr} (he : e ∈ module.exprs) {r : Ref}
    (hmem : .ref r ∈ (e.replaceReads module.candidates.value.inlined?).nodes)
    (hcandidate : module.candidates.value.contains r.name = true) :
    r.facing = .write ∧ .ref r ∈ e.nodes := by
  obtain ⟨assigned, hlookup⟩ := Option.isSome_iff_exists.mp hcandidate
  have hnot : ¬ r.isLocalRead = true := by
    intro hread
    have hnone := module.candidates_acyclic.readsNone_replaceReads
      (fun _ _ _ hvalue => module.candidates_acyclic.readsNone_of_inlined? hvalue) r hmem hread
    simp [hlookup] at hnone
  have hwrite : r ∈ module.refs → r.facing = .write := by
    intro hr
    have hlocal := hdeclared.localsResolved r hr (assigns_of_candidate hlookup).mem_locals
    cases hfacing : r.facing with
    | write => rfl
    | read => simp [Ref.isLocalRead, hfacing, hlocal] at hnot
  rcases Expr.ref_mem_nodes_replaceReads hmem with ⟨hnode, _⟩ | ⟨name, _, value, hvalue, hnode⟩
  · exact ⟨hwrite (mentions_of_mem_exprs he r hnode), hnode⟩
  · have hfacing := (fits_of_expand? hvalid hdeclared.localsTyped _ hvalue).source.readsOnly _ hnode
    simp [Expr.isWriteRef, hwrite (mentions_expand? _ hvalue r hnode)] at hfacing

/-- The references to a candidate that inlining leaves are those that face writing in an
attachment, and no others. -/
theorem dangling_inlineAssignments_iff {circuit : Circuit} {module : Module}
    (hvalid : circuit.violations = []) (hmem : module ∈ circuit.modules)
    (hdeclared : module.WellDeclared) {r : Ref}
    (hcandidate : module.candidates.value.contains r.name = true) :
    r ∈ module.inlineAssignments.value.refs ↔
      r.facing = .write ∧ ∃ s ∈ module.statements, s.isAttach = true ∧
        ∃ member ∈ s.exprs, .ref r ∈ member.nodes := by
  have hmodule := (circuit.violations_eq_nil_iff.mp hvalid).2 module hmem
  rw [mem_refs_inlineAssignments]
  constructor
  · rintro ⟨s, hs, hkept, e, he, hleft⟩
    obtain ⟨hwrite, hnode⟩ := hdeclared.write_of_mem_replaceReads hmodule
      (mem_exprs.mpr ⟨s, hs, he⟩) hleft hcandidate
    exact ⟨hwrite, s, hs,
      hdeclared.isAttach_of_write hmodule hs hkept he hnode hwrite hcandidate, e, he, hnode⟩
  · rintro ⟨hwrite, s, hs, hattach, member, hmember, hnode⟩
    refine ⟨s, hs, by cases s <;> simp_all [Stmt.isAttach, Inline.isAbsorbed], member, hmember, ?_⟩
    have hkept : (Expr.ref r).replaceReads module.candidates.value.inlined? = .ref r :=
      Expr.replaceReads_ref_eq_self fun hread => by simp [Ref.isLocalRead, hwrite] at hread
    rw [← hkept]
    exact Expr.replaceReads_mem_nodes hnode

end Module

/-- A chain of candidates is read for the indices of what is read, driven and attached. -/
def patchPanel : Module := Build.toModule "PatchPanel" do
  let a ← Build.input "a" (Sample.analog 1)
  let x ← Build.input "x" (Sample.uint 2)
  let out ← Build.output "out" (Sample.uint 8)
  let pins ← Build.wire "pins" (.vector (Sample.analog 1) 4)
  let table ← Build.wire "table" (.vector (Sample.uint 8) 4)
  let n ← Build.node "n" x
  let w ← Build.wire "w" (Sample.uint 2)
  Build.connect w n
  Build.connect (table.getAccess n) (.uintLit 1 8)
  Build.connect out (table.getAccess w)
  Build.attach [a, pins.getAccess w]

theorem patchPanel_not_dangling :
    (Sample.single patchPanel).violations = [] ∧
      patchPanel ∈ (Sample.single patchPanel).modules ∧ patchPanel.WellDeclared ∧
      patchPanel.candidates.value.contains "w" = true ∧
      Ref.wire "w" (Sample.uint 2) ∈ patchPanel.refs ∧
      Ref.wire "w" (Sample.uint 2) ∉ patchPanel.inlineAssignments.value.refs := by
  have hvalid : (Sample.single patchPanel).violations = [] := by decide
  have hmem : patchPanel ∈ (Sample.single patchPanel).modules := by decide
  have hdeclared : patchPanel.WellDeclared := by decide
  have hcandidate : patchPanel.candidates.value.contains "w" = true := by decide +kernel
  refine ⟨hvalid, hmem, hdeclared, hcandidate, by decide, fun hleft => ?_⟩
  have hwrite := (Module.dangling_inlineAssignments_iff hvalid hmem hdeclared hcandidate).mp hleft
  exact absurd hwrite.1 (by decide)

/-- The index of a member faces writing. -/
def strayFacing : Module := Build.toModule "Top" do
  let a ← Build.input "a" (Sample.analog 1)
  let x ← Build.input "x" (Sample.uint 2)
  let pins ← Build.wire "pins" (.vector (Sample.analog 1) 4)
  let n ← Build.node "n" x
  Build.attach [a, pins.getAccess n.toSink]

/-- A valid circuit in which inlining leaves a reference to a node whose declaration is gone: the
facing of what members refer to is not checked, and only reads are replaced. -/
theorem strayFacing_leaves_dangling :
    (Sample.single strayFacing).violations = [] ∧
      strayFacing ∈ (Sample.single strayFacing).modules ∧ strayFacing.WellDeclared ∧
      ∃ r ∈ strayFacing.inlineAssignments.value.refs,
        strayFacing.candidates.value.contains r.name = true := by
  exact ⟨by decide, by decide, by decide, by decide +kernel⟩

end Rtl
