import Rtl.Proofs.Leaves
import Rtl.Proofs.Walk
import Rtl.Validity

/-! # What validity means

A circuit has no violation exactly if it has its main module and each of its statements is
valid, which is said here of the parts of a statement without going through a list of faults.
-/

namespace Rtl

namespace Expr

/-- Every access in the expression is one that its base offers. -/
def AccessesValid (e : Expr) : Prop :=
  ∀ d ∈ e.nodes, d.isValidAccess = true

instance (e : Expr) : Decidable e.AccessesValid :=
  inferInstanceAs (Decidable (∀ d ∈ e.nodes, _))

/-- No reference in the expression faces writing. -/
def ReadsOnly (e : Expr) : Prop :=
  ∀ d ∈ e.nodes, d.isWriteRef = false

def NoPlaceholder (e : Expr) : Prop :=
  ∀ d ∈ e.nodes, d.isPlaceholder = false

instance (e : Expr) : Decidable e.NoPlaceholder :=
  inferInstanceAs (Decidable (∀ d ∈ e.nodes, _))

structure ValidSource (e : Expr) : Prop where
  readsOnly : e.ReadsOnly
  accesses : e.AccessesValid

structure ValidSink (e : Expr) : Prop where
  root : ∃ r : Ref, e.root? = some r ∧ r.facing = .write
  accesses : e.AccessesValid
  indices : ∀ index ∈ e.indices, index.ValidSource

theorem accessFaults_eq_nil_iff (e : Expr) : e.accessFaults = [] ↔ e.AccessesValid := by
  simp [accessFaults, AccessesValid]

theorem readFaults_eq_nil_iff (e : Expr) : e.readFaults = [] ↔ e.ReadsOnly := by
  simp [readFaults, ReadsOnly]

theorem sourceFaults_eq_nil_iff (e : Expr) : e.sourceFaults = [] ↔ e.ValidSource := by
  rw [sourceFaults, List.append_eq_nil_iff, readFaults_eq_nil_iff, accessFaults_eq_nil_iff]
  exact ⟨fun ⟨hreads, haccesses⟩ => ⟨hreads, haccesses⟩,
    fun hvalid => ⟨hvalid.readsOnly, hvalid.accesses⟩⟩

theorem sinkFaults_eq_nil_iff (e : Expr) : e.sinkFaults = [] ↔ e.ValidSink := by
  have hroot : (e.root?.any (·.facing == .write)) = true ↔
      ∃ r : Ref, e.root? = some r ∧ r.facing = .write := by
    simp [Option.any_eq_true]
  rw [sinkFaults, List.append_eq_nil_iff, List.append_eq_nil_iff, accessFaults_eq_nil_iff,
    List.flatMap_eq_nil_iff]
  simp only [sourceFaults_eq_nil_iff, ite_eq_left_iff, List.cons_ne_nil, imp_false,
    Classical.not_not, hroot]
  exact ⟨fun ⟨⟨hroot, haccesses⟩, hindices⟩ => ⟨hroot, haccesses, hindices⟩,
    fun hvalid => ⟨⟨hvalid.root, hvalid.accesses⟩, hvalid.indices⟩⟩

theorem groundFaults_eq_nil_iff (e : Expr) : e.groundFaults = [] ↔ e.ty.isGround = true := by
  simp [groundFaults]

theorem attachFaults_eq_nil_iff (e : Expr) :
    e.attachFaults = [] ↔ e.ty.isAnalog = true ∧ e.AccessesValid := by
  simp [attachFaults, accessFaults_eq_nil_iff]

theorem hasPlaceholder_eq_false_iff (e : Expr) : e.hasPlaceholder = false ↔ e.NoPlaceholder := by
  simp [hasPlaceholder, any_eq, NoPlaceholder]

/-! ## Replacing operands -/

theorem isValidAccess_mapChildren {f : Expr → Expr} {e : Expr}
    (hty : ∀ d ∈ e.children, (f d).ty = d.ty) :
    (e.mapChildren f).isValidAccess = e.isValidAccess := by
  cases e <;> simp_all [mapChildren, isValidAccess, children]

theorem isWriteRef_mapChildren (f : Expr → Expr) (e : Expr) :
    (e.mapChildren f).isWriteRef = e.isWriteRef := by
  cases e <;> rfl

theorem isPlaceholder_mapChildren (f : Expr → Expr) (e : Expr) :
    (e.mapChildren f).isPlaceholder = e.isPlaceholder := by
  cases e <;> rfl

theorem mem_nodes_of_mem_indices {index e : Expr} (hmem : index ∈ e.indices) :
    index ∈ e.nodes := by
  induction e using induction with
  | step e ih =>
      cases e with
      | subField base | subIndex base =>
          exact mem_nodes_of_mem_children List.mem_cons_self (ih base List.mem_cons_self hmem)
      | subAccess base inner =>
          rcases List.mem_cons.mp hmem with rfl | hmem
          · exact mem_nodes_of_mem_children (by simp [children]) (mem_nodes_self _)
          · exact mem_nodes_of_mem_children List.mem_cons_self (ih base List.mem_cons_self hmem)
      | _ => simp [indices] at hmem

end Expr

namespace Stmt

/-- Each part of the statement is valid for what it is there for. -/
def ValidParts : Stmt → Prop
  | .connect sink source => source.ty.isGround = true ∧ sink.ValidSink ∧ source.ValidSource
  | .invalidate target => target.ty.isGround = true ∧ target.ValidSink
  | .node _ value => value.ty.isGround = true ∧ value.ValidSource
  | .attach members => ∀ member ∈ members, member.ty.isAnalog = true ∧ member.AccessesValid
  | .register _ _ clock reset =>
      clock.ValidSource ∧ ∀ r ∈ reset, r.signal.ValidSource ∧ r.init.ValidSource
  | .print clock enable _ args =>
      clock.ValidSource ∧ enable.ValidSource ∧ ∀ arg ∈ args, arg.ValidSource
  | .wire .. | .block _ | .skip => True

structure Valid (s : Stmt) : Prop where
  noPlaceholder : ∀ e ∈ s.exprs, e.NoPlaceholder
  parts : s.ValidParts

theorem partFaults_eq_nil_iff (s : Stmt) : s.partFaults = [] ↔ s.ValidParts := by
  cases s with
  | connect sink source =>
      simp [partFaults, ValidParts, Expr.groundFaults_eq_nil_iff, Expr.sinkFaults_eq_nil_iff,
        Expr.sourceFaults_eq_nil_iff]
  | invalidate target =>
      simp [partFaults, ValidParts, Expr.groundFaults_eq_nil_iff, Expr.sinkFaults_eq_nil_iff]
  | attach members => simp [partFaults, ValidParts, Expr.attachFaults_eq_nil_iff]
  | node name value =>
      simp [partFaults, ValidParts, Expr.groundFaults_eq_nil_iff, Expr.sourceFaults_eq_nil_iff]
  | register name ty clock reset =>
      simp [partFaults, ValidParts, Expr.sourceFaults_eq_nil_iff]
  | print clock enable format args =>
      simp [partFaults, ValidParts, Expr.sourceFaults_eq_nil_iff]
  | wire | block | skip => simp [partFaults, ValidParts]

theorem faults_eq_nil_iff (s : Stmt) : s.faults = [] ↔ s.Valid := by
  have hplaceholder : s.exprs.any Expr.hasPlaceholder = false ↔
      ∀ e ∈ s.exprs, e.NoPlaceholder := by
    simp [List.any_eq_false, ← Expr.hasPlaceholder_eq_false_iff]
  rw [faults, List.append_eq_nil_iff, partFaults_eq_nil_iff]
  simp only [ite_eq_right_iff, List.cons_ne_nil, imp_false, Bool.not_eq_true, hplaceholder]
  exact ⟨fun ⟨hnone, hparts⟩ => ⟨hnone, hparts⟩,
    fun hvalid => ⟨hvalid.noPlaceholder, hvalid.parts⟩⟩

/-- Attachments aside, the expressions of a valid statement are its sink and sources. -/
theorem Valid.sink_or_source {s : Stmt} (hvalid : s.Valid) (hother : s.isAttach = false)
    {e : Expr} (hmem : e ∈ s.exprs) : (e ∈ s.sink? ∧ e.ValidSink) ∨ e.ValidSource := by
  have hparts := hvalid.parts
  cases s with
  | connect sink source =>
      simp only [exprs, List.mem_cons, List.not_mem_nil, or_false] at hmem
      rcases hmem with rfl | rfl
      · exact .inl ⟨rfl, hparts.2.1⟩
      · exact .inr hparts.2.2
  | invalidate target =>
      simp only [exprs, List.mem_cons, List.not_mem_nil, or_false] at hmem
      exact .inl ⟨hmem ▸ rfl, hmem ▸ hparts.2⟩
  | attach => simp [isAttach] at hother
  | node name value =>
      simp only [exprs, List.mem_cons, List.not_mem_nil, or_false] at hmem
      exact .inr (hmem ▸ hparts.2)
  | register name ty clock reset =>
      obtain ⟨hclock, hreset⟩ := hparts
      cases reset with
      | none =>
          simp only [exprs, List.mem_cons, List.not_mem_nil, or_false] at hmem
          exact .inr (hmem ▸ hclock)
      | some reset =>
          obtain ⟨hsignal, hinit⟩ := hreset reset rfl
          simp only [exprs, List.mem_cons, List.not_mem_nil, or_false] at hmem
          rcases hmem with rfl | rfl | rfl
          · exact .inr hclock
          · exact .inr hsignal
          · exact .inr hinit
  | print clock enable format args =>
      obtain ⟨hclock, henable, hargs⟩ := hparts
      simp only [exprs, List.mem_cons] at hmem
      rcases hmem with rfl | rfl | harg
      · exact .inr hclock
      · exact .inr henable
      · exact .inr (hargs e harg)
  | wire | block | skip => simp [exprs] at hmem

/-- All accesses of a valid statement are valid, whatever position they are in. -/
theorem Valid.accesses {s : Stmt} (hvalid : s.Valid) {e : Expr} (hmem : e ∈ s.exprs) :
    e.AccessesValid := by
  cases hattach : s.isAttach with
  | true =>
      cases s with
      | attach members => exact (hvalid.parts e hmem).2
      | _ => simp [isAttach] at hattach
  | false =>
      rcases hvalid.sink_or_source hattach hmem with ⟨_, hsink⟩ | hsource
      · exact hsink.accesses
      · exact hsource.accesses

/-- A statement stays valid if its expressions keep their types and their accesses, those that
are read stay so, and what it drives can still be driven. -/
theorem Valid.mapExprs {s : Stmt} (hvalid : s.Valid) {f : Expr → Expr}
    (hty : ∀ e ∈ s.exprs, (f e).ty = e.ty) (hnone : ∀ e ∈ s.exprs, (f e).NoPlaceholder)
    (haccesses : ∀ e ∈ s.exprs, (f e).AccessesValid)
    (hreads : ∀ e ∈ s.exprs, e.ReadsOnly → (f e).ReadsOnly)
    (hsink : ∀ sink ∈ s.sink?, sink.ValidSink → (f sink).ValidSink) : (s.mapExprs f).Valid := by
  have hsource : ∀ e ∈ s.exprs, e.ValidSource → (f e).ValidSource :=
    fun e he hread => ⟨hreads e he hread.readsOnly, haccesses e he⟩
  refine ⟨?_, ?_⟩
  · rw [exprs_mapExprs, List.forall_mem_map]
    exact hnone
  · have hparts := hvalid.parts
    -- Which parts are sinks and which are sources differs from one kind of statement to another.
    cases s with
    | connect sink source =>
        obtain ⟨hground, hdriven, hread⟩ := hparts
        refine ⟨?_, hsink sink rfl hdriven, hsource source (by simp [exprs]) hread⟩
        rw [hty source (by simp [exprs])]
        exact hground
    | invalidate target =>
        obtain ⟨hground, hdriven⟩ := hparts
        refine ⟨?_, hsink target rfl hdriven⟩
        rw [hty target (by simp [exprs])]
        exact hground
    | attach members =>
        intro member hmember
        obtain ⟨before, hbefore, rfl⟩ := List.mem_map.mp hmember
        rw [hty before hbefore]
        exact ⟨(hparts before hbefore).1, haccesses before hbefore⟩
    | node name value =>
        obtain ⟨hground, hread⟩ := hparts
        refine ⟨?_, hsource value (by simp [exprs]) hread⟩
        rw [hty value (by simp [exprs])]
        exact hground
    | register name ty clock reset =>
        obtain ⟨hclock, hreset⟩ := hparts
        cases reset with
        | none => exact ⟨hsource clock (by simp [exprs]) hclock, by simp⟩
        | some reset =>
            obtain ⟨hsignal, hinit⟩ := hreset reset rfl
            refine ⟨hsource clock (by simp [exprs]) hclock, ?_⟩
            rintro _ ⟨⟩
            exact ⟨hsource reset.signal (by simp [exprs]) hsignal,
              hsource reset.init (by simp [exprs]) hinit⟩
    | print clock enable format args =>
        obtain ⟨hclock, henable, hargs⟩ := hparts
        refine ⟨hsource clock (by simp [exprs]) hclock,
          hsource enable (by simp [exprs]) henable, ?_⟩
        intro arg harg
        obtain ⟨before, hbefore, rfl⟩ := List.mem_map.mp harg
        exact hsource before (by simp [exprs, hbefore]) (hargs before hbefore)
    | wire | block | skip => trivial

end Stmt

/-- Every statement of the module is valid. -/
def Module.Valid (module : Module) : Prop :=
  ∀ s ∈ module.statements, s.Valid

theorem Module.Valid.of_mem_leaves {module : Module} (hvalid : module.Valid) {s : Stmt}
    (hmem : s ∈ Stmt.leavesAll module.body) : s.Valid := by
  by_cases hskip : s = .skip
  · subst hskip
    exact ⟨by simp [Stmt.exprs], trivial⟩
  · exact hvalid s (Stmt.mem_flattenAll.mpr ⟨hmem, hskip⟩)

theorem Module.violations_eq_nil_iff (module : Module) :
    module.violations = [] ↔ module.Valid := by
  simp [violations, Valid, Stmt.faults_eq_nil_iff]

theorem Circuit.violations_eq_nil_iff (circuit : Circuit) :
    circuit.violations = [] ↔
      circuit.mainModule?.isSome = true ∧ ∀ module ∈ circuit.modules, module.Valid := by
  simp [violations, Module.violations_eq_nil_iff, Option.isSome_iff_ne_none]

/-- Apply a pass to every module. -/
def Circuit.mapModules (f : Module → Module) (circuit : Circuit) : Circuit :=
  { circuit with modules := circuit.modules.map f }

/-- A pass that keeps the names and the validity of modules keeps circuits valid. -/
theorem Circuit.violations_mapModules {f : Module → Module} {circuit : Circuit}
    (hvalid : circuit.violations = []) (hname : ∀ module, (f module).name = module.name)
    (hmodules : ∀ module ∈ circuit.modules, module.Valid → (f module).Valid) :
    (circuit.mapModules f).violations = [] := by
  obtain ⟨hmain, hvalid⟩ := circuit.violations_eq_nil_iff.mp hvalid
  refine (violations_eq_nil_iff _).mpr ⟨?_, ?_⟩
  · simpa [mainModule?, module?, mapModules, hname] using hmain
  · intro module hmem
    obtain ⟨before, hbefore, rfl⟩ := List.mem_map.mp hmem
    exact hmodules before hbefore (hvalid before hbefore)

end Rtl
