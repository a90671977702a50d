import Rtl.Proofs.Validity

/-! # What is reported of a circuit

The search for violations is held against what a violation is. Which parts of a statement are at
fault is said here of the statement alone, with chains of accesses followed access by access; what
is reported of it is said in texts, as a reader gets to see them. No violation is missed, and
nothing else is reported.
-/

namespace Rtl

namespace Expr

/-! ## Chains of accesses -/

/-- The chain of accesses that ends in the first expression passes through the second. -/
inductive Passes : Expr → Expr → Prop
  | here (e : Expr) : Passes e e
  | base {e base d : Expr} : e.accessBase? = some base → Passes base d → Passes e d

/-- The access is to something that its base has, and carries the type of that: a field of a
bundle or an element of a vector. -/
def Offered : Expr → Prop
  | .subField base name ty => ∃ field, base.ty.field? name = some field ∧ field.ty = ty
  | .subIndex base _ ty | .subAccess base _ ty => base.ty.element? = some ty
  | _ => False

theorem passes_iff {e d : Expr} :
    e.Passes d ↔ d = e ∨ ∃ base, e.accessBase? = some base ∧ base.Passes d := by
  constructor
  · intro hpasses
    cases hpasses with
    | here => exact .inl rfl
    | base hbase hpasses => exact .inr ⟨_, hbase, hpasses⟩
  · rintro (rfl | ⟨base, hbase, hpasses⟩)
    · exact .here d
    · exact .base hbase hpasses

theorem root?_eq_some_iff {e : Expr} {r : Ref} : e.root? = some r ↔ e.Passes (.ref r) := by
  induction e using induction with
  | step e ih =>
      rw [passes_iff]
      cases e with
      | ref q => simp [root?, accessBase?, eq_comm]
      | subField base | subIndex base | subAccess base =>
          simp [root?, accessBase?, ih base (by simp [children])]
      | _ => simp [root?, accessBase?]

theorem mem_indices_iff {e index : Expr} :
    index ∈ e.indices ↔ ∃ base ty, e.Passes (.subAccess base index ty) := by
  induction e using induction with
  | step e ih =>
      simp only [passes_iff (e := e)]
      cases e with
      | subField base | subIndex base =>
          simp [indices, accessBase?, ih base (by simp [children])]
      | subAccess base inner ty =>
          simp only [indices, List.mem_cons, ih base (by simp [children]), accessBase?,
            Option.some.injEq, exists_eq_left', subAccess.injEq]
          constructor
          · rintro (rfl | ⟨outer, ty', hpasses⟩)
            · exact ⟨base, ty, .inl ⟨rfl, rfl, rfl⟩⟩
            · exact ⟨outer, ty', .inr hpasses⟩
          · rintro ⟨outer, ty', ⟨_, rfl, _⟩ | hpasses⟩
            · exact .inl rfl
            · exact .inr ⟨outer, ty', hpasses⟩
      | _ => simp [indices, accessBase?]

theorem isValidAccess_eq_false_iff (e : Expr) :
    e.isValidAccess = false ↔ e.isAccess = true ∧ ¬ e.Offered := by
  rw [← Bool.not_eq_true]
  cases e <;> simp [isValidAccess, isAccess, accessBase?, Offered, Option.any_eq_true]

theorem isWriteRef_eq_true_iff (e : Expr) :
    e.isWriteRef = true ↔ ∃ r : Ref, e = .ref r ∧ r.facing = .write := by
  cases e <;> simp [isWriteRef]

/-! ## Faults of expressions -/

section Faults

variable {e : Expr} {fault : Fault}

theorem mem_accessFaults :
    fault ∈ e.accessFaults ↔
      ∃ d ∈ e.nodes, d.isAccess = true ∧ ¬ d.Offered ∧ fault = .invalidAccess d := by
  simp only [accessFaults, List.mem_map, List.mem_filter, Bool.not_eq_true',
    isValidAccess_eq_false_iff]
  constructor
  · rintro ⟨d, ⟨hmem, haccess, hoffered⟩, rfl⟩
    exact ⟨d, hmem, haccess, hoffered, rfl⟩
  · rintro ⟨d, hmem, haccess, hoffered, rfl⟩
    exact ⟨d, ⟨hmem, haccess, hoffered⟩, rfl⟩

theorem mem_readFaults :
    fault ∈ e.readFaults ↔
      ∃ r : Ref, .ref r ∈ e.nodes ∧ r.facing = .write ∧ fault = .sourceNotReadFacing (.ref r) := by
  simp only [readFaults, List.mem_map, List.mem_filter, isWriteRef_eq_true_iff]
  constructor
  · rintro ⟨_, ⟨hmem, r, rfl, hwrite⟩, rfl⟩
    exact ⟨r, hmem, hwrite, rfl⟩
  · rintro ⟨r, hmem, hwrite, rfl⟩
    exact ⟨_, ⟨hmem, r, rfl, hwrite⟩, rfl⟩

theorem mem_sinkFaults :
    fault ∈ e.sinkFaults ↔
      (fault = .sinkNotWriteFacing e ∧ ¬ ∃ r : Ref, e.Passes (.ref r) ∧ r.facing = .write) ∨
        fault ∈ e.accessFaults ∨ ∃ index ∈ e.indices, fault ∈ index.sourceFaults := by
  have hroot : e.root?.any (·.facing == .write) = true ↔
      ∃ r : Ref, e.Passes (.ref r) ∧ r.facing = .write := by
    simp [Option.any_eq_true, root?_eq_some_iff]
  rw [sinkFaults, List.mem_append, List.mem_append, List.mem_flatMap, or_assoc, ← hroot]
  refine or_congr_left ?_
  split <;> simp_all

theorem mem_groundFaults :
    fault ∈ e.groundFaults ↔ fault = .aggregateValue ∧ e.ty.isAggregate = true := by
  cases haggregate : e.ty.isAggregate <;> simp [groundFaults, Ty.isGround, haggregate]

theorem mem_attachFaults :
    fault ∈ e.attachFaults ↔
      (fault = .nonAnalogAttach e ∧ e.ty.isAnalog = false) ∨ fault ∈ e.accessFaults := by
  cases hanalog : e.ty.isAnalog <;> simp [attachFaults, hanalog]

end Faults

end Expr

/-! ## Faults of statements -/

namespace Stmt

/-- The expressions that a statement reads as they stand. -/
def sources : Stmt → List Expr
  | .connect _ source => [source]
  | .node _ value => [value]
  | .register _ _ clock reset => clock :: reset.toList.flatMap fun r => [r.signal, r.init]
  | .print clock enable _ args => clock :: enable :: args
  | .invalidate _ | .attach _ | .wire .. | .block _ | .skip => []

/-- The part of a statement that has to be ground. -/
def groundPart? : Stmt → Option Expr
  | .connect _ source => some source
  | .invalidate target => some target
  | .node _ value => some value
  | _ => none

/-- What a statement reads: its sources, and the indices on the way to the location that it
drives. -/
inductive Reads (s : Stmt) : Expr → Prop
  | source {e : Expr} : e ∈ s.sources → Reads s e
  | index {sink base index : Expr} {ty : Ty} :
      sink ∈ s.sink? → sink.Passes (.subAccess base index ty) → Reads s index

/-- What can be wrong with a statement. -/
inductive HasFault (s : Stmt) : Fault → Prop
  | placeholder {e d : Expr} :
      e ∈ s.exprs → d ∈ e.nodes → d.isPlaceholder = true → HasFault s .placeholder
  | aggregateValue {e : Expr} :
      e ∈ s.groundPart? → e.ty.isAggregate = true → HasFault s .aggregateValue
  | sinkNotWriteFacing {sink : Expr} :
      sink ∈ s.sink? → (¬ ∃ r : Ref, sink.Passes (.ref r) ∧ r.facing = .write) →
        HasFault s (.sinkNotWriteFacing sink)
  | sourceNotReadFacing {e : Expr} {r : Ref} :
      s.Reads e → .ref r ∈ e.nodes → r.facing = .write →
        HasFault s (.sourceNotReadFacing (.ref r))
  | invalidAccess {e d : Expr} :
      e ∈ s.exprs → d ∈ e.nodes → d.isAccess = true → ¬ d.Offered →
        HasFault s (.invalidAccess d)
  | nonAnalogAttach {member : Expr} :
      s.isAttach = true → member ∈ s.exprs → member.ty.isAnalog = false →
        HasFault s (.nonAnalogAttach member)

/-- Every expression of a statement is what it drives, a source or a member. -/
theorem mem_exprs_iff_role {s : Stmt} {e : Expr} :
    e ∈ s.exprs ↔ e ∈ s.sink? ∨ e ∈ s.sources ∨ (s.isAttach = true ∧ e ∈ s.exprs) := by
  cases s with
  | register name ty clock reset => cases reset <;> simp [exprs, sink?, sources, isAttach]
  | _ => simp [exprs, sink?, sources, isAttach, eq_comm]

/-- Each part of a statement is looked at for what it is there for. -/
theorem mem_partFaults_iff_role {s : Stmt} {fault : Fault} :
    fault ∈ s.partFaults ↔
      (∃ e ∈ s.groundPart?, fault ∈ e.groundFaults) ∨ (∃ e ∈ s.sink?, fault ∈ e.sinkFaults) ∨
        (∃ e ∈ s.sources, fault ∈ e.sourceFaults) ∨
          (s.isAttach = true ∧ ∃ e ∈ s.exprs, fault ∈ e.attachFaults) := by
  cases s with
  | register name ty clock reset =>
      cases reset <;> simp [partFaults, groundPart?, sink?, sources, isAttach]
  | _ => simp [partFaults, groundPart?, sink?, sources, isAttach, exprs]

namespace HasFault

variable {s : Stmt} {e : Expr} {fault : Fault}

theorem of_mem_accessFaults (he : ∀ d ∈ e.nodes, ∃ whole ∈ s.exprs, d ∈ whole.nodes)
    (hfault : fault ∈ e.accessFaults) : s.HasFault fault := by
  obtain ⟨d, hmem, haccess, hoffered, rfl⟩ := Expr.mem_accessFaults.mp hfault
  obtain ⟨whole, hwhole, hmem⟩ := he d hmem
  exact .invalidAccess hwhole hmem haccess hoffered

theorem of_mem_sourceFaults (hread : s.Reads e)
    (he : ∀ d ∈ e.nodes, ∃ whole ∈ s.exprs, d ∈ whole.nodes)
    (hfault : fault ∈ e.sourceFaults) : s.HasFault fault := by
  rcases List.mem_append.mp hfault with hfault | hfault
  · obtain ⟨r, hmem, hwrite, rfl⟩ := Expr.mem_readFaults.mp hfault
    exact .sourceNotReadFacing hread hmem hwrite
  · exact of_mem_accessFaults he hfault

theorem of_mem_sinkFaults (hsink : e ∈ s.sink?) (hfault : fault ∈ e.sinkFaults) :
    s.HasFault fault := by
  have he := mem_exprs_of_mem_sink? hsink
  rcases Expr.mem_sinkFaults.mp hfault with ⟨rfl, hroot⟩ | hfault | ⟨index, hindex, hfault⟩
  · exact .sinkNotWriteFacing hsink hroot
  · exact of_mem_accessFaults (fun d hd => ⟨e, he, hd⟩) hfault
  · -- An index is read, and it is part of the sink.
    obtain ⟨base, ty, hpasses⟩ := Expr.mem_indices_iff.mp hindex
    refine of_mem_sourceFaults (.index hsink hpasses) (fun d hd => ⟨e, he, ?_⟩) hfault
    exact Expr.mem_nodes_trans (Expr.mem_nodes_of_mem_indices hindex) hd

theorem of_mem_partFaults (hfault : fault ∈ s.partFaults) : s.HasFault fault := by
  rcases mem_partFaults_iff_role.mp hfault with
    ⟨e, he, hfault⟩ | ⟨e, he, hfault⟩ | ⟨e, he, hfault⟩ | ⟨hattach, e, he, hfault⟩
  · obtain ⟨rfl, haggregate⟩ := Expr.mem_groundFaults.mp hfault
    exact .aggregateValue he haggregate
  · exact of_mem_sinkFaults he hfault
  · have hmem : e ∈ s.exprs := mem_exprs_iff_role.mpr (.inr (.inl he))
    exact of_mem_sourceFaults (.source he) (fun d hd => ⟨e, hmem, hd⟩) hfault
  · rcases Expr.mem_attachFaults.mp hfault with ⟨rfl, hanalog⟩ | hfault
    · exact .nonAnalogAttach hattach he hanalog
    · exact of_mem_accessFaults (fun d hd => ⟨e, he, hd⟩) hfault

end HasFault

/-- Whatever is read is looked at as a source is. -/
theorem mem_partFaults_of_reads {s : Stmt} {e : Expr} (hread : s.Reads e) {fault : Fault}
    (hfault : fault ∈ e.sourceFaults) : fault ∈ s.partFaults := by
  rw [mem_partFaults_iff_role]
  cases hread with
  | source he => exact .inr (.inr (.inl ⟨e, he, hfault⟩))
  | index hsink hpasses =>
      have hindex := Expr.mem_indices_iff.mpr ⟨_, _, hpasses⟩
      exact .inr (.inl ⟨_, hsink, Expr.mem_sinkFaults.mpr (.inr (.inr ⟨e, hindex, hfault⟩))⟩)

/-- Accesses are looked at wherever they stand. -/
theorem mem_partFaults_of_accessFaults {s : Stmt} {e : Expr} (he : e ∈ s.exprs) {fault : Fault}
    (hfault : fault ∈ e.accessFaults) : fault ∈ s.partFaults := by
  rw [mem_partFaults_iff_role]
  rcases mem_exprs_iff_role.mp he with hsink | hsource | ⟨hattach, he⟩
  · exact .inr (.inl ⟨e, hsink, Expr.mem_sinkFaults.mpr (.inr (.inl hfault))⟩)
  · exact .inr (.inr (.inl ⟨e, hsource, List.mem_append_right _ hfault⟩))
  · exact .inr (.inr (.inr ⟨hattach, e, he, Expr.mem_attachFaults.mpr (.inr hfault)⟩))

theorem mem_faults {s : Stmt} {fault : Fault} :
    fault ∈ s.faults ↔
      (fault = .placeholder ∧ ∃ e ∈ s.exprs, ∃ d ∈ e.nodes, d.isPlaceholder = true) ∨
        fault ∈ s.partFaults := by
  have hplaceholder : s.exprs.any Expr.hasPlaceholder = true ↔
      ∃ e ∈ s.exprs, ∃ d ∈ e.nodes, d.isPlaceholder = true := by
    simp [Expr.hasPlaceholder, Expr.any_eq]
  rw [faults, List.mem_append, ← hplaceholder]
  refine or_congr_left ?_
  split <;> simp_all

/-- The faults that are found in a statement are those that it has. -/
theorem mem_faults_iff_hasFault {s : Stmt} {fault : Fault} :
    fault ∈ s.faults ↔ s.HasFault fault := by
  rw [mem_faults]
  constructor
  · rintro (⟨rfl, e, he, d, hd, hplaceholder⟩ | hfault)
    · exact .placeholder he hd hplaceholder
    · exact .of_mem_partFaults hfault
  · intro hfault
    cases hfault with
    | placeholder he hd hplaceholder => exact .inl ⟨rfl, _, he, _, hd, hplaceholder⟩
    | aggregateValue he haggregate =>
        exact .inr (mem_partFaults_iff_role.mpr
          (.inl ⟨_, he, Expr.mem_groundFaults.mpr ⟨rfl, haggregate⟩⟩))
    | sinkNotWriteFacing hsink hroot =>
        exact .inr (mem_partFaults_iff_role.mpr
          (.inr (.inl ⟨_, hsink, Expr.mem_sinkFaults.mpr (.inl ⟨rfl, hroot⟩)⟩)))
    | sourceNotReadFacing hread hmem hwrite =>
        refine .inr (mem_partFaults_of_reads hread (List.mem_append_left _ ?_))
        exact Expr.mem_readFaults.mpr ⟨_, hmem, hwrite, rfl⟩
    | invalidAccess he hd haccess hoffered =>
        refine .inr (mem_partFaults_of_accessFaults he ?_)
        exact Expr.mem_accessFaults.mpr ⟨_, hd, haccess, hoffered, rfl⟩
    | nonAnalogAttach hattach he hanalog =>
        exact .inr (mem_partFaults_iff_role.mpr (.inr (.inr (.inr
          ⟨hattach, _, he, Expr.mem_attachFaults.mpr (.inl ⟨rfl, hanalog⟩)⟩))))

end Stmt

/-! ## Reports -/

/-- A violation as it is reported: the name of the module, the line of the statement and, where it
is about an expression, the expression, all of them as text. -/
inductive ViolationReport where
  | missingMain (main : String)
  | placeholder (module stmt : String)
  | aggregateValue (module stmt : String)
  | invalidAccess (module stmt expr : String)
  | sinkNotWriteFacing (module stmt expr : String)
  | sourceNotReadFacing (module stmt expr : String)
  | nonAnalogAttach (module stmt expr : String)
deriving DecidableEq

def Fault.report (module stmt : String) : Fault → ViolationReport
  | placeholder => .placeholder module stmt
  | aggregateValue => .aggregateValue module stmt
  | invalidAccess e => .invalidAccess module stmt e.render
  | sinkNotWriteFacing e => .sinkNotWriteFacing module stmt e.render
  | sourceNotReadFacing e => .sourceNotReadFacing module stmt e.render
  | nonAnalogAttach e => .nonAnalogAttach module stmt e.render

def Violation.report : Violation → ViolationReport
  | missingMain name => .missingMain name
  | inStmt module stmt fault => fault.report module (stmtText stmt)

/-- The message that is made of the texts. -/
def ViolationReport.message : ViolationReport → String
  | missingMain main => "top-level module `" ++ main ++ "` does not exist"
  | placeholder module stmt => within module ("placeholder value in `" ++ stmt ++ "`")
  | aggregateValue module stmt => within module ("aggregate-typed value in `" ++ stmt ++ "`")
  | invalidAccess module stmt expr =>
      within module ("`" ++ expr ++ "` is not a valid access" ++ inside stmt)
  | sinkNotWriteFacing module stmt expr =>
      within module ("sink `" ++ expr ++ "` is not write-facing" ++ inside stmt)
  | sourceNotReadFacing module stmt expr =>
      within module ("`" ++ expr ++ "` is read but not read-facing" ++ inside stmt)
  | nonAnalogAttach module stmt expr =>
      within module ("attach member `" ++ expr ++ "` is not analog" ++ inside stmt)
where
  within (module text : String) : String := "in `" ++ module ++ "`: " ++ text
  inside (stmt : String) : String := " (in `" ++ stmt ++ "`)"

/-- What there is to report of a circuit. -/
inductive Circuit.Reports (circuit : Circuit) : ViolationReport → Prop
  | missingMain : (∀ module ∈ circuit.modules, module.name ≠ circuit.main) →
      Reports circuit (.missingMain circuit.main)
  | inStmt {module : Module} {s : Stmt} {fault : Fault} :
      module ∈ circuit.modules → s ∈ Stmt.leavesAll module.body → s.HasFault fault →
        Reports circuit (fault.report module.name (Text.trimEnd s.render))

theorem Violation.message_eq (violation : Violation) :
    violation.message = violation.report.message := by
  cases violation with
  | missingMain name => rfl
  | inStmt module stmt fault => cases fault <;> rfl

theorem Module.mem_violations {module : Module} {violation : Violation} :
    violation ∈ module.violations ↔
      ∃ s ∈ Stmt.leavesAll module.body, ∃ fault, s.HasFault fault ∧
        violation = .inStmt module.name s fault := by
  simp only [violations, List.mem_flatMap, List.mem_map, Stmt.mem_faults_iff_hasFault]
  constructor
  · rintro ⟨s, hs, fault, hfault, rfl⟩
    exact ⟨s, (Stmt.mem_flattenAll.mp hs).1, fault, hfault, rfl⟩
  · rintro ⟨s, hs, fault, hfault, rfl⟩
    refine ⟨s, Stmt.mem_flattenAll.mpr ⟨hs, ?_⟩, fault, hfault, rfl⟩
    rintro rfl
    rw [← Stmt.mem_faults_iff_hasFault] at hfault
    exact absurd hfault List.not_mem_nil

theorem Circuit.mem_violations {circuit : Circuit} {violation : Violation} :
    violation ∈ circuit.violations ↔
      (violation = .missingMain circuit.main ∧
        ∀ module ∈ circuit.modules, module.name ≠ circuit.main) ∨
      ∃ module ∈ circuit.modules, violation ∈ module.violations := by
  have hmain : circuit.mainModule?.isSome = false ↔
      ∀ module ∈ circuit.modules, module.name ≠ circuit.main := by
    simp [mainModule?, module?]
  rw [violations, List.mem_append, List.mem_flatMap, ← hmain]
  refine or_congr_left ?_
  cases circuit.mainModule?.isSome <;> simp

/-- The search for violations reports what there is to report of a circuit and nothing else, and
its messages are made of these reports. -/
theorem Circuit.violations_exact (circuit : Circuit) :
    (∀ report, report ∈ circuit.violations.map Violation.report ↔ circuit.Reports report) ∧
      circuit.violations.map Violation.message =
        (circuit.violations.map Violation.report).map ViolationReport.message := by
  refine ⟨fun report => ?_, ?_⟩
  · rw [List.mem_map]
    constructor
    · rintro ⟨violation, hmem, rfl⟩
      rcases mem_violations.mp hmem with ⟨rfl, hmain⟩ | ⟨module, hmodule, hmem⟩
      · exact .missingMain hmain
      · obtain ⟨s, hs, fault, hfault, rfl⟩ := Module.mem_violations.mp hmem
        exact .inStmt hmodule hs hfault
    · intro hreports
      cases hreports with
      | missingMain hmain => exact ⟨_, mem_violations.mpr (.inl ⟨rfl, hmain⟩), rfl⟩
      | inStmt hmodule hs hfault =>
          have hmem := Module.mem_violations.mpr ⟨_, hs, _, hfault, rfl⟩
          exact ⟨_, mem_violations.mpr (.inr ⟨_, hmodule, hmem⟩), rfl⟩
  · rw [List.map_map]
    exact List.map_congr_left fun violation _ => violation.message_eq

end Rtl
