import Rtl.Build
import Rtl.Proofs.Reports

/-! # Modules that are built

Expressions that are composed by the builders read wherever they refer to a signal, and their
accesses have the type of what they access, if there is such a thing. Building a module turns
just the roots of the locations that it drives. So the facings in it are right, and the accesses
that are reported of it are those to a field that there is not, or into what is no vector.
-/

namespace Rtl

namespace Expr

/-- The expressions that the builders compose. A reference that a declaration yields is one of
them, as is each cast and each primitive without constants. -/
inductive Composed : Expr → Prop
  | ref (name : String) (ty : Ty) (kind : Kind) : Composed (.ref ⟨name, ty, kind, .read⟩)
  | field {base : Expr} (name : String) : Composed base → Composed (base.getField name)
  | index {base : Expr} (position : Nat) : Composed base → Composed (base.getIndex position)
  | access {base position : Expr} : Composed base → Composed position →
      Composed (base.getAccess position)
  | literal (value : Literal) : Composed (.literal value)
  | choice {cond tval fval : Expr} : Composed cond → Composed tval → Composed fval →
      Composed (select cond tval fval)
  | guard {cond value : Expr} : Composed cond → Composed value → Composed (guarded cond value)
  | prim (op : PrimOp) {args : List Expr} (consts : List Nat) (ty : Ty) :
      (∀ arg ∈ args, Composed arg) → Composed (.prim op args consts ty)

/-- An access to a field that there is not, or into what is no vector. -/
def Missing : Expr → Prop
  | .subField base name _ => base.ty.field? name = none
  | .subIndex base _ _ | .subAccess base _ _ => base.ty.element? = none
  | _ => False

/-! ## Composed expressions -/

theorem Composed.of_mem_children {d e : Expr} (he : e.Composed) (hd : d ∈ e.children) :
    d.Composed := by
  cases he with
  | ref | literal => exact absurd hd List.not_mem_nil
  | field _ hbase | index _ hbase =>
      obtain rfl := List.mem_singleton.mp hd
      exact hbase
  | access hbase hposition =>
      rcases List.mem_pair.mp hd with rfl | rfl
      · exact hbase
      · exact hposition
  | choice hcond htval hfval =>
      rcases List.mem_cons.mp hd with rfl | hd
      · exact hcond
      · rcases List.mem_pair.mp hd with rfl | rfl
        · exact htval
        · exact hfval
  | guard hcond hvalue =>
      rcases List.mem_pair.mp hd with rfl | rfl
      · exact hcond
      · exact hvalue
  | prim _ _ _ hargs => exact hargs d hd

theorem Composed.of_mem_nodes {d e : Expr} (he : e.Composed) (hd : d ∈ e.nodes) : d.Composed := by
  induction e using induction with
  | step e ih =>
      rcases mem_nodes_iff.mp hd with rfl | ⟨child, hchild, hd⟩
      · exact he
      · exact ih child hchild (he.of_mem_children hchild) hd

theorem Composed.readsOnly {e : Expr} (he : e.Composed) : e.ReadsOnly := by
  intro d hd
  cases he.of_mem_nodes hd <;> rfl

/-- An access has the type of what it accesses, unless there is no such thing. -/
theorem Composed.validAccess {e : Expr} (he : e.Composed) (hpresent : ¬ e.Missing) :
    e.isValidAccess = true := by
  cases he with
  | field name hbase =>
      obtain ⟨field, hfield⟩ := Option.ne_none_iff_exists'.mp hpresent
      simp [getField, isValidAccess, hfield]
  | index _ hbase | access hbase _ =>
      obtain ⟨element, helement⟩ := Option.ne_none_iff_exists'.mp hpresent
      simp [getIndex, getAccess, isValidAccess, helement]
  | _ => rfl

theorem isValidAccess_of_missing {e : Expr} (hmissing : e.Missing) : e.isValidAccess = false := by
  cases e <;> simp_all [Missing, isValidAccess]

/-! ## Turning the root -/

@[simp] theorem ty_faceRoot (facing : Facing) (e : Expr) : (e.faceRoot facing).ty = e.ty := by
  cases e <;> rfl

@[simp] theorem indices_faceRoot (facing : Facing) (e : Expr) :
    (e.faceRoot facing).indices = e.indices := by
  induction e using induction with
  | step e ih => cases e <;> simp_all [faceRoot, indices, children]

theorem root?_faceRoot (facing : Facing) (e : Expr) :
    (e.faceRoot facing).root? = e.root?.map fun r => { r with facing } := by
  induction e using induction with
  | step e ih => cases e <;> simp_all [faceRoot, root?, children]

theorem Composed.toSource_eq {e : Expr} (he : e.Composed) : e.toSource = e := by
  rw [toSource]
  induction he with
  | ref | literal | prim | choice | guard => rfl
  | field _ _ ih | index _ _ ih => simp [getField, getIndex, faceRoot, ih]
  | access _ _ ih _ => simp [getAccess, faceRoot, ih]

/-- Everything in an expression with its root turned was there before, or is something that was
there with its own root turned. -/
theorem mem_nodes_faceRoot {facing : Facing} {d e : Expr} (hd : d ∈ (e.faceRoot facing).nodes) :
    ∃ c ∈ e.nodes, d = c ∨ d = c.faceRoot facing := by
  induction e using induction with
  | step e ih =>
      -- Only the chain of accesses down to the root is turned.
      have hbase : ∀ base ∈ e.children, d ∈ (base.faceRoot facing).nodes →
          ∃ c ∈ e.nodes, d = c ∨ d = c.faceRoot facing := by
        intro base hchild hd
        obtain ⟨c, hc, hturned⟩ := ih base hchild hd
        exact ⟨c, mem_nodes_of_mem_children hchild hc, hturned⟩
      cases e with
      | ref r => exact ⟨_, mem_nodes_self _, .inr (List.mem_singleton.mp hd)⟩
      | subField base | subIndex base =>
          rcases List.mem_cons.mp hd with rfl | hd
          · exact ⟨_, mem_nodes_self _, .inr rfl⟩
          · exact hbase base List.mem_cons_self hd
      | subAccess base index =>
          rcases List.mem_cons.mp hd with rfl | hd
          · exact ⟨_, mem_nodes_self _, .inr rfl⟩
          · rcases List.mem_append.mp hd with hd | hd
            · exact hbase base List.mem_cons_self hd
            · exact ⟨d, mem_nodes_of_mem_children (by simp [children]) hd, .inl rfl⟩
      | literal | prim | mux | validIf | placeholder => exact ⟨d, hd, .inl rfl⟩

theorem isValidAccess_faceRoot (facing : Facing) (e : Expr) :
    (e.faceRoot facing).isValidAccess = e.isValidAccess := by
  cases e <;> simp [faceRoot, isValidAccess]

theorem missing_faceRoot (facing : Facing) (e : Expr) :
    (e.faceRoot facing).Missing ↔ e.Missing := by
  cases e <;> simp [faceRoot, Missing]

/-- The accesses of the expression that have a fault are those to what there is not. -/
def FaultsMissing (e : Expr) : Prop :=
  ∀ d ∈ e.nodes, d.isValidAccess = false ↔ d.Missing

theorem Composed.isValidAccess_eq_false_iff {e : Expr} (he : e.Composed) :
    e.isValidAccess = false ↔ e.Missing := by
  refine ⟨fun hfault => ?_, isValidAccess_of_missing⟩
  by_contra hpresent
  rw [he.validAccess hpresent] at hfault
  exact absurd hfault (by simp)

theorem Composed.faultsMissing {e : Expr} (he : e.Composed) : e.FaultsMissing :=
  fun _ hd => (he.of_mem_nodes hd).isValidAccess_eq_false_iff

theorem Composed.faultsMissing_toSink {e : Expr} (he : e.Composed) : e.toSink.FaultsMissing := by
  intro d hd
  obtain ⟨c, hc, rfl | rfl⟩ := mem_nodes_faceRoot hd
  · exact he.faultsMissing _ hc
  · rw [isValidAccess_faceRoot, missing_faceRoot]
    exact he.faultsMissing c hc

end Expr

/-! ## Statements that are built -/

/-- A call that adds a port or a statement to a module. -/
inductive Call where
  | input (name : String) (ty : Ty)
  | output (name : String) (ty : Ty)
  | wire (name : String) (ty : Ty)
  | node (name : String) (value : Expr)
  | register (name : String) (ty : Ty) (clock : Expr)
  | connect (sink source : Expr)
  | invalidate (target : Expr)
  | attach (members : List Expr)

namespace Call

/-- The call as a step of building. Later calls may use the reference that a declaration yields,
which is an expression like those that they use anyway. -/
def perform : Call → Build Unit
  | .input name ty => discard (Build.input name ty)
  | .output name ty => discard (Build.output name ty)
  | .wire name ty => discard (Build.wire name ty)
  | .node name value => discard (Build.node name value)
  | .register name ty clock => discard (Build.register name ty clock)
  | .connect sink source => Build.connect sink source
  | .invalidate target => Build.invalidate target
  | .attach members => Build.attach members

/-- The expressions that a call is made with. -/
def exprs : Call → List Expr
  | .node _ value => [value]
  | .register _ _ clock => [clock]
  | .connect sink source => [sink, source]
  | .invalidate target => [target]
  | .attach members => members
  | .input .. | .output .. | .wire .. => []

/-- The location that a call is to drive or to invalidate. -/
def location? : Call → Option Expr
  | .connect sink _ => some sink
  | .invalidate target => some target
  | _ => none

/-- The statement that a call adds. -/
def stmt? : Call → Option Stmt
  | .input .. | .output .. => none
  | .wire name ty => some (.wire name ty)
  | .node name value => some (.node name value)
  | .register name ty clock => some (.register name ty clock none)
  | .connect sink source => some (.connect sink.toSink source.toSource)
  | .invalidate target => some (.invalidate target.toSink)
  | .attach members => some (.attach members)

/-- The call is made with composed expressions, and where it needs a location, with a chain of
accesses from a reference. -/
structure Proper (call : Call) : Prop where
  composed : ∀ e ∈ call.exprs, e.Composed
  rooted : ∀ e ∈ call.location?, e.root?.isSome = true

end Call

/-- The module is what proper calls make of an empty one. -/
def Module.Built (module : Module) : Prop :=
  ∃ calls : List Call, (∀ call ∈ calls, call.Proper) ∧
    module = Build.toModule module.name (forM calls Call.perform)

namespace Stmt

/-- The statement drives a composed location, turned to writing, and all else in it is composed. -/
structure Built (s : Stmt) : Prop where
  leaf : s.isBlock = false
  sink : ∀ sink ∈ s.sink?, ∃ e : Expr, e.Composed ∧ e.root?.isSome = true ∧ sink = e.toSink
  sources : ∀ e ∈ s.sources, e.Composed
  members : s.isAttach = true → ∀ e ∈ s.exprs, e.Composed

theorem built_of_call {call : Call} (hproper : call.Proper) {s : Stmt} (hs : call.stmt? = some s) :
    s.Built := by
  obtain ⟨hcomposed, hrooted⟩ := hproper
  cases call with
  | input | output => simp [Call.stmt?] at hs
  | wire name ty =>
      obtain rfl := Option.some.inj hs
      exact ⟨rfl, by simp [sink?], by simp [sources], by simp [isAttach]⟩
  | node name value =>
      obtain rfl := Option.some.inj hs
      exact ⟨rfl, by simp [sink?], by simpa [sources, Call.exprs] using hcomposed,
        by simp [isAttach]⟩
  | register name ty clock =>
      obtain rfl := Option.some.inj hs
      exact ⟨rfl, by simp [sink?], by simpa [sources, Call.exprs] using hcomposed,
        by simp [isAttach]⟩
  | connect sink source =>
      obtain rfl := Option.some.inj hs
      simp only [Call.exprs, List.forall_mem_cons] at hcomposed
      obtain ⟨hsink, hsource, -⟩ := hcomposed
      refine ⟨rfl, ?_, ?_, by simp [isAttach]⟩
      · rintro _ ⟨⟩
        exact ⟨sink, hsink, hrooted sink rfl, rfl⟩
      · simpa [sources, hsource.toSource_eq] using hsource
  | invalidate target =>
      obtain rfl := Option.some.inj hs
      refine ⟨rfl, ?_, by simp [sources], by simp [isAttach]⟩
      rintro _ ⟨⟩
      exact ⟨target, hcomposed target (by simp [Call.exprs]), hrooted target rfl, rfl⟩
  | attach members =>
      obtain rfl := Option.some.inj hs
      exact ⟨rfl, by simp [sink?], by simp [sources], fun _ => hcomposed⟩

namespace Built

variable {s : Stmt} (hbuilt : s.Built)

include hbuilt

theorem readsOnly {e : Expr} (hread : s.Reads e) : e.ReadsOnly := by
  cases hread with
  | source he => exact (hbuilt.sources e he).readsOnly
  | @index sink base index ty hsink hpasses =>
      obtain ⟨location, hcomposed, -, rfl⟩ := hbuilt.sink sink hsink
      have hindex := Expr.mem_indices_iff.mpr ⟨_, _, hpasses⟩
      rw [Expr.toSink, Expr.indices_faceRoot] at hindex
      exact (hcomposed.of_mem_nodes (Expr.mem_nodes_of_mem_indices hindex)).readsOnly

theorem faultsMissing {e : Expr} (he : e ∈ s.exprs) : e.FaultsMissing := by
  rcases mem_exprs_iff_role.mp he with hsink | hsource | ⟨hattach, he⟩
  · obtain ⟨location, hcomposed, -, rfl⟩ := hbuilt.sink e hsink
    exact hcomposed.faultsMissing_toSink
  · exact (hbuilt.sources e hsource).faultsMissing
  · exact (hbuilt.members hattach e he).faultsMissing

theorem not_sinkNotWriteFacing (e : Expr) : ¬ s.HasFault (.sinkNotWriteFacing e) := by
  rintro ⟨⟩
  rename_i hsink hroot
  obtain ⟨location, -, hrooted, rfl⟩ := hbuilt.sink e hsink
  obtain ⟨r, hr⟩ := Option.isSome_iff_exists.mp hrooted
  have hturned : location.toSink.root? = some { r with facing := .write } := by
    rw [Expr.toSink, Expr.root?_faceRoot, hr, Option.map_some]
  exact hroot ⟨_, Expr.root?_eq_some_iff.mp hturned, rfl⟩

theorem not_sourceNotReadFacing (e : Expr) : ¬ s.HasFault (.sourceNotReadFacing e) := by
  rintro ⟨⟩
  rename_i hread hmem hwrite
  have hreads := hbuilt.readsOnly hread _ hmem
  simp [Expr.isWriteRef, hwrite] at hreads

theorem hasFault_invalidAccess_iff (d : Expr) :
    s.HasFault (.invalidAccess d) ↔ ∃ e ∈ s.exprs, d ∈ e.nodes ∧ d.Missing := by
  constructor
  · rintro ⟨⟩
    rename_i e he hd haccess hoffered
    have hfault := (Expr.isValidAccess_eq_false_iff d).mpr ⟨haccess, hoffered⟩
    exact ⟨e, he, hd, (hbuilt.faultsMissing he d hd).mp hfault⟩
  · rintro ⟨e, he, hd, hmissing⟩
    obtain ⟨haccess, hoffered⟩ :=
      (Expr.isValidAccess_eq_false_iff d).mp ((hbuilt.faultsMissing he d hd).mpr hmissing)
    exact .invalidAccess he hd haccess hoffered

end Built

end Stmt

/-! ## Modules that are built -/

theorem Call.run_perform (call : Call) (module : Module) :
    (call.perform.run module).2.name = module.name ∧
      (call.perform.run module).2.body = module.body ++ call.stmt?.toList := by
  cases call with
  | input | output => exact ⟨rfl, (List.append_nil _).symm⟩
  | wire | node | register | connect | invalidate | attach => exact ⟨rfl, rfl⟩

/-- Each call adds its statement at the end. -/
theorem Call.run_forM (calls : List Call) (module : Module) :
    ((forM calls perform).run module).2.name = module.name ∧
      ((forM calls perform).run module).2.body = module.body ++ calls.filterMap stmt? := by
  induction calls generalizing module with
  | nil => exact ⟨rfl, (List.append_nil _).symm⟩
  | cons call calls ih =>
      obtain ⟨hname, hbody⟩ := call.run_perform module
      obtain ⟨hnames, hbodies⟩ := ih (call.perform.run module).2
      rw [List.forM_cons, StateT.run_bind]
      refine ⟨hnames.trans hname, hbodies.trans ?_⟩
      rw [hbody, List.append_assoc, List.filterMap_cons]
      cases call.stmt? <;> rfl

namespace Module.Built

variable {module : Module} (hbuilt : module.Built)

include hbuilt

theorem of_mem_body {s : Stmt} (hs : s ∈ module.body) : s.Built := by
  obtain ⟨calls, hproper, hmodule⟩ := hbuilt
  rw [hmodule, Build.toModule, (Call.run_forM calls _).2, List.nil_append,
    List.mem_filterMap] at hs
  obtain ⟨call, hcall, hs⟩ := hs
  exact Stmt.built_of_call (hproper call hcall) hs

theorem mem_leavesAll_iff {s : Stmt} : s ∈ Stmt.leavesAll module.body ↔ s ∈ module.body := by
  rw [Stmt.leavesAll_eq, List.mem_flatMap]
  constructor
  · rintro ⟨t, ht, hs⟩
    rw [Stmt.leaves_of_not_block (hbuilt.of_mem_body ht).leaf, List.mem_singleton] at hs
    exact hs ▸ ht
  · intro hs
    refine ⟨s, hs, ?_⟩
    rw [Stmt.leaves_of_not_block (hbuilt.of_mem_body hs).leaf]
    exact List.mem_singleton_self s

end Module.Built

namespace Circuit

variable {circuit : Circuit} {name : String}

/-- What is reported of the modules of a name are the faults of their statements. -/
theorem mem_violations_of_built
    (hbuilt : ∀ module ∈ circuit.modules, module.name = name → module.Built) {s : Stmt}
    {fault : Fault} :
    .inStmt name s fault ∈ circuit.violations ↔
      ∃ module ∈ circuit.modules, module.name = name ∧ s ∈ module.body ∧ s.HasFault fault := by
  rw [mem_violations]
  constructor
  · rintro (⟨hmain, -⟩ | ⟨module, hmodule, hmem⟩)
    · cases hmain
    · obtain ⟨t, ht, found, hfault, heq⟩ := Module.mem_violations.mp hmem
      cases heq
      exact ⟨module, hmodule, rfl, (hbuilt module hmodule rfl).mem_leavesAll_iff.mp ht, hfault⟩
  · rintro ⟨module, hmodule, rfl, hs, hfault⟩
    have hleaf := (hbuilt module hmodule rfl).mem_leavesAll_iff.mpr hs
    exact .inr ⟨module, hmodule, Module.mem_violations.mpr ⟨s, hleaf, fault, hfault, rfl⟩⟩

/-- Of the modules of a name, if all of them are built, no sink is reported not to face writing and
no source not to face reading; and an access is reported exactly if some expression in a statement
has an access to a field that its base has not, or into what is no vector. -/
theorem violations_of_built
    (hbuilt : ∀ module ∈ circuit.modules, module.name = name → module.Built) :
    (∀ s e, .inStmt name s (.sinkNotWriteFacing e) ∉ circuit.violations) ∧
      (∀ s e, .inStmt name s (.sourceNotReadFacing e) ∉ circuit.violations) ∧
      ((∃ s e, .inStmt name s (.invalidAccess e) ∈ circuit.violations) ↔
        ∃ module ∈ circuit.modules, module.name = name ∧
          ∃ s ∈ module.body, ∃ e ∈ s.exprs, ∃ d ∈ e.nodes, d.Missing) := by
  simp only [mem_violations_of_built hbuilt]
  refine ⟨?_, ?_, ?_⟩
  · rintro s e ⟨module, hmodule, hname, hs, hfault⟩
    exact ((hbuilt module hmodule hname).of_mem_body hs).not_sinkNotWriteFacing e hfault
  · rintro s e ⟨module, hmodule, hname, hs, hfault⟩
    exact ((hbuilt module hmodule hname).of_mem_body hs).not_sourceNotReadFacing e hfault
  · constructor
    · rintro ⟨s, d, module, hmodule, hname, hs, hfault⟩
      obtain ⟨e, he, hd, hmissing⟩ :=
        (((hbuilt module hmodule hname).of_mem_body hs).hasFault_invalidAccess_iff d).mp hfault
      exact ⟨module, hmodule, hname, s, hs, e, he, d, hd, hmissing⟩
    · rintro ⟨module, hmodule, hname, s, hs, e, he, d, hd, hmissing⟩
      refine ⟨s, d, module, hmodule, hname, hs, ?_⟩
      exact (((hbuilt module hmodule hname).of_mem_body hs).hasFault_invalidAccess_iff d).mpr
        ⟨e, he, hd, hmissing⟩

end Circuit

/-- A module that writes a part of the lane with a dynamic index, and reads a part that lanes do
not have. -/
def router : Module := Build.toModule "Router" do
  let sel ← Build.input "sel" (.uint (.known 2))
  let data ← Build.input "data" (.uint (.known 8))
  let lanes ← Build.wire "lanes"
    (.vector (.bundleOf [("tag", .uint (.known 2)), ("value", .uint (.known 8))]) 4)
  Build.connect ((lanes.getAccess sel).getField "value") data
  discard (Build.node "parity" ((lanes.getAccess sel).getField "parity"))

theorem router_built : router.Built := by
  let sel : Expr := .ref (.port "sel" (.uint (.known 2)))
  let data : Expr := .ref (.port "data" (.uint (.known 8)))
  let lanesTy : Ty :=
    .vector (.bundleOf [("tag", .uint (.known 2)), ("value", .uint (.known 8))]) 4
  let lane : Expr := (Expr.ref (.wire "lanes" lanesTy)).getAccess sel
  have hlane : lane.Composed := .access (.ref ..) (.ref ..)
  have hdeclares : ∀ call : Call, call.exprs = [] → call.location? = none → call.Proper :=
    fun call hexprs hlocation => ⟨by simp [hexprs], by simp [hlocation]⟩
  have hconnect : (Call.connect (lane.getField "value") data).Proper := by
    refine ⟨List.forall_mem_cons.mpr ⟨hlane.field "value", ?_⟩, ?_⟩
    · exact List.forall_mem_singleton.mpr (.ref ..)
    · rintro _ ⟨⟩
      rfl
  have hnode : (Call.node "parity" (lane.getField "parity")).Proper :=
    ⟨List.forall_mem_singleton.mpr (hlane.field "parity"), by simp [Call.location?]⟩
  refine ⟨[.input "sel" (.uint (.known 2)), .input "data" (.uint (.known 8)),
    .wire "lanes" lanesTy, .connect (lane.getField "value") data,
    .node "parity" (lane.getField "parity")], ?_, rfl⟩
  simp only [List.forall_mem_cons, List.not_mem_nil, false_implies, implies_true, and_true]
  exact ⟨hdeclares _ rfl rfl, hdeclares _ rfl rfl, hdeclares _ rfl rfl, hconnect, hnode⟩

/-- The access to the part that lanes do not have is reported, and no facing is. -/
theorem router_violations :
    (∀ s e, .inStmt "Router" s (.sinkNotWriteFacing e) ∉
      (Circuit.mk "Router" [router]).violations) ∧
      ∃ s e, .inStmt "Router" s (.invalidAccess e) ∈ (Circuit.mk "Router" [router]).violations := by
  have hbuilt : ∀ module ∈ (Circuit.mk "Router" [router]).modules, module.name = "Router" →
      module.Built := by
    intro module hmodule _
    obtain rfl := List.mem_singleton.mp hmodule
    exact router_built
  obtain ⟨hsinks, -, haccesses⟩ := Circuit.violations_of_built hbuilt
  refine ⟨hsinks, haccesses.mpr ?_⟩
  refine ⟨router, List.mem_singleton_self _, rfl, _, List.mem_of_getLast? rfl, _,
    List.mem_singleton_self _, _, Expr.mem_nodes_self _, ?_⟩
  rfl

end Rtl
