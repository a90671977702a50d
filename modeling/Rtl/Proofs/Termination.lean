import Rtl.Proofs.Size

/-! # Inlining comes to an end

Sizes and values are worked out by recursions that follow references through a table, so that no
expression they come to need be smaller than the last. Here they are written to give up, without a
result, once their calls are nested deeper than some bound. Once the signals on loops have been
left out there is a bound from which on they never do, for every name and every expression and
whatever has been remembered before; and a chain of values as long as the table is all they follow.
-/

namespace Rtl

/-! ## Recursions that may give up -/

/-- The property holds from some depth on. -/
def Eventually (p : Nat → Prop) : Prop :=
  ∃ bound, ∀ depth, bound ≤ depth → p depth

namespace Eventually

theorem of_forall {p : Nat → Prop} (hall : ∀ depth, p depth) : Eventually p :=
  ⟨0, fun depth _ => hall depth⟩

theorem imp {p q : Nat → Prop} (hp : Eventually p) (himp : ∀ depth, p depth → q depth) :
    Eventually q := by
  obtain ⟨bound, hbound⟩ := hp
  exact ⟨bound, fun depth hle => himp depth (hbound depth hle)⟩

theorem of_succ {p : Nat → Prop} (hp : Eventually fun depth => p (depth + 1)) : Eventually p := by
  obtain ⟨bound, hbound⟩ := hp
  refine ⟨bound + 1, fun depth hle => ?_⟩
  obtain ⟨depth, rfl⟩ := Nat.exists_eq_succ_of_ne_zero (Nat.ne_zero_of_lt hle)
  exact hbound depth (Nat.le_of_succ_le_succ hle)

theorem and {p q : Nat → Prop} (hp : Eventually p) (hq : Eventually q) :
    Eventually fun depth => p depth ∧ q depth := by
  obtain ⟨first, hfirst⟩ := hp
  obtain ⟨second, hsecond⟩ := hq
  refine ⟨max first second, fun depth hle => ?_⟩
  exact ⟨hfirst depth ((Nat.le_max_left first second).trans hle),
    hsecond depth ((Nat.le_max_right first second).trans hle)⟩

/-- What holds of each item from some depth on holds of all together from some depth on. -/
theorem forall_mem {α : Type} {p : α → Nat → Prop} {as : List α}
    (hall : ∀ a ∈ as, Eventually (p a)) : Eventually fun depth => ∀ a ∈ as, p a depth := by
  induction as with
  | nil => exact of_forall fun _ _ hmem => absurd hmem List.not_mem_nil
  | cons a as ih =>
      obtain ⟨hhead, htail⟩ := List.forall_mem_cons.mp hall
      exact (hhead.and (ih htail)).imp fun _ hboth => List.forall_mem_cons.mpr hboth

end Eventually

/-- From every state the computation has a result. -/
def Ends {σ α : Type} (x : StateT σ Option α) : Prop :=
  ∀ s, (x.run s).isSome = true

/-- From every state with the invariant, the first computation ends as the second one does, which
keeps the invariant. -/
def EndsAs {σ α : Type} (inv : σ → Prop) (x : StateT σ Option α) (y : StateM σ α) : Prop :=
  ∀ s, inv s → x.run s = some (y.run s) ∧ inv (y.run s).2

namespace EndsAs

variable {σ α β : Type} {inv : σ → Prop}

theorem ends {x : StateT σ Option α} {y : StateM σ α} (hx : EndsAs (fun _ => True) x y) :
    Ends x := by
  intro s
  rw [(hx s trivial).1]
  rfl

theorem pure (a : α) : EndsAs inv (Pure.pure a) (Pure.pure a) :=
  fun _ hinv => ⟨rfl, hinv⟩

theorem bind {x : StateT σ Option α} {y : StateM σ α} {f : α → StateT σ Option β}
    {g : α → StateM σ β} (hx : EndsAs inv x y) (hf : ∀ a, EndsAs inv (f a) (g a)) :
    EndsAs inv (x >>= f) (y >>= g) := by
  intro s hinv
  obtain ⟨hrun, hinv⟩ := hx s hinv
  rw [StateT.run_bind, StateT.run_bind, hrun]
  exact hf _ _ hinv

theorem map {x : StateT σ Option α} {y : StateM σ α} (f : α → β) (hx : EndsAs inv x y) :
    EndsAs inv (f <$> x) (f <$> y) := by
  rw [map_eq_pure_bind, map_eq_pure_bind]
  exact hx.bind fun a => pure (f a)

theorem of_map {x : StateT σ Option α} {y : StateM σ α} {f : α → β} (hf : Function.Injective f)
    (hx : EndsAs inv (f <$> x) (f <$> y)) : EndsAs inv x y := by
  intro s hinv
  obtain ⟨hrun, hinv⟩ := hx s hinv
  rw [StateT.run_map] at hrun
  obtain ⟨⟨a, t⟩, hx, heq⟩ := Option.map_eq_some_iff.mp hrun
  obtain ⟨ha, rfl⟩ := Prod.mk.inj heq
  exact ⟨hx.trans (congrArg some (Prod.ext (hf ha) rfl)), hinv⟩

theorem mapM {f : α → StateT σ Option β} {g : α → StateM σ β} {as : List α}
    (hstep : ∀ a ∈ as, EndsAs inv (f a) (g a)) : EndsAs inv (as.mapM f) (as.mapM g) := by
  induction as with
  | nil => exact pure []
  | cons a as ih =>
      rw [List.mapM_cons, List.mapM_cons]
      obtain ⟨hhead, htail⟩ := List.forall_mem_cons.mp hstep
      exact hhead.bind fun _ => (ih htail).bind fun _ => pure _

theorem mapChildrenM {f : Expr → StateT σ Option Expr} {g : Expr → StateM σ Expr} {e : Expr}
    (hstep : ∀ d ∈ e.children, EndsAs inv (f d) (g d)) :
    EndsAs inv (e.mapChildrenM f) (e.mapChildrenM g) := by
  refine of_map Expr.operandView.split_injective ?_
  rw [Expr.mappedBy_mapChildrenM, Expr.mappedBy_mapChildrenM]
  exact (mapM hstep).map _

end EndsAs

/-! ## Sizes -/

namespace Assignments

mutual

/-- The size of the value of `name`, looked up or else worked out and remembered. -/
def sizeUpTo (table : Assignments) : (depth : Nat) → (name : String) → StateT Sizes Option Nat
  | 0, _ => failure
  | depth + 1, name => do
      match (← get).lookup name with
      | some size => return size
      | none =>
          let size ← match table.lookup name with
            | none => pure 1
            | some value => exprSizeUpTo table depth value
          modify ((name, size) :: ·)
          return size

/-- The size of an expression, where a read counts for the value that it is replaced by. -/
def exprSizeUpTo (table : Assignments) : (depth : Nat) → (e : Expr) → StateT Sizes Option Nat
  | 0, _ => failure
  | depth + 1, .ref r => do
      if r.isLocalRead && table.contains r.name then
        let inlined ← sizeUpTo table depth r.name
        return if maxInlinedSize < inlined then 1 else inlined
      else return 1
  | depth + 1, e => return 1 + (← e.children.mapM (exprSizeUpTo table depth)).sum

end

variable {table : Assignments}

theorem exprSizeUpTo_of_ne_ref (table : Assignments) (depth : Nat) {e : Expr}
    (hne : ∀ r, e ≠ .ref r) :
    table.exprSizeUpTo (depth + 1) e =
      (fun sizes => 1 + sizes.sum) <$> e.children.mapM (table.exprSizeUpTo depth) := by
  rw [exprSizeUpTo, map_eq_pure_bind]
  exact hne

section Run

variable {sizes : Sizes} {name : String}

theorem run_sizeUpTo_known {size : Nat} (depth : Nat) (hknown : sizes.lookup name = some size) :
    (table.sizeUpTo (depth + 1) name).run sizes = some (size, sizes) := by
  rw [sizeUpTo]
  simp [hknown]

theorem run_sizeUpTo_unassigned (depth : Nat) (hknown : sizes.lookup name = none)
    (hlookup : table.lookup name = none) :
    (table.sizeUpTo (depth + 1) name).run sizes = some (1, (name, 1) :: sizes) := by
  rw [sizeUpTo]
  simp [hknown, hlookup]

theorem run_sizeUpTo_fresh {value : Expr} {depth size : Nat} {after : Sizes}
    (hknown : sizes.lookup name = none) (hlookup : table.lookup name = some value)
    (hrun : (table.exprSizeUpTo depth value).run sizes = some (size, after)) :
    (table.sizeUpTo (depth + 1) name).run sizes = some (size, (name, size) :: after) := by
  rw [sizeUpTo]
  simp [hknown, hlookup, hrun]

end Run

/-- Adding up part by part gives the sum of all. -/
theorem sum_mapM_flatMap {α β : Type} {m : Type → Type} [Monad m] [LawfulMonad m] (f : β → m Nat)
    (parts : α → List β) (as : List α) :
    List.sum <$> (as.flatMap parts).mapM f =
      List.sum <$> as.mapM fun a => List.sum <$> (parts a).mapM f := by
  induction as with
  | nil => simp
  | cons a as ih =>
      have hrest : ∀ total : Nat,
          (fun weights => total + weights.sum) <$> (as.flatMap parts).mapM f =
            (fun sums => total + sums.sum) <$> as.mapM fun a => List.sum <$> (parts a).mapM f := by
        intro total
        have htotal := congrArg (fun x => (total + ·) <$> x) ih
        rwa [← comp_map, ← comp_map] at htotal
      simpa [List.flatMap_cons, List.mapM_append] using
        congrArg (fun k => (parts a).mapM f >>= fun weights => k weights.sum) (funext hrest)

theorem sum_mapM_nodes (size : String → StateM Sizes Nat) {e : Expr} (hne : ∀ r, e ≠ .ref r) :
    List.sum <$> e.nodes.mapM (table.weightM size) =
      (fun sizes => 1 + sizes.sum) <$>
        e.children.mapM fun d => List.sum <$> d.nodes.mapM (table.weightM size) := by
  have hweight : table.weightM size e = pure 1 := by
    cases e with
    | ref r => exact absurd rfl (hne r)
    | _ => rfl
  have hparts := sum_mapM_flatMap (table.weightM size) Expr.nodes e.children
  rw [Expr.nodes_eq, List.mapM_cons, hweight]
  simpa [← comp_map] using congrArg (fun x => (1 + ·) <$> x) hparts

/-- An expression is measured as it is along chains of values, provided that this holds of the
values it reads. -/
theorem endsAs_exprSizeUpTo {size : String → StateM Sizes Nat} {e : Expr}
    (hreads : ∀ name ∈ e.locals, table.contains name = true →
      Eventually fun depth => EndsAs (fun _ => True) (table.sizeUpTo depth name) (size name)) :
    Eventually fun depth => EndsAs (fun _ => True) (table.exprSizeUpTo depth e)
      (List.sum <$> e.nodes.mapM (table.weightM size)) := by
  induction e using Expr.refInduction with
  | ref r =>
      have hsum : List.sum <$> (Expr.ref r).nodes.mapM (table.weightM size) =
          table.weightM size (.ref r) := by
        simp [Expr.nodes]
      rw [hsum]
      apply Eventually.of_succ
      simp only [exprSizeUpTo, weightM]
      split
      next hread =>
        simp only [Ref.isLocalRead, Bool.and_eq_true] at hread
        have hmem : r.name ∈ (Expr.ref r).locals :=
          Expr.mem_locals_iff.mpr ⟨r, Expr.mem_nodes_self _, hread.1.2, rfl⟩
        exact (hreads r.name hmem hread.2).imp fun _ hname => hname.bind fun _ => .pure _
      next => exact .of_forall fun _ => .pure 1
  | step e hne ih =>
      have hchildren : ∀ d ∈ e.children, Eventually fun depth =>
          EndsAs (fun _ => True) (table.exprSizeUpTo depth d)
            (List.sum <$> d.nodes.mapM (table.weightM size)) := by
        intro d hchild
        apply ih d hchild
        intro name hmem
        obtain ⟨r, hnode, hr⟩ := Expr.mem_locals_iff.mp hmem
        exact hreads name
          (Expr.mem_locals_iff.mpr ⟨r, Expr.mem_nodes_of_mem_children hchild hnode, hr⟩)
      apply Eventually.of_succ
      refine (Eventually.forall_mem hchildren).imp fun depth hall => ?_
      rw [exprSizeUpTo_of_ne_ref table depth hne, sum_mapM_nodes size hne]
      exact .map _ (.mapM hall)

/-- One step: where the recursion comes to its end for all that a value reads, it does so for the
value, along chains that are longer by one. -/
theorem endsAs_sizeUpTo_step {length : Nat} {name : String}
    (hreads : ∀ other, table.Reads name other → table.contains other = true →
      Eventually fun depth =>
        EndsAs (fun _ => True) (table.sizeUpTo depth other) (table.sizeM length other)) :
    Eventually fun depth =>
      EndsAs (fun _ => True) (table.sizeUpTo depth name) (table.sizeM (length + 1) name) := by
  have hvalue : Eventually fun depth => ∀ value ∈ (table.lookup name).toList,
      EndsAs (fun _ => True) (table.exprSizeUpTo depth value)
        (List.sum <$> value.nodes.mapM (table.weightM (table.sizeM length))) := by
    apply Eventually.forall_mem
    intro value hvalue
    apply endsAs_exprSizeUpTo
    intro other hmem
    exact hreads other (by simpa [Reads, reads, Option.mem_toList.mp hvalue] using hmem)
  refine .of_succ (hvalue.imp fun depth hvalue sizes _ => ⟨?_, trivial⟩)
  cases hknown : sizes.lookup name with
  | some size => rw [run_sizeUpTo_known depth hknown, run_sizeM_known length hknown]
  | none =>
      cases hlookup : table.lookup name with
      | none =>
          rw [run_sizeUpTo_unassigned depth hknown hlookup,
            run_sizeM_unassigned length hknown hlookup]
      | some value =>
          have hrun := (hvalue value (Option.mem_toList.mpr hlookup) sizes trivial).1
          rw [run_sizeM_fresh hknown hlookup (Prod.eta _).symm]
          exact run_sizeUpTo_fresh hknown hlookup hrun

theorem Settled.endsAs_sizeUpTo {length : Nat} {name : String}
    (hsettled : table.Settled length name) :
    Eventually fun depth =>
      EndsAs (fun _ => True) (table.sizeUpTo depth name) (table.sizeM (length + 1) name) := by
  induction length generalizing name with
  | zero =>
      apply endsAs_sizeUpTo_step
      intro other hread
      exact absurd hsettled hread.lookup_ne_none
  | succ length ih => exact endsAs_sizeUpTo_step fun other hread _ => ih (hsettled other hread)

/-- For the signals of the table, chains that are shorter by one are enough. -/
theorem Settled.endsAs_sizeM {length : Nat} {name : String} (hsettled : table.Settled length name)
    (hcontains : table.contains name = true) :
    Eventually fun depth =>
      EndsAs (fun _ => True) (table.sizeUpTo depth name) (table.sizeM length name) := by
  induction length generalizing name with
  | zero =>
      have hnone : table.lookup name = none := hsettled
      simp [contains, hnone] at hcontains
  | succ length ih => exact endsAs_sizeUpTo_step fun other hread => ih (hsettled other hread)

/-- On a loop the recursion gives up at every depth: a signal that reads itself has no size. -/
theorem run_sizeUpTo_looped {r : Ref} (hread : r.isLocalRead = true)
    (hlookup : table.lookup r.name = some (.ref r)) {sizes : Sizes}
    (hknown : sizes.lookup r.name = none) (depth : Nat) :
    (table.sizeUpTo depth r.name).run sizes = none := by
  have hcontains : table.contains r.name = true := by rw [contains, hlookup]; rfl
  have hstep : ∀ depth, (table.exprSizeUpTo depth (.ref r)).run sizes = none →
      (table.sizeUpTo (depth + 1) r.name).run sizes = none := by
    intro depth hnone
    rw [sizeUpTo]
    simp [hknown, hlookup, hnone]
  induction depth using Nat.twoStepInduction with
  | zero => rfl
  | one => exact hstep 0 rfl
  | more depth ih _ =>
      apply hstep
      rw [exprSizeUpTo]
      simp [hread, hcontains, ih]

end Assignments

/-! ## Values -/

namespace Inline

mutual

/-- The value of a candidate with all reads of candidates replaced, looked up or else worked out
and remembered. -/
def resolveUpTo (table : Assignments) :
    (depth : Nat) → (name : String) → StateT Memo Option (Option Expr)
  | 0, _ => failure
  | depth + 1, name => do
      match (← get).resolved.lookup name with
      | some value => return some value
      | none =>
          match table.lookup name with
          | none => return none
          | some value =>
              let value ← substituteUpTo table depth value
              modify fun memo => { memo with resolved := (name, value) :: memo.resolved }
              return some value

/-- Replace the reads of candidates. -/
def substituteUpTo (table : Assignments) : (depth : Nat) → (e : Expr) → StateT Memo Option Expr
  | 0, _ => failure
  | depth + 1, .ref r => do
      if r.isLocalRead then
        match ← resolveUpTo table depth r.name with
        | some value =>
            modify fun memo => { memo with reads := memo.reads + 1 }
            return value
        | none => return .ref r
      else return .ref r
  | depth + 1, e => e.mapChildrenM (substituteUpTo table depth)

end

/-- Nothing but candidates is remembered. -/
def Memo.Within (table : Assignments) (memo : Memo) : Prop :=
  Assignments.Within memo.resolved table

theorem Memo.within_empty (table : Assignments) : Memo.Within table {} :=
  Assignments.within_nil table

/-- The steps of the inliner keep the invariant: counting a read, and remembering a candidate. -/
structure Stable (table : Assignments) (inv : Memo → Prop) : Prop where
  count : ∀ memo, inv memo → inv { memo with reads := memo.reads + 1 }
  remember : ∀ memo name value, inv memo → table.lookup name ≠ none →
    inv { memo with resolved := (name, value) :: memo.resolved }

theorem stable_true (table : Assignments) : Stable table fun _ => True :=
  ⟨fun _ _ => trivial, fun _ _ _ _ _ => trivial⟩

theorem stable_within (table : Assignments) : Stable table (Memo.Within table) where
  count _ hwithin := hwithin
  remember _ _ value hwithin hcandidate := hwithin.cons hcandidate value

variable {table : Assignments} {inv : Memo → Prop}

theorem substituteUpTo_of_ne_ref (table : Assignments) (depth : Nat) {e : Expr}
    (hne : ∀ r, e ≠ .ref r) :
    substituteUpTo table (depth + 1) e = e.mapChildrenM (substituteUpTo table depth) := by
  rw [substituteUpTo]
  exact hne

/-- Replacing goes on to the operands of anything but a reference, and is done with it then. -/
theorem bottomUpM_replaceRead_of_ne_ref (resolve : String → StateM Memo (Option Expr)) {e : Expr}
    (hne : ∀ r, e ≠ .ref r) :
    e.bottomUpM (replaceRead resolve) =
      e.mapChildrenM (Expr.bottomUpM (replaceRead resolve)) := by
  rw [Expr.bottomUpM_eq]
  cases e with
  | ref r => exact absurd rfl (hne r)
  | _ => simp [Expr.mapChildrenM, replaceRead]

section Run

variable {memo : Memo} {name : String}

theorem run_resolveUpTo_known {value : Expr} (depth : Nat)
    (hknown : memo.resolved.lookup name = some value) :
    (resolveUpTo table (depth + 1) name).run memo = some (some value, memo) := by
  rw [resolveUpTo]
  simp [hknown]

theorem run_resolveUpTo_unassigned (depth : Nat) (hknown : memo.resolved.lookup name = none)
    (hlookup : table.lookup name = none) :
    (resolveUpTo table (depth + 1) name).run memo = some (none, memo) := by
  rw [resolveUpTo]
  simp [hknown, hlookup]

theorem run_resolveUpTo_fresh {value inlined : Expr} {depth : Nat} {after : Memo}
    (hknown : memo.resolved.lookup name = none) (hlookup : table.lookup name = some value)
    (hrun : (substituteUpTo table depth value).run memo = some (inlined, after)) :
    (resolveUpTo table (depth + 1) name).run memo =
      some (some inlined, { after with resolved := (name, inlined) :: after.resolved }) := by
  rw [resolveUpTo]
  simp [hknown, hlookup, hrun]

end Run

theorem endsAs_substituteUpTo (hstable : Stable table inv)
    {resolve : String → StateM Memo (Option Expr)} {e : Expr}
    (hreads : ∀ name ∈ e.locals,
      Eventually fun depth => EndsAs inv (resolveUpTo table depth name) (resolve name)) :
    Eventually fun depth =>
      EndsAs inv (substituteUpTo table depth e) (e.bottomUpM (replaceRead resolve)) := by
  induction e using Expr.refInduction with
  | ref r =>
      apply Eventually.of_succ
      simp only [substituteUpTo, Expr.bottomUpM, replaceRead]
      split
      next hread =>
        simp only [Ref.isLocalRead, Bool.and_eq_true] at hread
        have hmem : r.name ∈ (Expr.ref r).locals :=
          Expr.mem_locals_iff.mpr ⟨r, Expr.mem_nodes_self _, hread.2, rfl⟩
        refine (hreads r.name hmem).imp fun depth hname => hname.bind fun found => ?_
        cases found with
        | none => exact .pure _
        | some value => exact fun memo hinv => ⟨rfl, hstable.count memo hinv⟩
      next => exact .of_forall fun _ => .pure _
  | step e hne ih =>
      have hchildren : ∀ d ∈ e.children, Eventually fun depth =>
          EndsAs inv (substituteUpTo table depth d) (d.bottomUpM (replaceRead resolve)) := by
        intro d hchild
        apply ih d hchild
        intro name hmem
        obtain ⟨r, hnode, hr⟩ := Expr.mem_locals_iff.mp hmem
        exact hreads name
          (Expr.mem_locals_iff.mpr ⟨r, Expr.mem_nodes_of_mem_children hchild hnode, hr⟩)
      apply Eventually.of_succ
      refine (Eventually.forall_mem hchildren).imp fun depth hall => ?_
      rw [substituteUpTo_of_ne_ref table depth hne, bottomUpM_replaceRead_of_ne_ref resolve hne]
      exact .mapChildrenM hall

theorem endsAs_resolveUpTo_step (hstable : Stable table inv) {length : Nat} {name : String}
    (hreads : ∀ other, table.Reads name other →
      Eventually fun depth =>
        EndsAs inv (resolveUpTo table depth other) (resolve table length other)) :
    Eventually fun depth =>
      EndsAs inv (resolveUpTo table depth name) (resolve table (length + 1) name) := by
  have hvalue : Eventually fun depth => ∀ value ∈ (table.lookup name).toList,
      EndsAs inv (substituteUpTo table depth value)
        (value.bottomUpM (replaceRead (resolve table length))) := by
    apply Eventually.forall_mem
    intro value hvalue
    apply endsAs_substituteUpTo hstable
    intro other hmem
    exact hreads other (by
      simpa [Assignments.Reads, Assignments.reads, Option.mem_toList.mp hvalue] using hmem)
  refine .of_succ (hvalue.imp fun depth hvalue memo hinv => ?_)
  cases hknown : memo.resolved.lookup name with
  | some value =>
      rw [run_resolveUpTo_known depth hknown, run_resolve_known length hknown]
      exact ⟨rfl, hinv⟩
  | none =>
      cases hlookup : table.lookup name with
      | none =>
          rw [run_resolveUpTo_unassigned depth hknown hlookup,
            run_resolve_unassigned length hknown hlookup]
          exact ⟨rfl, hinv⟩
      | some value =>
          obtain ⟨hrun, hafter⟩ := hvalue value (Option.mem_toList.mpr hlookup) memo hinv
          rw [run_resolve_fresh hknown hlookup (Prod.eta _).symm,
            run_resolveUpTo_fresh hknown hlookup hrun]
          exact ⟨rfl, hstable.remember _ name _ hafter (by simp [hlookup])⟩

theorem endsAs_resolveUpTo {length : Nat} {name : String} (hsettled : table.Settled length name) :
    Eventually fun depth => EndsAs (fun _ => True) (resolveUpTo table depth name)
      (resolve table (length + 1) name) := by
  induction length generalizing name with
  | zero =>
      apply endsAs_resolveUpTo_step (stable_true table)
      intro other hread
      exact absurd hsettled hread.lookup_ne_none
  | succ length ih =>
      exact endsAs_resolveUpTo_step (stable_true table) fun other hread =>
        ih (hsettled other hread)

/-- As long as nothing but candidates is remembered, chains that are shorter by one are enough. -/
theorem endsAs_resolve {length : Nat} {name : String} (hsettled : table.Settled length name) :
    Eventually fun depth => EndsAs (Memo.Within table) (resolveUpTo table depth name)
      (resolve table length name) := by
  induction length generalizing name with
  | zero =>
      have hnone : table.lookup name = none := hsettled
      refine .of_succ (.of_forall fun depth memo hwithin => ?_)
      rw [run_resolveUpTo_unassigned depth (hwithin name hnone) hnone]
      exact ⟨rfl, hwithin⟩
  | succ length ih =>
      exact endsAs_resolveUpTo_step (stable_within table) fun other hread =>
        ih (hsettled other hread)

end Inline

/-- Once the signals on loops have been left out, no signal reaches itself through the values of
those that remain. So the recursions that work out sizes and values end: for every name and every
expression there is a depth from which on they do not give up from any state of what is remembered,
and have the results of the recursions that follow chains of the lengths of their tables. -/
theorem Module.inlining_terminates (module : Module) :
    let unlooped := (singleAssignments module.writes).unlooped
    let candidates := module.candidates.value
    unlooped.Acyclic ∧
      (∀ name, Eventually fun depth => Ends (unlooped.sizeUpTo depth name)) ∧
      (∀ e, Eventually fun depth => Ends (unlooped.exprSizeUpTo depth e)) ∧
      (∀ name, Eventually fun depth => Ends (Inline.resolveUpTo candidates depth name)) ∧
      (∀ e, Eventually fun depth => Ends (Inline.substituteUpTo candidates depth e)) ∧
      (∀ name, unlooped.contains name = true → Eventually fun depth =>
        EndsAs (fun _ => True) (unlooped.sizeUpTo depth name)
          (unlooped.sizeM unlooped.length name)) ∧
      Inline.Memo.Within candidates {} ∧
      ∀ e, Eventually fun depth =>
        EndsAs (Inline.Memo.Within candidates) (Inline.substituteUpTo candidates depth e)
          (Inline.substitute candidates e) := by
  have hunlooped := (singleAssignments module.writes).unlooped_acyclic
  have hcandidates := module.candidates_acyclic
  refine ⟨hunlooped, fun name => ?_, fun e => ?_, fun name => ?_, fun e => ?_, fun name => ?_,
    Inline.Memo.within_empty _, fun e => ?_⟩
  · exact (hunlooped.settled name).endsAs_sizeUpTo.imp fun _ => EndsAs.ends
  · exact (Assignments.endsAs_exprSizeUpTo fun name _ _ =>
      (hunlooped.settled name).endsAs_sizeUpTo).imp fun _ => EndsAs.ends
  · exact (Inline.endsAs_resolveUpTo (hcandidates.settled name)).imp fun _ => EndsAs.ends
  · exact (Inline.endsAs_substituteUpTo (Inline.stable_true _) fun name _ =>
      Inline.endsAs_resolveUpTo (hcandidates.settled name)).imp fun _ => EndsAs.ends
  · exact (hunlooped.settled name).endsAs_sizeM
  · exact Inline.endsAs_substituteUpTo (Inline.stable_within _) fun name _ =>
      Inline.endsAs_resolve (hcandidates.settled name)

end Rtl
