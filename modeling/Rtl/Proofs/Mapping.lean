import Rtl.Proofs.Walk

/-! # Mapping and visiting

An analysis visits the parts of a node, and the rewrite that relies on it maps them. That the two
agree shows when the map takes notes of what its function is called on: these are the parts that a
visit goes through, in the same order, for every function that keeps a state. Nothing else of a
node changes, so a rewrite that goes through a whole tree and leaves each node as it is returns the
tree.
-/

namespace Rtl

/-- The function `f`, which also records what it is called on. -/
def recording {m : Type → Type} [Monad m] {Part : Type} (f : Part → m Part) (part : Part) :
    StateT (List Part) m Part := do
  modify (· ++ [part])
  f part

namespace View

variable {Node Part : Type}

/-- From the state `s`, mapping `f` over the parts of `node` gives `result` and leaves the state
`next`. On the way `f` is called on the parts that are visited, in order, and on nothing else; what
it returns are the parts of the result, and the rest of the node is kept. -/
structure Maps {σ : Type} (view : View Node Part)
    (map : ∀ {m : Type → Type} [Monad m], (Part → m Part) → Node → m Node)
    (f : Part → StateM σ Part) (node : Node) (s : σ) (result : Node) (next : σ) : Prop where
  run : (map f node).run s = (result, next)
  calls : ((map (recording f) node).run []).run s = ((result, view.parts node), next)
  parts : ((view.parts node).mapM f).run s = (view.parts result, next)
  rest : view.rest result = view.rest node

section Effects

variable {m : Type → Type} [Monad m] [LawfulMonad m]

theorem run_mapM_recording (f : Part → m Part) (parts before : List Part) :
    (parts.mapM (recording f)).run before = (·, before ++ parts) <$> parts.mapM f := by
  induction parts generalizing before with
  | nil => simp
  | cons part parts ih => simp [recording, ih]

theorem mapM_eq_pure {f : Part → m Part} {parts : List Part}
    (hpure : ∀ part ∈ parts, f part = pure part) : parts.mapM f = pure parts := by
  induction parts with
  | nil => simp
  | cons part parts ih =>
      obtain ⟨hhead, htail⟩ := List.forall_mem_cons.mp hpure
      simp [hhead, ih htail]

namespace MappedBy

variable {view : View Node Part}
  {map : ∀ {m : Type → Type} [Monad m], (Part → m Part) → Node → m Node}

/-! ## One level -/

/-- Taking notes changes nothing else, and what has been noted in the end are the parts. -/
theorem run_recording (hmap : view.MappedBy map) (f : Part → m Part) (node : Node)
    (before : List Part) :
    (map (recording f) node).run before = (·, before ++ view.parts node) <$> map f node := by
  -- The law speaks of results taken apart, so both sides are compared in that form.
  have hinj : Function.Injective (Prod.map view.split (id : List Part → List Part)) :=
    view.split_injective.prodMap Function.injective_id
  have : Nonempty (Node × List Part) := ⟨node, []⟩
  rw [← map_inj_right_of_nonempty (hinj ·)]
  calc
    Prod.map view.split id <$> (map (recording f) node).run before
      = (view.split <$> map (recording f) node).run before := (StateT.run_map ..).symm
    _ = ((view.rest node, ·) <$> (view.parts node).mapM (recording f)).run before := by
        rw [hmap]
    _ = (·, before ++ view.parts node) <$> (view.rest node, ·) <$> (view.parts node).mapM f := by
        rw [StateT.run_map, run_mapM_recording]
        simp
    _ = (·, before ++ view.parts node) <$> view.split <$> map f node := by rw [hmap]
    _ = Prod.map view.split id <$> (·, before ++ view.parts node) <$> map f node := by simp

theorem exists_maps {σ : Type} (hmap : view.MappedBy map) (f : Part → StateM σ Part) (node : Node)
    (s : σ) : ∃ result next, view.Maps map f node s result next := by
  rcases hrun : (map f node).run s with ⟨result, next⟩
  rcases hparts : ((view.parts node).mapM f).run s with ⟨parts, final⟩
  have hlaw : (view.split result, next) = ((view.rest node, parts), final) := by
    have hruns := congrArg (StateT.run · s) (hmap f node)
    simp only [StateT.run_map, hrun, hparts] at hruns
    exact hruns
  obtain ⟨hsplit, rfl⟩ := Prod.mk.inj hlaw
  obtain ⟨hrest, rfl⟩ := Prod.mk.inj hsplit
  refine ⟨result, next, hrun, ?_, hparts, hrest⟩
  rw [hmap.run_recording, StateT.run_map, hrun]
  rfl

theorem map_eq_pure (hmap : view.MappedBy map) {f : Part → m Part} {node result : Node}
    (hrest : view.rest result = view.rest node)
    (hparts : (view.parts node).mapM f = pure (view.parts result)) : map f node = pure result := by
  have : Nonempty Node := ⟨node⟩
  rw [← map_inj_right_of_nonempty (view.split_injective ·), hmap, hparts, map_pure, map_pure, split,
    hrest]

/-! ## Whole trees -/

/-- A rewrite that maps itself over the parts of a node, and is the identity on the node that
results, is the identity on every tree. -/
theorem eq_pure_iff {view : View Node Node}
    {map : ∀ {m : Type → Type} [Monad m], (Node → m Node) → Node → m Node}
    (hmap : view.MappedBy map) (hwf : WellFounded fun part node => part ∈ view.parts node)
    (rewrite : Node → m Node) :
    (∀ node, rewrite node = map rewrite node >>= pure) ↔ rewrite = pure := by
  constructor
  · intro hrewrite
    funext node
    induction node using hwf.induction with
    | h node ih => rw [hrewrite, bind_pure, hmap.map_eq_pure rfl (mapM_eq_pure ih)]
  · rintro rfl node
    rw [bind_pure, hmap.map_eq_pure rfl (mapM_eq_pure fun _ _ => rfl)]

end MappedBy

end Effects

end View

namespace Expr

variable {m : Type → Type} [Monad m] [LawfulMonad m]

theorem wellFounded_children : WellFounded fun d e : Expr => d ∈ e.children :=
  Subrelation.wf sizeOf_lt_of_mem_children (measure sizeOf).wf

theorem mapChildrenM_pure (f : Expr → Expr) (e : Expr) :
    (e.mapChildrenM fun d => (pure (f d) : m Expr)) = pure (e.mapChildren f) := by
  refine mappedBy_mapChildrenM.map_eq_pure (e.shape_mapChildren f) ?_
  exact List.mapM_pure.trans (congrArg pure (e.children_mapChildren f).symm)

theorem eq_pure_iff_mapChildrenM (rewrite : Expr → m Expr) :
    (∀ e, rewrite e = e.mapChildrenM rewrite >>= pure) ↔ rewrite = pure :=
  mappedBy_mapChildrenM.eq_pure_iff wellFounded_children rewrite

theorem bottomUpM_pure : (bottomUpM pure : Expr → m Expr) = pure :=
  (eq_pure_iff_mapChildrenM _).mp (bottomUpM_eq pure)

end Expr

namespace Stmt

variable {m : Type → Type} [Monad m] [LawfulMonad m]

theorem sizeOf_lt_of_mem_children {s t : Stmt} (hmem : s ∈ t.children) : sizeOf s < sizeOf t := by
  cases t with
  | block body =>
      have hlt : sizeOf s < sizeOf body := List.sizeOf_lt_of_mem hmem
      simp only [block.sizeOf_spec]
      omega
  | _ => simp [children] at hmem

theorem wellFounded_children : WellFounded fun s t : Stmt => s ∈ t.children :=
  Subrelation.wf sizeOf_lt_of_mem_children (measure sizeOf).wf

theorem mapExprsM_pure (f : Expr → Expr) (s : Stmt) :
    (s.mapExprsM fun e => (pure (f e) : m Expr)) = pure (s.mapExprs f) := by
  refine mappedBy_mapExprsM.map_eq_pure (s.shape_mapExprs f) ?_
  exact List.mapM_pure.trans (congrArg pure (s.exprs_mapExprs f).symm)

/-- The expressions of a statement are gone through first, each of them down to its leaves. -/
theorem eq_pure_iff_mapExprsM_mapChildrenM (rewrite : Stmt → m Stmt) :
    (∀ s, rewrite s = s.mapExprsM (Expr.bottomUpM pure) >>= mapChildrenM rewrite >>= pure) ↔
      rewrite = pure := by
  have hexprs (s : Stmt) : s.mapExprsM (Expr.bottomUpM pure) = (pure s : m Stmt) := by
    rw [Expr.bottomUpM_pure]
    exact mappedBy_mapExprsM.map_eq_pure rfl (View.mapM_eq_pure fun _ _ => rfl)
  simp only [hexprs, pure_bind]
  exact mappedBy_mapChildrenM.eq_pure_iff wellFounded_children rewrite

end Stmt

/-- Mapping and visiting agree on every node, whatever state the function keeps: on expressions and
their operands, with the type unchanged, on statements and the expressions they hold, and on
statements and those inside. The maps of a plain function are these maps without a state. So a
rewrite that goes through all of an expression or of a statement by these maps, with the identity
at each node, is the one that returns the tree itself. -/
theorem mapping_agrees_with_visiting {σ : Type} :
    (∀ (f : Expr → StateM σ Expr) (e : Expr) (s : σ), ∃ result next,
      Expr.operandView.Maps Expr.mapChildrenM f e s result next ∧ result.ty = e.ty) ∧
    (∀ (f : Expr → StateM σ Expr) (t : Stmt) (s : σ), ∃ result next,
      Stmt.exprView.Maps Stmt.mapExprsM f t s result next) ∧
    (∀ (f : Stmt → StateM σ Stmt) (t : Stmt) (s : σ), ∃ result next,
      Stmt.innerView.Maps Stmt.mapChildrenM f t s result next) ∧
    (∀ (f : Expr → Expr) (e : Expr),
      (e.mapChildrenM fun d => (pure (f d) : StateM σ Expr)) = pure (e.mapChildren f)) ∧
    (∀ (f : Expr → Expr) (t : Stmt),
      (t.mapExprsM fun e => (pure (f e) : StateM σ Expr)) = pure (t.mapExprs f)) ∧
    (∀ rewrite : Expr → StateM σ Expr,
      (∀ e, rewrite e = e.mapChildrenM rewrite >>= pure) ↔ rewrite = pure) ∧
    (∀ rewrite : Stmt → StateM σ Stmt,
      (∀ t, rewrite t = t.mapExprsM (Expr.bottomUpM pure) >>= Stmt.mapChildrenM rewrite >>= pure) ↔
        rewrite = pure) := by
  refine ⟨fun f e s => ?_, Stmt.mappedBy_mapExprsM.exists_maps,
    Stmt.mappedBy_mapChildrenM.exists_maps, Expr.mapChildrenM_pure, Stmt.mapExprsM_pure,
    Expr.eq_pure_iff_mapChildrenM, Stmt.eq_pure_iff_mapExprsM_mapChildrenM⟩
  obtain ⟨result, next, hmaps⟩ := Expr.mappedBy_mapChildrenM.exists_maps f e s
  have hty : result.ty = e.ty := by
    calc
      result.ty = result.shape.ty := result.ty_shape.symm
      _ = e.shape.ty := congrArg Expr.Shape.ty hmaps.rest
      _ = e.ty := e.ty_shape
  exact ⟨result, next, hmaps, hty⟩

end Rtl
