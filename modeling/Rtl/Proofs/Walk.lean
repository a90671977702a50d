import Rtl.Proofs.Views

/-! # Laws of walking

What every rewrite of expressions relies on: replacing operands changes nothing else of an
expression, and subexpressions of operands are subexpressions. A walk with a state computes
what the plain walk does, as long as each step does under some invariant of the state.
-/

namespace Rtl

namespace Expr

/-! ## Operands -/

@[simp] theorem ty_mapChildren (f : Expr → Expr) (e : Expr) : (e.mapChildren f).ty = e.ty := by
  cases e <;> rfl

theorem mapChildren_mapChildren (f g : Expr → Expr) (e : Expr) :
    (e.mapChildren f).mapChildren g = e.mapChildren fun d => g (f d) := by
  cases e <;> simp [mapChildren]

theorem mapChildren_congr {f g : Expr → Expr} {e : Expr} (heq : ∀ d ∈ e.children, f d = g d) :
    e.mapChildren f = e.mapChildren g := by
  cases e <;> simp_all [mapChildren, children]

theorem mapChildren_eq_self {f : Expr → Expr} {e : Expr} (heq : ∀ d ∈ e.children, f d = d) :
    e.mapChildren f = e := by
  calc
    e.mapChildren f = e.mapChildren fun d => d := mapChildren_congr heq
    _ = e := by cases e <;> simp [mapChildren]

/-! ## Subexpressions -/

theorem mem_nodes_iff {d e : Expr} : d ∈ e.nodes ↔ d = e ∨ ∃ c ∈ e.children, d ∈ c.nodes := by
  rw [nodes_eq, List.mem_cons, List.mem_flatMap]

theorem mem_nodes_self (e : Expr) : e ∈ e.nodes :=
  mem_nodes_iff.mpr (Or.inl rfl)

theorem mem_nodes_of_mem_children {c d e : Expr} (hchild : c ∈ e.children) (hmem : d ∈ c.nodes) :
    d ∈ e.nodes :=
  mem_nodes_iff.mpr (Or.inr ⟨c, hchild, hmem⟩)

theorem mem_nodes_trans {c d e : Expr} (hc : c ∈ e.nodes) (hd : d ∈ c.nodes) : d ∈ e.nodes := by
  induction e using induction with
  | step e ih =>
      rcases mem_nodes_iff.mp hc with rfl | ⟨child, hchild, hc⟩
      · exact hd
      · exact mem_nodes_of_mem_children hchild (ih child hchild hc)

/-! ## Walks with effects -/

section Effects

variable {m : Type → Type} [Monad m] [LawfulMonad m]

theorem bottomUpAllM_eq (f : Expr → m Expr) (es : List Expr) :
    bottomUpAllM f es = es.mapM (bottomUpM f) := by
  induction es with
  | nil => simp [bottomUpAllM]
  | cons e es ih => simp [bottomUpAllM, ih]

theorem bottomUpM_eq (f : Expr → m Expr) (e : Expr) :
    e.bottomUpM f = e.mapChildrenM (bottomUpM f) >>= f := by
  cases e <;> simp [bottomUpM, mapChildrenM, bottomUpAllM_eq]

end Effects

end Expr

namespace Stmt

theorem mapExprs_mapExprs (f g : Expr → Expr) (s : Stmt) :
    (s.mapExprs f).mapExprs g = s.mapExprs fun e => g (f e) := by
  cases s with
  | register name ty clock reset => cases reset <;> rfl
  | _ => simp [mapExprs]

theorem mapExprs_congr {f g : Expr → Expr} {s : Stmt} (heq : ∀ e ∈ s.exprs, f e = g e) :
    s.mapExprs f = s.mapExprs g := by
  cases s with
  | register name ty clock reset => cases reset <;> simp_all [mapExprs, exprs]
  | _ => simp_all [mapExprs, exprs]

theorem mapExprs_eq_self {f : Expr → Expr} {s : Stmt} (heq : ∀ e ∈ s.exprs, f e = e) :
    s.mapExprs f = s := by
  calc
    s.mapExprs f = s.mapExprs fun e => e := mapExprs_congr heq
    _ = s := by cases s <;> simp [mapExprs]

end Stmt

/-- From every state with the invariant, the computation gives `a` and keeps the invariant. -/
def Computes {σ α : Type} (inv : σ → Prop) (x : StateM σ α) (a : α) : Prop :=
  ∀ s, inv s → (x.run s).1 = a ∧ inv (x.run s).2

namespace Computes

variable {σ α β : Type} {inv : σ → Prop}

theorem pure (a : α) : Computes inv (Pure.pure a) a :=
  fun _ hinv => ⟨rfl, hinv⟩

theorem bind {x : StateM σ α} {f : α → StateM σ β} {a : α} {b : β} (hx : Computes inv x a)
    (hf : Computes inv (f a) b) : Computes inv (x >>= f) b := by
  intro s hinv
  obtain ⟨hvalue, hinv⟩ := hx s hinv
  rw [StateT.run_bind]
  subst hvalue
  exact hf _ hinv

theorem map {x : StateM σ α} {a : α} (f : α → β) (hx : Computes inv x a) :
    Computes inv (f <$> x) (f a) :=
  fun s hinv => ⟨congrArg f (hx s hinv).1, (hx s hinv).2⟩

theorem of_map {x : StateM σ α} {a : α} {f : α → β} (hf : Function.Injective f)
    (hx : Computes inv (f <$> x) (f a)) : Computes inv x a :=
  fun s hinv => ⟨hf (hx s hinv).1, (hx s hinv).2⟩

theorem mapM {f : α → StateM σ β} {g : α → β} {as : List α}
    (hstep : ∀ a ∈ as, Computes inv (f a) (g a)) : Computes inv (as.mapM f) (as.map g) := by
  induction as with
  | nil => exact pure []
  | cons a as ih =>
      rw [List.mapM_cons]
      obtain ⟨hhead, htail⟩ := List.forall_mem_cons.mp hstep
      exact hhead.bind ((ih htail).bind (pure _))

/-- A map computes the node with the same rest whose parts are what the steps compute. -/
theorem mapParts {Node Part : Type} {view : View Node Part}
    {map : ∀ {m : Type → Type} [Monad m], (Part → m Part) → Node → m Node}
    (hmap : view.MappedBy map) {f : Part → StateM σ Part} {g : Part → Part} {node result : Node}
    (hrest : view.rest result = view.rest node)
    (hparts : view.parts result = (view.parts node).map g)
    (hstep : ∀ part ∈ view.parts node, Computes inv (f part) (g part)) :
    Computes inv (map f node) result := by
  refine of_map view.split_injective ?_
  rw [hmap, View.split, hrest, hparts]
  exact (mapM hstep).map _

theorem mapChildrenM {f : Expr → StateM σ Expr} {g : Expr → Expr} {e : Expr}
    (hstep : ∀ d ∈ e.children, Computes inv (f d) (g d)) :
    Computes inv (e.mapChildrenM f) (e.mapChildren g) :=
  mapParts Expr.mappedBy_mapChildrenM (e.shape_mapChildren g) (e.children_mapChildren g) hstep

/-- It is enough to look at each subexpression once its operands have been replaced. -/
theorem bottomUpM {f : Expr → StateM σ Expr} {g : Expr → Expr} {e : Expr}
    (hstep : ∀ d ∈ e.nodes, Computes inv (f (d.mapChildren (Expr.bottomUp g)))
      (g (d.mapChildren (Expr.bottomUp g)))) :
    Computes inv (e.bottomUpM f) (e.bottomUp g) := by
  induction e using Expr.induction with
  | step e ih =>
      rw [Expr.bottomUpM_eq, Expr.bottomUp_eq]
      refine bind (mapChildrenM ?_) (hstep e e.mem_nodes_self)
      intro c hchild
      exact ih c hchild fun d hmem => hstep d (Expr.mem_nodes_of_mem_children hchild hmem)

theorem mapExprsM {f : Expr → StateM σ Expr} {g : Expr → Expr} {s : Stmt}
    (hstep : ∀ e ∈ s.exprs, Computes inv (f e) (g e)) :
    Computes inv (s.mapExprsM f) (s.mapExprs g) :=
  mapParts Stmt.mappedBy_mapExprsM (s.shape_mapExprs g) (s.exprs_mapExprs g) hstep

end Computes

end Rtl
