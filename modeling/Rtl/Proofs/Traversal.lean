import Rtl.Proofs.Walk

/-! # The order of a search

A search asks its question of one subexpression after another and stops at the first that the
answer is yes for. The question may keep a state, so that its answers depend on what it has been
asked before. Whatever they are, it is asked of an initial part of the subexpressions in preorder,
each of them once, and of nothing after the first yes.
-/

namespace Rtl.Expr

section Effects

variable {m : Type → Type} [Monad m] [LawfulMonad m]

/-! ## A flag over the operands -/

/-- One operand of a search that goes through all of them and keeps a flag for whether the answer
has been yes. Once it has been, operands are passed over. -/
def searchOperand (p : Expr → m Bool) (found : Bool) (operand : Expr) : m Bool :=
  if found then return true else operand.anyM p

theorem foldlM_searchOperand_true (p : Expr → m Bool) (es : List Expr) :
    es.foldlM (searchOperand p) true = pure true := by
  induction es with
  | nil => rfl
  | cons e es ih => simp [searchOperand, ih]

theorem anyAllM_eq_foldlM (p : Expr → m Bool) (es : List Expr) :
    anyAllM p es = es.foldlM (searchOperand p) false := by
  induction es with
  | nil => rfl
  | cons e es ih =>
      rw [anyAllM, orElseM, ih, List.foldlM_cons]
      refine bind_congr fun found => ?_
      cases found with
      | true => exact (foldlM_searchOperand_true p es).symm
      | false => rfl

@[simp] theorem orElseM_pure_false (first : m Bool) : orElseM first (pure false) = first := by
  calc
    orElseM first (pure false) = first >>= pure := bind_congr fun found => by cases found <;> rfl
    _ = first := bind_pure first

/-- A search asks of the expression itself and, if the answer is no, goes through its operands
with a flag. -/
theorem anyM_eq_foldlM (p : Expr → m Bool) (e : Expr) :
    e.anyM p = orElseM (p e) (e.children.foldlM (searchOperand p) false) := by
  rw [← anyAllM_eq_foldlM]
  cases e <;> simp [anyM, children, anyAllM]

/-! ## The operands as one list -/

theorem anyM_append (p : Expr → m Bool) (ds es : List Expr) :
    (ds ++ es).anyM p = orElseM (ds.anyM p) (es.anyM p) := by
  induction ds with
  | nil => simp [orElseM]
  | cons d ds ih =>
      simp only [List.cons_append, List.anyM_cons, ih, orElseM, bind_assoc]
      refine bind_congr fun found => ?_
      cases found <;> simp

theorem foldlM_searchOperand_eq_anyM {p : Expr → m Bool} {es : List Expr}
    (hsearch : ∀ e ∈ es, e.anyM p = e.nodes.anyM p) :
    es.foldlM (searchOperand p) false = (es.flatMap nodes).anyM p := by
  induction es with
  | nil => rfl
  | cons e es ih =>
      obtain ⟨hhead, htail⟩ := List.forall_mem_cons.mp hsearch
      rw [List.flatMap_cons, anyM_append, ← hhead, ← ih htail, ← anyAllM_eq_foldlM,
        ← anyAllM_eq_foldlM, anyAllM]

/-- Searching an expression is searching the list of its subexpressions in preorder, whatever
effects the question has. -/
theorem anyM_eq_anyM_nodes (p : Expr → m Bool) (e : Expr) : e.anyM p = e.nodes.anyM p := by
  induction e using induction with
  | step e ih =>
      rw [anyM_eq_foldlM, nodes_eq, List.anyM_cons, foldlM_searchOperand_eq_anyM ih]
      rfl

end Effects

/-! ## What a search asks -/

/-- The question `p`, which also notes each expression that it is asked of. -/
def noting {σ : Type} (p : Expr → StateM σ Bool) (e : Expr) : StateM (List Expr × σ) Bool := do
  let (noted, s) ← get
  let (answer, next) := (p e).run s
  set (noted ++ [e], next)
  return answer

/-- The answers to `p`, asked of all expressions of a list in turn, and the state left behind. -/
def answers {σ : Type} (p : Expr → StateM σ Bool) (es : List Expr) (s : σ) : List Bool × σ :=
  (es.mapM p).run s

/-- To ask `p` of the expressions of a list until the answer is yes is to ask it of `asked`: an
initial part that ends with the first yes, or the whole list, if no answer is yes. -/
structure Asks {σ : Type} (p : Expr → StateM σ Bool) (es : List Expr) (s : σ)
    (asked : List Expr) (found : Bool) : Prop where
  initial : asked <+: es
  firstYes : found = true → ∃ n, (answers p asked s).1 = List.replicate n false ++ [true]
  noYes : found = false → asked = es ∧ ∀ answer ∈ (answers p asked s).1, answer = false

section State

variable {σ : Type} {p : Expr → StateM σ Bool} {e : Expr} {es asked : List Expr}
  {answer found : Bool} {s next : σ}

theorem answers_nil : answers p [] s = ([], s) :=
  rfl

theorem answers_cons (hask : (p e).run s = (answer, next)) :
    answers p (e :: es) s = (answer :: (answers p es next).1, (answers p es next).2) := by
  rw [answers, List.mapM_cons, StateT.run_bind, hask]
  rfl

theorem run_anyM_cons (hask : (p e).run s = (answer, next)) :
    (List.anyM p (e :: es)).run s = if answer then (true, next) else (es.anyM p).run next := by
  rw [List.anyM_cons, StateT.run_bind, hask]
  cases answer <;> rfl

theorem run_noting (hask : (p e).run s = (answer, next)) (noted : List Expr) :
    (noting p e).run (noted, s) = (answer, noted ++ [e], next) := by
  change (((p e).run s).1, noted ++ [e], ((p e).run s).2) = _
  rw [hask]

namespace Asks

theorem nil : Asks p [] s [] false where
  initial := List.prefix_rfl
  firstYes hfound := by simp at hfound
  noYes _ := ⟨rfl, by simp [answers_nil]⟩

theorem yes (hask : (p e).run s = (true, next)) : Asks p (e :: es) s [e] true where
  initial := by simp
  firstYes _ := ⟨0, by simp [answers_cons hask, answers_nil]⟩
  noYes hfound := by simp at hfound

theorem no (hask : (p e).run s = (false, next)) (hrest : Asks p es next asked found) :
    Asks p (e :: es) s (e :: asked) found where
  initial := by simpa using hrest.initial
  firstYes hfound := by
    obtain ⟨n, hn⟩ := hrest.firstYes hfound
    exact ⟨n + 1, by simp [answers_cons hask, hn, List.replicate_succ]⟩
  noYes hfound := by
    obtain ⟨hall, hno⟩ := hrest.noYes hfound
    simpa [answers_cons hask, hall] using hno

end Asks

/-- Going through a list step by step: each expression is noted and asked about, and those after
it only if the answer is no. -/
theorem exists_asks (p : Expr → StateM σ Bool) (es noted : List Expr) (s : σ) :
    ∃ asked found, Asks p es s asked found ∧
      (es.anyM (noting p)).run (noted, s) = (found, noted ++ asked, (answers p asked s).2) ∧
      (es.anyM p).run s = (found, (answers p asked s).2) := by
  induction es generalizing noted s with
  | nil => exact ⟨[], false, .nil, by rw [List.append_nil]; rfl, rfl⟩
  | cons e es ih =>
      rcases hask : (p e).run s with ⟨answer, next⟩
      rw [run_anyM_cons (run_noting hask noted), run_anyM_cons hask]
      cases answer with
      | true =>
          refine ⟨[e], true, .yes hask, ?_, ?_⟩ <;> simp [answers_cons hask, answers_nil]
      | false =>
          obtain ⟨asked, found, hasks, hnoted, hrun⟩ := ih (noted ++ [e]) next
          refine ⟨e :: asked, found, hasks.no hask, ?_, ?_⟩
          · simpa [answers_cons hask] using hnoted
          · simpa [answers_cons hask] using hrun

/-- A search asks its question, which may keep a state, of the shortest initial part of the
subexpressions in preorder that ends with a yes, or of all of them if there is none, and of nothing
else; it finds something in the first case only. Taking notes of it changes neither the result nor
the state left behind, which is that of asking just these questions. -/
theorem anyM_asks_in_preorder (p : Expr → StateM σ Bool) (e : Expr) (s : σ) :
    ∃ asked found, Asks p e.nodes s asked found ∧
      (e.anyM (noting p)).run ([], s) = (found, asked, (answers p asked s).2) ∧
      (e.anyM p).run s = (found, (answers p asked s).2) := by
  rw [anyM_eq_anyM_nodes, anyM_eq_anyM_nodes]
  exact exists_asks p e.nodes [] s

end State

end Rtl.Expr
