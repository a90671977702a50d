import Rtl.Proofs.Leaves
import Rtl.Proofs.VacuousReads

/-! # Removal, statement by statement

What removal makes of an expression in one step, and how it goes through blocks: of the nodes
found to be without a value only the names matter, and going through the leaves one after
another gives the same as going through the blocks.
-/

namespace Rtl

namespace Expr

/-- What is left of an expression: vacuous reads are filled in, then arms are dropped. -/
def cleared (gone : List String) (e : Expr) : Expr :=
  (e.fillReads gone).dropArms

theorem dropArms_eq (e : Expr) : e.dropArms = dropArm (e.mapChildren dropArms) :=
  bottomUp_eq dropArm e

theorem dropArms_dontCare {e : Expr} (hanalog : e.ty.isAnalog = false) :
    e.dontCare.dropArms = e.dontCare := by
  unfold dontCare
  cases hty : e.ty with
  | analog width => simp [hty, Ty.isAnalog] at hanalog
  | _ => rfl

theorem cleared_eq {gone : List String} {e : Expr} (hvalid : e.AccessesValid) :
    e.cleared gone =
      if e.isFilled gone then e.dontCare else dropArm (e.mapChildren (cleared gone)) := by
  rw [cleared, fillReads_of_accessesValid hvalid]
  cases hfilled : e.isFilled gone with
  | true =>
      simp only [isFilled, Bool.and_eq_true, Bool.not_eq_true'] at hfilled
      exact dropArms_dontCare hfilled.2
  | false =>
      simp only [Bool.false_eq_true, ↓reduceIte]
      rw [dropArms_eq, mapChildren_mapChildren]
      rfl

end Expr

namespace Vacuous

/-! ## Only the names matter -/

section Names

variable {gone other : List String} (hnames : ∀ name, name ∈ gone ↔ name ∈ other)
include hnames

theorem isNodeAmong_congr : Expr.isNodeAmong gone = Expr.isNodeAmong other := by
  funext e
  cases e <;> simp [Expr.isNodeAmong, hnames]

theorem isVacuous_congr : Expr.isVacuous gone = Expr.isVacuous other := by
  funext e
  induction e using Expr.induction with
  | step e ih =>
      cases e with
      | ref r => simp [Expr.isVacuous, isNodeAmong_congr hnames]
      | subField base | subIndex base | subAccess base =>
          simp [Expr.isVacuous, ih base (by simp [Expr.children])]
      | _ => rfl

theorem isVacuousRead_congr : Expr.isVacuousRead gone = Expr.isVacuousRead other := by
  funext e
  rw [Expr.isVacuousRead, Expr.isVacuousRead, isNodeAmong_congr hnames, isVacuous_congr hnames]

theorem fillReads_congr : Expr.fillReads gone = Expr.fillReads other := by
  have hread : Expr.fillRead gone = Expr.fillRead other := by
    funext e
    rw [Expr.fillRead, Expr.fillRead, isVacuousRead_congr hnames]
  rw [Expr.fillReads, Expr.fillReads, hread]

theorem fill_congr (s : Stmt) : fill gone s = fill other s := by
  have hcount : Expr.countFilled gone = Expr.countFilled other := by
    funext e
    rw [Expr.countFilled, Expr.countFilled, isVacuousRead_congr hnames, fillReads_congr hnames]
  rw [fill, fill, fillReads_congr hnames, hcount]

theorem removeFromLeaf_congr (s : Stmt) : removeFromLeaf gone s = removeFromLeaf other s := by
  cases s <;> simp only [removeFromLeaf, fill_congr hnames, isVacuous_congr hnames]

end Names

theorem removeFrom_of_not_block (gone : List String) {s : Stmt} (hleaf : s.isBlock = false) :
    removeFrom gone s = removeFromLeaf gone s := by
  cases s with
  | block => simp [Stmt.isBlock] at hleaf
  | _ => simp only [removeFrom]

theorem removeFromAll_congr_of {ss : List Stmt}
    (ih : ∀ s ∈ ss, ∀ {gone other : List String},
      (∀ name, name ∈ gone ↔ name ∈ other) → removeFrom gone s = removeFrom other s)
    {gone other : List String} (hnames : ∀ name, name ∈ gone ↔ name ∈ other) :
    removeFromAll gone ss = removeFromAll other ss := by
  induction ss generalizing gone other with
  | nil => rfl
  | cons s ss ihs =>
      obtain ⟨hhead, htail⟩ := List.forall_mem_cons.mp ih
      have hnext : ∀ name, name ∈ (removeFrom other s).gone ++ gone ↔
          name ∈ (removeFrom other s).gone ++ other := by
        intro name
        rw [List.mem_append, List.mem_append, hnames]
      rw [removeFromAll, removeFromAll, hhead hnames, ihs htail hnext]

theorem removeFrom_congr {gone other : List String} (hnames : ∀ name, name ∈ gone ↔ name ∈ other)
    (s : Stmt) : removeFrom gone s = removeFrom other s := by
  induction s using Stmt.leafInduction generalizing gone other with
  | leaf s hleaf =>
      rw [removeFrom_of_not_block gone hleaf, removeFrom_of_not_block other hleaf]
      exact removeFromLeaf_congr hnames s
  | block body ih =>
      rw [removeFrom, removeFrom, removeFromAll_congr_of (fun s hs _ _ h => ih s hs h) hnames]

theorem removeFromAll_congr {gone other : List String}
    (hnames : ∀ name, name ∈ gone ↔ name ∈ other) (ss : List Stmt) :
    removeFromAll gone ss = removeFromAll other ss :=
  removeFromAll_congr_of (fun s _ _ _ h => removeFrom_congr h s) hnames

/-! ## Through blocks -/

theorem isBlock_settle (s : Stmt) : (settle s).result.isBlock = s.isBlock := by
  unfold settle
  split <;> rfl

theorem isBlock_removeFromLeaf (gone : List String) {s : Stmt} (hleaf : s.isBlock = false) :
    (removeFromLeaf gone s).result.isBlock = false := by
  have hfill : (fill gone s).result.isBlock = false := by
    rw [fill, isBlock_settle, Stmt.isBlock_mapExprs, Stmt.isBlock_mapExprs]
    exact hleaf
  unfold removeFromLeaf
  split
  · split
    · rfl
    · exact hfill
  · split
    · rfl
    · exact hfill
  · dsimp only
    split <;> rfl
  · exact hfill

theorem Remains.gone_cons (first : Remains Stmt) (rest : Remains (List Stmt)) :
    (first.cons rest).gone = first.gone ++ rest.gone := by
  simp [Remains.gone, Remains.cons]

/-- The names known after a list are the same whether it is gone through at once or from its
second statement on; only their order is not. -/
theorem mem_gone_cons (gone : List String) (s : Stmt) (ss : List Stmt) (name : String) :
    name ∈ (removeFromAll ((removeFrom gone s).gone ++ gone) ss).gone ++
        ((removeFrom gone s).gone ++ gone) ↔
      name ∈ (removeFromAll gone (s :: ss)).gone ++ gone := by
  rw [removeFromAll, Remains.gone_cons]
  simp only [List.mem_append]
  tauto

/-- What remains of two lists, one after the other. -/
def Remains.append (first rest : Remains (List Stmt)) : Remains (List Stmt) where
  result := first.result ++ rest.result
  findings := first.findings ++ rest.findings
  dropped := first.dropped + rest.dropped
  replaced := first.replaced + rest.replaced

theorem Remains.cons_append (first : Remains Stmt) (rest more : Remains (List Stmt)) :
    (first.cons rest).append more = first.cons (rest.append more) := by
  simp [Remains.append, Remains.cons, Nat.add_assoc]

/-- The second part of a list is gone through with the names found in the first. -/
theorem removeFromAll_append (gone : List String) (ss ts : List Stmt) :
    removeFromAll gone (ss ++ ts) =
      (removeFromAll gone ss).append
        (removeFromAll ((removeFromAll gone ss).gone ++ gone) ts) := by
  induction ss generalizing gone with
  | nil => simp [removeFromAll, Remains.append, Remains.gone]
  | cons s ss ih =>
      rw [List.cons_append, removeFromAll, ih, removeFromAll_congr (mem_gone_cons gone s ss) ts,
        removeFromAll, Remains.cons_append]

/-- Each statement of the result is what is left of one statement, given the names found before
it. -/
theorem mem_removeFromAll_iff {gone : List String} {ss : List Stmt} {t : Stmt} :
    t ∈ (removeFromAll gone ss).result ↔ ∃ before s after, ss = before ++ s :: after ∧
      t = (removeFrom ((removeFromAll gone before).gone ++ gone) s).result := by
  constructor
  · intro hmem
    induction ss generalizing gone with
    | nil => simp [removeFromAll] at hmem
    | cons s ss ih =>
        rw [removeFromAll, Remains.cons, List.mem_cons] at hmem
        rcases hmem with rfl | hrest
        · exact ⟨[], s, ss, rfl, rfl⟩
        · obtain ⟨before, u, after, rfl, rfl⟩ := ih hrest
          refine ⟨s :: before, u, after, rfl, ?_⟩
          rw [removeFrom_congr (mem_gone_cons gone s before) u]
  · rintro ⟨before, s, after, rfl, rfl⟩
    rw [removeFromAll_append, Remains.append, removeFromAll, Remains.cons]
    exact List.mem_append_right _ List.mem_cons_self

theorem gone_of_findings {α β : Type} {left : Remains α} {right : Remains β}
    (hfindings : left.findings = right.findings) : left.gone = right.gone := by
  rw [Remains.gone, Remains.gone, hfindings]

theorem leavesAll_removeFromAll_of {ss : List Stmt}
    (ih : ∀ s ∈ ss, ∀ gone : List String,
      (removeFrom gone s).result.leaves = (removeFromAll gone s.leaves).result ∧
        (removeFrom gone s).findings = (removeFromAll gone s.leaves).findings)
    (gone : List String) :
    Stmt.leavesAll (removeFromAll gone ss).result =
        (removeFromAll gone (Stmt.leavesAll ss)).result ∧
      (removeFromAll gone ss).findings = (removeFromAll gone (Stmt.leavesAll ss)).findings := by
  induction ss generalizing gone with
  | nil => exact ⟨rfl, rfl⟩
  | cons s ss ihs =>
      obtain ⟨hhead, htail⟩ := List.forall_mem_cons.mp ih
      -- The rest is met with the same names, for `s` and its leaves have the same findings.
      obtain ⟨hleaves, hfound⟩ := hhead gone
      obtain ⟨hrest, hrestFound⟩ := ihs htail ((removeFrom gone s).gone ++ gone)
      have happend := removeFromAll_append gone s.leaves (Stmt.leavesAll ss)
      rw [← gone_of_findings hfound] at happend
      rw [removeFromAll, Stmt.leavesAll, happend, Remains.append]
      constructor
      · rw [Remains.cons, Stmt.leavesAll, hleaves, hrest]
      · rw [Remains.cons, hfound, hrestFound]

theorem leaves_removeFrom (gone : List String) (s : Stmt) :
    (removeFrom gone s).result.leaves = (removeFromAll gone s.leaves).result ∧
      (removeFrom gone s).findings = (removeFromAll gone s.leaves).findings := by
  induction s using Stmt.leafInduction generalizing gone with
  | leaf s hleaf =>
      have hresult := isBlock_removeFromLeaf gone hleaf
      rw [← removeFrom_of_not_block gone hleaf] at hresult
      rw [Stmt.leaves_of_not_block hleaf, removeFromAll, removeFromAll,
        Stmt.leaves_of_not_block hresult]
      simp [Remains.cons]
  | block body ih =>
      obtain ⟨hresult, hfindings⟩ := leavesAll_removeFromAll_of ih gone
      rw [removeFrom]
      exact ⟨hresult, hfindings⟩

/-- Going through the leaves one after another gives the leaves of the result. -/
theorem leavesAll_removeFromAll (gone : List String) (ss : List Stmt) :
    Stmt.leavesAll (removeFromAll gone ss).result =
      (removeFromAll gone (Stmt.leavesAll ss)).result :=
  (leavesAll_removeFromAll_of (fun s _ gone => leaves_removeFrom gone s) gone).1

/-! ## Where no node is left without a value -/

/-- If no leaf makes a node void, the leaves are gone through independently. -/
theorem removeFrom_eq_mapLeaves {gone : List String} {s : Stmt}
    (hnone : ∀ t ∈ s.leaves, (removeFromLeaf gone t).gone = []) :
    (removeFrom gone s).result = s.mapLeaves (fun t => (removeFromLeaf gone t).result) ∧
      (removeFrom gone s).gone = [] := by
  induction s using Stmt.leafInduction with
  | leaf s hleaf =>
      rw [removeFrom_of_not_block gone hleaf, Stmt.mapLeaves_of_not_block _ hleaf]
      exact ⟨rfl, hnone s (by simp [Stmt.leaves_of_not_block hleaf])⟩
  | block body ih =>
      have hbody : (removeFromAll gone body).result =
            Stmt.mapLeavesAll (fun t => (removeFromLeaf gone t).result) body ∧
          (removeFromAll gone body).gone = [] := by
        induction body with
        | nil => exact ⟨rfl, rfl⟩
        | cons s ss ihs =>
            obtain ⟨hhead, htail⟩ := List.forall_mem_cons.mp ih
            rw [Stmt.leaves, Stmt.leavesAll] at hnone
            obtain ⟨hresult, hgone⟩ := hhead fun t ht => hnone t (List.mem_append_left _ ht)
            obtain ⟨hrest, hrestGone⟩ := ihs htail fun t ht => hnone t (List.mem_append_right _ ht)
            rw [removeFromAll, hgone, List.nil_append, Remains.gone_cons, hgone, hrestGone]
            exact ⟨by rw [Remains.cons, Stmt.mapLeavesAll, hresult, hrest], rfl⟩
      rw [removeFrom, Stmt.mapLeaves, Remains.map, hbody.1]
      exact ⟨rfl, hbody.2⟩

theorem removeFromAll_eq_mapLeavesAll {gone : List String} {ss : List Stmt}
    (hnone : ∀ t ∈ Stmt.leavesAll ss, (removeFromLeaf gone t).gone = []) :
    (removeFromAll gone ss).result =
      Stmt.mapLeavesAll (fun t => (removeFromLeaf gone t).result) ss := by
  have hblock := (removeFrom_eq_mapLeaves (s := .block ss) hnone).1
  rwa [removeFrom, Stmt.mapLeaves, Remains.map, Stmt.block.injEq] at hblock

end Vacuous

end Rtl
