import Rtl.Proofs.Remnants
import Rtl.Proofs.VacuousUses

/-! # Nodes that are dropped, and their uses

A node that loses its value is dropped, and this may take the value from nodes that use it. The
walk of removal is laid out here leaf by leaf, each with the nodes that are known to be without a
value when removal comes to it. These are the nodes dropped so far, no more and no fewer, so that
where nodes are defined before they are used, no use of a dropped node is left.
-/

namespace Rtl

/-! ## The walk -/

namespace Vacuous

/-- A leaf as removal comes to it: with the nodes that are known to be without a value. -/
structure Visit where
  known : List String
  leaf : Stmt

namespace Visit

def remains (visit : Visit) : Remains Stmt :=
  removeFromLeaf visit.known visit.leaf

/-- The leaf defines the node, and nothing is left of it. -/
def Drops (visit : Visit) (name : String) : Prop :=
  visit.leaf.nodeName? = some name ∧ visit.remains.result = .skip

end Visit

mutual

/-- The leaves in the order in which removal comes to them, going through blocks as it does. -/
def visits (gone : List String) : Stmt → List Visit
  | .block body => visitsAll gone body
  | s => [⟨gone, s⟩]

def visitsAll (gone : List String) : List Stmt → List Visit
  | [] => []
  | s :: ss => visits gone s ++ visitsAll ((removeFrom gone s).gone ++ gone) ss

end

/-- The walk goes through the given leaves, with these results and these nodes found to be without
a value. At each of its points the nodes that are known are those known from the start and those
found since. -/
structure Walks (gone : List String) (leaves left : List Stmt) (found : List String)
    (walk : List Visit) : Prop where
  leaves : walk.map Visit.leaf = leaves
  left : walk.map (·.remains.result) = left
  found : walk.flatMap (·.remains.gone) = found
  known : ∀ before visit after, walk = before ++ visit :: after → ∀ name,
    name ∈ visit.known ↔ name ∈ before.flatMap (·.remains.gone) ∨ name ∈ gone

theorem Walks.nil (gone : List String) : Walks gone [] [] [] [] :=
  ⟨rfl, rfl, rfl, by simp⟩

theorem Walks.leaf (gone : List String) {s : Stmt} :
    Walks gone [s] [(removeFromLeaf gone s).result] (removeFromLeaf gone s).gone [⟨gone, s⟩] where
  leaves := rfl
  left := rfl
  found := List.flatMap_singleton _ _
  known before visit after hsplit name := by
    cases before with
    | nil =>
        obtain ⟨rfl, _⟩ := List.cons.inj hsplit
        simp
    | cons => simp at hsplit

/-- The second part of a walk starts with what was found in the first. -/
theorem Walks.append {gone : List String} {leaves left leaves' left' : List Stmt}
    {found found' : List String} {walk walk' : List Visit}
    (hfirst : Walks gone leaves left found walk)
    (hrest : Walks (found ++ gone) leaves' left' found' walk') :
    Walks gone (leaves ++ leaves') (left ++ left') (found ++ found') (walk ++ walk') where
  leaves := by rw [List.map_append, hfirst.leaves, hrest.leaves]
  left := by rw [List.map_append, hfirst.left, hrest.left]
  found := by rw [List.flatMap_append, hfirst.found, hrest.found]
  known before visit after hsplit name := by
    have hsecond : ∀ passed, walk' = passed ++ visit :: after → (name ∈ visit.known ↔
        name ∈ (walk ++ passed).flatMap (·.remains.gone) ∨ name ∈ gone) := by
      intro passed hsplit
      rw [hrest.known passed visit after hsplit name, List.flatMap_append, hfirst.found]
      simp only [List.mem_append]
      tauto
    rcases List.append_eq_append_iff.mp hsplit with ⟨passed, rfl, hrest⟩ | ⟨ahead, hwalk, hsplit⟩
    · exact hsecond passed hrest
    · cases ahead with
      | nil =>
          rw [List.append_nil] at hwalk
          rw [← hwalk, ← List.append_nil walk]
          exact hsecond [] hsplit.symm
      | cons first ahead =>
          obtain ⟨rfl, _⟩ := List.cons.inj hsplit
          exact hfirst.known before visit ahead hwalk name

theorem walks_visitsAll_of {ss : List Stmt}
    (ih : ∀ s ∈ ss, ∀ gone, Walks gone s.leaves (removeFrom gone s).result.leaves
      (removeFrom gone s).gone (visits gone s)) (gone : List String) :
    Walks gone (Stmt.leavesAll ss) (Stmt.leavesAll (removeFromAll gone ss).result)
      (removeFromAll gone ss).gone (visitsAll gone ss) := by
  induction ss generalizing gone with
  | nil => exact .nil gone
  | cons s ss ihs =>
      obtain ⟨hhead, htail⟩ := List.forall_mem_cons.mp ih
      rw [removeFromAll, Remains.gone_cons, visitsAll]
      exact (hhead gone).append (ihs htail _)

theorem walks_visits (gone : List String) (s : Stmt) :
    Walks gone s.leaves (removeFrom gone s).result.leaves (removeFrom gone s).gone
      (visits gone s) := by
  induction s using Stmt.leafInduction generalizing gone with
  | leaf s hleaf =>
      have hvisits : visits gone s = [⟨gone, s⟩] := by
        cases s <;> simp_all [visits, Stmt.isBlock]
      rw [hvisits, removeFrom_of_not_block gone hleaf, Stmt.leaves_of_not_block hleaf,
        Stmt.leaves_of_not_block (isBlock_removeFromLeaf gone hleaf)]
      exact .leaf gone
  | block body ih =>
      rw [removeFrom, visits]
      exact walks_visitsAll_of ih gone

theorem walks_visitsAll (gone : List String) (ss : List Stmt) :
    Walks gone (Stmt.leavesAll ss) (Stmt.leavesAll (removeFromAll gone ss).result)
      (removeFromAll gone ss).gone (visitsAll gone ss) :=
  walks_visitsAll_of (fun s _ gone => walks_visits gone s) gone

theorem mem_flatMap_gone {walk : List Visit} {name : String} :
    name ∈ walk.flatMap (·.remains.gone) ↔ ∃ visit ∈ walk, visit.Drops name := by
  rw [List.mem_flatMap]
  exact exists_congr fun visit => and_congr_right fun _ => mem_gone_removeFromLeaf

end Vacuous

/-! ## Uses of known nodes -/

namespace Expr

theorem mem_nodes_of_root? {e : Expr} {r : Ref} (hroot : e.root? = some r) : .ref r ∈ e.nodes := by
  induction e using induction with
  | step e ih =>
      cases e with
      | ref q =>
          obtain rfl := Option.some.inj hroot
          exact mem_nodes_self _
      | subField base | subIndex base | subAccess base =>
          have hbase := ih base (by simp [children]) hroot
          exact mem_nodes_of_mem_children (by simp [children]) hbase
      | _ => simp [root?] at hroot

/-- What leads back to a node without a value leads nowhere. -/
theorem isVacuous_of_root? {gone : List String} {e : Expr} {r : Ref} (hroot : e.root? = some r)
    (hnode : isNodeAmong gone (.ref r) = true) : e.isVacuous gone = true := by
  induction e using induction with
  | step e ih =>
      cases e with
      | ref q =>
          obtain rfl := Option.some.inj hroot
          rw [isVacuous, hnode, Bool.or_true]
      | subField base | subIndex base | subAccess base =>
          rw [isVacuous, ih base (by simp [children]) hroot, Bool.or_true]
      | _ => simp [root?] at hroot

/-- A use of a node without a value is filled in, unless it is analog. -/
theorem fillRead_ref_ne_self {gone : List String} {r : Ref}
    (hnode : isNodeAmong gone (.ref r) = true) (hanalog : r.ty.isAnalog = false) :
    (Expr.ref r).fillRead gone ≠ .ref r := by
  intro hkept
  have hread : (Expr.ref r).isVacuousRead gone = true := by
    simp [isVacuousRead, isVacuous, hnode]
  have hty := isAnalog_of_fillRead_eq_self hread hkept
  rw [Expr.ty, hanalog] at hty
  exact Bool.false_ne_true hty

end Expr

namespace Stmt

/-- The statement does not use the node. An attachment may mention it in the indices of its
members, which are never looked at. -/
structure Forgets (t : Stmt) (name : String) : Prop where
  mentions : t.isAttach = false → t.mentions name = false
  members : t.isAttach = true → ∀ member ∈ t.exprs, ∀ r ∈ member.root?, r.name ≠ name

theorem forgets_of_not_mentions {t : Stmt} {name : String} (hnot : t.mentions name = false) :
    t.Forgets name where
  mentions _ := hnot
  members _ member hmem r hroot hname := by
    have hmentions := mentions_of_mem hmem (Expr.mem_nodes_of_root? hroot)
    rw [hname, hnot] at hmentions
    exact Bool.false_ne_true hmentions

theorem nodeName?_eq_some_iff {s : Stmt} {name : String} :
    s.nodeName? = some name ↔ ∃ value, s = .node name value := by
  cases s <;> simp [nodeName?]

theorem isSkip_of_nodeName? {s : Stmt} {name : String} (hname : s.nodeName? = some name) :
    s.isSkip = false := by
  obtain ⟨value, rfl⟩ := nodeName?_eq_some_iff.mp hname
  rfl

theorem eq_skip_of_isSkip {s : Stmt} (hskip : s.isSkip = true) : s = .skip := by
  cases s <;> first | rfl | simp [isSkip] at hskip

end Stmt

namespace Vacuous

/-- What is left of a leaf refers to nothing new and, attachments aside, to nothing that would have
been filled in. -/
theorem ref_of_removeFromLeaf {gone : List String} {s : Stmt} {e : Expr}
    (he : e ∈ (removeFromLeaf gone s).result.exprs) {r : Ref} (hmem : .ref r ∈ e.nodes) :
    (∃ d ∈ s.exprs, .ref r ∈ d.nodes) ∧
      (s.isAttach = false → (Expr.ref r).fillRead gone = .ref r) := by
  cases hattach : s.isAttach with
  | true =>
      rw [exprs_removeFromLeaf_of_isAttach gone hattach] at he
      obtain ⟨_, he, _⟩ := Stmt.of_mem_keptMembers he
      exact ⟨⟨e, he, hmem⟩, by simp⟩
  | false =>
      rw [removeFromLeaf_eq_fill gone hattach] at he
      split at he
      · simp [Remains.nothing, Stmt.exprs] at he
      · rw [(fill_eq_settle gone s).1] at he
        obtain ⟨d, hd, hmem⟩ := (remnant_settle _).refs e he r hmem
        rw [Stmt.exprs_mapExprs] at hd
        obtain ⟨c, hc, rfl⟩ := List.mem_map.mp hd
        obtain ⟨hmem, hkept⟩ := Expr.ref_mem_nodes_of_cleared hmem
        exact ⟨⟨c, hc, hmem⟩, fun _ => hkept⟩

theorem not_mentions_removeFromLeaf (gone : List String) {s : Stmt} {name : String}
    (hnot : s.mentions name = false) : (removeFromLeaf gone s).result.mentions name = false := by
  rw [Bool.eq_false_iff, Ne, Stmt.mentions_iff] at hnot ⊢
  rintro ⟨e, he, r, hmem, hname⟩
  obtain ⟨⟨d, hd, hmem⟩, _⟩ := ref_of_removeFromLeaf he hmem
  exact hnot ⟨d, hd, r, hmem, hname⟩

/-- What is left of an attachment is an attachment or nothing. -/
theorem exprs_of_not_isAttach {gone : List String} {s : Stmt} (hattach : s.isAttach = true)
    (hother : (removeFromLeaf gone s).result.isAttach = false) :
    (removeFromLeaf gone s).result.exprs = [] := by
  cases s with
  | attach members =>
      simp only [removeFromLeaf] at hother ⊢
      split
      · rfl
      next htwo =>
        rw [if_neg htwo] at hother
        simp [Stmt.isAttach] at hother
  | _ => simp [Stmt.isAttach] at hattach

/-- A leaf is left without uses of the nodes that are known to be without a value, if it refers to
them as nodes. -/
theorem forgets_removeFromLeaf {gone : List String} {s : Stmt} {name : String}
    (hname : name ∈ gone)
    (hrefs : ∀ e ∈ s.exprs, ∀ r : Ref, .ref r ∈ e.nodes → r.name = name →
      r.kind = .node ∧ r.ty.isAnalog = false) :
    (removeFromLeaf gone s).result.Forgets name := by
  have hnode : ∀ r : Ref, r.name = name → r.kind = .node →
      Expr.isNodeAmong gone (.ref r) = true := by
    intro r hrefName hkind
    simp [Expr.isNodeAmong, hrefName, hkind, hname]
  cases hattach : s.isAttach with
  | true =>
      refine ⟨fun hother => ?_, fun _ member hmem r hroot hrefName => ?_⟩
      · rw [Stmt.mentions, exprs_of_not_isAttach hattach hother, List.any_nil]
      · rw [exprs_removeFromLeaf_of_isAttach gone hattach] at hmem
        obtain ⟨_, he, hexists⟩ := Stmt.of_mem_keptMembers hmem
        obtain ⟨hkind, _⟩ := hrefs member he r (Expr.mem_nodes_of_root? hroot) hrefName
        rw [Expr.isVacuous_of_root? hroot (hnode r hrefName hkind)] at hexists
        exact Bool.false_ne_true hexists.symm
  | false =>
      apply Stmt.forgets_of_not_mentions
      rw [Bool.eq_false_iff, Ne, Stmt.mentions_iff]
      rintro ⟨e, he, r, hmem, hrefName⟩
      obtain ⟨⟨d, hd, hbefore⟩, hkept⟩ := ref_of_removeFromLeaf he hmem
      obtain ⟨hkind, hanalog⟩ := hrefs d hd r hbefore hrefName
      exact Expr.fillRead_ref_ne_self (hnode r hrefName hkind) hanalog (hkept hattach)

end Vacuous

/-! ## Modules -/

namespace Module

/-- The names of the nodes that a module defines. -/
def nodeNames (module : Module) : List String :=
  module.statements.filterMap Stmt.nodeName?

/-- Nodes are referred to as nodes, are not analog, and are not mentioned before they are
defined. -/
structure NodesInOrder (module : Module) : Prop where
  refs : ∀ r ∈ module.refs, r.name ∈ module.nodeNames → r.kind = .node ∧ r.ty.isAnalog = false
  first : module.statements.Pairwise fun s t => ∀ name ∈ t.nodeName?, s.mentions name = false

instance (module : Module) : Decidable module.NodesInOrder :=
  decidable_of_iff
    ((∀ r ∈ module.refs, r.name ∈ module.nodeNames → r.kind = .node ∧ r.ty.isAnalog = false) ∧
      module.statements.Pairwise fun s t => ∀ name ∈ t.nodeName?, s.mentions name = false)
    ⟨fun ⟨hrefs, hfirst⟩ => ⟨hrefs, hfirst⟩, fun h => ⟨h.refs, h.first⟩⟩

/-- In the place of a definition of the node there is nothing after removal. -/
def DropsNode (module : Module) (name : String) : Prop :=
  ∃ value, (Stmt.node name value, Stmt.skip) ∈
    (Stmt.leavesAll module.body).zip (Stmt.leavesAll module.removeVacuous.value.body)

/-- The walk of removal through the module. -/
def vacuousWalk (module : Module) : List Vacuous.Visit :=
  Vacuous.visitsAll [] module.body

variable {module : Module}

theorem walks_vacuousWalk (module : Module) :
    Vacuous.Walks [] (Stmt.leavesAll module.body)
      (Stmt.leavesAll module.removeVacuous.value.body) (Vacuous.removeFromAll [] module.body).gone
      module.vacuousWalk :=
  Vacuous.walks_visitsAll [] module.body

theorem dropsNode_iff {name : String} :
    module.DropsNode name ↔ ∃ visit ∈ module.vacuousWalk, visit.Drops name := by
  have hwalks := module.walks_vacuousWalk
  simp only [DropsNode, ← hwalks.leaves, ← hwalks.left, List.zip_map', List.mem_map,
    Prod.mk.injEq, Vacuous.Visit.Drops, Stmt.nodeName?_eq_some_iff]
  constructor
  · rintro ⟨value, visit, hmem, hleaf, hskip⟩
    exact ⟨visit, hmem, ⟨value, hleaf⟩, hskip⟩
  · rintro ⟨visit, hmem, ⟨value, hleaf⟩, hskip⟩
    exact ⟨value, visit, hmem, hleaf, hskip⟩

theorem leaf_mem_of_mem_walk {visit : Vacuous.Visit} (hmem : visit ∈ module.vacuousWalk) :
    visit.leaf ∈ Stmt.leavesAll module.body := by
  rw [← module.walks_vacuousWalk.leaves]
  exact List.mem_map_of_mem hmem

theorem mem_nodeNames_of_drops {visit : Vacuous.Visit} (hmem : visit ∈ module.vacuousWalk)
    {name : String} (hdrops : visit.Drops name) : name ∈ module.nodeNames := by
  have hleaf := leaf_mem_of_mem_walk hmem
  refine List.mem_filterMap.mpr ⟨visit.leaf, Stmt.mem_flattenAll.mpr ⟨hleaf, ?_⟩, hdrops.1⟩
  intro hskip
  have hnot := Stmt.isSkip_of_nodeName? hdrops.1
  rw [hskip] at hnot
  exact Bool.false_ne_true hnot.symm

/-- No leaf of the walk mentions a node that a later one defines. -/
theorem NodesInOrder.pairwise_walk (hnodes : module.NodesInOrder) :
    module.vacuousWalk.Pairwise fun visit later =>
      ∀ name ∈ later.leaf.nodeName?, visit.leaf.mentions name = false := by
  have hfirst := hnodes.first
  rw [statements, Stmt.flattenAll_eq_filter, List.pairwise_filter,
    ← module.walks_vacuousWalk.leaves, List.pairwise_map] at hfirst
  refine hfirst.imp fun {visit later} hpair name hname => ?_
  by_cases hskip : visit.leaf.isSkip = true
  · rw [Stmt.eq_skip_of_isSkip hskip]
    rfl
  · exact hpair (by simpa using hskip) (by simp [Stmt.isSkip_of_nodeName? hname]) name hname

/-- What is left of each leaf is free of the nodes dropped before it, which are known by then, and
of those dropped later, which it did not mention in the first place. -/
theorem NodesInOrder.forgets (hnodes : module.NodesInOrder) {visit : Vacuous.Visit}
    (hvisit : visit ∈ module.vacuousWalk) {name : String} (hdrops : module.DropsNode name) :
    visit.remains.result.Forgets name := by
  obtain ⟨before, after, hsplit⟩ := List.append_of_mem hvisit
  obtain ⟨dropping, hmem, hname, hskip⟩ := dropsNode_iff.mp hdrops
  have hnodeName := mem_nodeNames_of_drops hmem ⟨hname, hskip⟩
  have hpairs := hnodes.pairwise_walk
  rw [hsplit] at hmem hpairs
  obtain ⟨_, hpairs, _⟩ := List.pairwise_append.mp hpairs
  rw [List.mem_append, List.mem_cons] at hmem
  rcases hmem with hbefore | rfl | hafter
  · have hknown : name ∈ visit.known := by
      rw [module.walks_vacuousWalk.known before visit after hsplit, Vacuous.mem_flatMap_gone]
      exact .inl ⟨dropping, hbefore, hname, hskip⟩
    refine Vacuous.forgets_removeFromLeaf hknown fun e he r href hrefName => ?_
    have hexpr := mem_exprs_iff_leaves.mpr ⟨_, leaf_mem_of_mem_walk hvisit, he⟩
    exact hnodes.refs r (mem_refs.mpr ⟨e, hexpr, href⟩) (hrefName ▸ hnodeName)
  · rw [hskip]
    exact Stmt.forgets_of_not_mentions rfl
  · apply Stmt.forgets_of_not_mentions
    apply Vacuous.not_mentions_removeFromLeaf
    exact (List.pairwise_cons.mp hpairs).1 dropping hafter name hname

/-- Where nodes are defined before they are used, removal leaves no use of a node that it drops. The
nodes that are known to be without a value when it comes to a leaf are those dropped before, and
those it knows in the end are all that it drops. -/
theorem removeVacuous_forgets_nodes (module : Module) (hnodes : module.NodesInOrder) :
    (∀ name, module.DropsNode name → ∀ t ∈ module.removeVacuous.value.statements,
      t.Forgets name) ∧
    (module.vacuousWalk.map Vacuous.Visit.leaf = Stmt.leavesAll module.body ∧
      module.vacuousWalk.map (·.remains.result) =
        Stmt.leavesAll module.removeVacuous.value.body ∧
      ∀ before visit after, module.vacuousWalk = before ++ visit :: after →
        ∀ name, name ∈ visit.known ↔ ∃ earlier ∈ before, earlier.Drops name) ∧
    ∀ name, name ∈ (Vacuous.removeFromAll [] module.body).gone ↔ module.DropsNode name := by
  have hwalks := module.walks_vacuousWalk
  refine ⟨fun name hdrops t ht => ?_, ⟨hwalks.leaves, hwalks.left, ?_⟩, fun name => ?_⟩
  · have hleft := (Stmt.mem_flattenAll.mp ht).1
    rw [← hwalks.left] at hleft
    obtain ⟨visit, hvisit, rfl⟩ := List.mem_map.mp hleft
    exact hnodes.forgets hvisit hdrops
  · intro before visit after hsplit name
    rw [hwalks.known before visit after hsplit, Vacuous.mem_flatMap_gone]
    simp
  · rw [dropsNode_iff, ← hwalks.found, Vacuous.mem_flatMap_gone]

end Module

/-- A node without a value makes another one void, which stands in a block, is read and driven, and
has an analog part that is attached. -/
def drained : Module := Build.toModule "Drained" do
  let pair := Ty.bundleOf [("data", Sample.uint 8), ("pin", Sample.analog 1)]
  let c ← Build.input "c" (Sample.uint 1)
  let a ← Build.input "a" (Sample.analog 1)
  let b ← Build.input "b" (Sample.analog 1)
  let out ← Build.output "out" (Sample.uint 8)
  let slots ← Build.wire "slots" (.vector pair 0)
  let first ← Build.node "first" (slots.getAccess c)
  let second := Expr.ref (.node "second" pair)
  Build.addStmt (.block [.node "second" (.select c first first), .invalidate second])
  Build.connect out (second.getField "data")
  Build.attach [a, b, second.getField "pin"]

theorem drained_forgets_nodes :
    drained.NodesInOrder ∧ (Vacuous.removeFromAll [] drained.body).gone = ["first", "second"] ∧
      drained.DropsNode "second" ∧
      (∃ s ∈ drained.statements, s.isAttach = true ∧ s.mentions "second" = true) ∧
      ∀ t ∈ drained.removeVacuous.value.statements, t.Forgets "first" ∧ t.Forgets "second" := by
  have hnodes : drained.NodesInOrder := by decide
  obtain ⟨hforgets, _, hgone⟩ := drained.removeVacuous_forgets_nodes hnodes
  have hfirst := (hgone "first").mp (by decide)
  have hsecond := (hgone "second").mp (by decide)
  exact ⟨hnodes, by decide, hsecond, by decide,
    fun t ht => ⟨hforgets _ hfirst t ht, hforgets _ hsecond t ht⟩⟩

end Rtl
