import Rtl.Proofs.NormalForm

/-! # Accesses that removal leaves behind

After removal no access should lead through a vector without elements. There are two ways in which
one can. Members of an attachment are kept or dropped as a whole, so nobody looks at the indices of
those that are kept. And an access is settled before the arms of choices are dropped, so a choice
may lose what made it exist after the access to it was found to be sound.
-/

namespace Rtl

namespace Expr

/-- An access, other than to an analog signal, to a location that does not exist. -/
def isLostAccess (e : Expr) : Bool :=
  e.isAccess && !e.ty.isAnalog && e.isVacuous []

/-- Analog signals aside, every access in the expression leads to a location that exists. -/
def AccessesExist (e : Expr) : Prop :=
  ∀ d ∈ e.nodes, d.isLostAccess = false

instance (e : Expr) : Decidable e.AccessesExist :=
  inferInstanceAs (Decidable (∀ d ∈ e.nodes, _))

/-- What is left of the expression denotes no location. -/
def isHollow (gone : List String) : Expr → Bool
  | .ref r => r.ty.isEmptyVector || (isNodeAmong gone (.ref r) && r.ty.isAggregate)
  | .subField base _ ty | .subIndex base _ ty | .subAccess base _ ty =>
      if !ty.isAnalog && (ty.isEmptyVector || base.isVacuous gone) then ty.isAggregate
      else base.isHollow gone
  | .mux _ tval fval ty =>
      if tval.isVoid gone then fval.isHollow gone
      else if fval.isVoid gone then tval.isHollow gone
      else ty.isEmptyVector
  | .validIf _ value ty => value.isVoid gone || ty.isEmptyVector
  | .prim _ _ _ ty => ty.isEmptyVector
  | .literal _ => false
  | .placeholder _ => true

/-- The access is kept for being sound, and then nothing is left of its base. -/
def losesBase (gone : List String) (e : Expr) : Bool :=
  !e.ty.isAnalog && !e.isVacuous gone && e.accessBase?.any (isHollow gone)

/-- An access loses its base at some depth. -/
inductive Strands (gone : List String) : Expr → Prop
  | here {e : Expr} : e.losesBase gone = true → Strands gone e
  | under {d e : Expr} : d ∈ e.survivors gone → Strands gone d → Strands gone e

theorem strands_iff {gone : List String} {e : Expr} :
    e.Strands gone ↔ e.losesBase gone = true ∨ ∃ d ∈ e.survivors gone, d.Strands gone := by
  constructor
  · intro hstrands
    cases hstrands with
    | here hloses => exact .inl hloses
    | under hmem hstrands => exact .inr ⟨_, hmem, hstrands⟩
  · rintro (hloses | ⟨d, hmem, hstrands⟩)
    · exact .here hloses
    · exact .under hmem hstrands

/-! ## What is left of an expression -/

theorem isVacuous_dontCare {e : Expr} (hanalog : e.ty.isAnalog = false) :
    e.dontCare.isVacuous [] = e.ty.isAggregate := by
  unfold dontCare
  cases hty : e.ty with
  | analog width => simp [hty, Ty.isAnalog] at hanalog
  | _ => rfl

theorem isHollow_of_isFilled {gone : List String} {e : Expr} (hfilled : e.isFilled gone = true) :
    e.isHollow gone = e.ty.isAggregate := by
  simp only [isFilled, isVacuousRead, Bool.and_eq_true, Bool.or_eq_true,
    Bool.not_eq_true'] at hfilled
  obtain ⟨⟨hread, hvacuous⟩, hanalog⟩ := hfilled
  cases e with
  | ref r =>
      have hnode : isNodeAmong gone (.ref r) = true := by simpa [isAccess, accessBase?] using hread
      cases hty : r.ty <;> simp_all [isHollow, Expr.ty, Ty.isAggregate, Ty.isEmptyVector]
  | subField | subIndex | subAccess =>
      rw [isHollow, if_pos]
      · rfl
      · exact Bool.and_eq_true_iff.mpr ⟨Bool.not_eq_true' _ ▸ hanalog, hvacuous⟩
  | _ => simp [isAccess, accessBase?, isNodeAmong] at hread

/-- What is kept of an access is hollow if its base is. -/
theorem isHollow_access {gone : List String} {base e : Expr} (hbase : e.accessBase? = some base)
    (hkept : e.isFilled gone = false) :
    e.isHollow gone = base.isHollow gone ∧ e.ty.isEmptyVector = false := by
  cases e with
  | subField inner _ ty | subIndex inner _ ty | subAccess inner _ ty =>
      obtain rfl := Option.some.inj hbase
      have hsound : (!ty.isAnalog && (ty.isEmptyVector || inner.isVacuous gone)) = false := by
        rwa [Bool.and_comm]
      refine ⟨by rw [isHollow, if_neg (Bool.not_eq_true _ ▸ hsound)], ?_⟩
      cases ty <;> simp_all [Expr.ty, Ty.isAnalog, Ty.isEmptyVector]
  | _ => simp [accessBase?] at hbase

/-- Whether what is left of an expression is vacuous can be told from the expression. -/
theorem isVacuous_cleared (gone : List String) {e : Expr} (hvalid : e.AccessesValid) :
    (e.cleared gone).isVacuous [] = e.isHollow gone := by
  induction e using induction with
  | step e ih =>
      have hvacuous : ∀ d ∈ e.children, (d.cleared gone).isVacuous [] = d.isHollow gone :=
        fun d hmem => ih d hmem (hvalid.of_mem_children hmem)
      have hvoid : ∀ d ∈ e.children, (d.cleared gone).isPlaceholder = d.isVoid gone :=
        fun d hmem => isPlaceholder_cleared gone (hvalid.of_mem_children hmem)
      rw [cleared_eq hvalid]
      split
      next hfilled =>
        rw [isHollow_of_isFilled hfilled]
        simp only [isFilled, Bool.and_eq_true, Bool.not_eq_true'] at hfilled
        exact isVacuous_dontCare hfilled.2
      next hkept =>
        rw [Bool.not_eq_true] at hkept
        cases e with
        | ref r =>
            cases hty : r.ty <;>
              simp_all [mapChildren, dropArm, isVacuous, isHollow, isFilled, isVacuousRead, Expr.ty,
                isAccess, accessBase?, Ty.isAnalog, Ty.isAggregate, isNodeAmong]
        | subField base | subIndex base | subAccess base =>
            obtain ⟨hhollow, hnonempty⟩ := isHollow_access rfl hkept
            rw [hhollow, ← hvacuous base (by simp [children])]
            rw [Expr.ty] at hnonempty
            simp [mapChildren, dropArm, isVacuous, hnonempty]
        | mux cond tval fval ty =>
            rw [mapChildren, dropArm, hvoid tval (by simp [children]),
              hvoid fval (by simp [children]), isHollow]
            split
            · exact hvacuous fval (by simp [children])
            · split
              · exact hvacuous tval (by simp [children])
              · rfl
        | validIf cond value ty =>
            rw [mapChildren, dropArm, hvoid value (by simp [children]), isHollow]
            cases value.isVoid gone <;> rfl
        | _ => rfl

/-! ## Accesses that are kept -/

def hasLostAccess (e : Expr) : Bool :=
  e.any isLostAccess

theorem hasLostAccess_eq_false_iff (e : Expr) : e.hasLostAccess = false ↔ e.AccessesExist := by
  simp [hasLostAccess, any_eq, AccessesExist]

theorem hasLostAccess_eq (e : Expr) :
    e.hasLostAccess = (e.isLostAccess || e.children.any hasLostAccess) :=
  any_eq_or isLostAccess e

theorem hasLostAccess_placeholder (ty : Ty) : (Expr.placeholder ty).hasLostAccess = false := rfl

theorem hasLostAccess_dontCare {e : Expr} (hanalog : e.ty.isAnalog = false) :
    e.dontCare.hasLostAccess = false := by
  rw [hasLostAccess_eq_false_iff]
  intro d hmem
  have hfiller := isFiller_of_mem_nodes_dontCare hanalog hmem
  cases d <;> simp_all [isFiller, isLostAccess, isAccess, accessBase?]

theorem losesBase_of_not_isAccess {gone : List String} {e : Expr} (hother : e.isAccess = false) :
    e.losesBase gone = false := by
  have hbase : e.accessBase? = none := by simpa [isAccess] using hother
  rw [losesBase, hbase, Option.any_none, Bool.and_false]

/-- An access that is kept is lost exactly if it loses its base. -/
theorem isLostAccess_mapChildren_cleared {gone : List String} {e : Expr}
    (hvalid : e.AccessesValid) (hkept : e.isFilled gone = false) :
    (e.mapChildren (cleared gone)).isLostAccess = e.losesBase gone := by
  cases hbase : e.accessBase? with
  | none =>
      have hother : e.isAccess = false := by simp [isAccess, hbase]
      rw [losesBase_of_not_isAccess hother, isLostAccess, isAccess_mapChildren, hother]
      rfl
  | some base =>
      have haccess : e.isAccess = true := by simp [isAccess, hbase]
      rw [isLostAccess, losesBase, isAccess_mapChildren, ty_mapChildren, haccess, hbase]
      cases hanalog : e.ty.isAnalog with
      | true => rfl
      | false =>
          have hsound : e.isVacuous gone = false := by
            simpa [isFilled, isVacuousRead, haccess, hanalog] using hkept
          have hplain : e.isPlain = true := by
            cases e <;> simp_all [isAccess, accessBase?, isPlain]
          have hleft := isVacuous_cleared gone hvalid
          rw [cleared_eq hvalid, if_neg (Bool.not_eq_true _ ▸ hkept),
            dropArm_mapChildren_of_isPlain hplain, (isHollow_access hbase hkept).1] at hleft
          rw [hleft, hsound]
          rfl

/-- One level of what is left: the lost access is the expression itself, or in what is left of a
surviving operand. -/
theorem hasLostAccess_cleared_iff {gone : List String} {e : Expr} (hvalid : e.AccessesValid) :
    (e.cleared gone).hasLostAccess = true ↔
      e.losesBase gone = true ∨ ∃ d ∈ e.survivors gone, (d.cleared gone).hasLostAccess = true := by
  cases clearing gone hvalid with
  | filled hfilled hcleared hsurvivors =>
      simp only [isFilled, isVacuousRead, Bool.and_eq_true, Bool.not_eq_true'] at hfilled
      rw [hcleared, hsurvivors, hasLostAccess_dontCare hfilled.2]
      simp [losesBase, hfilled.1.2]
  | lost hother _ hcleared hsurvivors =>
      rw [hcleared, hsurvivors, losesBase_of_not_isAccess hother, hasLostAccess_placeholder]
      simp
  | collapsed hother _ _ hcleared hsurvivors =>
      rw [hcleared, hsurvivors, losesBase_of_not_isAccess hother]
      simp
  | kept hkept _ hcleared hsurvivors =>
      rw [hcleared, hsurvivors, hasLostAccess_eq, isLostAccess_mapChildren_cleared hvalid hkept,
        children_mapChildren]
      simp

theorem hasLostAccess_cleared_iff_strands {gone : List String} {e : Expr}
    (hvalid : e.AccessesValid) : (e.cleared gone).hasLostAccess = true ↔ e.Strands gone := by
  induction e using induction with
  | step e ih =>
      rw [hasLostAccess_cleared_iff hvalid, strands_iff]
      refine or_congr_right (exists_congr fun d => and_congr_right fun hmem => ?_)
      have hchild := mem_children_of_mem_survivors hmem
      exact ih d hchild (hvalid.of_mem_children hchild)

/-- The base of an access that leads back to a reference has no arms to drop. -/
theorem not_strands_of_rooted {gone : List String} {e : Expr} (hvalid : e.AccessesValid)
    (hrooted : e.AccessesRooted) : ¬ e.Strands gone := by
  rw [← hasLostAccess_cleared_iff_strands hvalid, Bool.not_eq_true, hasLostAccess_eq_false_iff]
  intro d hmem
  have hreads := (clear_cleared gone hrooted).reads d hmem
  cases haccess : d.isAccess <;> cases hvacuous : d.isVacuous [] <;>
    simp_all [isLostAccess]

end Expr

/-- The members of an attachment that are kept, as they are. -/
def Stmt.keptMembers (gone : List String) : Stmt → List Expr
  | .attach members =>
      let left := members.filter fun member => !member.isVacuous gone
      if left.length < 2 then [] else left
  | _ => []

theorem Stmt.of_mem_keptMembers {gone : List String} {s : Stmt} {member : Expr}
    (hmem : member ∈ s.keptMembers gone) :
    s.isAttach = true ∧ member ∈ s.exprs ∧ member.isVacuous gone = false := by
  cases s with
  | attach members =>
      simp only [keptMembers] at hmem
      split at hmem
      · exact absurd hmem List.not_mem_nil
      · rw [List.mem_filter, Bool.not_eq_true'] at hmem
        exact ⟨rfl, hmem⟩
  | _ => exact absurd hmem List.not_mem_nil

theorem Vacuous.exprs_removeFromLeaf_of_isAttach (gone : List String) {s : Stmt}
    (hattach : s.isAttach = true) : (removeFromLeaf gone s).result.exprs = s.keptMembers gone := by
  cases s with
  | attach members =>
      simp only [removeFromLeaf, Stmt.keptMembers]
      split <;> rfl
  | _ => simp [Stmt.isAttach] at hattach

/-- A valid leaf is rid of lost accesses exactly if none of its surviving expressions strands one,
and the members that it keeps had none. -/
theorem Vacuous.accessesExist_removeFromLeaf_iff {gone : List String} {s : Stmt}
    (hvalid : s.Valid) :
    (∀ e ∈ (removeFromLeaf gone s).result.exprs, e.AccessesExist) ↔
      (∀ e ∈ s.survivors gone, ¬ e.Strands gone) ∧
        ∀ member ∈ s.keptMembers gone, member.AccessesExist := by
  cases s with
  | attach members =>
      rw [exprs_removeFromLeaf_of_isAttach gone rfl]
      simp [Stmt.survivors]
  | _ =>
      rw [(removeFromLeaf_left (fun e he => hvalid.accesses he) rfl).1, List.forall_mem_map]
      simp only [Stmt.keptMembers, List.not_mem_nil, IsEmpty.forall_iff, implies_true, and_true]
      refine forall₂_congr fun e hmem => ?_
      have haccesses := hvalid.accesses (Stmt.mem_exprs_of_mem_survivors hmem)
      rw [← Expr.hasLostAccess_cleared_iff_strands haccesses, ← Expr.hasLostAccess_eq_false_iff,
        Bool.not_eq_true]

namespace Module

/-- What holds of all that is left can be said leaf by leaf. -/
theorem forall_mem_exprs_removeVacuous {module : Module} (hvalid : module.Valid)
    (p : Expr → Prop) :
    (∀ e ∈ module.removeVacuous.value.exprs, p e) ↔
      ∀ before s after, Stmt.leavesAll module.body = before ++ s :: after →
        ∀ e ∈ (Vacuous.removeFromLeaf (Stmt.voidNodes [] before) s).result.exprs, p e := by
  constructor
  · intro hall before s after hsplit e he
    have hleft := (mem_leaves_removeVacuous hvalid).mpr ⟨before, s, after, hsplit, rfl⟩
    exact hall e (mem_exprs_iff_leaves.mpr ⟨_, hleft, he⟩)
  · intro hall e he
    obtain ⟨t, ht, he⟩ := mem_exprs_iff_leaves.mp he
    obtain ⟨before, s, after, hsplit, rfl⟩ := (mem_leaves_removeVacuous hvalid).mp ht
    exact hall before s after hsplit e he

/-- Removal rids a module of accesses through vectors without elements exactly if no leaf strands
one in an expression that survives, given the nodes that the leaves before it have made void, and no
member of an attachment that is kept holds one. Accesses that lead back to references never strand,
so in a module with no others only the members of attachments remain to be looked at. -/
theorem removeVacuous_accessesExist_iff {circuit : Circuit} {module : Module}
    (hvalid : circuit.violations = []) (hmem : module ∈ circuit.modules) :
    ((∀ e ∈ module.removeVacuous.value.exprs, e.AccessesExist) ↔
      ∀ before s after, Stmt.leavesAll module.body = before ++ s :: after →
        (∀ e ∈ s.survivors (Stmt.voidNodes [] before), ¬ e.Strands (Stmt.voidNodes [] before)) ∧
          ∀ member ∈ s.keptMembers (Stmt.voidNodes [] before), member.AccessesExist) ∧
      (module.Rooted →
        (∀ s ∈ module.statements, s.isAttach = true → ∀ member ∈ s.exprs,
          member.isVacuous [] = false → member.AccessesExist) →
        ∀ e ∈ module.removeVacuous.value.exprs, e.AccessesExist) := by
  have hmodule := (circuit.violations_eq_nil_iff.mp hvalid).2 module hmem
  have hleaf : ∀ {before s after}, Stmt.leavesAll module.body = before ++ s :: after →
      s ∈ Stmt.leavesAll module.body := fun hsplit => by simp [hsplit]
  rw [forall_mem_exprs_removeVacuous hmodule]
  refine ⟨forall₄_congr fun before s after hsplit => ?_, fun hrooted hmembers => ?_⟩
  · exact Vacuous.accessesExist_removeFromLeaf_iff (hmodule.of_mem_leaves (hleaf hsplit))
  · intro before s after hsplit
    have hs := hleaf hsplit
    refine (Vacuous.accessesExist_removeFromLeaf_iff (hmodule.of_mem_leaves hs)).mpr ⟨?_, ?_⟩
    · intro e he
      have hexpr := Stmt.mem_exprs_of_mem_survivors he
      exact Expr.not_strands_of_rooted ((hmodule.of_mem_leaves hs).accesses hexpr)
        (hrooted.accesses e (mem_exprs_iff_leaves.mpr ⟨s, hs, hexpr⟩))
    · intro member hmember
      obtain ⟨hattach, hexpr, hsound⟩ := Stmt.of_mem_keptMembers hmember
      refine hmembers s (Stmt.mem_flattenAll.mpr ⟨hs, ?_⟩) hattach member hexpr
        (Expr.isVacuous_nil_eq_false hsound)
      rintro rfl
      simp [Stmt.isAttach] at hattach

end Module

/-- Vectors without elements are read for the indices of what is read and driven, and attached. A
member of the attachment that is kept is picked by an index of its own. -/
def crossbar : Module := Build.toModule "Crossbar" do
  let a ← Build.input "a" (Sample.analog 1)
  let sel ← Build.input "sel" (Sample.uint 2)
  let out ← Build.output "out" (Sample.uint 8)
  let slots ← Build.wire "slots" (.vector (Sample.uint 2) 0)
  let table ← Build.wire "table" (.vector (Sample.uint 8) 4)
  let pins ← Build.wire "pins" (.vector (Sample.analog 1) 4)
  let spares ← Build.wire "spares" (.vector (Sample.analog 1) 0)
  Build.connect (table.getAccess (slots.getAccess sel)) (.uintLit 1 8)
  Build.connect out (table.getAccess (slots.getIndex 0))
  Build.attach [a, pins.getAccess sel, spares.getAccess sel]

theorem crossbar_accessesExist :
    (Sample.single crossbar).violations = [] ∧ crossbar ∈ (Sample.single crossbar).modules ∧
      crossbar.Rooted ∧
      (∀ s ∈ crossbar.statements, s.isAttach = true → ∀ member ∈ s.exprs,
        member.isVacuous [] = false → member.AccessesExist) ∧
      (∀ e ∈ crossbar.removeVacuous.value.exprs, e.AccessesExist) ∧
      ∀ before s after, Stmt.leavesAll crossbar.body = before ++ s :: after →
        (∀ e ∈ s.survivors (Stmt.voidNodes [] before), ¬ e.Strands (Stmt.voidNodes [] before)) ∧
          ∀ member ∈ s.keptMembers (Stmt.voidNodes [] before), member.AccessesExist := by
  have hvalid : (Sample.single crossbar).violations = [] := by decide
  have hmem : crossbar ∈ (Sample.single crossbar).modules := by decide
  have hrooted : crossbar.Rooted := by decide
  have hmembers : ∀ s ∈ crossbar.statements, s.isAttach = true → ∀ member ∈ s.exprs,
      member.isVacuous [] = false → member.AccessesExist := by decide
  obtain ⟨hiff, hexist⟩ := Module.removeVacuous_accessesExist_iff hvalid hmem
  exact ⟨hvalid, hmem, hrooted, hmembers, hexist hrooted hmembers,
    hiff.mp (hexist hrooted hmembers)⟩

/-- A member of an attachment that is picked by an element of a vector that has none. -/
def strayIndex : Module := Build.toModule "Top" do
  let a ← Build.input "a" (Sample.analog 1)
  let slots ← Build.wire "slots" (.vector (Sample.uint 2) 0)
  let pins ← Build.wire "pins" (.vector (Sample.analog 1) 4)
  Build.attach [a, pins.getAccess (slots.getIndex 0)]

/-- A valid circuit in which removal leaves an access through a vector without elements: the
member exists, so it is kept with the index as it was. -/
theorem strayIndex_keeps_lost_access :
    (Sample.single strayIndex).violations = [] ∧
      strayIndex ∈ (Sample.single strayIndex).modules ∧ strayIndex.Rooted ∧
      ∃ e ∈ strayIndex.removeVacuous.value.exprs, ¬ e.AccessesExist := by
  decide

end Rtl
