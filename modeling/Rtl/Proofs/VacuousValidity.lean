import Rtl.Proofs.NormalForm
import Rtl.Proofs.VacuousMeaning

/-! # Removal keeps grounded circuits valid

In a grounded module every expression that is left comes from one of the same type, or is a
replacement, which reads nothing and accesses nothing. So accesses are still offered by their
bases, sources still read only, and a sink that is kept has its root and its indices.
-/

namespace Rtl

namespace Expr

theorem accessBase?_or_mem_values {c e : Expr} (hchild : c ∈ e.children) :
    e.accessBase? = some c ∨ c ∈ e.values := by
  cases e with
  | subField base | subIndex base =>
      exact .inl (congrArg some (List.mem_singleton.mp hchild).symm)
  | subAccess base index =>
      rcases List.mem_cons.mp hchild with rfl | hindex
      · exact .inl rfl
      · exact .inr hindex
  | _ => exact .inr hchild

theorem isVacuous_accessBase? {gone : List String} {base e : Expr}
    (hbase : e.accessBase? = some base) (hexists : e.isVacuous gone = false) :
    base.isVacuous gone = false := by
  cases e <;> simp_all [accessBase?, isVacuous]

/-- Where no aggregate is lost, a subexpression that is left was there before, or is part of a
replacement for something ground. -/
theorem mem_nodes_cleared {d e : Expr} (hregular : e.Regular)
    (hground : e.isVacuous [] = true → e.ty.isGround = true) (hmem : d ∈ (e.cleared []).nodes) :
    (∃ c ∈ e.nodes, d = c.mapChildren (cleared [])) ∨
      d.isFiller = true ∧ d.isPlaceholder = false := by
  induction e using induction with
  | step e ih =>
      rw [cleared_of_regular hregular] at hmem
      split at hmem
      next hread =>
        rw [Bool.and_eq_true] at hread
        have hanalog := hregular.noAnalog e e.mem_nodes_self hread.1
        have haggregate : e.ty.isAggregate = false := by
          simpa [Ty.isGround] using hground hread.2
        refine .inr ⟨isFiller_of_mem_nodes_dontCare hanalog hmem, ?_⟩
        have hnone : e.dontCare.NoPlaceholder := by
          rw [← hasPlaceholder_eq_false_iff, (hasPlaceholder_dontCare hanalog).1, haggregate]
        exact hnone d hmem
      next hkept =>
        rw [mem_nodes_iff, children_mapChildren] at hmem
        rcases hmem with rfl | ⟨c, hc, hmem⟩
        · exact .inl ⟨e, mem_nodes_self e, rfl⟩
        · obtain ⟨before, hbefore, rfl⟩ := List.mem_map.mp hc
          -- The base of an access that is kept exists, and other operands are ground.
          have hground : before.isVacuous [] = true → before.ty.isGround = true := by
            intro hvacuous
            rcases accessBase?_or_mem_values hbefore with hbase | hvalue
            · have haccess : e.isAccess = true := by rw [isAccess, hbase]; rfl
              simp only [haccess, Bool.true_and, Bool.not_eq_true] at hkept
              rw [isVacuous_accessBase? hbase hkept] at hvacuous
              exact Bool.noConfusion hvacuous
            · exact hregular.values e e.mem_nodes_self before hvalue
          rcases ih before hbefore (hregular.of_mem_children hbefore) hground hmem with
            ⟨c, hc, rfl⟩ | hfiller
          · exact .inl ⟨c, mem_nodes_of_mem_children hbefore hc, rfl⟩
          · exact .inr hfiller

section Cleared

variable {e : Expr} (hregular : e.Regular)
  (hground : e.isVacuous [] = true → e.ty.isGround = true)
include hregular hground

theorem noPlaceholder_cleared : (e.cleared []).NoPlaceholder := by
  intro d hmem
  rcases mem_nodes_cleared hregular hground hmem with ⟨c, hc, rfl⟩ | hfiller
  · rw [isPlaceholder_mapChildren]
    exact hregular.noPlaceholder c hc
  · exact hfiller.2

theorem readsOnly_cleared (hreads : e.ReadsOnly) : (e.cleared []).ReadsOnly := by
  intro d hmem
  rcases mem_nodes_cleared hregular hground hmem with ⟨c, hc, rfl⟩ | hfiller
  · rw [isWriteRef_mapChildren]
    exact hreads c hc
  · cases d <;> simp_all [isFiller, isWriteRef]

theorem accessesValid_cleared : (e.cleared []).AccessesValid := by
  intro d hmem
  rcases mem_nodes_cleared hregular hground hmem with ⟨c, hc, rfl⟩ | hfiller
  · rw [isValidAccess_mapChildren]
    · exact hregular.accesses c hc
    · intro child hchild
      exact ty_cleared_of_regular ((hregular.of_mem_nodes hc).of_mem_children hchild)
  · cases d <;> simp_all [isFiller, isValidAccess]

end Cleared

theorem indices_cleared {gone : List String} {e : Expr} (hroot : e.root?.isSome = true)
    (hexists : e.isVacuous gone = false) :
    (e.cleared gone).indices = e.indices.map (cleared gone) := by
  induction e using induction with
  | step e ih =>
      rw [(cleared_of_location hroot hexists).1]
      cases e with
      | ref => rfl
      | subField base | subIndex base =>
          simp only [isVacuous, Bool.or_eq_false_iff] at hexists
          exact ih base (by simp [children]) hroot hexists.2
      | subAccess base index =>
          simp only [isVacuous, Bool.or_eq_false_iff] at hexists
          simp only [mapChildren, indices, List.map_cons]
          rw [ih base (by simp [children]) hroot hexists.2]
      | _ => simp [root?] at hroot

theorem isGround_of_mem_indices {index e : Expr} (hregular : e.Regular)
    (hmem : index ∈ e.indices) : index.ty.isGround = true := by
  induction e using induction with
  | step e ih =>
      have hbase : ∀ base ∈ e.children, index ∈ base.indices → index.ty.isGround = true :=
        fun base hchild => ih base hchild (hregular.of_mem_children hchild)
      cases e with
      | subField base | subIndex base => exact hbase base (by simp [children]) hmem
      | subAccess base inner =>
          rcases List.mem_cons.mp hmem with rfl | hmem
          · exact hregular.values _ (mem_nodes_self _) index (by simp [values])
          · exact hbase base (by simp [children]) hmem
      | _ => simp [indices] at hmem

theorem validSink_cleared {e : Expr} (hregular : e.Regular) (hexists : e.isVacuous [] = false)
    (hvalid : e.ValidSink) : (e.cleared []).ValidSink := by
  obtain ⟨r, hroot, hwrite⟩ := hvalid.root
  have hrooted : e.root?.isSome = true := by rw [hroot]; rfl
  refine ⟨⟨r, ?_, hwrite⟩, accessesValid_cleared hregular (by simp [hexists]), ?_⟩
  · rw [root?_cleared hrooted hexists, hroot]
  · rw [indices_cleared hrooted hexists, List.forall_mem_map]
    intro index hmem
    have hindex := hregular.of_mem_nodes (mem_nodes_of_mem_indices hmem)
    have hground := isGround_of_mem_indices hregular hmem
    exact ⟨readsOnly_cleared hindex (fun _ => hground) (hvalid.indices index hmem).readsOnly,
      accessesValid_cleared hindex fun _ => hground⟩

end Expr

namespace Module

section Grounded

variable {module : Module} (hvalid : module.Valid) (hgrounded : module.Grounded)
  (hanalog : module.NoAnalogAccess)
include hvalid hgrounded hanalog

theorem valid_removeFromLeaf {s : Stmt} (hs : s ∈ Stmt.leavesAll module.body) :
    (Vacuous.removeFromLeaf [] s).result.Valid := by
  have hstmt := hvalid.of_mem_leaves hs
  have hskip : Stmt.skip.Valid := ⟨by simp [Stmt.exprs], trivial⟩
  cases hattach : s.isAttach with
  | true =>
      cases s with
      | attach members =>
          simp only [Vacuous.removeFromLeaf]
          split
          · exact hskip
          · -- The members that are left are members as they were.
            refine ⟨fun e he => ?_, fun e he => ?_⟩
            · exact hstmt.noPlaceholder e (List.mem_filter.mp he).1
            · exact hstmt.parts e (List.mem_filter.mp he).1
      | _ => simp [Stmt.isAttach] at hattach
  | false =>
      have hregular : ∀ e ∈ s.exprs, e.Regular ∧ e.ty.isGround = true :=
        fun e he => regular_of_mem_leaves hvalid hgrounded hanalog hs hattach he
      rw [Vacuous.removeFromLeaf_of_not_void (fun e he => hstmt.accesses he) hattach
        fun e he => isVoid_of_mem_leaves hvalid hgrounded hanalog hs hattach he]
      split
      · exact hskip
      next hdrives =>
        apply hstmt.mapExprs
        · exact fun e he => Expr.ty_cleared_of_regular (hregular e he).1
        · exact fun e he => Expr.noPlaceholder_cleared (hregular e he).1 fun _ => (hregular e he).2
        · exact fun e he => Expr.accessesValid_cleared (hregular e he).1 fun _ => (hregular e he).2
        · exact fun e he => Expr.readsOnly_cleared (hregular e he).1 fun _ => (hregular e he).2
        · intro sink hsink
          apply Expr.validSink_cleared (hregular sink (Stmt.mem_exprs_of_mem_sink? hsink)).1
          exact Stmt.drivesVacuous_eq_false_iff.mp (Bool.eq_false_iff.mpr hdrives) sink hsink

theorem valid_removeVacuous : module.removeVacuous.value.Valid := by
  intro t ht
  rw [statements, removeVacuous_body hvalid hgrounded hanalog, Stmt.mem_flattenAll,
    Stmt.leavesAll_mapLeavesAll fun s hleaf => Vacuous.isBlock_removeFromLeaf [] hleaf] at ht
  obtain ⟨s, hs, rfl⟩ := List.mem_map.mp ht.1
  exact valid_removeFromLeaf hvalid hgrounded hanalog hs

end Grounded

end Module

/-- Removal in every module of a valid circuit leaves a valid circuit, provided that the modules
are grounded and access analog signals in attachments only. -/
theorem Circuit.removeVacuous_preserves_validity (circuit : Circuit)
    (hvalid : circuit.violations = [])
    (hgrounded : ∀ module ∈ circuit.modules, module.Grounded)
    (hanalog : ∀ module ∈ circuit.modules, module.NoAnalogAccess) :
    (circuit.mapModules fun module => module.removeVacuous.value).violations = [] := by
  refine Circuit.violations_mapModules hvalid (fun _ => rfl) ?_
  intro module hmem hmodule
  exact Module.valid_removeVacuous hmodule (hgrounded module hmem) (hanalog module hmem)

/-- Vectors without elements are driven, read, read for the index of a sink, and attached. -/
def switchboard : Circuit := { main := "Lanes", modules := [lanes, Sample.attach] }

theorem switchboard_removed_valid :
    switchboard.violations = [] ∧ (∀ module ∈ switchboard.modules, module.Grounded) ∧
      (∀ module ∈ switchboard.modules, module.NoAnalogAccess) ∧
      (switchboard.mapModules fun module => module.removeVacuous.value).violations = [] := by
  have hvalid : switchboard.violations = [] := by decide
  have hgrounded : ∀ module ∈ switchboard.modules, module.Grounded := by decide
  have hanalog : ∀ module ∈ switchboard.modules, module.NoAnalogAccess := by decide
  exact ⟨hvalid, hgrounded, hanalog,
    switchboard.removeVacuous_preserves_validity hvalid hgrounded hanalog⟩

end Rtl
