import Rtl.Proofs.CandidateConditions

/-! # The order of tables

The tables that the search for candidates goes through are unordered: whenever the entries of one
are listed, they may come in any order. Whatever the orders, the search remembers the same sizes
and finds the same candidates, so that the module is inlined in the same way.
-/

namespace Rtl

/-- The orders in which the entries of every table are listed. -/
structure Listing where
  entries : Assignments → Assignments
  perm : ∀ table, (entries table).Perm table

/-- The orders in which a search goes through its tables: to keep the signals written once, to
find those on loops, to measure the others, and to keep those within the limit. -/
structure TableOrder where
  written : Listing
  looped : Listing
  measured : Listing
  kept : Listing

namespace Assignments

def remove (table : Assignments) (name : String) : Assignments :=
  table.filter fun entry => entry.1 != name

/-- Set the value of a name, in place of the one it may have. -/
def put (table : Assignments) (name : String) (value : Expr) : Assignments :=
  (name, value) :: table.remove name

/-- The sizes that are remembered once the given entries of a table have been measured. -/
def sizesIn (table entries : Assignments) : Sizes :=
  ((entries.forM fun entry => discard (table.sizeM table.length entry.1)).run []).2

end Assignments

/-- Take in a write, the value of which replaces that of an earlier one. -/
def Write.record (table : Assignments) (write : Write) : Assignments :=
  match write.assigned? with
  | some value => table.put write.name value
  | none => table

/-- Whether a signal is written once, and by a value that it can stand for. -/
def isWrittenOnce (writes : List Write) (name : String) : Bool :=
  writes.countP (·.name == name) == 1 &&
    !writes.any fun write => write.name == name && write.assigned?.isNone

/-! ## The search in some order -/

namespace TableOrder

variable (order : TableOrder) (writes : List Write)

/-- The values of the signals written once, picked from the values of all. -/
def single : Assignments :=
  (order.written.entries (writes.foldl Write.record [])).filter fun entry =>
    isWrittenOnce writes entry.1

/-- What is left once the signals found on loops have been removed one by one. -/
def unlooped : Assignments :=
  let table := order.single writes
  let looped := (order.looped.entries table).filter fun entry => table.isLooped entry.1
  (looped.map Prod.fst).foldl Assignments.remove table

def sizes : Sizes :=
  let table := order.unlooped writes
  table.sizesIn (order.measured.entries table)

/-- Whether no size over the limit is remembered for a signal. -/
def isWithinLimit (name : String) : Bool :=
  !((order.sizes writes).lookup name).any (maxInlinedSize < ·)

def candidates : Assignments :=
  (order.kept.entries (order.unlooped writes)).filter fun entry =>
    order.isWithinLimit writes entry.1

end TableOrder

/-- Inline the candidates that the search finds. -/
def Module.inlineIn (order : TableOrder) (module : Module) : Module :=
  let table := order.candidates module.writes
  if table.isEmpty then module else (module.substitute table).value

/-! ## Tables with the same entries -/

namespace Assignments

/-- The tables have the same entries, one for each name. -/
structure Reorders (table other : Assignments) : Prop where
  perm : table.Perm other
  nodup : (table.map Prod.fst).Nodup

namespace Reorders

variable {table other : Assignments}

theorem of_lookup (hnodup : (table.map Prod.fst).Nodup) (hother : (other.map Prod.fst).Nodup)
    (hlookup : ∀ name, table.lookup name = other.lookup name) : table.Reorders other :=
  ⟨perm_of_lookup_eq hnodup hother hlookup, hnodup⟩

theorem trans {third : Assignments} (hfirst : table.Reorders other)
    (hsecond : other.Reorders third) : table.Reorders third :=
  ⟨hfirst.perm.trans hsecond.perm, hfirst.nodup⟩

theorem of_listing (hnodup : (table.map Prod.fst).Nodup) (listing : Listing) :
    (listing.entries table).Reorders table :=
  ⟨listing.perm table, ((listing.perm table).map Prod.fst).nodup_iff.mpr hnodup⟩

variable (hsame : table.Reorders other)
include hsame

theorem lookup_eq (name : String) : table.lookup name = other.lookup name :=
  lookup_eq_of_perm hsame.nodup hsame.perm name

theorem contains_eq (name : String) : table.contains name = other.contains name := by
  rw [contains, contains, hsame.lookup_eq]

theorem filter (keep : String → Bool) :
    Reorders (table.filter fun entry => keep entry.1) (other.filter fun entry => keep entry.1) :=
  ⟨hsame.perm.filter _, nodup_keys_filter _ hsame.nodup⟩

theorem reads_eq : table.Reads = other.Reads := by
  funext name first
  rw [Reads, Reads, reads, reads, hsame.lookup_eq]

theorem isLooped_eq (name : String) : table.isLooped name = other.isLooped name := by
  rw [Bool.eq_iff_iff, isLooped_iff, isLooped_iff, hsame.reads_eq]

theorem unlooped : table.unlooped.Reorders other.unlooped := by
  have hlooped : (fun entry : String × Expr => !table.isLooped entry.1) =
      fun entry => !other.isLooped entry.1 :=
    funext fun entry => by rw [hsame.isLooped_eq]
  rw [Assignments.unlooped, hlooped]
  exact hsame.filter fun name => !other.isLooped name

theorem weight_eq (size : String → Nat) : table.weight size = other.weight size := by
  funext d
  cases d with
  | ref r => rw [weight, weight, hsame.contains_eq]
  | _ => rfl

theorem sizeWithin_eq (depth : Nat) : table.sizeWithin depth = other.sizeWithin depth := by
  induction depth with
  | zero => rfl
  | succ depth ih =>
      funext name
      rw [sizeWithin, sizeWithin, hsame.lookup_eq, ih, hsame.weight_eq]

theorem size_eq : table.size = other.size := by
  funext name
  rw [size, size, hsame.sizeWithin_eq, hsame.perm.length_eq]

theorem expand?_eq (depth : Nat) : table.expand? depth = other.expand? depth := by
  induction depth with
  | zero => rfl
  | succ depth ih =>
      funext name
      rw [expand?, expand?, hsame.lookup_eq, ih]

theorem inlineLeaf_eq : Inline.inlineLeaf table = Inline.inlineLeaf other := by
  have hinlined : table.inlined? = other.inlined? := by
    funext name
    rw [inlined?, inlined?, hsame.expand?_eq, hsame.perm.length_eq]
  funext s
  have habsorbed : Inline.isAbsorbed table s = Inline.isAbsorbed other s := by
    unfold Inline.isAbsorbed
    split <;> simp only [hsame.contains_eq]
  rw [Inline.inlineLeaf, Inline.inlineLeaf, hinlined, habsorbed]

end Reorders

/-! ## The signals written once -/

theorem lookup_remove (table : Assignments) (name other : String) :
    (table.remove name).lookup other = if other = name then none else table.lookup other := by
  rw [remove, lookup_filter fun key => key != name]
  by_cases hother : other = name <;> simp [hother]

theorem lookup_put (table : Assignments) (name : String) (value : Expr) (other : String) :
    (table.put name value).lookup other =
      if other = name then some value else table.lookup other := by
  rw [put, List.lookup_cons, lookup_remove]
  by_cases hother : other = name
  · simp [hother]
  · simp [hother, beq_eq_false_iff_ne.mpr hother]

theorem nodup_put {table : Assignments} (hnodup : (table.map Prod.fst).Nodup) (name : String)
    (value : Expr) : ((table.put name value).map Prod.fst).Nodup := by
  refine List.nodup_cons.mpr ⟨?_, nodup_keys_filter _ hnodup⟩
  intro hmem
  obtain ⟨entry, hentry, hname⟩ := List.mem_map.mp hmem
  have hne : entry.1 ≠ name := by simpa using (List.mem_filter.mp hentry).2
  exact hne hname

end Assignments

section Written

variable (writes : List Write)

theorem nodup_recorded : ((writes.foldl Write.record []).map Prod.fst).Nodup := by
  induction writes using List.reverseRecOn with
  | nil => exact List.nodup_nil
  | append_singleton writes write ih =>
      rw [List.foldl_append, List.foldl_cons, List.foldl_nil, Write.record]
      split
      · exact Assignments.nodup_put ih _ _
      · exact ih

/-- The last value that is assigned to a name is the one that is found. -/
theorem lookup_recorded (name : String) :
    (writes.foldl Write.record []).lookup name =
      ((writes.filter (·.name == name)).filterMap Write.assigned?).getLast? := by
  induction writes using List.reverseRecOn with
  | nil => rfl
  | append_singleton writes write ih =>
      rw [List.foldl_append, List.foldl_cons, List.foldl_nil, Write.record]
      cases hassigned : write.assigned? with
      | none =>
          rw [ih]
          by_cases hname : write.name = name <;> simp [hname, hassigned]
      | some value =>
          rw [Assignments.lookup_put, ih]
          by_cases hname : write.name = name
          · simp [hname, hassigned]
          · simp [hname, Ne.symm hname]

theorem lookup_singleAssignments_of_filter_eq {name : String} {write : Write}
    (honly : writes.filter (·.name == name) = [write]) :
    (singleAssignments writes).lookup name = write.assigned? := by
  have hcount : writes.countP (·.name == name) = 1 := by
    rw [List.countP_eq_length_filter, honly, List.length_singleton]
  have hunique : ∀ other, other ∈ writes ∧ other.name = name ↔ other = write := by
    intro other
    rw [← List.mem_singleton (a := other), ← honly, List.mem_filter, beq_iff_eq]
  apply Option.ext
  intro value
  rw [lookup_singleAssignments_iff]
  constructor
  · rintro ⟨-, other, hmem, hname, hassigned⟩
    rwa [← (hunique other).mp ⟨hmem, hname⟩]
  · intro hassigned
    obtain ⟨hmem, hname⟩ := (hunique write).mpr rfl
    exact ⟨hcount, write, hmem, hname, hassigned⟩

/-- Of the values of all signals, those of the signals written once are the single assignments. -/
theorem lookup_isWrittenOnce (name : String) :
    (if isWrittenOnce writes name then (writes.foldl Write.record []).lookup name else none) =
      (singleAssignments writes).lookup name := by
  by_cases hcount : writes.countP (·.name == name) = 1
  · obtain ⟨write, honly⟩ :=
      List.length_eq_one_iff.mp (List.countP_eq_length_filter ▸ hcount)
    have hrejected : (writes.any fun write => write.name == name && write.assigned?.isNone) =
        write.assigned?.isNone := by
      rw [← List.any_filter, honly, List.any_cons, List.any_nil, Bool.or_false]
    rw [isWrittenOnce, hcount, hrejected, lookup_recorded, honly,
      lookup_singleAssignments_of_filter_eq writes honly]
    cases hassigned : write.assigned? <;> simp [hassigned]
  · have hnone : (singleAssignments writes).lookup name = none := by
      rw [Option.eq_none_iff_forall_ne_some]
      intro value hlookup
      exact hcount (lookup_singleAssignments_iff.mp hlookup).1
    simp [isWrittenOnce, hcount, hnone]

theorem nodup_singleAssignments : ((singleAssignments writes).map Prod.fst).Nodup := by
  rw [List.nodup_iff_count_le_one]
  intro name
  -- An entry comes from a write of its name, of which there is one only.
  have hle : ((singleAssignments writes).map Prod.fst).count name ≤
      writes.countP (·.name == name) := by
    rw [singleAssignments, List.count, List.countP_map, List.countP_filterMap]
    apply List.countP_mono_left
    intro write _ hentry
    split at hentry
    · cases hassigned : write.assigned? <;> simp_all
    · simp at hentry
  by_cases hmem : name ∈ (singleAssignments writes).map Prod.fst
  · obtain ⟨entry, hentry, rfl⟩ := List.mem_map.mp hmem
    obtain ⟨value, hvalue⟩ := Option.ne_none_iff_exists'.mp
      (Assignments.lookup_ne_none_of_mem hentry)
    exact hle.trans_eq (lookup_singleAssignments_iff.mp hvalue).1
  · rw [List.count_eq_zero.mpr hmem]
    exact Nat.zero_le 1

end Written

/-! ## The sizes that are remembered -/

/-- The computation keeps the invariant. -/
def Maintains {σ α : Type} (inv : σ → Prop) (x : StateM σ α) : Prop :=
  ∀ s, inv s → inv (x.run s).2

namespace Maintains

variable {σ α β : Type} {inv : σ → Prop}

theorem pure (a : α) : Maintains inv (Pure.pure a) :=
  fun _ hinv => hinv

theorem bind {x : StateM σ α} {f : α → StateM σ β} (hx : Maintains inv x)
    (hf : ∀ a, Maintains inv (f a)) : Maintains inv (x >>= f) :=
  fun s hinv => hf _ _ (hx s hinv)

theorem mapM {f : α → StateM σ β} {as : List α} (hstep : ∀ a ∈ as, Maintains inv (f a)) :
    Maintains inv (as.mapM f) := by
  induction as with
  | nil => exact pure []
  | cons a as ih =>
      rw [List.mapM_cons]
      obtain ⟨hhead, htail⟩ := List.forall_mem_cons.mp hstep
      exact hhead.bind fun _ => (ih htail).bind fun _ => pure _

theorem forM {f : α → StateM σ PUnit} {as : List α} (hstep : ∀ a ∈ as, Maintains inv (f a)) :
    Maintains inv (as.forM f) := by
  induction as with
  | nil => exact pure PUnit.unit
  | cons a as ih =>
      obtain ⟨hhead, htail⟩ := List.forall_mem_cons.mp hstep
      exact hhead.bind fun _ => ih htail

end Maintains

namespace Assignments

variable {table : Assignments}

theorem maintains_weightM {inv : Sizes → Prop} {size : String → StateM Sizes Nat}
    (hsize : ∀ name, table.contains name = true → Maintains inv (size name)) (d : Expr) :
    Maintains inv (table.weightM size d) := by
  cases d with
  | ref r =>
      rw [weightM]
      split
      next hread =>
        rw [Bool.and_eq_true] at hread
        exact (hsize r.name hread.2).bind fun _ => .pure _
      next => exact .pure 1
  | _ => exact .pure 1

/-- To measure a signal of the table, no signals but those of the table are measured. -/
theorem maintains_sizeM (depth : Nat) {name : String} (hcontains : table.contains name = true) :
    Maintains (fun sizes => Within sizes table) (table.sizeM depth name) := by
  induction depth generalizing name with
  | zero => exact .pure 1
  | succ depth ih =>
      intro sizes hwithin
      obtain ⟨value, hlookup⟩ := Option.isSome_iff_exists.mp hcontains
      cases hknown : sizes.lookup name with
      | some size =>
          rw [run_sizeM_known depth hknown]
          exact hwithin
      | none =>
          have hweights : Maintains (fun sizes => Within sizes table)
              (value.nodes.mapM (table.weightM (table.sizeM depth))) :=
            .mapM fun d _ => maintains_weightM (fun _ hother => ih hother) d
          rw [run_sizeM_fresh hknown hlookup (Prod.eta _).symm]
          exact (hweights sizes hwithin).cons (by simp [hlookup]) _

/-- In whatever order a table without loops is measured, what is remembered in the end is the size
of every signal, as it is without remembering any. -/
theorem Acyclic.lookup_sizesIn (hacyclic : table.Acyclic) {entries : Assignments}
    (hperm : entries.Perm table) (name : String) :
    (table.sizesIn entries).lookup name =
      if table.contains name then some (table.size name) else none := by
  cases hcontains : table.contains name with
  | false =>
      have hmaintains : Maintains (fun sizes => Within sizes table)
          (entries.forM fun entry => discard (table.sizeM table.length entry.1)) := by
        apply Maintains.forM
        intro entry hmem
        have hkey : table.contains entry.1 = true :=
          Option.isSome_iff_ne_none.mpr (lookup_ne_none_of_mem (hperm.mem_iff.mp hmem))
        exact (maintains_sizeM table.length hkey).bind fun _ => .pure _
      have hnone : table.lookup name = none := by simpa [contains] using hcontains
      exact hmaintains [] (within_nil table) name hnone
  | true =>
      have hkey : table.lookup name ≠ none := Option.isSome_iff_ne_none.mp hcontains
      apply hacyclic.lookup_forM_sizeM hkey
      rw [(hperm.map Prod.fst).mem_iff]
      exact mem_keys_of_lookup_ne_none hkey

/-! ## The candidates that are found -/

/-- Removing some names one by one leaves the entries of all others. -/
theorem foldl_remove (names : List String) (table : Assignments) :
    names.foldl remove table = table.filter fun entry => !names.contains entry.1 := by
  induction names generalizing table with
  | nil => simp
  | cons name names ih =>
      rw [List.foldl_cons, ih, remove, List.filter_filter]
      apply List.filter_congr
      intro entry _
      rw [List.contains_cons, Bool.not_or, Bool.and_comm]
      rfl

end Assignments

namespace TableOrder

variable (order : TableOrder) (writes : List Write)

theorem single_reorders : (order.single writes).Reorders (singleAssignments writes) := by
  have hlisted := Assignments.Reorders.of_listing (nodup_recorded writes) order.written
  refine .of_lookup (hlisted.filter (isWrittenOnce writes)).nodup
    (nodup_singleAssignments writes) fun name => ?_
  rw [single, Assignments.lookup_filter (isWrittenOnce writes), hlisted.lookup_eq,
    lookup_isWrittenOnce]

theorem unlooped_eq : order.unlooped writes = (order.single writes).unlooped := by
  rw [unlooped, Assignments.foldl_remove, Assignments.unlooped]
  apply List.filter_congr
  intro entry hmem
  congr 1
  rw [Bool.eq_iff_iff, List.contains_iff_mem, List.mem_map]
  constructor
  · rintro ⟨other, hother, heq⟩
    rw [← heq]
    exact (List.mem_filter.mp hother).2
  · intro hlooped
    exact ⟨entry, List.mem_filter.mpr ⟨(order.looped.perm _).mem_iff.mpr hmem, hlooped⟩, rfl⟩

theorem unlooped_reorders :
    (order.unlooped writes).Reorders (singleAssignments writes).unlooped := by
  rw [unlooped_eq]
  exact (order.single_reorders writes).unlooped

theorem lookup_sizes (name : String) :
    (order.sizes writes).lookup name =
      if (singleAssignments writes).unlooped.contains name then
        some ((singleAssignments writes).unlooped.size name)
      else none := by
  have hsame := order.unlooped_reorders writes
  have hacyclic : (order.unlooped writes).Acyclic := by
    rw [unlooped_eq]
    exact Assignments.unlooped_acyclic _
  rw [sizes, hacyclic.lookup_sizesIn (order.measured.perm _), hsame.contains_eq, hsame.size_eq]

/-- In whatever order, the search finds the same signals, with the same values. -/
theorem candidates_reorders :
    (order.candidates writes).Reorders (singleAssignments writes).select.candidates := by
  have hsame := order.unlooped_reorders writes
  have hlisted := (Assignments.Reorders.of_listing hsame.nodup order.kept).trans hsame
  have hnodup : ((singleAssignments writes).select.candidates.map Prod.fst).Nodup :=
    Assignments.nodup_keys_filter _
      (Assignments.nodup_keys_filter _ (nodup_singleAssignments writes))
  refine .of_lookup (hlisted.filter (order.isWithinLimit writes)).nodup hnodup fun name => ?_
  rw [candidates, Assignments.lookup_filter (order.isWithinLimit writes), hlisted.lookup_eq,
    Assignments.lookup_select]
  cases hlookup : (singleAssignments writes).unlooped.lookup name with
  | none => simp
  | some value =>
      by_cases hsize : maxInlinedSize < (singleAssignments writes).unlooped.size name <;>
        simp [isWithinLimit, lookup_sizes, Assignments.contains, hlookup, hsize]

end TableOrder

namespace Module

theorem inlineIn_eq (order : TableOrder) (module : Module) :
    module.inlineIn order = module.inlineAssignments.value := by
  have hsame : (order.candidates module.writes).Reorders module.candidates.value :=
    order.candidates_reorders module.writes
  have hacyclic : (order.candidates module.writes).Acyclic := by
    rw [Assignments.Acyclic, hsame.reads_eq]
    exact module.candidates_acyclic
  rw [inlineIn, inlineAssignments, Logged.value_bind, hsame.perm.isEmpty_eq]
  split
  · rfl
  · have hbody : (module.substitute (order.candidates module.writes)).value.body =
        (module.substitute module.candidates.value).value.body := by
      rw [body_substitute hacyclic, body_substitute module.candidates_acyclic,
        hsame.inlineLeaf_eq]
    exact congrArg (fun body => { module with body }) hbody

/-- In whatever orders the tables are gone through, the size of every signal on no loop is
remembered in the end, and of no other, as the recursion on values gives it without remembering;
the candidates are the same, with the same values; and so is the module that inlining returns. -/
theorem candidates_order_irrelevant (module : Module) (order : TableOrder) :
    let unlooped := (singleAssignments module.writes).unlooped
    (∀ name, (order.sizes module.writes).lookup name =
        if unlooped.contains name then some (unlooped.size name) else none) ∧
      (∀ name value, unlooped.lookup name = some value →
        unlooped.size name = (value.nodes.map (unlooped.weight unlooped.size)).sum) ∧
      (order.candidates module.writes).Reorders module.candidates.value ∧
      (∀ name, (order.candidates module.writes).lookup name =
        module.candidates.value.lookup name) ∧
      module.inlineIn order = module.inlineAssignments.value := by
  have hsame := order.candidates_reorders module.writes
  refine ⟨order.lookup_sizes module.writes, fun name value hlookup => ?_, hsame, hsame.lookup_eq,
    module.inlineIn_eq order⟩
  rw [(Assignments.unlooped_acyclic _).size_eq, hlookup]

end Module

end Rtl
