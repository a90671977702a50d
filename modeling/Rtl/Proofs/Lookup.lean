import Mathlib.Data.List.Nodup
import Mathlib.Data.List.Perm.Basic

/-! # Looking up names

Tables are lists of entries, of which the first one of a name counts. Where each name has one
entry only, the order of the entries does not matter.
-/

namespace Rtl.Assignments

variable {κ α β : Type} [BEq κ] [LawfulBEq κ] {table other : List (κ × α)} {name : κ} {value : α}

theorem mem_of_lookup (hlookup : table.lookup name = some value) : (name, value) ∈ table := by
  obtain ⟨before, after, rfl, hbefore⟩ := List.lookup_eq_some_iff.mp hlookup
  exact List.mem_append_right _ List.mem_cons_self

theorem lookup_ne_none_of_mem {entry : κ × α} (hmem : entry ∈ table) :
    table.lookup entry.1 ≠ none := by
  intro hnone
  simpa using List.lookup_eq_none_iff.mp hnone entry hmem

theorem mem_keys_of_lookup_ne_none (hkey : table.lookup name ≠ none) :
    name ∈ table.map Prod.fst := by
  obtain ⟨value, hvalue⟩ := Option.ne_none_iff_exists'.mp hkey
  exact List.mem_map.mpr ⟨_, mem_of_lookup hvalue, rfl⟩

/-- Leaving out entries by their names leaves out exactly these names. -/
theorem lookup_filter (keep : κ → Bool) (table : List (κ × α)) (name : κ) :
    (table.filter fun entry => keep entry.1).lookup name =
      if keep name then table.lookup name else none := by
  induction table with
  | nil => simp
  | cons entry table ih =>
      obtain ⟨key, value⟩ := entry
      by_cases hkey : name = key
      · subst hkey
        cases hkeep : keep name with
        | true => simp [hkeep]
        | false => simpa [hkeep] using ih
      · have hbeq : (name == key) = false := by simpa using hkey
        cases hkeep : keep key <;> simp [hkeep, List.lookup_cons, hbeq, ih]

/-- Replacing what stands under each name replaces what is found. -/
theorem lookup_map (f : κ → α → β) (table : List (κ × α)) (name : κ) :
    (table.map fun entry => (entry.1, f entry.1 entry.2)).lookup name =
      (table.lookup name).map (f name) := by
  induction table with
  | nil => rfl
  | cons entry table ih =>
      rw [List.map_cons, List.lookup_cons, List.lookup_cons]
      split
      next heq => rw [eq_of_beq heq, Option.map_some]
      next => exact ih

/-! ## Tables with some of the names of another -/

/-- The first table has no names but those of the second. -/
def Within (table : List (κ × α)) (other : List (κ × β)) : Prop :=
  ∀ name, other.lookup name = none → table.lookup name = none

omit [LawfulBEq κ] in
theorem within_nil (other : List (κ × β)) : Within ([] : List (κ × α)) other :=
  fun _ _ => rfl

theorem Within.cons {other : List (κ × β)} (hwithin : Within table other)
    (hname : other.lookup name ≠ none) (value : α) : Within ((name, value) :: table) other := by
  intro key hkey
  have hne : (key == name) = false := by
    rw [beq_eq_false_iff_ne]
    rintro rfl
    exact hname hkey
  rw [List.lookup_cons, hne]
  exact hwithin key hkey

/-! ## Tables with one entry for each name -/

omit [BEq κ] [LawfulBEq κ] in
theorem nodup_keys_filter (keep : κ × α → Bool) (hnodup : (table.map Prod.fst).Nodup) :
    ((table.filter keep).map Prod.fst).Nodup :=
  hnodup.sublist (List.filter_sublist.map Prod.fst)

theorem lookup_eq_some_iff_mem (hnodup : (table.map Prod.fst).Nodup) :
    table.lookup name = some value ↔ (name, value) ∈ table := by
  refine ⟨mem_of_lookup, fun hmem => ?_⟩
  obtain ⟨found, hfound⟩ := Option.ne_none_iff_exists'.mp (lookup_ne_none_of_mem hmem)
  have heq := List.inj_on_of_nodup_map hnodup (mem_of_lookup hfound) hmem rfl
  rw [hfound, (Prod.mk.inj heq).2]

theorem lookup_eq_of_perm (hnodup : (table.map Prod.fst).Nodup) (hperm : table.Perm other)
    (name : κ) : table.lookup name = other.lookup name := by
  apply Option.ext
  intro value
  rw [lookup_eq_some_iff_mem hnodup, hperm.mem_iff,
    lookup_eq_some_iff_mem ((hperm.map Prod.fst).nodup_iff.mp hnodup)]

theorem perm_of_lookup_eq (hnodup : (table.map Prod.fst).Nodup)
    (hother : (other.map Prod.fst).Nodup)
    (hlookup : ∀ name, table.lookup name = other.lookup name) : table.Perm other := by
  rw [List.perm_ext_iff_of_nodup hnodup.of_map hother.of_map]
  rintro ⟨name, value⟩
  rw [← lookup_eq_some_iff_mem hnodup, ← lookup_eq_some_iff_mem hother, hlookup]

end Rtl.Assignments
