import Mathlib.Data.List.Chain
import Mathlib.Data.List.Perm.Subperm
import Rtl.Inline.Candidates
import Rtl.Proofs.Lookup
import Rtl.Proofs.LoopSearch

/-! # Assignments without loops

Once every signal on a loop has been left out, no loop remains, so that chains of values
that read each other are no longer than the table.
-/

namespace Rtl.Assignments

open Relation

/-! ## Tables without loops -/

/-- No signal reaches itself. -/
def Acyclic (table : Assignments) : Prop :=
  ∀ name, ¬ TransGen table.Reads name name

theorem reads_of_filter (keep : String → Bool) {table : Assignments} {name other : String}
    (hreads : Reads (table.filter fun entry => keep entry.1) name other) :
    keep name = true ∧ table.Reads name other := by
  rw [Reads, reads, lookup_filter] at hreads
  cases hkeep : keep name with
  | true => exact ⟨rfl, by simpa [hkeep, Reads, reads] using hreads⟩
  | false => simp [hkeep] at hreads

theorem Acyclic.filter {table : Assignments} (hacyclic : table.Acyclic) (keep : String → Bool) :
    Acyclic (table.filter fun entry => keep entry.1) := by
  intro name hloop
  exact hacyclic name
    (TransGen.mono (fun _ _ hreads => (reads_of_filter keep hreads).2) _ _ hloop)

/-- Leaving out all the signals on loops at once leaves no loop. -/
theorem unlooped_acyclic (table : Assignments) : table.unlooped.Acyclic := by
  intro name hloop
  obtain ⟨first, hfirst, _⟩ := TransGen.head'_iff.mp hloop
  have hfree : table.isLooped name = false := by
    simpa using (reads_of_filter (fun key => !table.isLooped key) hfirst).1
  -- A loop of what is left would have been a loop before.
  have hlooped : table.isLooped name = true := by
    rw [isLooped_iff]
    exact TransGen.mono
      (fun _ _ hreads => (reads_of_filter (fun key => !table.isLooped key) hreads).2) _ _ hloop
  simp [hfree] at hlooped

theorem select_acyclic (table : Assignments) : table.select.candidates.Acyclic :=
  table.unlooped_acyclic.filter fun name => (table.unlooped.oversized.lookup name).isNone

/-! ## The depth of a table -/

/-- Whether values that read each other are followed to their ends in `depth` steps. -/
def Settled (table : Assignments) : (depth : Nat) → (name : String) → Prop
  | 0, name => table.lookup name = none
  | depth + 1, name => ∀ other, table.Reads name other → table.Settled depth other

/-- Where following the values does not end, it goes through a chain of one more name. -/
theorem exists_chain_of_not_settled {table : Assignments} {depth : Nat} {name : String}
    (hopen : ¬ table.Settled depth name) :
    ∃ rest : List String, rest.length = depth ∧ (name :: rest).IsChain table.Reads ∧
      ∀ other ∈ name :: rest, table.lookup other ≠ none := by
  induction depth generalizing name with
  | zero => exact ⟨[], rfl, List.isChain_singleton _, by simpa [Settled] using hopen⟩
  | succ depth ih =>
      simp only [Settled, not_forall] at hopen
      obtain ⟨next, hreads, hopen⟩ := hopen
      obtain ⟨rest, hlength, hchain, hkeys⟩ := ih hopen
      refine ⟨next :: rest, by simp [hlength], List.isChain_cons_cons.mpr ⟨hreads, hchain⟩, ?_⟩
      intro other hmem
      rcases List.mem_cons.mp hmem with rfl | hmem
      · exact hreads.lookup_ne_none
      · exact hkeys other hmem

/-- Without loops a chain repeats no name, so that none is longer than the table. -/
theorem Acyclic.settled {table : Assignments} (hacyclic : table.Acyclic) (name : String) :
    table.Settled table.length name := by
  by_contra hopen
  obtain ⟨rest, hlength, hchain, hkeys⟩ := exists_chain_of_not_settled hopen
  have hpairs : (name :: rest).Pairwise (TransGen table.Reads) :=
    List.isChain_iff_pairwise.mp (hchain.imp fun _ _ hreads => TransGen.single hreads)
  have hnodup : (name :: rest).Nodup := by
    refine hpairs.imp ?_
    rintro first _ hpath rfl
    exact hacyclic first hpath
  have hsub : name :: rest ⊆ table.map Prod.fst :=
    fun other hmem => mem_keys_of_lookup_ne_none (hkeys other hmem)
  have hle := (hnodup.subperm hsub).length_le
  simp only [List.length_cons, List.length_map, hlength] at hle
  omega

/-- Without loops, reading is a well-founded relation. -/
theorem Acyclic.wellFounded {table : Assignments} (hacyclic : table.Acyclic) :
    WellFounded fun other name => table.Reads name other := by
  have hacc : ∀ depth name, table.Settled depth name →
      Acc (fun other name => table.Reads name other) name := by
    intro depth
    induction depth with
    | zero =>
        intro name hsettled
        exact ⟨_, fun other hreads => absurd hsettled hreads.lookup_ne_none⟩
    | succ depth ih =>
        intro name hsettled
        exact ⟨_, fun other hreads => ih other (hsettled other hreads)⟩
  exact ⟨fun name => hacc table.length name (hacyclic.settled name)⟩

end Rtl.Assignments
