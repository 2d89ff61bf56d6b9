import Mathlib.Tactic
import Mathlib.Data.List.AList

/-!
# Entries that count once

A list of entries, each a key and a value. An entry that is listed again, in whatever place, counts once (`total`), and in
a consistent list a key has one value. A table that holds exactly the entries of a list (`Books`) has their total, and the
total splits over the owners of the keys.
-/

namespace Ledger
variable {κ ν : Type} [DecidableEq κ] [DecidableEq ν] {f : ν → Nat} {l l' : List (κ × ν)}

/-- A key has one value. -/
def Consistent (l : List (κ × ν)) : Prop := ∀ x ∈ l, ∀ y ∈ l, x.1 = y.1 → x.2 = y.2

/-- The values of the entries, each entry counted once. -/
def total (f : ν → Nat) (l : List (κ × ν)) : Nat := ∑ x ∈ l.toFinset, f x.2

theorem total_congr (h : ∀ x, x ∈ l ↔ x ∈ l') : total f l = total f l' := by
  have heq : l.toFinset = l'.toFinset := by
    ext x
    rw [List.mem_toFinset, List.mem_toFinset]
    exact h x
  unfold total
  rw [heq]

theorem total_mono (h : l ⊆ l') : total f l ≤ total f l' := by
  refine Finset.sum_le_sum_of_subset fun x hx => ?_
  exact List.mem_toFinset.2 (h (List.mem_toFinset.1 hx))

theorem total_of_nodup (h : l.Nodup) : total f l = (l.map fun x => f x.2).sum :=
  List.sum_toFinset _ h

omit [DecidableEq κ] [DecidableEq ν] in
theorem Consistent.of_subset (h : Consistent l') (hl : l ⊆ l') : Consistent l :=
  fun x hx y hy => h x (hl hx) y (hl hy)

/-- Every entry counts for the owner of its key. -/
theorem total_eq_sum (owner : κ → Nat) {n : Nat} (h : ∀ x ∈ l, owner x.1 < n) :
    total f l = ∑ i ∈ Finset.range n, total f (l.filter fun x => owner x.1 = i) := by
  have hmaps : ∀ x ∈ l.toFinset, owner x.1 ∈ Finset.range n :=
    fun x hx => Finset.mem_range.2 (h x (List.mem_toFinset.1 hx))
  rw [total, ← Finset.sum_fiberwise_of_maps_to hmaps]
  refine Finset.sum_congr rfl fun i _ => ?_
  unfold total
  rw [List.toFinset_filter]
  simp

/-! ### Tables -/

/-- The table holds exactly the entries of the list. -/
def Books (table : AList fun _ : κ => ν) (l : List (κ × ν)) : Prop := ∀ k v, table.lookup k = some v ↔ (k, v) ∈ l

namespace Books
omit [DecidableEq ν]
variable {table : AList fun _ : κ => ν} {k : κ} {v : ν}

theorem empty : Books (∅ : AList fun _ : κ => ν) [] := by
  intro k v
  rw [AList.lookup_empty]
  simp

theorem consistent (h : Books table l) : Consistent l := by
  rintro ⟨k, v⟩ hx ⟨_, v'⟩ hy rfl
  exact Option.some.inj (((h k v).2 hx).symm.trans ((h k v').2 hy))

/-- One more entry, for a key that has no other value. -/
theorem insert (h : Books table l) (hsame : ∀ v', table.lookup k = some v' → v' = v) :
    Books (table.insert k v) (l ++ [(k, v)]) := by
  intro k' v'
  rw [List.mem_append, List.mem_singleton]
  rcases eq_or_ne k' k with rfl | hne
  · rw [AList.lookup_insert]
    constructor
    · intro heq
      exact .inr (congrArg _ (Option.some.inj heq).symm)
    · rintro (hin | heq)
      · exact congrArg some (hsame v' ((h k' v').2 hin)).symm
      · exact congrArg some (Prod.mk.inj heq).2.symm
  · rw [AList.lookup_insert_ne hne, h]
    exact (or_iff_left fun heq => hne (Prod.mk.inj heq).1).symm

theorem inconsistent (h : Books table l) {v' : ν} (hv : table.lookup k = some v') (hne : v' ≠ v) :
    ¬ Consistent (l ++ [(k, v)]) := fun hl =>
  hne (hl (k, v') (List.mem_append_left _ ((h k v').1 hv)) (k, v) (List.mem_append_right _ (List.mem_singleton_self _)) rfl)

omit [DecidableEq κ] in
/-- The sum over the table is the total of its list. -/
theorem total_eq [DecidableEq κ] [DecidableEq ν] (h : Books table l) :
    (table.entries.map fun x => f x.2).sum = total f l := by
  have hnodup : (table.entries.map fun x => (x.1, x.2)).Nodup := by
    refine List.Nodup.of_map Prod.fst ?_
    rw [List.map_map]
    exact table.nodupKeys
  have hmem : ∀ x, x ∈ table.entries.map (fun x => (x.1, x.2)) ↔ x ∈ l := by
    rintro ⟨k, v⟩
    have hlookup : table.lookup k = some v ↔ ⟨k, v⟩ ∈ table.entries := AList.mem_lookup_iff
    rw [← h k v, hlookup, List.mem_map]
    constructor
    · rintro ⟨⟨k', v'⟩, hentry, heq⟩
      obtain ⟨rfl, rfl⟩ := Prod.mk.inj heq
      exact hentry
    · intro hentry
      exact ⟨⟨k, v⟩, hentry, rfl⟩
  rw [← total_congr hmem, total_of_nodup hnodup, List.map_map]
  rfl

end Books

end Ledger
