import Mathlib.Tactic
import Mathlib.Data.Fintype.Card

/-!
# Linear probing

A table of `n` slots holding entries `ι`, each with a home. `Probed` is the invariant of open
addressing with linear probing and no deletion: the slots between an entry's home and its own slot
are occupied. It survives insertion at the first free slot, and it is what makes a search that stops
at the first free slot complete.
-/

namespace Probe

variable {ι : Type} {n : Nat} {home : ι → Nat} {table : Nat → Option ι} {h j s : Nat} {i : ι}

/-- The slot of the `j`-th probe from home `h`. -/
def slot (n h j : Nat) : Nat := (h + j) % n

theorem slot_lt (hn : 0 < n) (h j : Nat) : slot n h j < n := Nat.mod_lt _ hn

/-- Every slot is probed within `n` steps, whatever the home. -/
theorem exists_slot_eq (hs : s < n) (h : Nat) : ∃ j < n, slot n h j = s := by
  have hlt : h % n < n := Nat.mod_lt _ (by omega)
  rcases Nat.lt_or_ge s (h % n) with hlo | hhi
  · refine ⟨s + n - h % n, by omega, ?_⟩
    rw [slot, Nat.add_mod, Nat.mod_eq_of_lt (by omega : s + n - h % n < n)]
    have : h % n + (s + n - h % n) = s + n := by omega
    rw [this, Nat.add_mod_right, Nat.mod_eq_of_lt hs]
  · refine ⟨s - h % n, by omega, ?_⟩
    rw [slot, Nat.add_mod, Nat.mod_eq_of_lt (by omega : s - h % n < n)]
    have : h % n + (s - h % n) = s := by omega
    rw [this, Nat.mod_eq_of_lt hs]

/-- The probes before the `j`-th all met occupied slots. -/
def Busy (n : Nat) (table : Nat → Option ι) (h j : Nat) : Prop := ∀ k < j, (table (slot n h k)).isSome

/-- The invariant of linear probing. -/
def Probed (n : Nat) (home : ι → Nat) (table : Nat → Option ι) : Prop :=
  ∀ s < n, ∀ i, table s = some i → ∃ j < n, slot n (home i) j = s ∧ Busy n table (home i) j

theorem Probed.empty : Probed n home fun _ => none := by
  intro s _ i h; cases h

theorem Busy.update (hb : Busy n table h j) (s : Nat) (i : ι) : Busy n (Function.update table s (some i)) h j := by
  intro k hk
  by_cases hs : slot n h k = s
  · rw [hs, Function.update_self]; rfl
  · rw [Function.update_of_ne hs]; exact hb k hk

/-- Insertion at the first free probe keeps the invariant. -/
theorem Probed.insert (hp : Probed n home table) (hj : j < n) (hb : Busy n table (home i) j) :
    Probed n home (Function.update table (slot n (home i) j) (some i)) := by
  intro s hs i' hi'
  by_cases hsj : s = slot n (home i) j
  · subst hsj
    obtain rfl : i = i' := by simpa using hi'
    exact ⟨j, hj, rfl, hb.update _ _⟩
  · rw [Function.update_of_ne hsj] at hi'
    obtain ⟨j', hj', he, hb'⟩ := hp s hs i' hi'
    exact ⟨j', hj', he, hb'.update _ _⟩

/-- A free slot is met after finitely many occupied ones. -/
theorem exists_first_free (hfree : ∃ s < n, table s = none) (h : Nat) :
    ∃ j < n, table (slot n h j) = none ∧ Busy n table h j := by
  obtain ⟨s, hs, hnone⟩ := hfree
  obtain ⟨j, hj, rfl⟩ := exists_slot_eq hs h
  have hex : ∃ j, table (slot n h j) = none := ⟨j, hnone⟩
  classical
  refine ⟨Nat.find hex, (Nat.find_min' hex hnone).trans_lt hj, Nat.find_spec hex, fun k hk => ?_⟩
  exact Option.isSome_iff_ne_none.2 (Nat.find_min hex hk)

/-- The entries in the table are the indices below `m`, each in one slot. -/
structure Holds (n : Nat) (table : Nat → Option Nat) (m : Nat) : Prop where
  lt : ∀ s < n, ∀ i, table s = some i → i < m
  inj : ∀ s < n, ∀ s' < n, ∀ i, table s = some i → table s' = some i → s = s'
  surj : ∀ i < m, ∃ s < n, table s = some i

theorem Holds.empty : Holds n (fun _ => none) 0 :=
  ⟨by simp, by simp, by simp⟩

theorem Holds.insert {table : Nat → Option Nat} {m : Nat} (hh : Holds n table m) (hs : s < n)
    (hfree : table s = none) : Holds n (Function.update table s (some m)) (m + 1) := by
  constructor
  · intro t ht i hi
    by_cases hts : t = s
    · subst hts; simp at hi; omega
    · rw [Function.update_of_ne hts] at hi
      exact (hh.lt t ht i hi).trans (Nat.lt_succ_self m)
  · intro t ht t' ht' i hi hi'
    by_cases hts : t = s <;> by_cases hts' : t' = s
    · rw [hts, hts']
    · subst hts
      rw [Function.update_of_ne hts'] at hi'
      have := hh.lt t' ht' i hi'
      simp at hi; omega
    · subst hts'
      rw [Function.update_of_ne hts] at hi
      have := hh.lt t ht i hi
      simp at hi'; omega
    · rw [Function.update_of_ne hts] at hi
      rw [Function.update_of_ne hts'] at hi'
      exact hh.inj t ht t' ht' i hi hi'
  · intro i hi
    rcases Nat.lt_succ_iff_lt_or_eq.1 hi with hi | rfl
    · obtain ⟨t, ht, hti⟩ := hh.surj i hi
      refine ⟨t, ht, ?_⟩
      rw [Function.update_of_ne (by rintro rfl; rw [hfree] at hti; cases hti)]
      exact hti
    · exact ⟨s, hs, Function.update_self ..⟩

/-- Fewer entries than slots leave a free slot. -/
theorem Holds.exists_free {table : Nat → Option Nat} {m : Nat} (hh : Holds n table m) (hm : m < n) :
    ∃ s < n, table s = none := by
  by_contra hall
  have hsome : ∀ s : Fin n, ∃ i, table s = some i := fun s =>
    Option.ne_none_iff_exists'.1 fun h => hall ⟨s, s.isLt, h⟩
  choose f hf using hsome
  have hinj : Function.Injective fun s : Fin n => (⟨f s, hh.lt s s.isLt _ (hf s)⟩ : Fin m) := by
    intro s t hst
    have he : f s = f t := congrArg Fin.val hst
    exact Fin.ext (hh.inj s s.isLt t t.isLt _ (hf s) (he ▸ hf t))
  have hcard := Fintype.card_le_of_injective _ hinj
  simp only [Fintype.card_fin] at hcard
  omega

/-- A power-of-two mask selects the same slot as the remainder, also behind a wrapping addition. -/
theorem wrapping_and_mask {k w : Nat} (hk : k ≤ w) (a : Nat) : a % 2 ^ w &&& (2 ^ k - 1) = a % 2 ^ k := by
  rw [Nat.and_two_pow_sub_one_eq_mod]
  exact Nat.mod_mod_of_dvd _ (pow_dvd_pow 2 hk)

end Probe
