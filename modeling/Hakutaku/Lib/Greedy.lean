import Mathlib.Tactic

/-!
# Taking what a budget pays for

A list is walked once; every element whose weight still fits the budget is taken. On a list sorted by weight this
takes the longest prefix within the budget, and no other choice within the budget has more members.
-/

namespace Greedy
variable {α : Type} (w : α → Nat)

/-- The total weight. -/
def total (l : List α) : Nat := (l.map w).sum

@[simp] theorem total_nil : total w [] = 0 := rfl

@[simp] theorem total_cons (a : α) (l : List α) : total w (a :: l) = w a + total w l := rfl

/-- The elements taken with `left` to spend. -/
def select : List α → Nat → List α
  | [], _ => []
  | a :: rest, left => if w a ≤ left then a :: select rest (left - w a) else select rest left

/-- The longest prefix within the budget. -/
def LongestPrefix (l : List α) (budget : Nat) (s : List α) : Prop :=
  ∃ k, s = l.take k ∧ total w (l.take k) ≤ budget ∧ ∀ j, k < j → j ≤ l.length → budget < total w (l.take j)

def Sorted (l : List α) : Prop := l.Pairwise fun a b => w a ≤ w b

variable {w}

/-- Nothing is taken once the lightest element left is too heavy. -/
theorem select_eq_nil {l : List α} {left : Nat} (h : ∀ a ∈ l, left < w a) : select w l left = [] := by
  induction l with
  | nil => rfl
  | cons a rest ih =>
    unfold select
    rw [if_neg (Nat.not_le.2 (h a List.mem_cons_self))]
    exact ih fun b hb => h b (List.mem_cons_of_mem _ hb)

theorem select_longestPrefix {l : List α} (hl : Sorted w l) (left : Nat) : LongestPrefix w l left (select w l left) := by
  induction l generalizing left with
  | nil => exact ⟨0, rfl, Nat.zero_le _, fun j hj hle => absurd hle (Nat.not_le.2 hj)⟩
  | cons a rest ih =>
    obtain ⟨hfirst, hrest⟩ := List.pairwise_cons.1 hl
    by_cases ha : w a ≤ left
    · obtain ⟨k, hsel, hfits, hmax⟩ := ih hrest (left - w a)
      refine ⟨k + 1, ?_, ?_, ?_⟩
      · unfold select
        rw [if_pos ha, hsel, List.take_succ_cons]
      · rw [List.take_succ_cons, total_cons]
        omega
      · intro j hj hle
        obtain ⟨j, rfl⟩ : ∃ i, j = i + 1 := ⟨j - 1, by omega⟩
        have hover := hmax j (by omega) (by rw [List.length_cons] at hle; omega)
        rw [List.take_succ_cons, total_cons]
        omega
    · have hnil : select w (a :: rest) left = [] := select_eq_nil fun b hb => by
        rcases List.mem_cons.1 hb with rfl | hb
        · exact Nat.not_le.1 ha
        · exact (Nat.not_le.1 ha).trans_le (hfirst b hb)
      refine ⟨0, hnil, Nat.zero_le _, fun j hj hle => ?_⟩
      obtain ⟨j, rfl⟩ : ∃ i, j = i + 1 := ⟨j - 1, by omega⟩
      rw [List.take_succ_cons, total_cons]
      omega

theorem LongestPrefix.sublist {l s : List α} {budget : Nat} (h : LongestPrefix w l budget s) : s.Sublist l := by
  obtain ⟨k, rfl, -⟩ := h
  exact List.take_sublist _ _

theorem LongestPrefix.fits {l s : List α} {budget : Nat} (h : LongestPrefix w l budget s) : total w s ≤ budget := by
  obtain ⟨k, rfl, hfits, -⟩ := h
  exact hfits

/-- One element more in a prefix weighs at least as much as the first one. -/
theorem total_take_succ {a : α} {l : List α} (h : ∀ b ∈ l, w a ≤ w b) {n : Nat} (hn : n < l.length) :
    w a + total w (l.take n) ≤ total w (l.take (n + 1)) := by
  rw [List.take_succ_eq_append_getElem hn]
  unfold total
  rw [List.map_append, List.sum_append, List.map_singleton, List.sum_singleton, Nat.add_comm]
  exact Nat.add_le_add_left (h _ (List.getElem_mem hn)) _

/-- The lightest elements: a prefix weighs no more than any sublist as long. -/
theorem total_take_le {l t : List α} (hl : Sorted w l) (h : t.Sublist l) : total w (l.take t.length) ≤ total w t := by
  induction h with
  | slnil => exact Nat.le_refl _
  | @cons t l a hsub ih =>
    obtain ⟨hfirst, hrest⟩ := List.pairwise_cons.1 hl
    rcases t with _ | ⟨b, t⟩
    · exact Nat.le_refl _
    · have hlen : t.length < l.length := hsub.length_le
      calc total w ((a :: l).take (t.length + 1)) = w a + total w (l.take t.length) := by
            rw [List.take_succ_cons, total_cons]
        _ ≤ total w (l.take (t.length + 1)) := total_take_succ hfirst hlen
        _ ≤ total w (b :: t) := ih hrest
  | @cons_cons t l a hsub ih =>
    rw [List.length_cons, List.take_succ_cons, total_cons, total_cons]
    exact Nat.add_le_add_left (ih (List.pairwise_cons.1 hl).2) _

/-- No sublist within the budget is longer. -/
theorem LongestPrefix.optimal {l s t : List α} {budget : Nat} (h : LongestPrefix w l budget s) (hl : Sorted w l)
    (ht : t.Sublist l) (hfits : total w t ≤ budget) : t.length ≤ s.length := by
  obtain ⟨k, rfl, -, hmax⟩ := h
  rw [List.length_take]
  refine Nat.le_min.2 ⟨?_, ht.length_le⟩
  by_contra hlt
  exact absurd ((total_take_le hl ht).trans hfits) (Nat.not_le.2 (hmax _ (Nat.not_le.1 hlt) ht.length_le))

/-- No set of members within the budget is larger. -/
theorem LongestPrefix.card_le [DecidableEq α] {l s : List α} {budget : Nat} (h : LongestPrefix w l budget s)
    (hl : Sorted w l) (hnodup : l.Nodup) {set : Finset α} (hset : ∀ a ∈ set, a ∈ l) (hfits : ∑ a ∈ set, w a ≤ budget) :
    set.card ≤ s.length := by
  have hperm : (l.filter (· ∈ set)).toFinset = set := by
    ext a
    simp only [List.mem_toFinset, List.mem_filter, decide_eq_true_eq]
    exact ⟨And.right, fun ha => ⟨hset a ha, ha⟩⟩
  have hnodup' := hnodup.filter (fun a => decide (a ∈ set))
  have htotal : total w (l.filter (· ∈ set)) = ∑ a ∈ set, w a := by
    conv_rhs => rw [← hperm]
    rw [List.sum_toFinset _ hnodup']
    rfl
  have hcard : (l.filter (· ∈ set)).length = set.card := by
    conv_rhs => rw [← hperm]
    rw [List.toFinset_card_of_nodup hnodup']
  rw [← hcard]
  exact h.optimal hl List.filter_sublist (htotal.le.trans hfits)

end Greedy
