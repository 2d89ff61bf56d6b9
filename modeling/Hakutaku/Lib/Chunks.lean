import Mathlib.Tactic

/-!
# The chunks of a list

`List.toChunks` fills one chunk after the other. Its accumulators are unrolled here once; what the chunks are is
`getElem?_toChunks`.
-/

namespace List
variable {α : Type} {n : Nat}

/-- The chunks that are complete stay in front. -/
theorem toChunks_go_out (xs : List α) (acc : Array α) (out : Array (List α)) :
    toChunks.go n xs acc out = out.toList ++ toChunks.go n xs acc #[] := by
  induction xs generalizing acc out with
  | nil =>
    unfold toChunks.go
    simp
  | cons x xs ih =>
    unfold toChunks.go
    by_cases hfull : (acc.size == n) = true
    · rw [if_pos hfull, if_pos hfull, ih, ih _ (#[].push acc.toList)]
      simp
    · rw [if_neg hfull, if_neg hfull]
      exact ih _ out

/-- A chunk that has room for all that is left. -/
theorem toChunks_go_last {xs : List α} {acc : Array α} (h : acc.size + xs.length ≤ n) :
    toChunks.go n xs acc #[] = [acc.toList ++ xs] := by
  induction xs generalizing acc with
  | nil =>
    unfold toChunks.go
    simp
  | cons x xs ih =>
    rw [length_cons] at h
    have hroom : ¬ (acc.size == n) = true := by
      rw [beq_iff_eq]
      omega
    unfold toChunks.go
    rw [if_neg hroom, ih (by rw [Array.size_push]; omega), Array.toList_push, append_assoc, singleton_append]

/-- A chunk that is filled, and the first element behind it. -/
theorem toChunks_go_fill {ys zs : List α} {acc : Array α} {z : α} (h : acc.size + ys.length = n) :
    toChunks.go n (ys ++ z :: zs) acc #[] = (acc.toList ++ ys) :: toChunks.go n zs #[z] #[] := by
  induction ys generalizing acc with
  | nil =>
    have hfull : (acc.size == n) = true := by simpa using h
    rw [nil_append, append_nil]
    conv_lhs => unfold toChunks.go
    rw [if_pos hfull, toChunks_go_out]
    simp
  | cons y ys ih =>
    rw [length_cons] at h
    have hroom : ¬ (acc.size == n) = true := by
      rw [beq_iff_eq]
      omega
    rw [cons_append]
    conv_lhs => unfold toChunks.go
    rw [if_neg hroom, ih (by rw [Array.size_push]; omega), Array.toList_push, append_assoc, singleton_append]

theorem toChunks_nil : ([] : List α).toChunks n = [] := by
  cases n <;> rfl

theorem toChunks_cons (hn : 0 < n) (x : α) (xs : List α) : (x :: xs).toChunks n = toChunks.go n xs #[x] #[] := by
  obtain ⟨m, rfl⟩ : ∃ m, n = m + 1 := ⟨n - 1, by omega⟩
  rfl

theorem toChunks_of_length_le {l : List α} (hne : l ≠ []) (hl : l.length ≤ n) : l.toChunks n = [l] := by
  cases l with
  | nil => exact absurd rfl hne
  | cons x xs =>
    rw [length_cons] at hl
    rw [toChunks_cons (by omega), toChunks_go_last (by simpa [Nat.add_comm] using hl)]
    rfl

theorem toChunks_append {a b : List α} (hn : 0 < n) (ha : a.length = n) : (a ++ b).toChunks n = a :: b.toChunks n := by
  cases a with
  | nil =>
    rw [length_nil] at ha
    omega
  | cons x xs =>
    rw [length_cons] at ha
    cases b with
    | nil => rw [append_nil, toChunks_nil, toChunks_of_length_le (cons_ne_nil x xs) ha.le]
    | cons z zs =>
      rw [cons_append, toChunks_cons hn, toChunks_cons hn, toChunks_go_fill (by simpa [Nat.add_comm] using ha)]
      rfl

/-- The `j`-th chunk holds the elements from index `j * n` on, at most `n` of them. -/
theorem getElem?_toChunks (hn : 0 < n) (l : List α) (j : Nat) :
    (l.toChunks n)[j]? = if j * n < l.length then some ((l.drop (j * n)).take n) else none := by
  induction j generalizing l with
  | zero =>
    rw [Nat.zero_mul, drop_zero]
    rcases Nat.lt_or_ge n l.length with hlong | hshort
    · rw [if_pos (by omega), ← take_append_drop n l, toChunks_append hn (length_take_of_le hlong.le),
        take_left' (length_take_of_le hlong.le)]
      rfl
    · rcases eq_or_ne l [] with rfl | hne
      · rw [toChunks_nil]
        rfl
      · rw [if_pos (length_pos_iff.2 hne), toChunks_of_length_le hne hshort, take_of_length_le hshort]
        rfl
  | succ j ih =>
    rcases Nat.lt_or_ge n l.length with hlong | hshort
    · have hsplit : l.toChunks n = l.take n :: (l.drop n).toChunks n := by
        conv_lhs => rw [← take_append_drop n l]
        exact toChunks_append hn (length_take_of_le hlong.le)
      rw [hsplit, getElem?_cons_succ, ih, length_drop, drop_drop, Nat.add_mul, Nat.one_mul, Nat.add_comm n]
      by_cases hj : j * n < l.length - n
      · rw [if_pos hj, if_pos (by omega)]
      · rw [if_neg hj, if_neg (by omega)]
    · have hout : ¬ (j + 1) * n < l.length := by
        have hrow : n ≤ (j + 1) * n := Nat.le_mul_of_pos_left n (Nat.succ_pos j)
        omega
      rw [if_neg hout]
      rcases eq_or_ne l [] with rfl | hne
      · rw [toChunks_nil]
        rfl
      · rw [toChunks_of_length_le hne hshort]
        rfl

theorem lt_length_toChunks (hn : 0 < n) (l : List α) (j : Nat) : j < (l.toChunks n).length ↔ j * n < l.length := by
  have hget := getElem?_toChunks hn l j
  constructor
  · intro h
    by_contra hge
    rw [if_neg hge, getElem?_eq_none_iff] at hget
    omega
  · intro h
    by_contra hge
    rw [if_pos h, getElem?_eq_none (by omega)] at hget
    cases hget

end List
