import Mathlib.Tactic

/-!
# Consecutive ranges

`Tiles start ranges stop`: the ranges, each an offset and a length, follow one another from `start` to `stop` without gap
or overlap.
-/

def Tiles : Nat → List (Nat × Nat) → Nat → Prop
  | start, [], stop => start = stop
  | start, range :: rest, stop => range.1 = start ∧ Tiles (start + range.2) rest stop

namespace Tiles
variable {start stop i x : Nat} {ranges : List (Nat × Nat)} {range : Nat × Nat}

theorem nil (start : Nat) : Tiles start [] start := rfl

/-- One more range behind the others. -/
theorem snoc (h : Tiles start ranges stop) (len : Nat) : Tiles start (ranges ++ [(stop, len)]) (stop + len) := by
  induction ranges generalizing start with
  | nil =>
    obtain rfl : start = stop := h
    exact ⟨rfl, rfl⟩
  | cons first rest ih => exact ⟨h.1, ih h.2⟩

theorem stop_eq (h : Tiles start ranges stop) : stop = start + (ranges.map Prod.snd).sum := by
  induction ranges generalizing start with
  | nil => exact h.symm
  | cons first rest ih =>
    rw [List.map_cons, List.sum_cons, ← Nat.add_assoc]
    exact ih h.2

theorem start_le_stop (h : Tiles start ranges stop) : start ≤ stop := by
  have heq := h.stop_eq
  omega

/-- Every range lies between the two ends. -/
theorem within (h : Tiles start ranges stop) (hr : range ∈ ranges) : start ≤ range.1 ∧ range.1 + range.2 ≤ stop := by
  induction ranges generalizing start with
  | nil => cases hr
  | cons first rest ih =>
    obtain ⟨hfirst, hrest⟩ := h
    rcases List.mem_cons.1 hr with rfl | hr
    · exact ⟨hfirst.ge, hfirst ▸ hrest.start_le_stop⟩
    · obtain ⟨hge, hle⟩ := ih hrest hr
      exact ⟨by omega, hle⟩

/-- Every place between the two ends is in exactly one range. -/
theorem existsUnique (h : Tiles start ranges stop) (hge : start ≤ x) (hlt : x < stop) :
    ∃! i : Nat, ∃ range : Nat × Nat, ranges[i]? = some range ∧ range.1 ≤ x ∧ x < range.1 + range.2 := by
  induction ranges generalizing start with
  | nil =>
    obtain rfl : start = stop := h
    omega
  | cons first rest ih =>
    obtain ⟨rfl, hrest⟩ := h
    rcases Nat.lt_or_ge x (first.1 + first.2) with hin | hout
    · refine ⟨0, ⟨first, rfl, hge, hin⟩, ?_⟩
      rintro (_ | i) ⟨range, hrange, hle, -⟩
      · rfl
      · have hafter := (hrest.within (List.mem_of_getElem? hrange)).1
        omega
    · obtain ⟨i, ⟨range, hrange, hle, hin⟩, hunique⟩ := ih hrest hout
      refine ⟨i + 1, ⟨range, hrange, hle, hin⟩, ?_⟩
      rintro (_ | j) ⟨other, hother, hle', hin'⟩
      · obtain rfl : first = other := Option.some.inj hother
        omega
      · exact congrArg Nat.succ (hunique j ⟨other, hother, hle', hin'⟩)

end Tiles
