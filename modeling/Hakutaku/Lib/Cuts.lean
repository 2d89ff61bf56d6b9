import Hakutaku.Lib.Tiling

/-!
# Content cut into pieces

`Cuts start pieces content`: the pieces, each with its place, are nonempty and make up the content, which begins at
`start`. The ranges of a tiling cut any content of their length.
-/

def Cuts {α : Type} : Nat → List (Nat × List α) → List α → Prop
  | _, [], content => content = []
  | start, piece :: rest, content =>
    piece.1 = start ∧ piece.2 ≠ [] ∧ ∃ tail, content = piece.2 ++ tail ∧ Cuts (start + piece.2.length) rest tail

namespace Cuts
variable {α : Type} {start stop : Nat} {pieces : List (Nat × List α)} {content : List α}

/-- The pieces one behind the other are the content. -/
theorem flatMap_eq (h : Cuts start pieces content) : pieces.flatMap Prod.snd = content := by
  induction pieces generalizing start content with
  | nil => exact h.symm
  | cons piece rest ih =>
    obtain ⟨-, -, tail, rfl, hrest⟩ := h
    rw [List.flatMap_cons, ih hrest]

theorem length_eq (h : Cuts start pieces content) : (pieces.map fun x => x.2.length).sum = content.length := by
  rw [← h.flatMap_eq, List.length_flatMap]

theorem nonempty (h : Cuts start pieces content) {piece : Nat × List α} (hp : piece ∈ pieces) : piece.2 ≠ [] := by
  induction pieces generalizing start content with
  | nil => cases hp
  | cons first rest ih =>
    obtain ⟨-, hfirst, tail, rfl, hrest⟩ := h
    rcases List.mem_cons.1 hp with rfl | hp
    · exact hfirst
    · exact ih hrest hp

/-- A piece is where the pieces before it end. -/
theorem place (h : Cuts start pieces content) {i : Nat} (hi : i < pieces.length) :
    pieces[i].1 = start + ((pieces.take i).map fun x => x.2.length).sum := by
  induction pieces generalizing start content i with
  | nil => exact absurd hi (Nat.not_lt_zero i)
  | cons piece rest ih =>
    obtain ⟨hplace, -, tail, rfl, hrest⟩ := h
    cases i with
    | zero => simpa using hplace
    | succ i =>
      have hrec := ih hrest (Nat.lt_of_succ_lt_succ hi)
      simp only [List.getElem_cons_succ, List.take_succ_cons, List.map_cons, List.sum_cons]
      omega

/-- No content, no pieces. -/
theorem eq_nil (h : Cuts start pieces []) : pieces = [] := by
  rcases pieces with _ | ⟨piece, rest⟩
  · rfl
  · obtain ⟨-, hpiece, tail, hcontent, -⟩ := h
    exact absurd (List.append_eq_nil_iff.1 hcontent.symm).1 hpiece

theorem of_tiles {ranges : List (Nat × Nat)} (h : Tiles start ranges stop) (hpos : ∀ x ∈ ranges, 0 < x.2)
    (whole : List α) (hwhole : whole.length = stop) :
    Cuts start (ranges.map fun x => (x.1, (whole.drop x.1).take x.2)) (whole.drop start) := by
  induction ranges generalizing start with
  | nil =>
    obtain rfl : start = stop := h
    exact List.drop_eq_nil_of_le hwhole.le
  | cons range rest ih =>
    obtain ⟨rfl, hrest⟩ := h
    have hlen : ((whole.drop range.1).take range.2).length = range.2 := by
      have hle := hrest.start_le_stop
      rw [List.length_take, List.length_drop]
      omega
    refine ⟨rfl, fun hnil => ?_, whole.drop (range.1 + range.2), ?_, ?_⟩
    · have hrange := hpos range List.mem_cons_self
      have hnone := congrArg List.length hnil
      simp only [hlen, List.length_nil] at hnone
      omega
    · rw [← List.drop_drop, List.take_append_drop]
    · rw [hlen]
      exact ih hrest fun x hx => hpos x (List.mem_cons_of_mem _ hx)

end Cuts
