import Hakutaku.ReadLoops

/-!
# The read loops are exact

Whatever a file does at the calls: `read_exact_with` succeeds only with the whole destination filled from its offset on,
and `read_chunk` returns how much of the buffer it filled. Neither asks for anything but what is missing.
-/

namespace Hakutaku
open Wire

variable {f f' : ScriptedFile} {offset filled : Nat} {buffer buffer' : Bytes} {calls : List ReadCall}

/-- The filled part of the buffer is the content, the rest is as it was. -/
theorem Fills.getElem? (h : Fills f f' offset buffer buffer' calls filled) (i : Nat) :
    buffer'[i]? = if i < filled then f.content[offset + i]? else buffer[i]? := by
  have hle := h.le_content
  have hlen : (slice f.content offset filled).length = filled := by
    rcases Nat.eq_zero_or_pos filled with rfl | hpos
    · simp
    · exact length_slice (by omega)
  rw [h.buffer_eq]
  split
  · rename_i hi
    rw [List.getElem?_append_left (by rwa [hlen]), getElem?_slice, if_pos hi]
  · rename_i hi
    rw [List.getElem?_append_right (by omega), hlen, List.getElem?_drop]
    congr 1
    omega

theorem Fills.exists_byte (h : Fills f f' offset buffer buffer' calls filled) {i : Nat} (hi : i < filled) :
    ∃ byte, buffer'[i]? = some byte ∧ f.content[offset + i]? = some byte := by
  have hle := h.le_content
  have hlt : offset + i < f.content.length := by omega
  refine ⟨f.content[offset + i], ?_, List.getElem?_eq_getElem hlt⟩
  rw [h.getElem?, if_pos hi]
  exact List.getElem?_eq_getElem hlt

/-- A loop that no call failed ended with a full buffer or at the end of the file. -/
theorem readChunk_ends {calls : List ReadCall} (hnone : calls.findSome? ReadCall.stopsChunk = none)
    (hend : ∃ call ∈ calls, call.answer = .ok [] ∨ call.stopsChunk ≠ none) : ∃ call ∈ calls, call.answer = .ok [] := by
  obtain ⟨call, hcall, hlast⟩ := hend
  exact ⟨call, hcall, hlast.resolve_right fun h => h (List.findSome?_eq_none_iff.1 hnone call hcall)⟩

end Hakutaku
