import Hakutaku.BuildHistory
import Hakutaku.SourceChunks

/-!
# Sizes of blocks

No block of a build is empty, and none is longer than the largest block: chunks of sources are neither, and a block that
stands for a chunk once more is one that was there before (`packFiles_sized`).
-/

namespace Hakutaku
open Wire Act BuildContext

def BlockRef.Sized (r : BlockRef) : Prop := 0 < r.plainLen.toNat ∧ r.plainLen.toNat ≤ maxBlockPlainLen

/-- The blocks of a build and those it can take are sized. -/
structure SizedBlocks (s : BuildContext) : Prop where
  existing : ∀ key reused, s.reuseIndex.lookup key = some reused → reused.block.Sized
  current : ∀ key pending, s.currentReuse.lookup key = some pending → pending.reference.Sized
  pending : ∀ pending ∈ s.pendingBlocks, pending.reference.Sized

/-- The blocks of the second state are sized if those of the first are. -/
def KeepsSized (s t : BuildContext) : Prop := SizedBlocks s → SizedBlocks t

instance : Std.Refl KeepsSized := ⟨fun _ h => h⟩

instance : IsTrans BuildContext KeepsSized := ⟨fun _ _ _ h h' hs => h' (h hs)⟩

/-- A state with the same blocks. -/
theorem KeepsSized.of_same {s t : BuildContext} (hindex : t.reuseIndex = s.reuseIndex)
    (hcurrent : t.currentReuse = s.currentReuse) (hpending : t.pendingBlocks = s.pendingBlocks) : KeepsSized s t := by
  rintro ⟨hs, hs', hs''⟩
  refine ⟨?_, ?_, ?_⟩
  · rwa [hindex]
  · rwa [hcurrent]
  · rwa [hpending]

theorem BuildContext.SegmentsOnly.keepsSized {s t : BuildContext} (h : SegmentsOnly s t) : KeepsSized s t := by
  obtain ⟨_, _, _, _, rfl, -⟩ := h
  exact .of_same rfl rfl rfl

theorem BuildContext.Quiet.sized {α : Type} {p : BuildM α} (hp : Quiet p) : Within KeepsSized p :=
  fun s => (hp s).mono fun _ _ h => h.keepsSized

section
variable {s : BuildContext} {policy : CompressionPolicy}

/-- A build starts with the blocks of the release before it. -/
theorem SizedBlocks.new {active : Option OldRelease} {job : Job} {reuse : ReuseIndex}
    (hindex : loadReuseIndex (active.filter fun _ => job.options.incremental) = .ok reuse)
    (hold : ∀ old ∈ active, ∀ r ∈ old.records, r.block.Sized) (fileCount : Nat) (world : World) :
    SizedBlocks (.new reuse fileCount world) := by
  refine ⟨fun key reused hlookup => ?_, fun key pending hlookup => ?_, fun _ hmem => absurd hmem List.not_mem_nil⟩
  · have hlookup : reuse.blocks.lookup key = some reused := hlookup
    rcases loadReuseIndex_sound hindex with ⟨-, rfl⟩ | ⟨old, compact, hactive, -, -, -, hblocks⟩
    · rw [AList.lookup_empty] at hlookup
      cases hlookup
    · obtain ⟨r, hr, -, rfl, -⟩ := hblocks key reused hlookup
      exact hold old (Option.mem_filter_iff.1 hactive).1 r hr
  · rw [show (BuildContext.new reuse fileCount world).currentReuse = ∅ from rfl, AList.lookup_empty] at hlookup
    cases hlookup

/-- One more block behind the others. -/
theorem SizedBlocks.snoc {t : BuildContext} (hs : SizedBlocks s) {pending : PendingBlock} (hsized : pending.reference.Sized)
    (hindex : t.reuseIndex = s.reuseIndex) (hpending : t.pendingBlocks = s.pendingBlocks ++ [pending])
    (hcurrent : t.currentReuse = s.currentReuse ∨ ∃ key, t.currentReuse = s.currentReuse.insert key pending) : SizedBlocks t := by
  refine ⟨hindex ▸ hs.existing, fun key other hlookup => ?_, fun other hmem => ?_⟩
  · rcases hcurrent with hsame | ⟨key', hinsert⟩
    · rw [hsame] at hlookup
      exact hs.current key other hlookup
    · rw [hinsert] at hlookup
      rcases eq_or_ne key key' with rfl | hne
      · rw [AList.lookup_insert] at hlookup
        exact Option.some.inj hlookup ▸ hsized
      · rw [AList.lookup_insert_ne hne] at hlookup
        exact hs.current key other hlookup
  · rw [hpending] at hmem
    rcases List.mem_append.1 hmem with hmem | hmem
    · exact hs.pending other hmem
    · exact List.mem_singleton.1 hmem ▸ hsized

theorem tryReuseChunk_sized (logicalOffset : UInt64) (plainLen : UInt32) (chunkId : ByteArr 32) (availability : Availability)
    (access : AccessClass) :
    Within KeepsSized (tryReuseChunk logicalOffset plainLen chunkId availability access policy) := by
  intro s
  unfold tryReuseChunk
  refine wp_bind.2 (wp_get.2 ?_)
  split
  · rename_i reused hreused
    intro hs
    have hsized : reused.reference.Sized := hs.current _ _ (currentBlock_eq_some.1 hreused).1
    exact @SizedBlocks.snoc s _ hs { reused with reference := { reused.reference with logicalOffset } } hsized rfl rfl (.inl rfl)
  · split
    · rename_i reused hreused
      split
      · trivial
      · intro hs
        have hsized : reused.block.Sized := hs.existing _ _ (existingBlock_eq_some.1 hreused).1
        exact hs.snoc hsized rfl rfl (.inr ⟨_, rfl⟩)
    · exact id

section
variable [Crypto] [Target] {job : Job}

theorem writeChunk_sized (logicalOffset : UInt64) {plaintext : Bytes} (hpos : 0 < plaintext.length)
    (hle : plaintext.length ≤ maxBlockPlainLen) (chunkId : ByteArr 32) (cls : SegmentClass) :
    Within KeepsSized (writeChunk job logicalOffset plaintext chunkId cls policy) := by
  intro s
  refine (writeChunk_spec job logicalOffset plaintext chunkId cls).mono ?_
  rintro _ _ ⟨t, position, active, reference, ht, rfl, -, hlen, -⟩ hs
  have hsized : reference.Sized := by
    have hplain := toNat_blockLen hle
    rw [BlockRef.Sized, hlen, hplain]
    exact ⟨hpos, hle⟩
  exact @SizedBlocks.snoc t _ (ht.keepsSized hs) ⟨.new active.index, reference⟩ hsized rfl rfl (.inr ⟨_, rfl⟩)

theorem addChunk_sized (logicalOffset : UInt64) {plaintext : Bytes} (hpos : 0 < plaintext.length)
    (hle : plaintext.length ≤ maxBlockPlainLen) (availability : Availability) (access : AccessClass) :
    Within KeepsSized (addChunk job logicalOffset plaintext availability access policy) := by
  have hrecord : Within KeepsSized (recordChunk (Crypto.hash plaintext)) := .update fun s => .of_same rfl rfl rfl
  refine .bind hrecord fun _ => .bind (.lift _) fun plainLen => ?_
  refine .bind (tryReuseChunk_sized _ _ _ _ _) fun reused => .ite (fun _ => .pure _) fun _ => ?_
  exact writeChunk_sized _ hpos hle _ _

/-! ### The loops of a file -/

theorem addFixedChunks_sized {blockSize : Nat} (hle : blockSize ≤ maxBlockPlainLen) (availability : Availability)
    (access : AccessClass) (left logicalOffset : Nat) (bytes : Bytes) :
    Within KeepsSized (addFixedChunks job blockSize availability access policy left logicalOffset bytes) := by
  induction left generalizing logicalOffset bytes with
  | zero => exact .pure _
  | succ left ih =>
    refine .bind Quiet.syscall.sized fun _ => .ite (fun _ => .pure _) fun hnil => ?_
    have hlen : (bytes.take blockSize).length ≤ maxBlockPlainLen := by
      rw [List.length_take]
      exact (min_le_left _ _).trans hle
    exact .bind (addChunk_sized _ (List.length_pos_of_ne_nil hnil) hlen _ _) fun _ => .bind (.lift _) fun _ => ih _ _

theorem addDefinedChunks_sized {bytes : Bytes} (availability : Availability) (access : AccessClass) {pieces : List (Nat × Nat)}
    (hpieces : ∀ piece ∈ pieces, 0 < piece.2 ∧ piece.2 ≤ maxBlockPlainLen ∧ piece.1 + piece.2 ≤ bytes.length) :
    Within KeepsSized (addDefinedChunks job bytes availability access policy pieces) := by
  induction pieces with
  | nil => exact .pure _
  | cons piece rest ih =>
    obtain ⟨⟨hpos, hle, hend⟩, hrest⟩ := List.forall_mem_cons.1 hpieces
    have hlen : (slice bytes piece.1 piece.2).length = piece.2 := length_slice hend
    have hchunk := fun offset => @addChunk_sized policy _ _ job offset (slice bytes piece.1 piece.2) (hlen.symm ▸ hpos)
      (hlen.symm ▸ hle) availability access
    unfold addDefinedChunks
    refine .bind (.lift _) fun stop => ?_
    split
    · exact .bind (.throw _) fun _ => .bind (hchunk _) fun _ => ih hrest
    · exact .bind (hchunk _) fun _ => ih hrest

omit [Crypto] [Target] in
theorem addCachedChunks_sized (availability : Availability) (cls : SourceClass) (chunks : List CachedChunk) :
    Within KeepsSized (addCachedChunks availability cls chunks) := by
  induction chunks with
  | nil => exact .pure _
  | cons chunk rest ih =>
    have hrecord : Within KeepsSized (recordChunk chunk.chunkId) := .update fun s => .of_same rfl rfl rfl
    refine .bind hrecord fun _ => .bind (tryReuseChunk_sized _ _ _ _ _) fun reused => ?_
    exact .ite (fun _ => ih) fun _ => .throw _

variable [FastCdc]

theorem addFileChunks_sized (hcdc : FastCdcLaw) (source : SourceFile) (cached : Option CachedEntry)
    (availability : Availability) : Within KeepsSized (addFileChunks job source cached (classify source) availability) := by
  refine .get_bind fun s => .ite (fun _ => .pure _) fun _ => ?_
  split
  · exact addCachedChunks_sized _ _ _
  · split
    · refine .bind (Quiet.openVerified _).sized fun view => ?_
      refine .bind (addFixedChunks_sized (classify_blockLen_le source) _ _ _ _ _) fun _ => .bind (.lift _) fun _ => ?_
      exact (Quiet.validateOpenFile _ _).sized
    · refine .bind (Quiet.openVerified _).sized fun view => ?_
      have hpieces := fun bytes : Bytes => @addDefinedChunks_sized (classify source).compression _ _ job bytes availability
        (classify source).access (FastCdc.chunks bytes) fun piece hpiece =>
          ⟨(hcdc.sizes bytes piece hpiece).1, (hcdc.sizes bytes piece hpiece).2.trans (by decide),
            ((hcdc.tiles bytes).within hpiece).2⟩
      refine .ite (fun _ => .bind (.throw _) fun _ => ?_) fun _ => ?_
      all_goals
        refine .bind Quiet.syscall.sized fun _ => .bind (.lift _) fun _ => ?_
        exact .bind (Quiet.validateOpenFile _ _).sized fun _ => hpieces _

theorem packFiles_sized (hcdc : FastCdcLaw) (files : List (SourceFile × Option CachedEntry)) :
    Within KeepsSized (packFiles job files) := by
  have hfile : ∀ source cached, Within KeepsSized (addFile job source cached) := by
    intro source cached
    refine .get_bind fun _ => .bind (.lift _) fun _ => .get_bind fun _ => .bind (.lift _) fun _ => .bind (.lift _) fun _ => ?_
    refine .bind (.update fun s => .of_same rfl rfl rfl) fun _ => .get_bind fun before => ?_
    refine .bind (addFileChunks_sized hcdc _ _ _) fun _ => .get_bind fun _ => .bind (.lift _) fun _ => ?_
    refine .bind (.update fun s => .of_same rfl rfl rfl) fun _ => .get_bind fun _ => .bind (.lift _) fun _ => ?_
    exact .update fun s => .of_same rfl rfl rfl
  have hfiles : Within KeepsSized (addFiles job files) := by
    induction files with
    | nil => exact .pure _
    | cons file rest ih => exact .bind (hfile _ _) fun _ => ih
  exact .bind hfiles fun _ => Quiet.finishActiveSegments.sized

end
end

end Hakutaku
