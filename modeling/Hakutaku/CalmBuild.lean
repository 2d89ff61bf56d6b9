import Hakutaku.PackerSpec

/-!
# Builds without failing calls

A build that succeeded despite the failures its world had in store does the same in a world that has none,
so two builds can be compared although they make different calls.
-/

namespace Hakutaku
open Wire Act

namespace BuildContext

/-- The state with no failure ahead. -/
def calm (s : BuildContext) : BuildContext := { s with world := { s.world with faults := [] } }

theorem calm_calm (s : BuildContext) : s.calm.calm = s.calm := rfl

/-- A program that succeeds in a calm world as in any other. -/
def Calm {α : Type} (p : BuildM α) : Prop := Carried calm p

section
variable {α β : Type}

theorem Calm.pure (a : α) : Calm (Pure.pure a) := Carried.pure a

theorem Calm.throw (e : Stop PackError) : Calm (MonadExcept.throw e : BuildM α) := Carried.throw e

theorem Calm.lift (x : PackResult α) : Calm (liftM x : BuildM α) := Carried.lift x

theorem Calm.update {g : BuildContext → BuildContext} (h : ∀ s, g s.calm = (g s).calm) : Calm (modify g) :=
  Carried.update h

theorem Calm.bind {p : BuildM α} {g : α → BuildM β} (hp : Calm p) (hg : ∀ a, Calm (g a)) : Calm (p >>= g) :=
  Carried.bind hp hg

theorem Calm.get_bind {g : BuildContext → BuildM β} (hg : ∀ s, Calm (g s)) (hsame : ∀ s, g s.calm = g s) :
    Calm (get >>= g) := Carried.get_bind hg hsame

theorem Calm.ite {c : Prop} [Decidable c] {p q : BuildM α} (hp : c → Calm p) (hq : ¬ c → Calm q) :
    Calm (if c then p else q) := Carried.ite hp hq

end

/-- A calm build stays calm. -/
theorem Calm.ends {α : Type} {p : BuildM α} (hp : Calm p) {s t : BuildContext} {a : α} (hs : s.calm = s)
    (hrun : p.runOn s = (.ok a, t)) : t.calm = t := by
  have hcalm := hp s a t hrun
  rw [hs, hrun] at hcalm
  exact (Prod.mk.inj hcalm).2.symm

theorem Calm.syscall : Calm syscall := by
  intro s a s' hrun
  unfold Hakutaku.syscall at hrun ⊢
  rw [runOn_bind_ok runOn_get] at hrun ⊢
  rcases hfaults : s.world.faults with _ | ⟨outcome, rest⟩
  · rw [hfaults] at hrun
    cases hrun
    rfl
  · rw [hfaults] at hrun
    rcases outcome with _ | kind
    · cases hrun
      rfl
    · cases hrun

theorem Calm.randomArray (n : Nat) : Calm (randomArray n) := by
  refine .get_bind (fun s => ?_) fun s => rfl
  split
  · exact .bind (.update fun _ => rfl) fun _ => .pure _
  · exact .throw _

theorem Calm.validateOpenFile (source : SourceFile) (state : Option SourceStamp) :
    Calm (source.validateOpenFile state) :=
  .bind .syscall fun _ => .ite (fun _ => .throw _) fun _ => .pure _

theorem Calm.openVerified (source : SourceFile) : Calm source.openVerified :=
  .bind .syscall fun _ => .get_bind (fun _ => .bind (.validateOpenFile _ _) fun _ => .bind .syscall fun _ =>
    .bind .syscall fun _ => .ite (fun _ => .bind (.throw _) fun _ => .pure _) fun _ => .pure _) fun _ => rfl

section
variable [Crypto]

theorem Calm.sealBytes (key : ByteArr 32) (nonce : ByteArr 12) (aad plaintext : Bytes) :
    Calm (sealBytes key nonce aad plaintext) := by
  refine .bind (.update fun _ => rfl) fun _ => ?_
  split
  · exact .pure _
  · exact .throw _

theorem Calm.deriveSegment (keys : ProjectKeys) (header : SegmentHeader) : Calm (keys.deriveSegment header) :=
  .bind (.update fun _ => rfl) fun _ => .pure _

theorem Calm.create (dataDirectory : String) (projectId : ProjectId) (keys : ProjectKeys) (availability : Availability) :
    Calm (NewSegment.create dataDirectory projectId keys availability) :=
  .bind (.randomArray 16) fun _ => .bind (.randomArray 16) fun _ => .bind (.randomArray 8) fun _ =>
    .bind (.update fun _ => rfl) fun _ => .bind .syscall fun _ => .bind .syscall fun _ =>
    .bind (.deriveSegment _ _) fun _ => .pure _

theorem Calm.writeBlock (w : NewSegment) (logicalOffset : UInt64) (plainLen : Nat) (codec : Codec) (encoded : Bytes) :
    Calm (w.writeBlock logicalOffset plainLen codec encoded) :=
  .bind (.lift _) fun _ => .bind (.lift _) fun _ => .bind (.sealBytes _ _ _ _) fun _ => .bind (.lift _) fun _ =>
    .bind .syscall fun _ => .bind (.lift _) fun _ => .bind (.lift _) fun _ => .pure _

theorem Calm.finish (w : NewSegment) : Calm w.finish := by
  refine .bind (.lift _) fun _ => .bind .syscall fun _ => .bind .syscall fun _ => .bind .syscall fun _ =>
    .bind .syscall fun _ => .bind .syscall fun _ => .bind .syscall fun _ => .get_bind (fun _ => ?_) fun _ => rfl
  split
  · exact .bind .syscall fun _ => .ite (fun _ => .bind (.throw _) fun _ => .bind .syscall fun _ => .pure _) fun _ =>
      .bind .syscall fun _ => .pure _
  · exact .bind .syscall fun _ => .bind (.update fun _ => rfl) fun _ => .pure _

theorem Calm.startSegment (job : Job) (cls : SegmentClass) : Calm (startSegment job cls) :=
  .get_bind (fun _ => .bind (.create _ _ _ _) fun _ => .bind (.update fun _ => rfl) fun _ =>
    .get_bind (fun _ => .pure _) fun _ => rfl) fun _ => rfl

theorem Calm.finishActiveSegment (position : Nat) : Calm (finishActiveSegment position) := by
  refine .get_bind (fun _ => ?_) fun _ => rfl
  split
  · exact .throw _
  · exact .bind (.update fun _ => rfl) fun _ => .bind (.finish _) fun _ => .bind (.update fun _ => rfl) fun _ =>
      .get_bind (fun _ => .bind (.lift _) fun _ => .update fun _ => rfl) fun _ => rfl

theorem Calm.finishSegments (left : Nat) : Calm (finishSegments left) := by
  induction left with
  | zero => exact .pure _
  | succ left ih =>
    refine .get_bind (fun _ => ?_) fun _ => rfl
    split
    · exact .pure _
    · exact .bind (.finishActiveSegment _) fun _ => ih

theorem Calm.finishActiveSegments : Calm finishActiveSegments :=
  .get_bind (fun _ => .finishSegments _) fun _ => rfl

theorem Calm.rotateSegment (job : Job) (cls : SegmentClass) (estimatedStored : UInt64) :
    Calm (rotateSegment job cls estimatedStored) := by
  refine .get_bind (fun _ => ?_) fun _ => rfl
  split
  · exact .pure _
  · split
    · exact .throw _
    · exact .ite (fun _ => .finishActiveSegment _) fun _ => .pure _

theorem Calm.openSegment (job : Job) (cls : SegmentClass) : Calm (openSegment job cls) := by
  refine .get_bind (fun _ => ?_) fun _ => rfl
  split
  · exact .pure _
  · exact .startSegment job cls

end

/-! ### Chunks and files -/

theorem Calm.recordChunk (chunkId : ByteArr 32) : Calm (recordChunk chunkId) := .update fun _ => rfl

theorem Calm.tryReuseChunk (logicalOffset : UInt64) (plainLen : UInt32) (chunkId : ByteArr 32)
    (availability : Availability) (access : AccessClass) (compression : CompressionPolicy) :
    Calm (tryReuseChunk logicalOffset plainLen chunkId availability access compression) := by
  refine .get_bind (fun _ => ?_) fun _ => rfl
  split
  · exact .bind (.update fun _ => rfl) fun _ => .pure _
  · split
    · split
      · exact .throw _
      · exact .bind (.update fun _ => rfl) fun _ => .pure _
    · exact .pure _

theorem Calm.addCachedChunks (availability : Availability) (cls : SourceClass) (chunks : List CachedChunk) :
    Calm (addCachedChunks availability cls chunks) := by
  induction chunks with
  | nil => exact .pure _
  | cons chunk rest ih =>
    exact .bind (.recordChunk _) fun _ => .bind (.tryReuseChunk _ _ _ _ _ _) fun _ => .ite (fun _ => ih) fun _ => .throw _

section
variable [Crypto] [Target]

theorem Calm.writeChunk (job : Job) (logicalOffset : UInt64) (plaintext : Bytes) (chunkId : ByteArr 32)
    (cls : SegmentClass) (compression : CompressionPolicy) :
    Calm (writeChunk job logicalOffset plaintext chunkId cls compression) := by
  refine .bind (.lift _) fun _ => .bind (.lift _) fun _ => .bind (.rotateSegment _ _ _) fun _ =>
    .bind (.openSegment _ _) fun _ => .get_bind (fun _ => ?_) fun _ => rfl
  split
  · exact .throw _
  · exact .bind (.writeBlock _ _ _ _ _) fun _ => .update fun _ => rfl

theorem Calm.addChunk (job : Job) (logicalOffset : UInt64) (plaintext : Bytes) (availability : Availability)
    (access : AccessClass) (compression : CompressionPolicy) :
    Calm (addChunk job logicalOffset plaintext availability access compression) :=
  .bind (.recordChunk _) fun _ => .bind (.lift _) fun _ => .bind (.tryReuseChunk _ _ _ _ _ _) fun _ =>
    .ite (fun _ => .pure _) fun _ => .writeChunk _ _ _ _ _ _

theorem Calm.addFixedChunks (job : Job) (blockSize : Nat) (availability : Availability) (access : AccessClass)
    (compression : CompressionPolicy) (left offset : Nat) (bytes : Bytes) :
    Calm (addFixedChunks job blockSize availability access compression left offset bytes) := by
  induction left generalizing offset bytes with
  | zero => exact .pure _
  | succ left ih =>
    exact .bind .syscall fun _ => .ite (fun _ => .pure _) fun _ => .bind (.addChunk _ _ _ _ _ _) fun _ =>
      .bind (.lift _) fun _ => ih _ _

theorem Calm.addDefinedChunks (job : Job) (bytes : Bytes) (availability : Availability) (access : AccessClass)
    (compression : CompressionPolicy) (pieces : List (Nat × Nat)) :
    Calm (addDefinedChunks job bytes availability access compression pieces) := by
  induction pieces with
  | nil => exact .pure _
  | cons piece rest ih =>
    exact .bind (.lift _) fun _ => .ite (fun _ => .bind (.throw _) fun _ => .bind (.addChunk _ _ _ _ _ _) fun _ => ih)
      fun _ => .bind (.addChunk _ _ _ _ _ _) fun _ => ih

variable [FastCdc]

theorem Calm.addFileChunks (job : Job) (source : SourceFile) (cached : Option CachedEntry) (cls : SourceClass)
    (availability : Availability) : Calm (addFileChunks job source cached cls availability) := by
  have hsame : ∀ (s : BuildContext) entry, s.calm.cachedEntryUsable source entry cls availability =
      s.cachedEntryUsable source entry cls availability := fun s entry => cachedEntryUsable_congr rfl rfl rfl
  refine .get_bind (fun _ => .ite (fun _ => .pure _) fun _ => ?_) fun s => by simp only [hsame]
  split
  · exact .addCachedChunks _ _ _
  · split
    · exact .bind (.openVerified _) fun _ => .bind (.addFixedChunks _ _ _ _ _ _ _ _) fun _ => .bind (.lift _) fun _ =>
        .validateOpenFile _ _
    · exact .bind (.openVerified _) fun _ => .ite (fun _ => .bind (.throw _) fun _ => .bind .syscall fun _ =>
        .bind (.lift _) fun _ => .bind (.validateOpenFile _ _) fun _ => .addDefinedChunks _ _ _ _ _ _) fun _ =>
        .bind .syscall fun _ => .bind (.lift _) fun _ => .bind (.validateOpenFile _ _) fun _ => .addDefinedChunks _ _ _ _ _ _

theorem Calm.addFile (job : Job) (source : SourceFile) (cached : Option CachedEntry) :
    Calm (addFile job source cached) :=
  .get_bind (fun _ => .bind (.lift _) fun _ => .get_bind (fun _ => .bind (.lift _) fun _ => .bind (.lift _) fun _ =>
    .bind (.update fun _ => rfl) fun _ => .get_bind (fun _ => .bind (.addFileChunks _ _ _ _ _) fun _ =>
      .get_bind (fun _ => .bind (.lift _) fun _ => .bind (.update fun _ => rfl) fun _ =>
        .get_bind (fun _ => .bind (.lift _) fun _ => .update fun _ => rfl) fun _ => rfl) fun _ => rfl) fun _ => rfl)
      fun _ => rfl) fun _ => rfl

theorem Calm.addFiles (job : Job) (files : List (SourceFile × Option CachedEntry)) : Calm (addFiles job files) := by
  induction files with
  | nil => exact .pure _
  | cons file rest ih => exact .bind (.addFile _ _ _) fun _ => ih

theorem Calm.packFiles (job : Job) (files : List (SourceFile × Option CachedEntry)) : Calm (packFiles job files) :=
  .bind (.addFiles _ _) fun _ => .finishActiveSegments

end

end BuildContext

end Hakutaku
