import Hakutaku.Fingerprint

/-!
# The fingerprint determines the sources

Two inventories with equal fingerprint streams are equal, so a build that takes the active release for
unchanged has the files, classes and chunks of the build that wrote it.
-/

namespace Hakutaku
open Wire Act BuildContext

theorem fingerprintStream_injective {xs ys : List InventoryEntry} (hxs : xs.length < u64Size) (hys : ys.length < u64Size)
    (h : fingerprintStream xs = fingerprintStream ys) : xs = ys := by
  unfold fingerprintStream at h
  simp only [List.append_assoc] at h
  have h := List.append_cancel_left h
  obtain ⟨hcount, hbody⟩ := List.append_inj h (by rw [length_u64Bytes, length_u64Bytes])
  have hlen : xs.length = ys.length := by
    have hnat := congrArg UInt64.toNat (u64Bytes_injective hcount)
    rwa [UInt64.toNat_ofNat_of_lt' hxs, UInt64.toNat_ofNat_of_lt' hys] at hnat
  exact InventoryEntry.flatMap_bytes_inj rfl hlen.symm hbody

/-- A build hashes the stream of its inventory. -/
theorem recorded_stream [Crypto] [FastCdc] {job : Job} {files : List (SourceFile × Option CachedEntry)} {reuse : ReuseIndex}
    {world : World} {t : BuildContext} {inventory : List InventoryEntry}
    (h : Recorded job files (.new reuse files.length world) t inventory) :
    inventory.length = files.length ∧ t.fingerprint = fingerprintStream inventory := by
  have hlen := h.files.length_eq
  refine ⟨hlen.symm, ?_⟩
  rw [h.fingerprint, fingerprintStream, ← hlen]
  rfl

theorem fingerprint_injective [Crypto] [Target] [FastCdc] :
    (∀ xs ys : List InventoryEntry, xs.length < u64Size → ys.length < u64Size →
      fingerprintStream xs = fingerprintStream ys → xs = ys) ∧
    ∀ (job job' : Job) (files files' : List (SourceFile × Option CachedEntry)) (reuse reuse' : ReuseIndex)
      (world world' : World) (t t' : BuildContext) (active : OldRelease) (compacting : Bool),
      files.length < u64Size → files'.length < u64Size →
      (∀ file ∈ files, Canonical file.1.logicalPath) → (∀ file ∈ files', Canonical file.1.logicalPath) →
      (addFiles job files).runOn (.new reuse files.length world) = (.ok (), t) →
      (addFiles job' files').runOn (.new reuse' files'.length world') = (.ok (), t') →
      active.sourceFingerprint = Crypto.hash t.fingerprint →
      (Crypto.hash t.fingerprint = Crypto.hash t'.fingerprint → t.fingerprint = t'.fingerprint) →
      unchangedRelease job'.options compacting (some active) (Crypto.hash t'.fingerprint) →
      ∃ inventory, Recorded job files (.new reuse files.length world) t inventory ∧
        Recorded job' files' (.new reuse' files'.length world') t' inventory ∧
        t.filePaths = t'.filePaths ∧ t.fileRecords = t'.fileRecords ∧ t.chunkIds = t'.chunkIds := by
  refine ⟨fun xs ys hxs hys => fingerprintStream_injective hxs hys, ?_⟩
  intro job job' files files' reuse reuse' world world' t t' active compacting hfiles hfiles' hcanonical hcanonical' hrun
    hrun' hactive hcollision hshortcut
  obtain ⟨inventory, h⟩ := (addFiles_spec job files hcanonical _).ok hrun
  obtain ⟨inventory', h'⟩ := (addFiles_spec job' files' hcanonical' _).ok hrun'
  have hhash : Crypto.hash t.fingerprint = Crypto.hash t'.fingerprint := by
    simp only [unchangedRelease, Option.any_some, Bool.and_eq_true, decide_eq_true_eq] at hshortcut
    rw [← hactive, hshortcut.2.1]
  obtain ⟨hlen, hstream⟩ := recorded_stream h
  obtain ⟨hlen', hstream'⟩ := recorded_stream h'
  have hsame := hcollision hhash
  rw [hstream, hstream'] at hsame
  obtain rfl := fingerprintStream_injective (hlen ▸ hfiles) (hlen' ▸ hfiles') hsame
  refine ⟨inventory, h, h', ?_, ?_, ?_⟩
  · rw [h.filePaths, h'.filePaths]
    rfl
  · rw [h.fileRecords, h'.fileRecords]
    rfl
  · rw [h.chunkIds, h'.chunkIds]
    rfl

/-! ### A build of one byte -/

def oneByte : SourceFile := ⟨"in/a", "a", 1, ⟨1, none, 0, 0⟩⟩

def oneByteWorld : World := ⟨[], List.replicate 40 5, fun _ => ⟨some oneByte.stamp, [7], some oneByte.stamp⟩, ∅, [], [], []⟩

def oneByteBuilt : BuildContext :=
  letI := exampleCrypto; letI := target64; letI := exampleFastCdc
  ((addFiles exampleJob [(oneByte, none)]).runOn (.new ⟨false, ∅, []⟩ 1 oneByteWorld)).2

/-- The release of the build. -/
def oneByteRelease : OldRelease :=
  letI := exampleCrypto
  ⟨1, Crypto.hash oneByteBuilt.fingerprint, [], []⟩

theorem oneByte_run : letI := exampleCrypto; letI := target64; letI := exampleFastCdc
    ((addFiles exampleJob [(oneByte, none)]).runOn (.new ⟨false, ∅, []⟩ 1 oneByteWorld)).1 = .ok () := by
  decide +kernel

theorem fingerprint_injective_sample : letI := exampleCrypto; letI := target64; letI := exampleFastCdc
    ∃ inventory, Recorded exampleJob [(oneByte, none)] (.new ⟨false, ∅, []⟩ 1 oneByteWorld) oneByteBuilt inventory := by
  let _ := exampleCrypto; let _ := target64; let _ := exampleFastCdc
  have hcanonical : ∀ file ∈ [((oneByte, none) : SourceFile × Option CachedEntry)], Canonical file.1.logicalPath := by
    intro file hfile
    rw [List.mem_singleton.1 hfile]
    decide +kernel
  have hrun : (addFiles exampleJob [(oneByte, none)]).runOn (.new ⟨false, ∅, []⟩ 1 oneByteWorld) = (.ok (), oneByteBuilt) :=
    Prod.ext oneByte_run rfl
  obtain ⟨inventory, h, -⟩ := fingerprint_injective.2 exampleJob exampleJob [(oneByte, none)] [(oneByte, none)]
    ⟨false, ∅, []⟩ ⟨false, ∅, []⟩ oneByteWorld oneByteWorld oneByteBuilt oneByteBuilt oneByteRelease false
    (by decide) (by decide) hcanonical hcanonical hrun hrun rfl (fun _ => rfl) (by decide +kernel)
  exact ⟨inventory, h⟩

end Hakutaku
