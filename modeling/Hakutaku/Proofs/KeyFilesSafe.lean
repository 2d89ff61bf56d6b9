import Hakutaku.KeyFiles
import Hakutaku.SourceTree
import Hakutaku.PackerSpec

/-!
# Key files round trip and are never packaged

The loaders of both key files are inverse to their `save`, and whatever they accept begins with a magic that the walk of
the sources and the verified open refuse, under any name and with any bytes behind it.
-/

namespace Hakutaku
open Wire Act

/-- A file one of the loaders accepts. -/
def LoadableKeyFile [Crypto] [Ed25519] [Target] (content : Bytes) : Prop :=
  (∃ path identity, PublisherIdentity.load path content = .ok identity) ∨
    ∃ material, RuntimeKeyMaterial.load content = .ok material

section
variable [Crypto]

theorem RuntimeKeyMaterial.hasKeyMagic_save (material : RuntimeKeyMaterial) : hasKeyMagic material.save = true := by
  have htake : material.save.take 8 = runtimeMagic := by
    rw [save, withChecksum, payload]
    simp only [List.append_assoc]
    exact List.take_left' rfl
  have hlen : 8 ≤ material.save.length := by
    rw [save, withChecksum, List.length_append, length_payload, runtimeHeaderSize]
    omega
  simp [hasKeyMagic, isHakutakuKeyMagic, hlen, htake, runtimeMagic]

variable [Ed25519]

theorem PublisherIdentity.hasKeyMagic_withChecksum (identity : PublisherIdentity) :
    hasKeyMagic (withChecksum identity.payload) = true := by
  have htake : (withChecksum identity.payload).take 8 = identityMagic := by
    rw [withChecksum, payload]
    simp only [List.append_assoc]
    exact List.take_left' rfl
  have hlen : 8 ≤ (withChecksum identity.payload).length := by
    rw [withChecksum, List.length_append, length_payload, identityHeaderSize]
    omega
  simp [hasKeyMagic, isHakutakuKeyMagic, hlen, htake, identityMagic]

variable [Target]

theorem LoadableKeyFile.hasKeyMagic {content : Bytes} (h : LoadableKeyFile content) : hasKeyMagic content = true := by
  rcases h with ⟨path, identity, hload⟩ | ⟨material, hload⟩
  · obtain ⟨-, -, hsave⟩ := PublisherIdentity.load_eq_ok.1 hload
    obtain ⟨-, rfl⟩ := PublisherIdentity.save_eq_ok.1 hsave
    exact identity.hasKeyMagic_withChecksum
  · obtain rfl := RuntimeKeyMaterial.load_eq_ok.1 hload
    exact material.hasKeyMagic_save

end

/-- A source that is opened does not begin like a key file. -/
theorem openVerified_returns (source : SourceFile) : Returns source.openVerified fun view => hasKeyMagic view.bytes = false := by
  refine .bind (.trivial _) fun _ _ => .get_bind fun s => .bind (.trivial _) fun _ _ => .bind (.trivial _) fun _ _ =>
    .bind (.trivial _) fun _ _ => .ite (fun _ => .bind (@Returns.throw _ _ _ (fun _ => False) _) fun _ h => h.elim) fun hkey => .pure ?_
  simpa [hasKeyMagic] using hkey

theorem key_files_safe [Crypto] [Ed25519] [Target] :
    (∀ (identity : PublisherIdentity) (path : String), identity.signingPkcs8.length ≤ 4096 → ∃ content,
      identity.save = .ok content ∧
      PublisherIdentity.load path content = .ok { identity with sourcePath := some path }) ∧
    (∀ material : RuntimeKeyMaterial, RuntimeKeyMaterial.load material.save = .ok material) ∧
    (∀ (identity : PublisherIdentity) (keyShareA : ByteArr 32),
      (identity.runtimeKeyMaterial keyShareA).rootKey = identity.rootKey) ∧
    (∀ (path : String) (content : Bytes) (identity : PublisherIdentity),
      PublisherIdentity.load path content = .ok identity → identity.save = .ok content) ∧
    (∀ (content : Bytes) (material : RuntimeKeyMaterial),
      RuntimeKeyMaterial.load content = .ok material → material.save = content) ∧
    ∀ content trailing : Bytes, LoadableKeyFile content →
      (isHakutakuKeyFile (content ++ trailing)).runOn [] = (.ok true, []) ∧
      Returns (isHakutakuKeyFile (content ++ trailing)) (· = true) ∧
      (∀ (root : String) (listing : Listing) (faults : List (Option IoKind)), content ++ trailing ∈ listing.contents →
        ∀ files faults', (collectFiles root listing).runOn faults ≠ (.ok files, faults')) ∧
      ∀ (source : SourceFile) (s : BuildContext), (s.world.sources source.hostPath).bytes = content ++ trailing →
        ∀ view s', source.openVerified.runOn s ≠ (.ok view, s') := by
  refine ⟨fun identity path hlen => ?_, fun material => ?_, fun identity keyShareA => ?_, fun path content identity hload => ?_,
    fun content material hload => ?_, fun content trailing hloadable => ?_⟩
  · have hsave : identity.save = .ok (withChecksum identity.payload) :=
      PublisherIdentity.save_eq_ok.2 ⟨by simp only [u32Size]; omega, rfl⟩
    exact ⟨_, hsave, PublisherIdentity.load_eq_ok.2 ⟨rfl, hlen, hsave⟩⟩
  · exact RuntimeKeyMaterial.load_eq_ok.2 rfl
  · exact xorKeys_cancel identity.rootKey keyShareA
  · exact (PublisherIdentity.load_eq_ok.1 hload).2.2
  · exact (RuntimeKeyMaterial.load_eq_ok.1 hload).symm
  · have hmagic := hasKeyMagic_append hloadable.hasKeyMagic trailing
    have hreturns := isHakutakuKeyFile_returns (content ++ trailing)
    rw [hmagic] at hreturns
    refine ⟨?_, hreturns, fun root listing faults hmem files faults' hrun => ?_, fun source s hsource view s' hrun => ?_⟩
    · rw [← hmagic]
      rfl
    · -- The walk would have seen the file.
      have hseen := wp.ok (collectFiles_returns root listing faults) hrun _ hmem
      rw [hmagic] at hseen
      cases hseen
    · obtain ⟨-, rfl⟩ := wp.ok (BuildContext.openVerified_spec source) hrun
      have hopened : hasKeyMagic (s.world.sources source.hostPath).bytes = false :=
        wp.ok (openVerified_returns source s) hrun
      rw [hsource, hmagic] at hopened
      cases hopened

/-- A signature scheme for closed examples: a private key is its own public key. -/
@[reducible] def exampleEd25519 : Ed25519 := ⟨fun pkcs8 => if h : pkcs8.length = 32 then some ⟨pkcs8, h⟩ else none⟩

/-- An identity that was just generated. -/
def sampleIdentity : @PublisherIdentity exampleEd25519 :=
  letI := exampleEd25519
  { projectId := ⟨.replicate 16 7⟩, rootKey := .replicate 32 1, publicKey := .replicate 32 2
    signingPkcs8 := List.replicate 32 2, sourcePath := none, publicKeyOf_eq := rfl }

/-- Its file, renamed and with a byte more, is not packaged. -/
theorem key_files_safe_sample :
    letI := exampleCrypto
    letI := exampleEd25519
    ∃ content, sampleIdentity.save = .ok content ∧
      (@PublisherIdentity.load _ _ target64 "/keys/game.haki" content).isOk = true ∧
      ∀ files faults, (collectFiles "/game" (.directory ⟨"saves", true⟩
        (.file ⟨"slot1.dat", true⟩ (content ++ [0]) ⟨161, none, 1, 2⟩ .nil) .nil)).runOn [] ≠ (.ok files, faults) := by
  obtain ⟨hround, -, -, -, -, hsafe⟩ := @key_files_safe exampleCrypto exampleEd25519 target64
  obtain ⟨content, hsave, hload⟩ := hround sampleIdentity "/keys/game.haki" (by decide)
  refine ⟨content, hsave, by rw [hload]; rfl, ?_⟩
  exact (hsafe content [0] (.inl ⟨_, _, hload⟩)).2.2.1 _ _ _ (by simp [Listing.contents])

end Hakutaku
