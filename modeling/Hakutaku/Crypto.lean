import Hakutaku.Records

/-!
# The cryptographic profile (`crypto.rs`)

The primitives are parameters (`Crypto`); what the code builds from them is translated: key
derivation, nonces, associated data and the signed message. `AeadLaw` and `ZstdLaw` are the round
trips of the primitives, for the theorems that need them.
-/

namespace Hakutaku

/-- BLAKE3, AES-256-GCM, Ed25519 and zstd, as functions of their inputs. -/
class Crypto where
  hash : Bytes → ByteArr 32
  keyedHash : ByteArr 32 → Bytes → ByteArr 32
  deriveKey : Bytes → Bytes → ByteArr 32
  /-- `seal_in_place_append_tag` under key, nonce and associated data. -/
  aeadSeal : ByteArr 32 → ByteArr 12 → Bytes → Bytes → Option Bytes
  /-- `open_in_place`: the plaintext, or a failed authentication. -/
  aeadOpen : ByteArr 32 → ByteArr 12 → Bytes → Bytes → Option Bytes
  publicKey : ByteArr 32 → ByteArr 32
  sign : ByteArr 32 → Bytes → ByteArr 64
  verify : ByteArr 32 → Bytes → ByteArr 64 → Bool
  /-- `Compressor::compress` at a level. -/
  compress : Int → Bytes → Option Bytes
  /-- `decompress_to_buffer` into a buffer of the given length: the bytes written. -/
  decompress : Bytes → Nat → Option Bytes
  /-- What a failed `decompress_to_buffer` leaves in the output buffer. -/
  spoil : Bytes → Bytes → Bytes

/-- AES-GCM `open` undoes `seal`, which appends a 16-byte tag. -/
structure AeadLaw [Crypto] : Prop where
  aeadOpen_aeadSeal : ∀ {key nonce aad plain sealed}, Crypto.aeadSeal key nonce aad plain = some sealed →
    Crypto.aeadOpen key nonce aad sealed = some plain
  length_aeadSeal : ∀ {key nonce aad plain sealed}, Crypto.aeadSeal key nonce aad plain = some sealed →
    sealed.length = plain.length + 16

/-- zstd `decompress` undoes `compress` in any buffer that is large enough. -/
structure ZstdLaw [Crypto] : Prop where
  decompress_compress : ∀ {level plain packed capacity}, Crypto.compress level plain = some packed →
    plain.length ≤ capacity → Crypto.decompress packed capacity = some plain

/-- Ed25519 `verify` accepts what `sign` produced. -/
structure SignatureLaw [Crypto] : Prop where
  verify_sign : ∀ key message, Crypto.verify (Crypto.publicKey key) message (Crypto.sign key message) = true

/-- A concrete profile for closed examples: hashes are the padded first bytes, sealing appends a zero
tag, compression stores. -/
@[reducible] def exampleCrypto : Crypto where
  hash b := ⟨(b ++ List.replicate 32 0).take 32, by simp⟩
  keyedHash _ b := ⟨(b ++ List.replicate 32 0).take 32, by simp⟩
  deriveKey _ b := ⟨(b ++ List.replicate 32 0).take 32, by simp⟩
  aeadSeal _ _ _ plain := some (plain ++ List.replicate 16 0)
  aeadOpen _ _ _ sealed :=
    if sealed.drop (sealed.length - 16) = List.replicate 16 0 then some (sealed.take (sealed.length - 16)) else none
  publicKey key := key
  sign _ _ := ByteArr.replicate 64 0
  verify _ _ signature := decide (signature = ByteArr.replicate 64 0)
  compress _ plain := some plain
  decompress packed capacity := if packed.length ≤ capacity then some packed else none
  spoil _ output := output

theorem exampleCrypto_aead : letI := exampleCrypto; AeadLaw := by
  let _ := exampleCrypto
  constructor
  · intro key nonce aad plain sealed h
    obtain rfl := Option.some.inj h
    have hlen : (plain ++ List.replicate 16 (0 : UInt8)).length - 16 = plain.length := by
      rw [List.length_append, List.length_replicate, Nat.add_sub_cancel]
    show (if _ then _ else _) = _
    rw [hlen, List.drop_left, if_pos rfl, List.take_left]
  · intro key nonce aad plain sealed h
    obtain rfl := Option.some.inj h
    rw [List.length_append, List.length_replicate]

section
variable [Crypto]

/-- `SegmentId` of a file's complete content. -/
def contentId (content : Bytes) : SegmentId := ⟨Crypto.hash content⟩

def masterContext : Bytes := ascii "Hakutaku project master v2".toList
def snapshotSignatureDomain : Bytes := ascii "Hakutaku snapshot signature v2".toList
def catalogAadDomain : Bytes := ascii "Hakutaku catalog aad v2".toList
def pageAadDomain : Bytes := ascii "Hakutaku page aad v2".toList
def blockAadDomain : Bytes := ascii "Hakutaku block aad v2".toList

/-- Domain-separated keys derived from one project's runtime root key. -/
structure ProjectKeys where
  master : ByteArr 32

namespace ProjectKeys

def new (rootKey : ByteArr 32) (projectId : ProjectId) : ProjectKeys where
  master := Crypto.deriveKey masterContext (rootKey.toList ++ projectId.bytes.toList)

def derive (keys : ProjectKeys) (domain : Bytes) (fields : List Bytes) : ByteArr 32 :=
  Crypto.keyedHash keys.master
    (domain ++ fields.flatMap fun field => u64Bytes (UInt64.ofNat field.length) ++ field)

/-- The bytes a derived key is the keyed hash of. -/
def deriveInput (domain : Bytes) (fields : List Bytes) : Bytes :=
  domain ++ fields.flatMap fun field => u64Bytes (UInt64.ofNat field.length) ++ field

def snapshotKey (keys : ProjectKeys) (salt : ByteArr 16) : ByteArr 32 :=
  keys.derive (ascii "snapshot".toList) [salt.toList]

def segmentKey (keys : ProjectKeys) (header : SegmentHeader) : ByteArr 32 :=
  keys.derive (ascii "segment".toList) [header.segmentUid.toList, header.salt.toList]

def pathKey (keys : ProjectKeys) : ByteArr 32 := keys.derive (ascii "path".toList) []

end ProjectKeys

/-- The first bytes of a longer array. -/
def ByteArr.prefixOf {n : Nat} (a : ByteArr n) (k : Nat) (h : k ≤ n) : ByteArr k :=
  ⟨a.toList.take k, by simp [h]⟩

def nonce (noncePrefix : ByteArr 8) (ordinal : UInt32) : ByteArr 12 :=
  ⟨noncePrefix.toList ++ u32Bytes ordinal, by simp⟩

omit [Crypto] in
/-- Key ids and block digests are the first half of a hash. -/
theorem half_le_hash : 16 ≤ 32 := by decide

def signingKeyId (publicKey : ByteArr 32) : ByteArr 16 :=
  (Crypto.hash publicKey.toList).prefixOf 16 half_le_hash

def snapshotSignatureMessage (zeroedHeader catalogCiphertext : Bytes) : Bytes :=
  snapshotSignatureDomain ++ (Crypto.hash (zeroedHeader ++ catalogCiphertext)).toList

def verifySnapshotSignature (header : SnapshotHeader) (catalogCiphertext : Bytes) (publicKey : ByteArr 32) :
    Result Unit := do
  if signingKeyId publicKey ≠ header.signingKeyId then fail .signature
  let message := snapshotSignatureMessage (header.encode true) catalogCiphertext
  if Crypto.verify publicKey message header.signature then .ok () else fail .signature

/-- The keyed 32-bit fingerprint of a canonical path. -/
def pathFingerprint (pathKey : ByteArr 32) (path : Bytes) : UInt32 :=
  UInt32.ofNat (Wire.leNat ((Crypto.keyedHash pathKey path).toList.take 4))

def pageAad (projectId : ProjectId) (releaseSequence : UInt64) (kind : PageKind) (codec : Codec)
    (nonceOrdinal storedLen plainLen : UInt32) : Bytes :=
  pageAadDomain ++ projectId.bytes.toList ++ u64Bytes releaseSequence ++ [kind.toByte] ++ [codec.toByte] ++
    u32Bytes nonceOrdinal ++ u32Bytes storedLen ++ u32Bytes plainLen

def blockAad (projectId : ProjectId) (segmentUid : ByteArr 16) (blockOrdinal : UInt32) (codec : Codec)
    (storedLen plainLen : UInt32) : Bytes :=
  blockAadDomain ++ projectId.bytes.toList ++ segmentUid.toList ++ u32Bytes blockOrdinal ++ [codec.toByte] ++
    u32Bytes storedLen ++ u32Bytes plainLen

def catalogAad (header : SnapshotHeader) : Bytes :=
  catalogAadDomain ++ header.projectId.bytes.toList ++ u64Bytes header.releaseSequence ++
    u64Bytes header.catalogStoredLen ++ u64Bytes header.catalogPlainLen ++ u32Bytes header.pageCount

/-- `decompress_zstd_exact`. -/
def decompressZstdExact (stored : Bytes) (expectedLen : Nat) : Result Bytes := do
  let written ← okOr (Crypto.decompress stored expectedLen) .compression
  if written.length ≠ expectedLen then fail (.invalidFormat "zstd plaintext length")
  return written

/-- `decode_owned`. -/
def decodeOwned (codec : Codec) (stored : Bytes) (expectedLen : Nat) : Result Bytes :=
  match codec with
  | .raw => do
    if stored.length ≠ expectedLen then fail (.invalidFormat "RAW plaintext length")
    return stored
  | .zstd => decompressZstdExact stored expectedLen

end

/-- A decoded buffer has exactly the expected length. -/
theorem length_of_decodeOwned [Crypto] {codec : Codec} {stored plain : Bytes} {n : Nat}
    (h : decodeOwned codec stored n = .ok plain) : plain.length = n := by
  cases codec with
  | raw =>
    simp only [decodeOwned, fail_bind, ite_fail_eq_ok, pure_eq_ok, Except.ok.injEq] at h
    rw [← h.2]; exact not_not.1 h.1
  | zstd =>
    simp only [decodeOwned, decompressZstdExact, bind_eq_ok, okOr_eq_ok, fail_bind, ite_fail_eq_ok, pure_eq_ok,
      Except.ok.injEq] at h
    obtain ⟨w, -, hn, rfl⟩ := h
    exact not_not.1 hn

end Hakutaku
