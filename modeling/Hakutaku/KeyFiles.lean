import Hakutaku.Source
import Hakutaku.Crypto

/-!
# Key files (`identity.rs`)

The two files that hold secrets: the publisher identity with its signing key, and the runtime key material. `save` and
`load` are functions between the fields and the bytes of the file. Each loader accepts exactly the files its `save`
writes, and both kinds of files begin with one of the two magics.
-/

namespace Hakutaku
open Wire

/-- `Ed25519KeyPair::from_pkcs8` and the public key of the pair, as a function of the PKCS#8 bytes. -/
class Ed25519 where
  publicKeyOf : Bytes → Option (ByteArr 32)

def identityMagic : Bytes := ascii "HAKID001".toList
def identityHeaderSize : Nat := 96
def checksumSize : Nat := 32
def runtimeMagic : Bytes := ascii "HAKRT001".toList
def runtimeHeaderSize : Nat := 124
def runtimeFileSize : Nat := runtimeHeaderSize + checksumSize
def identityFileLimit : Nat := identityHeaderSize + 4096 + checksumSize

/-! ### Fields of a file -/

section
variable {ε : Type}

/-- `bytes[offset..offset + n].try_into().expect("fixed slice")`. -/
def arrayAt (n : Nat) (bytes : Bytes) (offset : Nat) : Outcome ε (ByteArr n) :=
  if h : (slice bytes offset n).length = n then .ok ⟨slice bytes offset n, h⟩ else panicked "range end index"

def u16At (bytes : Bytes) (offset : Nat) : Outcome ε UInt16 := do
  return UInt16.ofNat (leNat (← arrayAt 2 bytes offset).toList)

def u32At (bytes : Bytes) (offset : Nat) : Outcome ε UInt32 := do
  return UInt32.ofNat (leNat (← arrayAt 4 bytes offset).toList)

variable {n offset : Nat} {bytes : Bytes}

@[simp] theorem arrayAt_eq_ok {v : ByteArr n} : (arrayAt n bytes offset : Outcome ε _) = .ok v ↔ slice bytes offset n = v.toList := by
  unfold arrayAt
  constructor
  · intro h
    split at h
    · rw [← Except.ok.inj h]
    · exact absurd h panicked_ne_ok
  · intro h
    have hlen : (slice bytes offset n).length = n := by rw [h, v.length_toList]
    rw [dif_pos hlen, Except.ok.injEq]
    exact ByteArr.ext h

@[simp] theorem u16At_eq_ok {v : UInt16} : (u16At bytes offset : Outcome ε _) = .ok v ↔ slice bytes offset 2 = u16Bytes v := by
  simp only [u16At, bind_eq_ok, arrayAt_eq_ok, pure_eq_ok, Except.ok.injEq]
  constructor
  · rintro ⟨a, h, rfl⟩
    rw [h, u16Bytes, UInt16.toNat_ofNat_of_lt' (leNat_array_lt a), leBytes_leNat' a.length_toList]
  · intro h
    refine ⟨⟨u16Bytes v, by simp⟩, h, ?_⟩
    show UInt16.ofNat (leNat (leBytes _ v.toNat)) = v
    rw [leNat_leBytes v.toNat_lt, UInt16.ofNat_toNat]

@[simp] theorem u32At_eq_ok {v : UInt32} : (u32At bytes offset : Outcome ε _) = .ok v ↔ slice bytes offset 4 = u32Bytes v := by
  simp only [u32At, bind_eq_ok, arrayAt_eq_ok, pure_eq_ok, Except.ok.injEq]
  constructor
  · rintro ⟨a, h, rfl⟩
    rw [h, u32Bytes, UInt32.toNat_ofNat_of_lt' (leNat_array_lt a), leBytes_leNat' a.length_toList]
  · intro h
    refine ⟨⟨u32Bytes v, by simp⟩, h, ?_⟩
    show UInt32.ofNat (leNat (leBytes _ v.toNat)) = v
    rw [leNat_leBytes v.toNat_lt, UInt32.ofNat_toNat]

end

/-- What `read_private_file` returns of a file with this content: it reads one byte past the limit at most. -/
def readPrivateFile (content : Bytes) (limit : Nat) : PackResult Bytes :=
  let bytes := content.take (limit + 1)
  if limit < bytes.length then fail (.identity "file length limit") else .ok bytes

theorem readPrivateFile_eq_ok {content bytes : Bytes} {limit : Nat} :
    readPrivateFile content limit = .ok bytes ↔ content.length ≤ limit ∧ bytes = content := by
  unfold readPrivateFile
  rw [ite_fail_eq_ok, List.length_take, Except.ok.injEq]
  constructor
  · rintro ⟨hlen, rfl⟩
    have hle : content.length ≤ limit := by omega
    exact ⟨hle, List.take_of_length_le (by omega)⟩
  · rintro ⟨hle, rfl⟩
    exact ⟨by omega, List.take_of_length_le (by omega)⟩

/-- A file with the checksum behind its payload. -/
def withChecksum [Crypto] (payload : Bytes) : Bytes := payload ++ (Crypto.hash payload).toList

/-- The bytewise exclusive or that splits a root key into shares and puts them together. -/
def xorKeys (a b : ByteArr 32) : ByteArr 32 := ⟨a.toList.zipWith (· ^^^ ·) b.toList, by simp⟩

/-- The second share of a key together with the first gives the key. -/
theorem xorKeys_cancel (key share : ByteArr 32) : xorKeys share (xorKeys key share) = key := by
  refine ByteArr.ext (List.ext_getElem (by simp) fun i h₁ h₂ => ?_)
  simp only [xorKeys, List.getElem_zipWith]
  rw [UInt8.xor_comm, UInt8.xor_assoc, UInt8.xor_self, UInt8.xor_zero]

/-! ### Runtime key material -/

/-- The key material a packaged executable embeds. -/
@[ext] structure RuntimeKeyMaterial where
  projectId : ProjectId
  keyShareA : ByteArr 32
  keyShareB : ByteArr 32
  publicKey : ByteArr 32
deriving DecidableEq

namespace RuntimeKeyMaterial

def rootKey (material : RuntimeKeyMaterial) : ByteArr 32 := xorKeys material.keyShareA material.keyShareB

/-- The part of the file in front of the checksum. -/
def payload (material : RuntimeKeyMaterial) : Bytes :=
  runtimeMagic ++ u16Bytes 1 ++ u16Bytes (UInt16.ofNat runtimeHeaderSize) ++ material.projectId.bytes.toList ++
    material.keyShareA.toList ++ material.keyShareB.toList ++ material.publicKey.toList

variable [Crypto]

/-- The bytes `save` writes. -/
def save (material : RuntimeKeyMaterial) : Bytes := withChecksum material.payload

/-- `load` of a file with this content. -/
def load (content : Bytes) : PackResult RuntimeKeyMaterial := do
  let bytes ← readPrivateFile content runtimeFileSize
  if bytes.length ≠ runtimeFileSize ∨ bytes.take 8 ≠ runtimeMagic then fail (.identity "runtime key magic or length")
  if (← u16At bytes 8) ≠ 1 then fail (.identity "runtime key version")
  if (← u16At bytes 10).toNat ≠ runtimeHeaderSize then fail (.identity "runtime key version")
  if (Crypto.hash (bytes.take runtimeHeaderSize)).toList ≠ bytes.drop runtimeHeaderSize then
    fail (.identity "runtime key checksum")
  return {
    projectId := ⟨← arrayAt 16 bytes 12⟩
    keyShareA := ← arrayAt 32 bytes 28
    keyShareB := ← arrayAt 32 bytes 60
    publicKey := ← arrayAt 32 bytes 92 }

omit [Crypto] in
theorem payload_eq (material : RuntimeKeyMaterial) :
    material.payload = [runtimeMagic, u16Bytes 1, u16Bytes 124, material.projectId.bytes.toList, material.keyShareA.toList,
      material.keyShareB.toList, material.publicKey.toList].flatten := by
  simp [payload, runtimeHeaderSize]

omit [Crypto] in
@[simp] theorem length_payload (material : RuntimeKeyMaterial) : material.payload.length = runtimeHeaderSize := by
  have hmagic : runtimeMagic.length = 8 := rfl
  simp [payload_eq, hmagic, runtimeHeaderSize]

/-- The loader accepts the files `save` writes, and no others. -/
theorem load_eq_ok {content : Bytes} {material : RuntimeKeyMaterial} :
    load content = .ok material ↔ content = material.save := by
  have hmagic : runtimeMagic.length = 8 := rfl
  simp only [load, bind_eq_ok, readPrivateFile_eq_ok, fail_bind, ite_fail_eq_ok, not_or, not_not, u16At_eq_ok, arrayAt_eq_ok,
    pure_eq_ok, Except.ok.injEq]
  constructor
  · rintro ⟨content, ⟨-, rfl⟩, ⟨hlen, hmag⟩, _, hone, rfl, size, hsize, hsize', hsum, id, hid, a, ha, b, hb, key, hkey, rfl⟩
    obtain rfl : size = 124 := UInt16.toNat_inj.1 hsize'
    simp only [runtimeFileSize, runtimeHeaderSize, checksumSize, Nat.reduceAdd] at hlen hsum
    have htake : content.take 124 = slice content 0 124 := rfl
    have hpayload : content.take 124 = payload ⟨⟨id⟩, a, b, key⟩ := by
      rw [payload_eq, eq_flatten_iff, htake]
      have hlen' : (slice content 0 124).length = 124 := length_slice_zero (by omega)
      have hmag' : slice content 0 8 = runtimeMagic := hmag
      simp [Fields, slice_slice, *]
    rw [save, withChecksum, ← hpayload, hsum, List.take_append_drop]
  · rintro rfl
    have hfields := (eq_flatten_iff _ _).1 material.payload_eq
    have hin {o n : Nat} (h : o + n ≤ runtimeHeaderSize) : slice material.save o n = slice material.payload o n :=
      slice_append_left (by simpa using h)
    have hlen : material.save.length = runtimeFileSize := by simp [save, withChecksum, runtimeFileSize, checksumSize]
    have htake : material.save.take runtimeHeaderSize = material.payload := by simp [save, withChecksum]
    have hdrop : material.save.drop runtimeHeaderSize = (Crypto.hash material.payload).toList := by
      simp [save, withChecksum]
    simp only [Fields, hmagic, length_u16Bytes, ByteArr.length_toList, Nat.zero_add, length_payload] at hfields
    obtain ⟨-, hmag, -, hone, -, hsize, -, hid, -, ha, -, hb, -, hkey, -⟩ := hfields
    refine ⟨_, ⟨hlen.le, rfl⟩, ⟨hlen, (hin (by decide)).trans hmag⟩, 1, (hin (by decide)).trans hone, rfl, 124,
      (hin (by decide)).trans hsize, rfl, by rw [htake, hdrop], _, (hin (by decide)).trans hid, _,
      (hin (by decide)).trans ha, _, (hin (by decide)).trans hb, _, (hin (by decide)).trans hkey, rfl⟩

end RuntimeKeyMaterial

/-! ### Publisher identities -/

/-- A publisher identity. Its public key is the one of its signing key. -/
structure PublisherIdentity [Ed25519] where
  projectId : ProjectId
  rootKey : ByteArr 32
  publicKey : ByteArr 32
  signingPkcs8 : Bytes
  /-- The file it was loaded from. -/
  sourcePath : Option String
  publicKeyOf_eq : Ed25519.publicKeyOf signingPkcs8 = some publicKey

namespace PublisherIdentity
variable [Ed25519]

/-- The part of the file in front of the checksum. -/
def payload (identity : PublisherIdentity) : Bytes :=
  identityMagic ++ u16Bytes 1 ++ u16Bytes (UInt16.ofNat identityHeaderSize) ++ identity.projectId.bytes.toList ++
    identity.rootKey.toList ++ identity.publicKey.toList ++ u32Bytes (UInt32.ofNat identity.signingPkcs8.length) ++
    identity.signingPkcs8

/-- `runtime_key_material` with the first share drawn. -/
def runtimeKeyMaterial (identity : PublisherIdentity) (keyShareA : ByteArr 32) : RuntimeKeyMaterial where
  projectId := identity.projectId
  keyShareA := keyShareA
  keyShareB := xorKeys identity.rootKey keyShareA
  publicKey := identity.publicKey

variable [Crypto]

/-- The bytes `save` writes. -/
def save (identity : PublisherIdentity) : PackResult Bytes :=
  if identity.signingPkcs8.length < u32Size then .ok (withChecksum identity.payload)
  else fail (.identity "private key length")

variable [Target]

def identityPayloadLen (pkcs8Len : Nat) : PackResult Nat :=
  okOr (checkedAdd usizeSize identityHeaderSize pkcs8Len) (.identity "length overflow")

/-- The end of `load`: the pair of the private key, which is to have the public key of the file. -/
def ofPkcs8 (sourcePath : String) (bytes signingPkcs8 : Bytes) : PackResult PublisherIdentity :=
  match h : Ed25519.publicKeyOf signingPkcs8 with
  | none => fail (.identity "Ed25519 private key")
  | some pairKey => do
    let publicKey ← arrayAt 32 bytes 60
    if hkey : pairKey = publicKey then
      return {
        projectId := ⟨← arrayAt 16 bytes 12⟩
        rootKey := ← arrayAt 32 bytes 28
        publicKey, signingPkcs8
        sourcePath := some sourcePath
        publicKeyOf_eq := h.trans (congrArg some hkey) }
    else fail (.identity "public/private key mismatch")

/-- `load` of the file at a canonical path with this content. -/
def load (sourcePath : String) (content : Bytes) : PackResult PublisherIdentity := do
  let bytes ← readPrivateFile content identityFileLimit
  if bytes.length < identityHeaderSize + checksumSize ∨ bytes.take 8 ≠ identityMagic then
    fail (.identity "magic or length")
  if (← u16At bytes 8) ≠ 1 then fail (.identity "version")
  if (← u16At bytes 10).toNat ≠ identityHeaderSize then fail (.identity "version")
  let pkcs8Len ← u32At bytes 92
  let payloadLen ← identityPayloadLen pkcs8Len.toNat
  if checkedAdd usizeSize payloadLen checksumSize ≠ some bytes.length then fail (.identity "length")
  if (Crypto.hash (bytes.take payloadLen)).toList ≠ bytes.drop payloadLen then fail (.identity "checksum")
  ofPkcs8 sourcePath bytes (slice bytes identityHeaderSize (payloadLen - identityHeaderSize))

/-! #### What `load` accepts -/

section
variable {identity : PublisherIdentity} {sourcePath : String} {bytes content pkcs8 : Bytes}

omit [Crypto] [Target] in
theorem ofPkcs8_eq_ok : ofPkcs8 sourcePath bytes pkcs8 = .ok identity ↔
    identity.sourcePath = some sourcePath ∧ identity.signingPkcs8 = pkcs8 ∧
      slice bytes 12 16 = identity.projectId.bytes.toList ∧ slice bytes 28 32 = identity.rootKey.toList ∧
      slice bytes 60 32 = identity.publicKey.toList := by
  unfold ofPkcs8
  split
  · rename_i hnone
    simp only [fail_ne_ok, false_iff, not_and]
    rintro - rfl
    rw [identity.publicKeyOf_eq] at hnone
    cases hnone
  · rename_i pairKey hpair
    simp only [bind_eq_ok, arrayAt_eq_ok]
    constructor
    · rintro ⟨publicKey, hkey, h⟩
      split at h
      · simp only [bind_eq_ok, arrayAt_eq_ok, pure_eq_ok, Except.ok.injEq] at h
        obtain ⟨id, hid, root, hroot, rfl⟩ := h
        exact ⟨rfl, rfl, hid, hroot, hkey⟩
      · exact absurd h fail_ne_ok
    · rcases identity with ⟨⟨id⟩, root, publicKey, signing, path, hpublic⟩
      rintro ⟨rfl, rfl, hid, hroot, hkey⟩
      obtain rfl : pairKey = publicKey := Option.some.inj (hpair.symm.trans hpublic)
      refine ⟨pairKey, hkey, ?_⟩
      rw [dif_pos rfl]
      simp only [bind_eq_ok, arrayAt_eq_ok, pure_eq_ok, Except.ok.injEq]
      exact ⟨id, hid, root, hroot, rfl⟩

omit [Crypto] [Target] in
theorem payload_eq (identity : PublisherIdentity) :
    identity.payload = [identityMagic, u16Bytes 1, u16Bytes 96, identity.projectId.bytes.toList, identity.rootKey.toList,
      identity.publicKey.toList, u32Bytes (UInt32.ofNat identity.signingPkcs8.length), identity.signingPkcs8].flatten := by
  simp [payload, identityHeaderSize]

omit [Crypto] [Target] in
@[simp] theorem length_payload (identity : PublisherIdentity) :
    identity.payload.length = identityHeaderSize + identity.signingPkcs8.length := by
  have hmagic : identityMagic.length = 8 := rfl
  simp [payload_eq, hmagic, identityHeaderSize]
  omega

omit [Target] in
theorem save_eq_ok : identity.save = .ok content ↔
    identity.signingPkcs8.length < u32Size ∧ withChecksum identity.payload = content := by
  simp [save]

/-- The loader accepts the files `save` writes for keys of at most 4096 bytes, and no others. -/
theorem load_eq_ok : load sourcePath content = .ok identity ↔
    identity.sourcePath = some sourcePath ∧ identity.signingPkcs8.length ≤ 4096 ∧ identity.save = .ok content := by
  have hmagic : identityMagic.length = 8 := rfl
  have hu := le_usizeSize
  simp only [load, bind_eq_ok, readPrivateFile_eq_ok, fail_bind, ite_fail_eq_ok, not_or, not_not, u16At_eq_ok, u32At_eq_ok,
    identityPayloadLen, okOr_eq_ok, checkedAdd_eq_some, ofPkcs8_eq_ok, save_eq_ok]
  constructor
  · rintro ⟨content, ⟨hlimit, rfl⟩, ⟨hmin, hmag⟩, _, hone, rfl, size, hsize, hsize', len, hlen, _, ⟨-, rfl⟩, ⟨-, htotal⟩,
      hsum, hpath, hpkcs8, hid, hroot, hkey⟩
    obtain rfl : size = 96 := UInt16.toNat_inj.1 hsize'
    replace hlimit : content.length ≤ 4224 := hlimit
    simp only [identityHeaderSize, checksumSize, Nat.add_sub_cancel_left] at htotal hsum hpkcs8
    have hlen' : identity.signingPkcs8.length = len.toNat := by rw [hpkcs8, length_slice (by omega)]
    have hcount : UInt32.ofNat identity.signingPkcs8.length = len := by rw [hlen', UInt32.ofNat_toNat]
    have hpayload : content.take (96 + len.toNat) = identity.payload := by
      have htake : content.take (96 + len.toNat) = slice content 0 (96 + len.toNat) := rfl
      have htook : (slice content 0 (96 + len.toNat)).length = 96 + len.toNat := length_slice_zero (by omega)
      have hmag' : slice content 0 8 = identityMagic := hmag
      have hin {o n : Nat} (h : o + n ≤ 96 + len.toNat) : slice (slice content 0 (96 + len.toNat)) o n = slice content o n := by
        rw [slice_slice h, Nat.zero_add]
      rw [payload_eq, eq_flatten_iff, htake, hcount]
      simp only [Fields, hmagic, length_u16Bytes, length_u32Bytes, ByteArr.length_toList, Nat.zero_add, Nat.reduceAdd, htook,
        hlen', and_true]
      exact ⟨by omega, (hin (by omega)).trans hmag', by omega, (hin (by omega)).trans hone, by omega,
        (hin (by omega)).trans hsize, by omega, (hin (by omega)).trans hid, by omega, (hin (by omega)).trans hroot, by omega,
        (hin (by omega)).trans hkey, by omega, (hin (by omega)).trans hlen, le_rfl, (hin le_rfl).trans hpkcs8.symm⟩
    refine ⟨hpath, by omega, by rw [hlen']; exact len.toNat_lt, ?_⟩
    rw [withChecksum, ← hpayload, hsum, List.take_append_drop]
  · rintro ⟨hpath, hle, -, rfl⟩
    have hfields := (eq_flatten_iff _ _).1 identity.payload_eq
    have hin {o n : Nat} (h : o + n ≤ identityHeaderSize + identity.signingPkcs8.length) :
        slice (withChecksum identity.payload) o n = slice identity.payload o n :=
      slice_append_left (by simpa using h)
    have hlen : (withChecksum identity.payload).length = identityHeaderSize + identity.signingPkcs8.length + checksumSize := by
      simp [withChecksum, checksumSize]
    have htake : (withChecksum identity.payload).take (identityHeaderSize + identity.signingPkcs8.length) = identity.payload :=
      by simp [withChecksum]
    have hdrop : (withChecksum identity.payload).drop (identityHeaderSize + identity.signingPkcs8.length) =
        (Crypto.hash identity.payload).toList := by simp [withChecksum]
    have hcount : (UInt32.ofNat identity.signingPkcs8.length).toNat = identity.signingPkcs8.length :=
      UInt32.toNat_ofNat_of_lt' (by simp only [UInt32.size]; omega)
    simp only [Fields, hmagic, length_u16Bytes, length_u32Bytes, ByteArr.length_toList, Nat.zero_add, length_payload] at hfields
    obtain ⟨-, hmag, -, hone, -, hsize, -, hid, -, hroot, -, hkey, -, hcnt, -, hpkcs8, -⟩ := hfields
    have hlimit : identityFileLimit = 4224 := rfl
    rw [hlimit]
    simp only [identityHeaderSize, checksumSize] at *
    refine ⟨_, ⟨by omega, rfl⟩, ⟨by omega, (hin (by omega)).trans hmag⟩, 1, (hin (by omega)).trans hone, rfl, 96,
      (hin (by omega)).trans hsize, rfl, _, (hin (by omega)).trans hcnt, _, ⟨?_, rfl⟩, ⟨?_, ?_⟩, ?_, hpath, ?_,
      (hin (by omega)).trans hid, (hin (by omega)).trans hroot, (hin (by omega)).trans hkey⟩
    · omega
    · omega
    · omega
    · rw [hcount, htake, hdrop]
    · rw [hcount, Nat.add_sub_cancel_left, hin (by omega), hpkcs8]

end

end PublisherIdentity

end Hakutaku
