import Hakutaku.PackerSpec

/-!
# What a segment writer does

One statement for each function that touches a segment being written: what it leaves of the system and of the writer
when it succeeds, and what of the histories when it fails. `Idle`: a call that seals nothing and draws nothing.
-/

namespace Hakutaku
open Wire Act

/-! ### Calls of the system -/

/-- A system that has gone on without drawing, deriving or sealing anything. No segment file is lost. -/
structure World.Idle (w w' : World) : Prop where
  drawn : w'.drawn = w.drawn
  derived : w'.derived = w.derived
  seals : w'.seals = w.seals
  data : ∀ id content, w.data.lookup id = some content → w'.data.lookup id = some content

theorem World.Idle.refl (w : World) : w.Idle w := ⟨rfl, rfl, rfl, fun _ _ h => h⟩

theorem World.Idle.trans {w w' w'' : World} (h : w.Idle w') (h' : w'.Idle w'') : w.Idle w'' :=
  ⟨h'.drawn.trans h.drawn, h'.derived.trans h.derived, h'.seals.trans h.seals,
    fun id content hc => h'.data id content (h.data id content hc)⟩

/-- Only the system differs, and it was idle. -/
def Idle (s t : BuildContext) : Prop := ∃ world, t = { s with world := world } ∧ s.world.Idle world

instance : Std.Refl Idle := ⟨fun s => ⟨_, rfl, .refl s.world⟩⟩

instance : IsTrans BuildContext Idle := by
  refine ⟨?_⟩
  rintro _ _ _ ⟨_, rfl, h⟩ ⟨world, rfl, h'⟩
  exact ⟨world, rfl, h.trans h'⟩

theorem Idle.world {s t : BuildContext} (h : Idle s t) : s.world.Idle t.world := by
  obtain ⟨_, rfl, h⟩ := h
  exact h

theorem Idle.syscall : Always Idle syscall := by
  refine .get_bind fun s => ?_
  split
  · exact .pure _
  · refine .bind (.update fun s => ⟨_, rfl, rfl, rfl, rfl, fun _ _ h => h⟩) fun _ => ?_
    split
    · exact .pure _
    · exact .throw _

theorem Idle.randomArray (n : Nat) : Always Idle (randomArray n) := by
  refine .get_bind fun s => ?_
  split
  · exact .bind (.update fun s => ⟨_, rfl, rfl, rfl, rfl, fun _ _ h => h⟩) fun _ => .pure _
  · exact .throw _

theorem Idle.validateOpenFile (source : SourceFile) (state : Option SourceStamp) :
    Always Idle (source.validateOpenFile state) :=
  .bind Idle.syscall fun _ => .ite (fun _ => .throw _) fun _ => .pure _

theorem Idle.openVerified (source : SourceFile) : Always Idle source.openVerified :=
  .bind Idle.syscall fun _ => .get_bind fun _ => .bind (Idle.validateOpenFile _ _) fun _ => .bind Idle.syscall fun _ =>
    .bind Idle.syscall fun _ => .ite (fun _ => .bind (.throw _) fun _ => .pure _) fun _ => .pure _

/-- One more call of the system behind those since `s`. -/
theorem wp_idle_bind {α β : Type} {p : BuildM α} {g : α → BuildM β} {Q : β → BuildContext → Prop}
    {E : Stop PackError → BuildContext → Prop} {s t : BuildContext} (h : Idle s t) (hp : Always Idle p)
    (hE : ∀ e u, Idle s u → E e u) (hg : ∀ a u, Idle s u → wp (g a) Q E u) : wp (p >>= g) Q E t :=
  wp_bind.2 ((hp t).mono (fun a u hu => hg a u (IsTrans.trans _ _ _ h hu)) fun e u hu => hE e u (IsTrans.trans _ _ _ h hu))

/-! ### The identity of a segment -/

def segmentInput (identity : ByteArr 16 × ByteArr 16) : Bytes :=
  ProjectKeys.deriveInput (ascii "segment".toList) [identity.1.toList, identity.2.toList]

/-- An identity was drawn, and the system was idle besides. -/
structure World.Drew (w w' : World) (identity : ByteArr 16 × ByteArr 16) : Prop where
  drawn : w'.drawn = w.drawn ++ [identity]
  derived : w'.derived = w.derived
  seals : w'.seals = w.seals

section
variable [Crypto]

/-- The keys of the project a build is for. -/
def Job.keys (job : Job) : ProjectKeys := ProjectKeys.new job.identity.rootKey job.identity.projectId

/-- A new writer, and the system behind it. -/
structure Created (job : Job) (availability : Availability) (w w' : World) (writer : NewSegment) : Prop where
  drawn : w'.drawn = w.drawn ++ [(writer.uid, writer.salt)]
  derived : w'.derived = w.derived ++ [segmentInput (writer.uid, writer.salt)]
  seals : w'.seals = w.seals
  data : ∀ id content, w.data.lookup id = some content → w'.data.lookup id = some content
  project : writer.projectId = job.identity.projectId
  key : writer.key = Crypto.keyedHash job.keys.master (segmentInput (writer.uid, writer.salt))
  availability_eq : writer.availability = availability
  empty : writer.blockCount = 0 ∧ writer.payloadLen = 0 ∧ writer.file = zeros segmentHeaderSize

theorem create_spec (job : Job) (availability : Availability) (s : BuildContext) :
    wp (NewSegment.create job.dataDirectory job.identity.projectId job.keys availability)
      (fun writer t => ∃ world, t = { s with world := world } ∧ Created job availability s.world world writer)
      (fun _ t => s.world.Idle t.world ∨ ∃ identity, s.world.Drew t.world identity) s := by
  unfold NewSegment.create
  refine wp_bind.2 ((Idle.randomArray 16 s).mono (fun uid s₁ h₁ => ?_) fun _ t ht => .inl ht.world)
  refine wp_bind.2 ((Idle.randomArray 16 s₁).mono (fun salt s₂ h₂ => ?_) fun _ t ht => .inl (h₁.world.trans ht.world))
  have h₂ := IsTrans.trans _ _ _ h₁ h₂
  refine wp_bind.2 ((Idle.randomArray 8 s₂).mono (fun noncePrefix s₃ h₃ => ?_) fun _ t ht => .inl (h₂.world.trans ht.world))
  obtain ⟨world, rfl, hworld⟩ := IsTrans.trans _ _ _ h₂ h₃
  have hdrew (w : World) (hw : World.Idle { world with drawn := world.drawn ++ [(uid, salt)] } w) :
      s.world.Drew w (uid, salt) :=
    ⟨hw.drawn.trans (congrArg (· ++ [(uid, salt)]) hworld.drawn), hw.derived.trans hworld.derived, hw.seals.trans hworld.seals⟩
  rw [wp_bind, wp_modify]
  refine wp_bind.2 ((Idle.syscall _).mono (fun _ s₄ h₄ => ?_) fun _ t ht => .inr ⟨_, hdrew _ ht.world⟩)
  refine wp_bind.2 ((Idle.syscall _).mono (fun _ s₅ h₅ => ?_) fun _ t ht => .inr ⟨_, hdrew _ (h₄.world.trans ht.world)⟩)
  obtain ⟨world', rfl, hworld'⟩ := IsTrans.trans _ _ _ h₄ h₅
  obtain ⟨hdrawn, hderived, hseals⟩ := hdrew _ hworld'
  refine ⟨_, rfl, hdrawn, ?_, hseals, fun id content hc => hworld'.data _ _ (hworld.data _ _ hc), rfl, rfl, rfl, rfl, rfl, rfl⟩
  show world'.derived ++ [_] = _
  rw [hderived]
  rfl

/-! ### A block -/

/-- One more call of the AEAD is in the history. -/
structure World.Sealed (w w' : World) (entry : Seal) : Prop where
  drawn : w'.drawn = w.drawn
  derived : w'.derived = w.derived
  seals : w'.seals = w.seals ++ [entry]
  data : ∀ id content, w.data.lookup id = some content → w'.data.lookup id = some content

omit [Crypto] in
theorem World.Sealed.idle {w w' w'' : World} {entry : Seal} (h : w.Sealed w' entry) (h' : w'.Idle w'') :
    w.Sealed w'' entry :=
  ⟨h'.drawn.trans h.drawn, h'.derived.trans h.derived, h'.seals.trans h.seals,
    fun id content hc => h'.data id content (h.data id content hc)⟩

/-- The seal of the next block of a writer. -/
def NewSegment.nextSeal (writer : NewSegment) : Seal := ⟨writer.key, nonce writer.noncePrefix writer.blockCount⟩

/-- A block and the writer behind it. -/
structure Wrote (writer : NewSegment) (logicalOffset : UInt64) (plainLen : Nat) (codec : Codec)
    (encoded encrypted : Bytes) (reference : BlockRef) (writer' : NewSegment) : Prop where
  plain : plainLen < u32Size
  stored : encoded.length + 16 < u32Size
  sealed : Crypto.aeadSeal writer.key (nonce writer.noncePrefix writer.blockCount)
    (blockAad writer.projectId writer.uid writer.blockCount codec (UInt32.ofNat (encoded.length + 16))
      (UInt32.ofNat plainLen)) encoded = some encrypted
  offset : segmentHeaderSize + writer.payloadLen.toNat < u64Size
  payload : writer.payloadLen.toNat + encrypted.length < u64Size
  count : writer.blockCount.toNat + 1 < u32Size
  reference_eq : reference = {
    logicalOffset, segmentOrdinal := 0, segmentBlockOrdinal := writer.blockCount
    physicalOffset := UInt64.ofNat (segmentHeaderSize + writer.payloadLen.toNat)
    storedLen := UInt32.ofNat (encoded.length + 16), plainLen := UInt32.ofNat plainLen, codec
    cipherDigest := (Crypto.hash encrypted).prefixOf 16 (by decide) }
  writer_eq : writer' = { writer with
    payloadLen := UInt64.ofNat (writer.payloadLen.toNat + encrypted.length)
    blockCount := UInt32.ofNat (writer.blockCount.toNat + 1)
    file := writer.file ++ encrypted }

theorem sealBytes_spec (key : ByteArr 32) (nonce : ByteArr 12) (aad plaintext : Bytes) (s : BuildContext) :
    wp (sealBytes key nonce aad plaintext)
      (fun encrypted t => Crypto.aeadSeal key nonce aad plaintext = some encrypted ∧
        ∃ world, t = { s with world := world } ∧ s.world.Sealed world ⟨key, nonce⟩)
      (fun _ t => s.world.Sealed t.world ⟨key, nonce⟩) s := by
  unfold sealBytes
  rw [wp_bind, wp_modify]
  split
  · exact ⟨‹_›, _, rfl, rfl, rfl, rfl, fun _ _ h => h⟩
  · exact ⟨rfl, rfl, rfl, fun _ _ h => h⟩

/-- A block is sealed once, under the ordinal its reference carries. -/
theorem writeBlock_spec (writer : NewSegment) (logicalOffset : UInt64) (plainLen : Nat) (codec : Codec) (encoded : Bytes)
    (s : BuildContext) :
    wp (writer.writeBlock logicalOffset plainLen codec encoded)
      (fun x t => ∃ world encrypted, t = { s with world := world } ∧ s.world.Sealed world writer.nextSeal ∧
        Wrote writer logicalOffset plainLen codec encoded encrypted x.1 x.2)
      (fun _ t => s.world.Idle t.world ∨ s.world.Sealed t.world writer.nextSeal) s := by
  unfold NewSegment.writeBlock
  refine wp_bind.2 ((wp_lift _).2 ⟨fun _ hplain => ?_, fun _ _ => .inl (.refl _)⟩)
  obtain ⟨hplain', rfl⟩ := BuildContext.tryU32_eq_ok.1 hplain
  refine wp_bind.2 ((wp_lift _).2 ⟨fun _ hstored => ?_, fun _ _ => .inl (.refl _)⟩)
  obtain ⟨hstored', rfl⟩ := BuildContext.tryU32_eq_ok.1 hstored
  refine wp_bind.2 ((sealBytes_spec _ _ _ _ s).mono ?_ fun _ _ ht => .inr ht)
  rintro encrypted _ ⟨hseal, w₁, rfl, h₁⟩
  refine wp_bind.2 ((wp_lift _).2 ⟨fun _ hoffset => ?_, fun _ _ => .inr h₁⟩)
  obtain ⟨hoffset', rfl⟩ := tryU64_eq_ok.1 hoffset
  refine wp_bind.2 ((Idle.syscall _).mono ?_ fun _ _ ht => .inr (h₁.idle ht.world))
  rintro _ _ ⟨w₂, rfl, h₂⟩
  have h₂ := h₁.idle h₂
  refine wp_bind.2 ((wp_lift _).2 ⟨fun _ hpayload => ?_, fun _ _ => .inr h₂⟩)
  obtain ⟨hpayload', rfl⟩ := tryU64_eq_ok.1 hpayload
  refine wp_bind.2 ((wp_lift _).2 ⟨fun _ hcount => ?_, fun _ _ => .inr h₂⟩)
  obtain ⟨hcount', rfl⟩ := BuildContext.tryU32_eq_ok.1 hcount
  exact ⟨w₂, encrypted, rfl, h₂, hplain', hstored', hseal, hoffset', hpayload', hcount', rfl, rfl⟩

/-! ### The end of a segment -/

/-- The header of the file a writer makes. -/
def NewSegment.header (writer : NewSegment) : SegmentHeader where
  projectId := writer.projectId
  segmentUid := writer.uid
  salt := writer.salt
  noncePrefix := writer.noncePrefix
  blockCount := writer.blockCount
  payloadLen := writer.payloadLen
  fileLen := UInt64.ofNat (segmentHeaderSize + writer.payloadLen.toNat)

/-- The file a writer makes. -/
def NewSegment.content (writer : NewSegment) : Bytes := putAt writer.file 0 writer.header.encode

/-- The record of a finished segment. -/
def NewSegment.record (writer : NewSegment) : SegmentRecord where
  id := contentId writer.content
  uid := writer.uid
  salt := writer.salt
  noncePrefix := writer.noncePrefix
  fileLen := UInt64.ofNat (segmentHeaderSize + writer.payloadLen.toNat)
  payloadLen := writer.payloadLen
  blockCount := writer.blockCount
  availability := writer.availability

/-- The system holds a file under a segment id, and the file has this id. -/
def World.Stored (w : World) (id : SegmentId) : Prop :=
  ∃ content, w.data.lookup id = some content ∧ contentId content = id

theorem World.Stored.idle {w w' : World} {id : SegmentId} (h : w.Stored id) (hw : w.Idle w') : w'.Stored id := by
  obtain ⟨content, hlookup, hid⟩ := h
  exact ⟨content, hw.data _ _ hlookup, hid⟩

/-- A finished segment: its record, and a file of its id. -/
theorem finish_spec (writer : NewSegment) (s : BuildContext) :
    wp writer.finish
      (fun x t => segmentHeaderSize + writer.payloadLen.toNat < u64Size ∧ x = (writer.record, writer.record.fileLen) ∧
        ∃ world, t = { s with world := world } ∧ s.world.Idle world ∧ world.Stored writer.record.id)
      (fun _ t => s.world.Idle t.world) s := by
  unfold NewSegment.finish
  refine wp_bind.2 ((wp_lift _).2 ⟨fun _ hlen => ?_, fun _ _ => .refl _⟩)
  obtain ⟨hlen', rfl⟩ := tryU64_eq_ok.1 hlen
  have hstop : ∀ (_ : Stop PackError) u, Idle s u → s.world.Idle u.world := fun _ _ hu => hu.world
  refine wp_idle_bind (Std.Refl.refl s) Idle.syscall hstop fun _ s₁ h₁ => ?_
  refine wp_idle_bind h₁ Idle.syscall hstop fun _ s₂ h₂ => ?_
  refine wp_idle_bind h₂ Idle.syscall hstop fun _ s₃ h₃ => ?_
  refine wp_idle_bind h₃ Idle.syscall hstop fun _ s₄ h₄ => ?_
  refine wp_idle_bind h₄ Idle.syscall hstop fun _ s₅ h₅ => ?_
  refine wp_idle_bind h₅ Idle.syscall hstop fun _ s₆ h₆ => ?_
  obtain ⟨w, rfl, hw⟩ := h₆
  rw [wp_bind, wp_get]
  split
  · rename_i existing hexisting
    refine wp_bind.2 ((Idle.syscall _).mono ?_ fun e u hu => hstop e u (IsTrans.trans _ _ _ ⟨w, rfl, hw⟩ hu))
    rintro _ _ ⟨w₇, rfl, h₇⟩
    have h₇' := hw.trans h₇
    split
    · exact h₇'
    · rename_i hid
      refine wp_bind.2 (wp_bind.2 ((Idle.syscall _).mono ?_ fun e u hu => hstop e u (IsTrans.trans _ _ _ ⟨w₇, rfl, h₇'⟩ hu)))
      rintro _ _ ⟨w₈, rfl, h₈⟩
      exact ⟨hlen', rfl, w₈, rfl, h₇'.trans h₈, existing, h₈.data _ _ (h₇.data _ _ hexisting), not_not.1 hid⟩
  · rename_i hnone
    refine wp_bind.2 ((Idle.syscall _).mono ?_ fun e u hu => hstop e u (IsTrans.trans _ _ _ ⟨w, rfl, hw⟩ hu))
    rintro _ _ ⟨w₇, rfl, h₇⟩
    have h₇' := hw.trans h₇
    refine ⟨hlen', rfl, _, rfl, ⟨h₇'.drawn, h₇'.derived, h₇'.seals, fun id content hc => ?_⟩, writer.content, ?_, rfl⟩
    · -- The new name is not one the system had.
      have hne : id ≠ writer.record.id := by
        rintro rfl
        exact absurd ((hw.data _ _ hc).symm.trans hnone) nofun
      exact (AList.lookup_insert_ne hne).trans (h₇'.data _ _ hc)
    · exact AList.lookup_insert _

end

end Hakutaku
