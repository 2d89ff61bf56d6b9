import Hakutaku.PackingSteps
import Hakutaku.Snapshot

/-!
# The history of the seals

Each segment a build starts seals its blocks under ordinals 0, 1, 2, … and no other way. `Tracks`: how many
blocks of each segment are sealed, and where the segments still open stand. `Keeps`: every function of the
packing loop keeps that, and where it fails, what was sealed until then still fits a history.
-/

namespace Hakutaku
open Wire Act

/-! ### Derivation inputs -/

def snapshotInput (salt : ByteArr 16) : Bytes := ProjectKeys.deriveInput (ascii "snapshot".toList) [salt.toList]

def pathInput : Bytes := ProjectKeys.deriveInput (ascii "path".toList) []

theorem deriveInput_two (domain : Bytes) (a b : ByteArr 16) :
    ProjectKeys.deriveInput domain [a.toList, b.toList] =
      domain ++ (u64Bytes 16 ++ a.toList ++ (u64Bytes 16 ++ b.toList)) := by
  simp only [ProjectKeys.deriveInput, List.flatMap_cons, List.flatMap_nil, ByteArr.length_toList, List.append_nil]
  rfl

theorem length_segmentInput (identity : ByteArr 16 × ByteArr 16) : (segmentInput identity).length = 55 := by
  rw [segmentInput, deriveInput_two]
  simp only [List.length_append, length_u64Bytes, ByteArr.length_toList]
  rfl

theorem length_snapshotInput (salt : ByteArr 16) : (snapshotInput salt).length = 32 := by
  simp only [snapshotInput, ProjectKeys.deriveInput, List.flatMap_cons, List.flatMap_nil, List.length_append,
    length_u64Bytes, ByteArr.length_toList, List.length_nil]
  rfl

theorem length_pathInput : pathInput.length = 4 := rfl

/-- The fields of a segment key's input are read back from it. -/
theorem segmentInput_injective : Function.Injective segmentInput := by
  rintro ⟨uid, salt⟩ ⟨uid', salt'⟩ h
  rw [segmentInput, segmentInput, deriveInput_two, deriveInput_two] at h
  have h := List.append_cancel_left h
  obtain ⟨huid, hsalt⟩ := List.append_inj h (by simp only [List.length_append, ByteArr.length_toList])
  have huid := ByteArr.ext (List.append_cancel_left huid)
  have hsalt := ByteArr.ext (List.append_cancel_left hsalt)
  exact Prod.ext huid hsalt

theorem segmentInput_ne_snapshotInput (identity : ByteArr 16 × ByteArr 16) (salt : ByteArr 16) :
    segmentInput identity ≠ snapshotInput salt := by
  intro h
  have hlen := congrArg List.length h
  rw [length_segmentInput, length_snapshotInput] at hlen
  cases hlen

theorem segmentInput_ne_pathInput (identity : ByteArr 16 × ByteArr 16) : segmentInput identity ≠ pathInput := by
  intro h
  have hlen := congrArg List.length h
  rw [length_segmentInput, length_pathInput] at hlen
  cases hlen

theorem snapshotInput_ne_pathInput (salt : ByteArr 16) : snapshotInput salt ≠ pathInput := by
  intro h
  have hlen := congrArg List.length h
  rw [length_snapshotInput, length_pathInput] at hlen
  cases hlen

/-! ### Histories -/

/-- A segment by its identity and the number of blocks sealed for it. -/
structure SegmentHistory where
  uid : ByteArr 16
  salt : ByteArr 16
  noncePrefix : ByteArr 8
  sealed : Nat

def SegmentHistory.identity (h : SegmentHistory) : ByteArr 16 × ByteArr 16 := (h.uid, h.salt)

def SegmentHistory.input (h : SegmentHistory) : Bytes := segmentInput h.identity

def SegmentHistory.next (h : SegmentHistory) : SegmentHistory := { h with sealed := h.sealed + 1 }

def NewSegment.history (w : NewSegment) : SegmentHistory := ⟨w.uid, w.salt, w.noncePrefix, w.blockCount.toNat⟩

section
variable [Crypto] {keys : ProjectKeys} {w w' : World} {hist : List SegmentHistory} {h : SegmentHistory} {i : Nat}

/-- The seal of a segment's block. -/
def SegmentHistory.seal (keys : ProjectKeys) (h : SegmentHistory) (ordinal : Nat) : Seal :=
  ⟨Crypto.keyedHash keys.master h.input, nonce h.noncePrefix (UInt32.ofNat ordinal)⟩

/-- The seals of a segment: its ordinals from 0 on. -/
def SegmentHistory.seals (keys : ProjectKeys) (h : SegmentHistory) : List Seal := (List.range h.sealed).map (h.seal keys)

theorem SegmentHistory.seals_next : h.next.seals keys = h.seals keys ++ [h.seal keys h.sealed] := by
  show (List.range (h.sealed + 1)).map _ = _
  rw [List.range_succ, List.map_append]
  rfl

/-- The seals of a build are those of its segments, each in order. -/
structure History (keys : ProjectKeys) (w : World) (hist : List SegmentHistory) : Prop where
  drawn : hist.map SegmentHistory.identity = w.drawn
  derived : w.derived.Sublist (hist.map SegmentHistory.input)
  sealed : ∀ h ∈ hist, h.sealed ≤ u32Size ∧ (0 < h.sealed → h.input ∈ w.derived)
  seals : w.seals.Perm (hist.flatMap (SegmentHistory.seals keys))
  ordered : ∀ h ∈ hist, (h.seals keys).Sublist w.seals

theorem History.congr (hw : History keys w hist) (hdrawn : w'.drawn = w.drawn) (hderived : w'.derived = w.derived)
    (hseals : w'.seals = w.seals) : History keys w' hist := by
  refine ⟨?_, ?_, ?_, ?_, ?_⟩
  · rw [hdrawn]; exact hw.drawn
  · rw [hderived]; exact hw.derived
  · rw [hderived]; exact hw.sealed
  · rw [hseals]; exact hw.seals
  · rw [hseals]; exact hw.ordered

/-- One more identity is drawn, and its key not yet derived. -/
theorem History.draw (hw : History keys w hist) {uid salt : ByteArr 16} (noncePrefix : ByteArr 8)
    (hdrawn : w'.drawn = w.drawn ++ [(uid, salt)]) (hderived : w'.derived = w.derived) (hseals : w'.seals = w.seals) :
    History keys w' (hist ++ [⟨uid, salt, noncePrefix, 0⟩]) := by
  refine ⟨?_, ?_, ?_, ?_, ?_⟩
  · rw [hdrawn, List.map_append, hw.drawn]
    rfl
  · rw [hderived, List.map_append]
    exact hw.derived.trans (List.sublist_append_left _ _)
  · intro h hmem
    rw [hderived]
    rcases List.mem_append.1 hmem with hmem | hmem
    · exact hw.sealed h hmem
    · obtain rfl := List.mem_singleton.1 hmem
      exact ⟨Nat.zero_le _, fun hpos => absurd hpos (lt_irrefl 0)⟩
  · rw [hseals, List.flatMap_append, List.flatMap_singleton]
    exact hw.seals.trans (List.append_nil _ ▸ List.Perm.refl _)
  · intro h hmem
    rw [hseals]
    rcases List.mem_append.1 hmem with hmem | hmem
    · exact hw.ordered h hmem
    · obtain rfl := List.mem_singleton.1 hmem
      exact List.nil_sublist _

/-- The key of the last identity drawn is derived. -/
theorem History.derive {identity : SegmentHistory} (hw : History keys w (hist ++ [identity]))
    (hbefore : w.derived.Sublist (hist.map SegmentHistory.input)) (hdrawn : w'.drawn = w.drawn)
    (hderived : w'.derived = w.derived ++ [identity.input]) (hseals : w'.seals = w.seals) :
    History keys w' (hist ++ [identity]) := by
  refine ⟨?_, ?_, ?_, ?_, ?_⟩
  · rw [hdrawn]; exact hw.drawn
  · rw [hderived, List.map_append]
    exact hbefore.append (List.Sublist.refl _)
  · intro h hmem
    rw [hderived]
    exact ⟨(hw.sealed h hmem).1, fun hpos => List.mem_append_left _ ((hw.sealed h hmem).2 hpos)⟩
  · rw [hseals]; exact hw.seals
  · rw [hseals]; exact hw.ordered

/-- One more block of a segment is sealed. -/
theorem History.seal (hw : History keys w hist) (hi : hist[i]? = some h) (hlt : h.sealed < u32Size)
    (hinput : h.input ∈ w.derived) (hdrawn : w'.drawn = w.drawn) (hderived : w'.derived = w.derived)
    (hseals : w'.seals = w.seals ++ [h.seal keys h.sealed]) : History keys w' (hist.set i h.next) := by
  obtain ⟨hlen, hget⟩ := List.getElem?_eq_some_iff.1 hi
  have hsplit : hist = hist.take i ++ h :: hist.drop (i + 1) := by
    rw [← hget, List.getElem_cons_drop, List.take_append_drop]
  have hset : hist.set i h.next = hist.take i ++ h.next :: hist.drop (i + 1) := by
    rw [List.set_eq_take_append_cons_drop, if_pos hlen]
  have hmap : ∀ {β : Type} (f : SegmentHistory → β), f h.next = f h → (hist.set i h.next).map f = hist.map f := by
    intro β f hf
    rw [hset, List.map_append, List.map_cons, hf, ← List.map_cons, ← List.map_append, ← hsplit]
  refine ⟨?_, ?_, ?_, ?_, ?_⟩
  · rw [hmap _ rfl, hdrawn]
    exact hw.drawn
  · rw [hmap _ rfl, hderived]
    exact hw.derived
  · intro k hk
    rw [hderived]
    rcases List.mem_or_eq_of_mem_set hk with hk | rfl
    · exact hw.sealed k hk
    · exact ⟨hlt, fun _ => hinput⟩
  · rw [hseals, hset, List.flatMap_append, List.flatMap_cons, SegmentHistory.seals_next]
    refine (hw.seals.append_right _).trans ?_
    conv_lhs => rw [hsplit]
    rw [List.flatMap_append, List.flatMap_cons, List.append_assoc, List.append_assoc, List.append_assoc]
    exact (List.perm_append_comm.append_left _).append_left _
  · intro k hk
    rw [hseals]
    rcases List.mem_or_eq_of_mem_set hk with hk | rfl
    · exact (hw.ordered k hk).trans (List.sublist_append_left _ _)
    · rw [SegmentHistory.seals_next]
      exact (hw.ordered h (List.mem_of_getElem? hi)).append (List.Sublist.refl _)

/-- A block of the build is one of those sealed for its segment. -/
def Written (hist : List SegmentHistory) (pending : PendingBlock) : Prop :=
  ∀ i, pending.locator = .new i → ∃ h : SegmentHistory, hist[i]? = some h ∧ pending.reference.segmentBlockOrdinal.toNat < h.sealed

/-- Every ordinal sealed for a segment is that of a block. -/
def Returned (hist : List SegmentHistory) (blocks : List PendingBlock) : Prop :=
  ∀ i (h : SegmentHistory), hist[i]? = some h → ∀ ordinal < h.sealed,
    ∃ pending ∈ blocks, pending.locator = .new i ∧ pending.reference.segmentBlockOrdinal.toNat = ordinal

omit [Crypto] in
theorem Returned.append {blocks : List PendingBlock} (h : Returned hist blocks) (more : List PendingBlock) :
    Returned hist (blocks ++ more) := by
  intro i h' hi ordinal hlt
  obtain ⟨pending, hp, hrest⟩ := h i h' hi ordinal hlt
  exact ⟨pending, List.mem_append_left _ hp, hrest⟩

/-- Where a build stands in its history. -/
structure Tracks (keys : ProjectKeys) (s : BuildContext) (hist : List SegmentHistory) : Prop extends Slots s where
  history : History keys s.world hist
  records : hist.length = s.newSegmentRecords.length
  finished : ∀ (i : Nat) (record : SegmentRecord), s.newSegmentRecords[i]? = some (some record) →
    ∃ h : SegmentHistory, hist[i]? = some h ∧ record.uid = h.uid ∧ record.salt = h.salt ∧ record.noncePrefix = h.noncePrefix ∧ record.blockCount.toNat = h.sealed
  active : ∀ a ∈ s.activeSegments, hist[a.index]? = some a.writer.history ∧
    a.writer.key = Crypto.keyedHash keys.master a.writer.history.input ∧ a.writer.history.input ∈ s.world.derived
  blocks : ∀ pending ∈ s.pendingBlocks, Written hist pending
  returned : Returned hist s.pendingBlocks
  current : ∀ key pending, s.currentReuse.lookup key = some pending → Written hist pending

variable {s t : BuildContext}

theorem NewSegment.nextSeal_eq {writer : NewSegment}
    (hkey : writer.key = Crypto.keyedHash keys.master writer.history.input) :
    writer.nextSeal = writer.history.seal keys writer.history.sealed := by
  unfold nextSeal SegmentHistory.seal
  rw [hkey]
  show (⟨_, nonce writer.noncePrefix writer.blockCount⟩ : Seal) =
    ⟨_, nonce writer.noncePrefix (UInt32.ofNat writer.blockCount.toNat)⟩
  rw [UInt32.ofNat_toNat]

omit [Crypto] in
theorem Written.append {pending : PendingBlock} (hp : Written hist pending) (h : SegmentHistory) :
    Written (hist ++ [h]) pending := by
  intro i hi
  obtain ⟨k, hk, hlt⟩ := hp i hi
  exact ⟨k, by rw [List.getElem?_append_left (List.getElem?_eq_some_iff.1 hk).1, hk], hlt⟩

omit [Crypto] in
theorem Written.next {pending : PendingBlock} (hp : Written hist pending) (hi : hist[i]? = some h) :
    Written (hist.set i h.next) pending := by
  intro j hj
  obtain ⟨k, hk, hlt⟩ := hp j hj
  rcases eq_or_ne i j with rfl | hne
  · rw [hi] at hk
    cases hk
    exact ⟨_, List.getElem?_set_self (List.getElem?_eq_some_iff.1 hi).1, Nat.lt_succ_of_lt hlt⟩
  · exact ⟨k, by rw [List.getElem?_set_ne hne, hk], hlt⟩

/-- A new segment is tracked from its first block on. -/
theorem Tracks.start {job : Job} {cls : SegmentClass} {writer : NewSegment} (h : Tracks job.keys s hist)
    (ht : Created job cls.availability s.world w writer) :
    Tracks job.keys { s with
      world := w
      newSegmentRecords := s.newSegmentRecords ++ [none]
      activeSegments := s.activeSegments ++ [⟨cls, s.newSegmentRecords.length, writer⟩] } (hist ++ [writer.history]) := by
  have hempty : writer.history = ⟨writer.uid, writer.salt, writer.noncePrefix, 0⟩ := by
    unfold NewSegment.history
    rw [ht.empty.1]
    rfl
  have hhistory : History job.keys w (hist ++ [writer.history]) := by
    have hdraw : History job.keys { w with derived := s.world.derived } (hist ++ [writer.history]) := by
      rw [hempty]
      exact h.history.draw writer.noncePrefix ht.drawn rfl ht.seals
    exact hdraw.derive h.history.derived rfl ht.derived rfl
  have hlast : writer.history.input ∈ w.derived := by
    rw [ht.derived]
    exact List.mem_append_right _ (List.mem_singleton_self _)
  have hderived : ∀ input ∈ s.world.derived, input ∈ w.derived := by
    intro input hinput
    rw [ht.derived]
    exact List.mem_append_left _ hinput
  refine ⟨h.toSlots.start cls writer, hhistory, ?_, ?_, ?_, ?_, ?_, ?_⟩
  · rw [List.length_append, List.length_append, h.records]
    rfl
  · intro i record hi
    rcases lt_or_ge i s.newSegmentRecords.length with hlen | hlen
    · rw [List.getElem?_append_left hlen] at hi
      obtain ⟨k, hk, hrest⟩ := h.finished i record hi
      exact ⟨k, by rw [List.getElem?_append_left (h.records ▸ hlen), hk], hrest⟩
    · rw [List.getElem?_append_right hlen, List.getElem?_singleton] at hi
      split at hi <;> cases hi
  · intro a ha
    rcases List.mem_append.1 ha with ha | ha
    · obtain ⟨hget, hkey, hinput⟩ := h.active a ha
      refine ⟨?_, hkey, hderived _ hinput⟩
      rw [List.getElem?_append_left (h.records ▸ h.index_lt ha), hget]
    · obtain rfl := List.mem_singleton.1 ha
      refine ⟨?_, ht.key, hlast⟩
      rw [← h.records]
      exact List.getElem?_concat_length
  · exact fun pending hp => (h.blocks pending hp).append _
  · intro i k hk ordinal hlt
    rcases lt_or_ge i hist.length with hi | hi
    · rw [List.getElem?_append_left hi] at hk
      exact h.returned i k hk ordinal hlt
    · rw [List.getElem?_append_right hi, List.getElem?_singleton] at hk
      split at hk
      · obtain rfl := Option.some.inj hk
        rw [hempty] at hlt
        exact absurd hlt (Nat.not_lt_zero _)
      · cases hk
  · exact fun key pending hp => (h.current key pending hp).append _

/-- A finished segment leaves its record. -/
theorem Tracks.finish {position : Nat} {a : ActiveSegment} {bytes : UInt64} (h : Tracks keys s hist)
    (hget : s.activeSegments[position]? = some a) (hw : s.world.Idle w) :
    Tracks keys { s with
      world := w
      activeSegments := swapRemove s.activeSegments position
      newSegmentBytes := bytes
      newSegmentRecords := s.newSegmentRecords.set a.index (some a.writer.record) } hist := by
  refine ⟨h.toSlots.finish hget bytes _, h.history.congr hw.drawn hw.derived hw.seals, ?_, ?_, ?_, h.blocks, h.returned,
    h.current⟩
  · rw [List.length_set]
    exact h.records
  · intro i record hi
    rcases eq_or_ne a.index i with rfl | hne
    · rw [List.getElem?_set_self (h.index_lt (List.mem_of_getElem? hget))] at hi
      cases hi
      exact ⟨_, (h.active a (List.mem_of_getElem? hget)).1, rfl, rfl, rfl, rfl⟩
    · rw [List.getElem?_set_ne hne] at hi
      exact h.finished i record hi
  · intro b hb
    obtain ⟨hbhist, hkey, hinput⟩ := h.active b (mem_swapRemove hget hb)
    refine ⟨hbhist, hkey, ?_⟩
    show b.writer.history.input ∈ w.derived
    rw [hw.derived]
    exact hinput

/-- The seal of one more block. -/
theorem Tracks.seal {a : ActiveSegment} (h : Tracks keys s hist) (ha : a ∈ s.activeSegments)
    (hw : s.world.Sealed w a.writer.nextSeal) : History keys w (hist.set a.index a.writer.history.next) := by
  obtain ⟨hhist, hkey, hinput⟩ := h.active a ha
  refine h.history.seal hhist a.writer.blockCount.toNat_lt hinput hw.drawn hw.derived ?_
  rw [hw.seals, NewSegment.nextSeal_eq hkey]

/-- A block that was sealed is one of those of its segment. -/
theorem Tracks.write {position : Nat} {a : ActiveSegment} {logicalOffset : UInt64} {plainLen : Nat} {codec : Codec}
    {encoded encrypted : Bytes} {reference : BlockRef} {writer : NewSegment} {chunkId : ByteArr 32} (h : Tracks keys s hist)
    (hget : s.activeSegments[position]? = some a) (hw : s.world.Sealed w a.writer.nextSeal)
    (hwrote : Wrote a.writer logicalOffset plainLen codec encoded encrypted reference writer) :
    Tracks keys (BuildContext.appendNew { s with world := w } chunkId a.cls position { a with writer := writer } reference)
      (hist.set a.index a.writer.history.next) := by
  have ha := List.mem_of_getElem? hget
  obtain ⟨hhist, hkey, hinput⟩ := h.active a ha
  have hnext : writer.history = a.writer.history.next := by
    rw [hwrote.writer_eq]
    exact congrArg (SegmentHistory.mk a.writer.uid a.writer.salt a.writer.noncePrefix)
      (UInt32.toNat_ofNat_of_lt' hwrote.count)
  have hlen := (List.getElem?_eq_some_iff.1 hhist).1
  have hnew : Written (hist.set a.index a.writer.history.next) ⟨.new a.index, reference⟩ := by
    rintro i hi
    cases hi
    refine ⟨_, List.getElem?_set_self hlen, ?_⟩
    rw [hwrote.reference_eq]
    exact Nat.lt_succ_self _
  refine ⟨h.toSlots.write hget chunkId writer reference, h.seal ha hw, ?_, ?_, ?_, ?_, ?_, ?_⟩
  · rw [List.length_set]
    exact h.records
  · intro i record hi
    obtain ⟨k, hk, hrest⟩ := h.finished i record hi
    rcases eq_or_ne a.index i with rfl | hne
    · exact absurd ((h.opened a ha).symm.trans hi) nofun
    · exact ⟨k, by rw [List.getElem?_set_ne hne, hk], hrest⟩
  · intro b hb
    rcases mem_set_of_nodup hget h.distinct hb with rfl | ⟨hb, hne⟩
    · refine ⟨?_, ?_, ?_⟩
      · rw [hnext]
        exact List.getElem?_set_self hlen
      · rw [hnext, hwrote.writer_eq]
        exact hkey
      · show writer.history.input ∈ w.derived
        rw [hnext, hw.derived]
        exact hinput
    · obtain ⟨hbhist, hbkey, hbinput⟩ := h.active b hb
      refine ⟨?_, hbkey, ?_⟩
      · rw [List.getElem?_set_ne hne.symm]
        exact hbhist
      · show b.writer.history.input ∈ w.derived
        rw [hw.derived]
        exact hbinput
  · intro pending hp
    rcases List.mem_append.1 hp with hp | hp
    · exact (h.blocks pending hp).next hhist
    · obtain rfl := List.mem_singleton.1 hp
      exact hnew
  · intro i k hk ordinal hlt
    rcases eq_or_ne a.index i with rfl | hne
    · rw [List.getElem?_set_self hlen] at hk
      obtain rfl := Option.some.inj hk
      rcases Nat.lt_succ_iff_lt_or_eq.1 hlt with hlt | rfl
      · exact h.returned.append _ _ _ hhist _ hlt
      · refine ⟨⟨.new a.index, reference⟩, List.mem_append_right _ (List.mem_singleton_self _), rfl, ?_⟩
        rw [hwrote.reference_eq]
        rfl
    · rw [List.getElem?_set_ne hne] at hk
      exact h.returned.append _ _ _ hk _ hlt
  · intro key pending hp
    rcases eq_or_ne key (chunkId, a.cls) with rfl | hne
    · rw [BuildContext.appendNew, AList.lookup_insert] at hp
      cases hp
      exact hnew
    · rw [BuildContext.appendNew, AList.lookup_insert_ne hne] at hp
      exact (h.current key pending hp).next hhist

/-- A block of this build is used again. -/
theorem Tracks.share {chunkId : ByteArr 32} {cls : SegmentClass} {plainLen : UInt32} {policy : CompressionPolicy}
    {reused : PendingBlock} (h : Tracks keys s hist) (hreused : s.currentBlock chunkId cls plainLen policy = some reused)
    (logicalOffset : UInt64) : Tracks keys (s.shareBlock reused logicalOffset) hist where
  toSlots := ⟨h.opened, h.distinct, h.unfilled⟩
  history := h.history
  records := h.records
  finished := h.finished
  active := h.active
  current := h.current
  returned := h.returned.append _
  blocks pending hp := by
    rcases List.mem_append.1 hp with hp | hp
    · exact h.blocks pending hp
    · obtain rfl := List.mem_singleton.1 hp
      have hwritten : Written hist reused := h.current _ _ (BuildContext.currentBlock_eq_some.1 hreused).1
      exact hwritten

/-- A block of the previous release is none of the segments written. -/
theorem Tracks.keep (h : Tracks keys s hist) (chunkId : ByteArr 32) (cls : SegmentClass) (segment : SegmentRecord)
    (block : BlockRef) (logicalOffset : UInt64) : Tracks keys (s.keepExisting chunkId cls segment block logicalOffset) hist where
  toSlots := ⟨h.opened, h.distinct, h.unfilled⟩
  history := h.history
  records := h.records
  finished := h.finished
  active := h.active
  returned := h.returned.append _
  blocks pending hp := by
    rcases List.mem_append.1 hp with hp | hp
    · exact h.blocks pending hp
    · obtain rfl := List.mem_singleton.1 hp
      exact nofun
  current key pending hp := by
    rcases eq_or_ne key (chunkId, cls) with rfl | hne
    · rw [BuildContext.keepExisting, AList.lookup_insert] at hp
      cases hp
      exact nofun
    · rw [BuildContext.keepExisting, AList.lookup_insert_ne hne] at hp
      exact h.current key pending hp

/-- Every step keeps track of the history. -/
theorem Tracks.step {job : Job} {cs : List SegmentClass} (h : Tracks job.keys s hist) (hstep : Step job s cs t) :
    ∃ hist', Tracks job.keys t hist' := by
  cases hstep with
  | outside ht =>
    have hslots := (Step.outside ht : Step job s [] t).slots h.toSlots
    obtain ⟨_, _, _, _, _, _, w, rfl, hw⟩ := ht
    refine ⟨hist, hslots, h.history.congr hw.drawn hw.derived hw.seals, h.records, h.finished, fun a ha => ?_, h.blocks,
      h.returned, h.current⟩
    obtain ⟨hhist, hkey, hinput⟩ := h.active a ha
    refine ⟨hhist, hkey, ?_⟩
    show a.writer.history.input ∈ w.derived
    rw [hw.derived]
    exact hinput
  | share hreused logicalOffset => exact ⟨hist, h.share hreused logicalOffset⟩
  | keep => exact ⟨hist, h.keep _ _ _ _ _⟩
  | start hnew hcreated => exact ⟨_, h.start hcreated⟩
  | finish hget hopen hlen hw hstored => exact ⟨hist, h.finish hget hw⟩
  | write hget hcompress hroom hw hwrote => exact ⟨_, h.write hget hw hwrote⟩

theorem Tracks.steps {job : Job} {cs : List SegmentClass} (h : Tracks job.keys s hist) (hsteps : Steps job s cs t) :
    ∃ hist', Tracks job.keys t hist' := by
  induction hsteps with
  | refl => exact ⟨hist, h⟩
  | tail _ hstep ih =>
    obtain ⟨_, h'⟩ := ih
    exact h'.step hstep

/-- What a failed call leaves still fits a history. -/
theorem Tracks.halted (h : Tracks keys s hist) (hw : Halted s w) : ∃ hist', History keys w hist' := by
  rcases hw with hw | ⟨identity, hw⟩ | ⟨a, ha, hw⟩
  · exact ⟨hist, h.history.congr hw.drawn hw.derived hw.seals⟩
  · exact ⟨_, h.history.draw (.replicate 8 0) hw.drawn hw.derived hw.seals⟩
  · exact ⟨_, h.seal ha hw⟩

/-- The start of a build. -/
theorem Tracks.new (keys : ProjectKeys) (reuse : ReuseIndex) (fileCount : Nat) (hdrawn : w.drawn = [])
    (hderived : w.derived = []) (hseals : w.seals = []) : Tracks keys (.new reuse fileCount w) [] where
  toSlots := .new reuse fileCount w
  history := by
    refine ⟨hdrawn.symm, ?_, nofun, ?_, nofun⟩
    · show w.derived.Sublist []
      rw [hderived]
    · show w.seals.Perm []
      rw [hseals]
  records := rfl
  finished := nofun
  active := nofun
  blocks := nofun
  returned := nofun
  current key pending hp := by
    rw [show (BuildContext.new reuse fileCount w).currentReuse = ∅ from rfl, AList.lookup_empty] at hp
    cases hp

end

end Hakutaku
