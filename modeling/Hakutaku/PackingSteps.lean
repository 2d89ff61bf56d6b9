import Hakutaku.ReuseIndex
import Hakutaku.SegmentWriter

/-!
# The steps of the packing loop

Everything the packing loop does to a build, as six kinds of steps (`Step`): a segment is started, written to or
finished, a block of this build or of the previous release is used again, or only what lies outside of the segments
changes. A run is a sequence of steps (`Steps`), labelled with the classes of the blocks it appends; where it stops
with an error, it stands behind a whole number of steps and at most one call more (`Halted`).
-/

namespace Hakutaku
open Wire Act

/-! ### The list of the open segments -/

theorem swapRemove_concat {α : Type} (init : List α) (last : α) (i : Nat) :
    swapRemove (init ++ [last]) i = if i < init.length then init.set i last else init := by
  unfold swapRemove
  rw [List.getLast?_concat]
  show ((init ++ [last]).set i last).dropLast = _
  split
  · rw [List.set_append_left _ _ ‹_›, List.dropLast_concat]
  · rw [List.set_append_right _ _ (by omega)]
    rcases i - init.length with _ | k
    · rw [List.set_cons_zero, List.dropLast_concat]
    · rw [List.set_cons_succ, List.set_nil, List.dropLast_concat]

/-- Nothing but the element at the position is lost. -/
theorem swapRemove_perm {α : Type} {l : List α} {i : Nat} {a : α} (h : l[i]? = some a) : (a :: swapRemove l i).Perm l := by
  rcases List.eq_nil_or_concat' l with rfl | ⟨init, last, rfl⟩
  · cases h
  · rw [swapRemove_concat]
    by_cases hi : i < init.length
    · rw [if_pos hi]
      rw [List.getElem?_append_left hi] at h
      obtain ⟨_, rfl⟩ := List.getElem?_eq_some_iff.1 h
      calc (init[i] :: init.set i last).Perm (init[i] :: last :: init.eraseIdx i) :=
            (List.set_perm_cons_eraseIdx hi last).cons _
        _ |>.Perm (last :: init) := (List.Perm.swap _ _ _).trans ((List.getElem_cons_eraseIdx_perm hi).cons last)
        _ |>.Perm (init ++ [last]) := (List.perm_append_singleton last init).symm
    · rw [if_neg hi]
      obtain ⟨hlt, hget⟩ := List.getElem?_eq_some_iff.1 h
      rw [List.length_append, List.length_singleton] at hlt
      obtain rfl : i = init.length := by omega
      rw [List.getElem_concat_length rfl] at hget
      rw [hget]
      exact (List.perm_append_singleton a init).symm

theorem mem_swapRemove {α : Type} {l : List α} {i : Nat} {a b : α} (h : l[i]? = some a) (hb : b ∈ swapRemove l i) : b ∈ l :=
  (swapRemove_perm h).mem_iff.1 (List.mem_cons_of_mem _ hb)

/-- What is distinct for the elements stays so, and the removed one had its own value. -/
theorem nodup_swapRemove {α β : Type} {f : α → β} {l : List α} {i : Nat} {a : α} (h : l[i]? = some a)
    (hl : (l.map f).Nodup) : f a ∉ (swapRemove l i).map f ∧ ((swapRemove l i).map f).Nodup := by
  have hperm := ((swapRemove_perm h).map f).nodup_iff.2 hl
  rw [List.map_cons, List.nodup_cons] at hperm
  exact hperm

theorem map_set_of_eq {α β : Type} {f : α → β} {l : List α} {i : Nat} {a b : α} (h : l[i]? = some a) (hf : f b = f a) :
    (l.set i b).map f = l.map f := by
  rw [List.map_set, hf]
  refine List.ext_getElem? fun j => ?_
  rcases eq_or_ne i j with rfl | hne
  · rw [List.getElem?_set_self (by rw [List.length_map]; exact (List.getElem?_eq_some_iff.1 h).1), List.getElem?_map, h]
    rfl
  · rw [List.getElem?_set_ne hne]

/-- Beside the element that is set there are those with other values. -/
theorem mem_set_of_nodup {α β : Type} {f : α → β} {l : List α} {i : Nat} {a b c : α} (h : l[i]? = some a)
    (hl : (l.map f).Nodup) (hc : c ∈ l.set i b) : c = b ∨ c ∈ l ∧ f c ≠ f a := by
  obtain ⟨j, hj⟩ := List.mem_iff_getElem?.1 hc
  rcases eq_or_ne i j with rfl | hne
  · rw [List.getElem?_set_self (List.getElem?_eq_some_iff.1 h).1] at hj
    exact .inl (Option.some.inj hj).symm
  · rw [List.getElem?_set_ne hne] at hj
    refine .inr ⟨List.mem_of_getElem? hj, fun heq => hne ?_⟩
    have hlen : i < (l.map f).length := by
      rw [List.length_map]
      exact (List.getElem?_eq_some_iff.1 h).1
    refine (List.getElem?_inj hlen hl).1 ?_
    rw [List.getElem?_map, List.getElem?_map, h, hj, Option.map_some, Option.map_some, heq]

namespace BuildContext

theorem storeSegmentRecord_eq_ok {records records' : List (Option SegmentRecord)} {index : Nat} {record : SegmentRecord} :
    storeSegmentRecord records index record = .ok records' ↔
      records[index]? = some none ∧ records' = records.set index (some record) := by
  unfold storeSegmentRecord
  rcases hget : records[index]? with _ | _ | existing
  · exact ⟨fun h => absurd h fail_ne_ok, fun h => by cases h.1⟩
  · exact ⟨fun h => ⟨rfl, (Except.ok.inj h).symm⟩, fun h => by rw [h.2]⟩
  · exact ⟨fun h => absurd h fail_ne_ok, fun h => by cases h.1⟩

theorem activeSegmentPosition_eq_some {s : BuildContext} {cls : SegmentClass} {position : Nat}
    (h : s.activeSegmentPosition cls = some position) :
    ∃ a, s.activeSegments[position]? = some a ∧ a.cls = cls := by
  obtain ⟨hlt, heq, -⟩ := List.findIdx?_eq_some_iff_getElem.1 h
  exact ⟨_, List.getElem?_eq_getElem hlt, of_decide_eq_true heq⟩

theorem activeSegmentPosition_eq_none {s : BuildContext} {cls : SegmentClass} :
    s.activeSegmentPosition cls = none ↔ cls ∉ s.activeSegments.map ActiveSegment.cls := by
  unfold activeSegmentPosition
  rw [List.findIdx?_eq_none_iff, List.mem_map]
  constructor
  · rintro h ⟨a, ha, rfl⟩
    exact absurd (decide_eq_true rfl) (by rw [h a ha]; exact Bool.false_ne_true)
  · intro h a ha
    exact decide_eq_false fun heq => h ⟨a, ha, heq⟩

end BuildContext

/-! ### Steps -/

/-- Only what lies outside of the segments and blocks differs, and the system was idle. -/
def Outside (s t : BuildContext) : Prop :=
  ∃ chunkIds fileRecords filePaths pathPool fingerprint completedBytes world, t = { s with
    chunkIds := chunkIds, fileRecords := fileRecords, filePaths := filePaths, pathPool := pathPool
    fingerprint := fingerprint, completedBytes := completedBytes, world := world } ∧ s.world.Idle world

theorem Idle.outside {s t : BuildContext} (h : Idle s t) : Outside s t := by
  obtain ⟨world, rfl, hworld⟩ := h
  exact ⟨_, _, _, _, _, _, world, rfl, hworld⟩

section
variable [Crypto]

/-- A writer that takes one more block of `stored` bytes: the first one, or one within the target of its class. -/
def ActiveSegment.Room (job : Job) (a : ActiveSegment) (stored : Nat) : Prop :=
  a.writer.blockCount = 0 ∨
    satAdd64 a.writer.payloadLen (UInt64.ofNat stored) ≤ a.cls.targetBytes job.options.segmentTargetBytes

/-- One step of the packing loop, and the class of the block it appends. -/
inductive Step (job : Job) (s : BuildContext) : List SegmentClass → BuildContext → Prop
  | outside {t : BuildContext} (h : Outside s t) : Step job s [] t
  | share {chunkId : ByteArr 32} {cls : SegmentClass} {plainLen : UInt32} {policy : CompressionPolicy}
      {reused : PendingBlock} (h : s.currentBlock chunkId cls plainLen policy = some reused) (logicalOffset : UInt64) :
      Step job s [cls] (s.shareBlock reused logicalOffset)
  | keep {chunkId : ByteArr 32} {cls : SegmentClass} {plainLen : UInt32} {policy : CompressionPolicy}
      {reused : ReusableBlock} {segment : SegmentRecord}
      (h : s.existingBlock chunkId cls.availability plainLen policy = some reused)
      (hsegment : s.reuseSegments[reused.segmentOrdinal.toNat]? = some segment) (logicalOffset : UInt64) :
      Step job s [cls] (s.keepExisting chunkId cls segment reused.block logicalOffset)
  | start {cls : SegmentClass} {world : World} {writer : NewSegment} (hnew : s.activeSegmentPosition cls = none)
      (h : Created job cls.availability s.world world writer) :
      Step job s [] { s with
        world := world
        newSegmentRecords := s.newSegmentRecords ++ [none]
        activeSegments := s.activeSegments ++ [⟨cls, s.newSegmentRecords.length, writer⟩] }
  | finish {position : Nat} {a : ActiveSegment} {world : World} (hget : s.activeSegments[position]? = some a)
      (hopen : s.newSegmentRecords[a.index]? = some none)
      (hlen : segmentHeaderSize + a.writer.payloadLen.toNat < u64Size) (hworld : s.world.Idle world)
      (hstored : world.Stored a.writer.record.id) :
      Step job s [] { s with
        world := world
        activeSegments := swapRemove s.activeSegments position
        newSegmentBytes := satAdd64 s.newSegmentBytes a.writer.record.fileLen
        newSegmentRecords := s.newSegmentRecords.set a.index (some a.writer.record) }
  | write {position : Nat} {a : ActiveSegment} {world : World} {logicalOffset : UInt64} {plaintext encoded encrypted : Bytes}
      {policy : CompressionPolicy} {codec : Codec} {reference : BlockRef} {writer : NewSegment}
      (hget : s.activeSegments[position]? = some a)
      (hcompress : BuildContext.compressBlock job.options.compressionLevel plaintext policy = .ok (codec, encoded))
      (hroom : a.Room job (encoded.length + 16)) (hworld : s.world.Sealed world a.writer.nextSeal)
      (h : Wrote a.writer logicalOffset plaintext.length codec encoded encrypted reference writer) :
      Step job s [a.cls]
        (BuildContext.appendNew { s with world := world } (Crypto.hash plaintext) a.cls position { a with writer := writer }
          reference)

/-- Any number of steps, and the classes of the blocks they append. -/
inductive Steps (job : Job) (s : BuildContext) : List SegmentClass → BuildContext → Prop
  | refl : Steps job s [] s
  | tail {cs ds : List SegmentClass} {t u : BuildContext} (h : Steps job s cs t) (hstep : Step job t ds u) :
      Steps job s (cs ++ ds) u

/-- The system behind a failed call: it was idle, or had drawn an identity, or had sealed one more block of an open
segment. -/
def Halted (s : BuildContext) (w : World) : Prop :=
  s.world.Idle w ∨ (∃ identity, s.world.Drew w identity) ∨ ∃ a ∈ s.activeSegments, s.world.Sealed w a.writer.nextSeal

/-- The segments without a record are the open ones, each with a slot of its own. -/
structure Slots (s : BuildContext) : Prop where
  opened : ∀ a ∈ s.activeSegments, s.newSegmentRecords[a.index]? = some none
  distinct : (s.activeSegments.map ActiveSegment.index).Nodup
  unfilled : ∀ i : Nat, s.newSegmentRecords[i]? = some none → i ∈ s.activeSegments.map ActiveSegment.index

/-- No class has two segments open. -/
def OneEach (s : BuildContext) : Prop := (s.activeSegments.map ActiveSegment.cls).Nodup

variable {job : Job} {s t u : BuildContext} {cs ds : List SegmentClass}

theorem Steps.single (h : Step job s cs t) : Steps job s cs t := .tail .refl h

theorem Steps.trans (h : Steps job s cs t) (h' : Steps job t ds u) : Steps job s (cs ++ ds) u := by
  induction h' with
  | refl => rwa [List.append_nil]
  | tail _ hstep ih =>
    rw [← List.append_assoc]
    exact ih.tail hstep

theorem Step.oneEach (h : Step job s cs t) (hs : OneEach s) : OneEach t := by
  unfold OneEach at hs ⊢
  cases h with
  | outside h =>
    obtain ⟨_, _, _, _, _, _, _, rfl, -⟩ := h
    exact hs
  | share => exact hs
  | keep => exact hs
  | start hnew =>
    rw [List.map_append, List.nodup_append]
    refine ⟨hs, List.nodup_singleton _, fun c hc d hd => ?_⟩
    obtain rfl := List.mem_singleton.1 hd
    rintro rfl
    exact BuildContext.activeSegmentPosition_eq_none.1 hnew hc
  | finish hget => exact (nodup_swapRemove hget hs).2
  | @write position a _ _ _ _ _ _ _ _ writer hget =>
    have hmap : (s.activeSegments.set position { a with writer := writer }).map ActiveSegment.cls =
        s.activeSegments.map ActiveSegment.cls := map_set_of_eq hget rfl
    exact hmap.symm ▸ hs

omit [Crypto] in
/-- A build starts without open segments. -/
theorem OneEach.new (reuse : ReuseIndex) (fileCount : Nat) (world : World) : OneEach (.new reuse fileCount world) :=
  List.nodup_nil

theorem Steps.oneEach (h : Steps job s cs t) (hs : OneEach s) : OneEach t := by
  induction h with
  | refl => exact hs
  | tail _ hstep ih => exact hstep.oneEach ih

/-! ### The slots of the records -/

namespace Slots
omit [Crypto]
variable {a : ActiveSegment} {position : Nat} {world : World}

theorem new (reuse : ReuseIndex) (fileCount : Nat) (world : World) : Slots (.new reuse fileCount world) :=
  ⟨nofun, List.nodup_nil, nofun⟩

theorem index_lt (h : Slots s) (ha : a ∈ s.activeSegments) : a.index < s.newSegmentRecords.length :=
  (List.getElem?_eq_some_iff.1 (h.opened a ha)).1

/-- Every slot is filled when no segment is open. -/
theorem filled (h : Slots s) (hactive : s.activeSegments = []) {i : Nat} (hi : i < s.newSegmentRecords.length) :
    ∃ record, s.newSegmentRecords[i]? = some (some record) := by
  rcases hslot : s.newSegmentRecords[i]? with _ | _ | record
  · exact absurd hi (Nat.not_lt.2 (List.getElem?_eq_none_iff.1 hslot))
  · have hmem := h.unfilled i hslot
    rw [hactive] at hmem
    exact absurd hmem List.not_mem_nil
  · exact ⟨record, rfl⟩

theorem start (h : Slots s) (cls : SegmentClass) (writer : NewSegment) : Slots { s with
    world := world
    newSegmentRecords := s.newSegmentRecords ++ [none]
    activeSegments := s.activeSegments ++ [⟨cls, s.newSegmentRecords.length, writer⟩] } := by
  refine ⟨?_, ?_, ?_⟩
  · intro a ha
    rcases List.mem_append.1 ha with ha | ha
    · rw [List.getElem?_append_left (h.index_lt ha)]
      exact h.opened a ha
    · obtain rfl := List.mem_singleton.1 ha
      exact List.getElem?_concat_length
  · rw [List.map_append, List.nodup_append]
    refine ⟨h.distinct, List.nodup_singleton _, ?_⟩
    intro i hi j hj
    obtain ⟨a, ha, rfl⟩ := List.mem_map.1 hi
    obtain rfl := List.mem_singleton.1 hj
    exact (h.index_lt ha).ne
  · intro i hi
    rw [List.map_append]
    rcases lt_or_ge i s.newSegmentRecords.length with hlen | hlen
    · rw [List.getElem?_append_left hlen] at hi
      exact List.mem_append_left _ (h.unfilled i hi)
    · have hlast := (List.getElem?_eq_some_iff.1 hi).1
      rw [List.length_append, List.length_singleton] at hlast
      obtain rfl : i = s.newSegmentRecords.length := by omega
      exact List.mem_append_right _ (List.mem_singleton_self _)

/-- The segments that stay open have other slots. -/
theorem index_ne (h : Slots s) (hget : s.activeSegments[position]? = some a) {b : ActiveSegment}
    (hb : b ∈ swapRemove s.activeSegments position) : a.index ≠ b.index :=
  fun heq => (nodup_swapRemove hget h.distinct).1 (heq ▸ List.mem_map_of_mem hb)

theorem finish (h : Slots s) (hget : s.activeSegments[position]? = some a) (bytes : UInt64) (record : SegmentRecord) :
    Slots { s with
      world := world
      activeSegments := swapRemove s.activeSegments position
      newSegmentBytes := bytes
      newSegmentRecords := s.newSegmentRecords.set a.index (some record) } := by
  refine ⟨fun b hb => ?_, (nodup_swapRemove hget h.distinct).2, fun i hi => ?_⟩
  · rw [List.getElem?_set_ne (h.index_ne hget hb)]
    exact h.opened b (mem_swapRemove hget hb)
  · rcases eq_or_ne a.index i with rfl | hne
    · rw [List.getElem?_set_self (h.index_lt (List.mem_of_getElem? hget))] at hi
      cases hi
    · rw [List.getElem?_set_ne hne] at hi
      have hmem := ((swapRemove_perm hget).map ActiveSegment.index).mem_iff.2 (h.unfilled i hi)
      exact (List.mem_cons.1 hmem).resolve_left hne.symm

theorem write (h : Slots s) (hget : s.activeSegments[position]? = some a) (chunkId : ByteArr 32) (writer : NewSegment)
    (reference : BlockRef) :
    Slots (BuildContext.appendNew { s with world := world } chunkId a.cls position { a with writer := writer } reference) := by
  have hmap : (s.activeSegments.set position { a with writer := writer }).map ActiveSegment.index =
      s.activeSegments.map ActiveSegment.index := map_set_of_eq hget rfl
  refine ⟨fun b hb => ?_, hmap.symm ▸ h.distinct, hmap.symm ▸ h.unfilled⟩
  rcases List.mem_or_eq_of_mem_set hb with hb | rfl
  · exact h.opened b hb
  · exact h.opened a (List.mem_of_getElem? hget)

end Slots

theorem Step.slots (h : Step job s cs t) (hs : Slots s) : Slots t := by
  cases h with
  | outside h =>
    obtain ⟨_, _, _, _, _, _, _, rfl, -⟩ := h
    exact ⟨hs.opened, hs.distinct, hs.unfilled⟩
  | share => exact ⟨hs.opened, hs.distinct, hs.unfilled⟩
  | keep => exact ⟨hs.opened, hs.distinct, hs.unfilled⟩
  | start => exact hs.start _ _
  | finish hget => exact hs.finish hget _ _
  | write hget => exact hs.write hget _ _ _

theorem Steps.slots (h : Steps job s cs t) (hs : Slots s) : Slots t := by
  induction h with
  | refl => exact hs
  | tail _ hstep ih => exact hstep.slots ih

/-- A record that is stored stays in its slot. -/
theorem Step.records (h : Step job s cs t) {i : Nat} {record : SegmentRecord}
    (hi : s.newSegmentRecords[i]? = some (some record)) : t.newSegmentRecords[i]? = some (some record) := by
  cases h with
  | outside h =>
    obtain ⟨_, _, _, _, _, _, _, rfl, -⟩ := h
    exact hi
  | share => exact hi
  | keep => exact hi
  | start => exact (List.getElem?_append_left (List.getElem?_eq_some_iff.1 hi).1).trans hi
  | finish hget hopen =>
    refine (List.getElem?_set_ne ?_).trans hi
    rintro rfl
    exact absurd (hopen.symm.trans hi) nofun
  | write => exact hi

theorem Steps.records (h : Steps job s cs t) {i : Nat} {record : SegmentRecord}
    (hi : s.newSegmentRecords[i]? = some (some record)) : t.newSegmentRecords[i]? = some (some record) := by
  induction h with
  | refl => exact hi
  | tail _ hstep ih => exact hstep.records ih

/-- The previous release is the same during a whole build. -/
theorem Step.reuse (h : Step job s cs t) : t.reuseIndex = s.reuseIndex ∧ t.reuseSegments = s.reuseSegments := by
  cases h with
  | outside h =>
    obtain ⟨_, _, _, _, _, _, _, rfl, -⟩ := h
    exact ⟨rfl, rfl⟩
  | share => exact ⟨rfl, rfl⟩
  | keep => exact ⟨rfl, rfl⟩
  | start => exact ⟨rfl, rfl⟩
  | finish => exact ⟨rfl, rfl⟩
  | write => exact ⟨rfl, rfl⟩

theorem Steps.reuse (h : Steps job s cs t) : t.reuseIndex = s.reuseIndex ∧ t.reuseSegments = s.reuseSegments := by
  induction h with
  | refl => exact ⟨rfl, rfl⟩
  | tail _ hstep ih => exact ⟨hstep.reuse.1.trans ih.1, hstep.reuse.2.trans ih.2⟩

/-! ### Programs that take steps -/

/-- A successful run of `p` takes steps that append blocks of classes with `C`; a failed one stands behind some steps. -/
def Packing {α : Type} (job : Job) (C : List SegmentClass → Prop) (p : BuildM α) : Prop :=
  ∀ s, OneEach s → wp p (fun _ t => ∃ cs, C cs ∧ Steps job s cs t)
    (fun _ t => ∃ cs s', Steps job s cs s' ∧ Halted s' t.world) s

/-- A program that appends no block. -/
abbrev Still {α : Type} (job : Job) (p : BuildM α) : Prop := Packing job (· = []) p

/-- A program that appends any blocks. -/
abbrev Walks {α : Type} (job : Job) (p : BuildM α) : Prop := Packing job (fun _ => True) p

omit [Crypto] in
theorem Halted.refl (s : BuildContext) : Halted s s.world := .inl (.refl _)

namespace Packing
variable {α β : Type} {C D F : List SegmentClass → Prop} {p : BuildM α}

theorem pure (hC : C []) (a : α) : Packing job C (Pure.pure a) := fun _ _ => ⟨[], hC, .refl⟩

theorem throw (e : Stop PackError) : Packing job C (MonadExcept.throw e : BuildM α) := fun s _ => ⟨[], s, .refl, .refl s⟩

theorem lift (hC : C []) (x : PackResult α) : Packing job C (liftM x : BuildM α) :=
  fun s _ => (wp_lift x).2 ⟨fun _ _ => ⟨[], hC, .refl⟩, fun _ _ => ⟨[], s, .refl, .refl s⟩⟩

theorem still_pure (a : α) : Still job (Pure.pure a) := pure (C := (· = [])) rfl a

theorem still_lift (x : PackResult α) : Still job (liftM x : BuildM α) := lift (C := (· = [])) rfl x

theorem bind {g : α → BuildM β} (hp : Packing job C p) (hg : ∀ a, Packing job D (g a))
    (hF : ∀ cs ds, C cs → D ds → F (cs ++ ds)) : Packing job F (p >>= g) := by
  intro s hs
  refine wp_bind.2 ((hp s hs).mono ?_ fun _ _ h => h)
  rintro a t ⟨cs, hcs, ht⟩
  refine (hg a t (ht.oneEach hs)).mono ?_ ?_
  · rintro b u ⟨ds, hds, hu⟩
    exact ⟨cs ++ ds, hF cs ds hcs hds, ht.trans hu⟩
  · rintro e u ⟨ds, t', ht', hhalted⟩
    exact ⟨cs ++ ds, t', ht.trans ht', hhalted⟩

/-- In front of a program that appends blocks. -/
theorem still_bind {g : α → BuildM β} (hp : Still job p) (hg : ∀ a, Packing job C (g a)) : Packing job C (p >>= g) :=
  hp.bind hg fun cs ds hcs hds => by
    obtain rfl := hcs
    exact hds

theorem walks (hp : Packing job C p) : Walks job p := by
  intro s hs
  refine (hp s hs).mono ?_ fun _ _ h => h
  rintro _ t ⟨cs, -, ht⟩
  exact ⟨cs, trivial, ht⟩

theorem walks_bind {g : α → BuildM β} (hp : Walks job p) (hg : ∀ a, Walks job (g a)) : Walks job (p >>= g) :=
  hp.bind hg fun _ _ _ _ => trivial

theorem get_bind {g : BuildContext → BuildM β} (hg : ∀ s, Packing job C (g s)) : Packing job C (get >>= g) :=
  fun s hs => hg s s hs

theorem ite {c : Prop} [Decidable c] {q : BuildM α} (hp : c → Packing job C p) (hq : ¬ c → Packing job C q) :
    Packing job C (if c then p else q) := by
  split
  · exact hp ‹_›
  · exact hq ‹_›

theorem of_idle (hp : Always Idle p) : Still job p := by
  intro s _
  refine (hp s).mono (fun _ t ht => ⟨[], rfl, .single (.outside ht.outside)⟩) fun _ t ht => ?_
  exact ⟨[], s, .refl, .inl ht.world⟩

/-- An update of the state outside of the segments. -/
theorem update {f : BuildContext → BuildContext} (h : ∀ s, Outside s (f s)) : Still job (modify f) :=
  fun s _ => ⟨[], rfl, .single (.outside (h s))⟩

end Packing

/-! ### Functions of the packing loop -/

open BuildContext

theorem finishActiveSegment_spec (job : Job) (position : Nat) (s : BuildContext) :
    wp (finishActiveSegment position)
      (fun _ t => Step job s [] t ∧ (∃ a, s.activeSegments[position]? = some a) ∧
        t.activeSegments = swapRemove s.activeSegments position)
      (fun _ t => s.world.Idle t.world) s := by
  unfold finishActiveSegment
  refine wp_bind.2 (wp_get.2 ?_)
  split
  · exact .refl _
  · rename_i a hget
    rw [wp_bind, wp_modify]
    refine wp_bind.2 ((finish_spec a.writer _).mono ?_ fun _ _ h => h)
    rintro _ _ ⟨hlen, rfl, w, rfl, hw, hstored⟩
    rw [wp_bind, wp_modify]
    refine wp_bind.2 (wp_get.2 (wp_bind.2 ((wp_lift _).2 ⟨fun records hrecords => ?_, fun _ _ => hw⟩)))
    obtain ⟨hopen, rfl⟩ := storeSegmentRecord_eq_ok.1 hrecords
    exact ⟨.finish hget hopen hlen hw hstored, ⟨a, hget⟩, rfl⟩

namespace Packing

theorem finishActiveSegment (position : Nat) : Still job (BuildContext.finishActiveSegment position) := by
  intro s _
  refine (finishActiveSegment_spec job position s).mono ?_ ?_
  · rintro _ t ⟨hstep, -, -⟩
    exact ⟨[], rfl, .single hstep⟩
  · exact fun _ t ht => ⟨[], s, .refl, .inl ht⟩

theorem finishSegments (left : Nat) : Still job (BuildContext.finishSegments left) := by
  induction left with
  | zero => exact .still_pure _
  | succ left ih =>
    refine .get_bind fun _ => ?_
    split
    · exact .still_pure _
    · exact .still_bind (.finishActiveSegment _) fun _ => ih

theorem finishActiveSegments : Still job BuildContext.finishActiveSegments := .get_bind fun _ => .finishSegments _

end Packing

/-- The open segment of a class, if it has one, takes one more block of `stored` bytes. -/
def HasRoom (job : Job) (cls : SegmentClass) (stored : Nat) (s : BuildContext) : Prop :=
  ∀ a ∈ s.activeSegments, a.cls = cls → a.Room job stored

theorem rotateSegment_spec (job : Job) (cls : SegmentClass) (stored : Nat) (hs : OneEach s) :
    wp (rotateSegment job cls (UInt64.ofNat stored))
      (fun _ t => Steps job s [] t ∧ HasRoom job cls stored t)
      (fun _ t => s.world.Idle t.world) s := by
  unfold rotateSegment
  refine wp_bind.2 (wp_get.2 ?_)
  split
  · rename_i hnone
    refine ⟨.refl, fun a ha hcls => ?_⟩
    exact absurd (List.mem_map.2 ⟨a, ha, hcls⟩) (activeSegmentPosition_eq_none.1 hnone)
  · rename_i position hposition
    obtain ⟨a, hget, hcls⟩ := activeSegmentPosition_eq_some hposition
    rw [hget]
    show wp (if _ then _ else _) _ _ s
    split
    · refine (finishActiveSegment_spec job position s).mono ?_ fun _ _ h => h
      rintro _ t ⟨hstep, -, hactive⟩
      refine ⟨.single hstep, fun b hb hb' => ?_⟩
      rw [hactive] at hb
      exact absurd (List.mem_map.2 ⟨b, hb, hb'.trans hcls.symm⟩) (nodup_swapRemove hget hs).1
    · rename_i hkeep
      refine ⟨.refl, fun b hb hb' => ?_⟩
      obtain rfl := List.inj_on_of_nodup_map hs hb (List.mem_of_getElem? hget) (hb'.trans hcls.symm)
      by_cases hfirst : b.writer.blockCount = 0
      · exact .inl hfirst
      · refine .inr (UInt64.not_lt.1 fun hlt => hkeep ⟨UInt32.pos_iff_ne_zero.2 hfirst, ?_⟩)
        rwa [hcls] at hlt

/-- The segment a class is written to, and the steps that open it. -/
theorem openSegment_spec (job : Job) (cls : SegmentClass) (stored : Nat) (hroom : HasRoom job cls stored s) :
    wp (BuildContext.openSegment job cls)
      (fun position t => Steps job s [] t ∧ ∀ a, t.activeSegments[position]? = some a → a.cls = cls ∧ a.Room job stored)
      (fun _ t => Halted s t.world) s := by
  unfold BuildContext.openSegment
  refine wp_bind.2 (wp_get.2 ?_)
  split
  · rename_i position hposition
    obtain ⟨a, hget, hcls⟩ := activeSegmentPosition_eq_some hposition
    refine ⟨.refl, fun b hb => ?_⟩
    obtain rfl := Option.some.inj (hget.symm.trans hb)
    exact ⟨hcls, hroom _ (List.mem_of_getElem? hget) hcls⟩
  · rename_i hnone
    unfold startSegment
    refine wp_bind.2 (wp_get.2 (wp_bind.2 ((create_spec job cls.availability s).mono ?_ ?_)))
    · rintro writer _ ⟨world, rfl, hcreated⟩
      rw [wp_bind, wp_modify, wp_bind, wp_get]
      refine ⟨.single (.start hnone hcreated), fun a ha => ?_⟩
      have hlast : (s.activeSegments ++ [⟨cls, s.newSegmentRecords.length, writer⟩])[s.activeSegments.length]? = some a := by
        rw [← ha]
        simp only [List.length_append, List.length_singleton, Nat.add_sub_cancel]
      rw [List.getElem?_concat_length] at hlast
      obtain rfl := Option.some.inj hlast
      exact ⟨rfl, .inl hcreated.empty.1⟩
    · rintro _ t (hidle | hdrew)
      · exact .inl hidle
      · exact .inr (.inl hdrew)

theorem tryReuseChunk_step (job : Job) (logicalOffset : UInt64) (plainLen : UInt32) (chunkId : ByteArr 32)
    (availability : Availability) (access : AccessClass) (compression : CompressionPolicy) :
    wp (tryReuseChunk logicalOffset plainLen chunkId availability access compression)
      (fun reused t => if reused then Step job s [⟨availability, access⟩] t else t = s) (fun _ t => t = s) s := by
  unfold tryReuseChunk
  refine wp_bind.2 (wp_get.2 ?_)
  split
  · exact Step.share ‹_› logicalOffset
  · split
    · split
      · rfl
      · exact @Step.keep _ job s chunkId ⟨availability, access⟩ _ _ _ _ ‹_› ‹_› logicalOffset
    · rfl

namespace Packing
variable [Target]

/-- A new block of the class. -/
theorem writeChunk (logicalOffset : UInt64) (plaintext : Bytes) (cls : SegmentClass) (compression : CompressionPolicy) :
    Packing job (· = [cls])
      (BuildContext.writeChunk job logicalOffset plaintext (Crypto.hash plaintext) cls compression) := by
  intro s hs
  unfold BuildContext.writeChunk
  refine wp_bind.2 ((wp_lift _).2 ⟨?_, fun _ _ => ⟨[], s, .refl, .refl s⟩⟩)
  rintro ⟨codec, encoded⟩ hcompress
  refine wp_bind.2 ((wp_lift _).2 ⟨fun estimated hestimated => ?_, fun _ _ => ⟨[], s, .refl, .refl s⟩⟩)
  obtain ⟨hlt, rfl⟩ := checkedAdd_eq_some.1 (okOr_eq_ok.1 hestimated)
  refine wp_bind.2 ((rotateSegment_spec job cls (encoded.length + 16) hs).mono ?_ fun _ t ht => ⟨[], s, .refl, .inl ht⟩)
  rintro _ t ⟨ht, hroom⟩
  refine wp_bind.2 ((openSegment_spec job cls _ hroom).mono ?_ fun _ u hu => ⟨[], t, ht, hu⟩)
  rintro position u ⟨hu, hposition⟩
  have hu := ht.trans hu
  refine wp_bind.2 (wp_get.2 ?_)
  split
  · exact ⟨[], u, hu, .refl u⟩
  · rename_i a hget
    obtain ⟨rfl, hroom'⟩ := hposition a hget
    refine wp_bind.2 ((writeBlock_spec a.writer logicalOffset plaintext.length codec encoded u).mono ?_ ?_)
    · rintro ⟨reference, writer⟩ _ ⟨world, encrypted, rfl, hsealed, hwrote⟩
      exact ⟨[a.cls], rfl, hu.tail (.write hget hcompress hroom' hsealed hwrote)⟩
    · rintro _ v (hidle | hsealed)
      · exact ⟨[], u, hu, .inl hidle⟩
      · exact ⟨[], u, hu, .inr (.inr ⟨a, List.mem_of_getElem? hget, hsealed⟩)⟩

/-- One block of the class. -/
theorem addChunk (logicalOffset : UInt64) (plaintext : Bytes) (availability : Availability) (access : AccessClass)
    (compression : CompressionPolicy) :
    Packing job (· = [⟨availability, access⟩])
      (BuildContext.addChunk job logicalOffset plaintext availability access compression) := by
  unfold BuildContext.addChunk
  refine .still_bind (.update fun s => ⟨_, _, _, _, _, _, _, rfl, .refl _⟩) fun _ => ?_
  refine .still_bind (.still_lift _) fun plainLen => ?_
  intro s hs
  refine wp_bind.2 ((tryReuseChunk_step job _ _ _ _ _ _).mono ?_ ?_)
  · rintro reused t ht
    cases reused with
    | true => exact ⟨_, rfl, .single ht⟩
    | false =>
      obtain rfl := ht
      exact writeChunk logicalOffset plaintext _ compression t hs
  · rintro _ t rfl
    exact ⟨[], t, .refl, .refl t⟩

theorem addFixedChunks (blockSize : Nat) (availability : Availability) (access : AccessClass)
    (compression : CompressionPolicy) (left logicalOffset : Nat) (bytes : Bytes) :
    Walks job (BuildContext.addFixedChunks job blockSize availability access compression left logicalOffset bytes) := by
  induction left generalizing logicalOffset bytes with
  | zero => exact .pure trivial _
  | succ left ih =>
    refine .still_bind (.of_idle Idle.syscall) fun _ => .ite (fun _ => .pure trivial _) fun _ => ?_
    refine .walks_bind (addChunk _ _ _ _ _).walks fun _ => ?_
    exact .still_bind (.still_lift _) fun _ => ih _ _

theorem addDefinedChunks (bytes : Bytes) (availability : Availability) (access : AccessClass)
    (compression : CompressionPolicy) (pieces : List (Nat × Nat)) :
    Walks job (BuildContext.addDefinedChunks job bytes availability access compression pieces) := by
  induction pieces with
  | nil => exact .pure trivial _
  | cons piece rest ih =>
    unfold BuildContext.addDefinedChunks
    refine .still_bind (.still_lift _) fun _ => ?_
    split
    · exact .walks_bind (.throw _) fun _ => .walks_bind (addChunk _ _ _ _ _).walks fun _ => ih
    · exact .walks_bind (addChunk _ _ _ _ _).walks fun _ => ih

omit [Target] in
theorem tryReuseChunk (logicalOffset : UInt64) (plainLen : UInt32) (chunkId : ByteArr 32) (availability : Availability)
    (access : AccessClass) (compression : CompressionPolicy) :
    Walks job (BuildContext.tryReuseChunk logicalOffset plainLen chunkId availability access compression) := by
  intro s hs
  refine (tryReuseChunk_step job _ _ _ _ _ _).mono ?_ ?_
  · rintro reused t ht
    cases reused with
    | true => exact ⟨_, trivial, .single ht⟩
    | false =>
      obtain rfl := ht
      exact ⟨[], trivial, .refl⟩
  · rintro _ t rfl
    exact ⟨[], t, .refl, .refl t⟩

omit [Target] in
theorem addCachedChunks (availability : Availability) (cls : SourceClass) (chunks : List CachedChunk) :
    Walks job (BuildContext.addCachedChunks availability cls chunks) := by
  induction chunks with
  | nil => exact .pure trivial _
  | cons chunk rest ih =>
    refine .still_bind (.update fun s => ⟨_, _, _, _, _, _, _, rfl, .refl _⟩) fun _ => ?_
    exact .walks_bind (tryReuseChunk _ _ _ _ _ _) fun reused => .ite (fun _ => ih) fun _ => .throw _

variable [FastCdc]

theorem addFileChunks (source : SourceFile) (cached : Option CachedEntry) (cls : SourceClass) (availability : Availability) :
    Walks job (BuildContext.addFileChunks job source cached cls availability) := by
  refine .get_bind fun s => .ite (fun _ => .pure trivial _) fun _ => ?_
  split
  · exact addCachedChunks _ _ _
  · split
    · refine .still_bind (.of_idle (Idle.openVerified _)) fun view => ?_
      refine .walks_bind (addFixedChunks _ _ _ _ _ _ _) fun _ => .still_bind (.still_lift _) fun _ => ?_
      exact (of_idle (Idle.validateOpenFile _ _)).walks
    · refine .still_bind (.of_idle (Idle.openVerified _)) fun view => ?_
      refine .ite (fun _ => .walks_bind (.throw _) fun _ => ?_) fun _ => ?_
      all_goals
        refine .still_bind (.of_idle Idle.syscall) fun _ => .still_bind (.still_lift _) fun _ => ?_
        exact .still_bind (.of_idle (Idle.validateOpenFile _ _)) fun _ => addDefinedChunks _ _ _ _ _

theorem addFile (source : SourceFile) (cached : Option CachedEntry) : Walks job (BuildContext.addFile job source cached) := by
  refine .get_bind fun _ => .still_bind (.still_lift _) fun _ => .get_bind fun _ => .still_bind (.still_lift _) fun _ => ?_
  refine .still_bind (.still_lift _) fun _ => ?_
  refine .still_bind (.update fun s => ⟨_, _, _, _, _, _, _, rfl, .refl _⟩) fun _ => .get_bind fun _ => ?_
  refine .walks_bind (addFileChunks _ _ _ _) fun _ => .get_bind fun _ => .still_bind (.still_lift _) fun _ => ?_
  refine .still_bind (.update fun s => ⟨_, _, _, _, _, _, _, rfl, .refl _⟩) fun _ => ?_
  refine .get_bind fun _ => .still_bind (.still_lift _) fun _ => ?_
  exact (update fun s => ⟨_, _, _, _, _, _, _, rfl, .refl _⟩).walks

theorem addFiles (files : List (SourceFile × Option CachedEntry)) : Walks job (BuildContext.addFiles job files) := by
  induction files with
  | nil => exact .pure trivial _
  | cons file rest ih => exact .walks_bind (addFile file.1 file.2) fun _ => ih

end Packing

/-! ### A whole loop -/

omit [Crypto] in
theorem firstActive_eq_none {segments : List ActiveSegment} : firstActive segments = none ↔ segments = [] := by
  constructor
  · intro h
    unfold firstActive at h
    split at h
    · rename_i hmin
      exact List.map_eq_nil_iff.1 (List.min?_eq_none_iff.1 hmin)
    · rename_i least hmin
      obtain ⟨a, ha, rfl⟩ := List.mem_map.1 (List.min?_mem hmin)
      have hnot := List.findIdx?_eq_none_iff.1 h a ha
      exact absurd (decide_eq_true rfl) (by rw [hnot]; exact Bool.false_ne_true)
  · rintro rfl
    rfl

/-- A finished loop has no segment open. -/
theorem finishSegments_empties (job : Job) (left : Nat) (hlen : s.activeSegments.length ≤ left) :
    ensures (BuildContext.finishSegments left) (fun _ t => t.activeSegments = []) s := by
  induction left generalizing s with
  | zero => exact List.length_eq_zero_iff.1 (Nat.le_zero.1 hlen)
  | succ left ih =>
    unfold BuildContext.finishSegments
    refine wp_bind.2 (wp_get.2 ?_)
    split
    · exact firstActive_eq_none.1 ‹_›
    · rename_i position _
      refine wp_bind.2 ((finishActiveSegment_spec job position s).mono ?_ fun _ _ _ => trivial)
      rintro _ t ⟨-, ⟨a, hget⟩, hactive⟩
      refine ih ?_
      have hperm := (swapRemove_perm hget).length_eq
      rw [hactive]
      rw [List.length_cons] at hperm
      omega

theorem finishActiveSegments_empties (job : Job) :
    ensures BuildContext.finishActiveSegments (fun _ t => t.activeSegments = []) s :=
  wp_bind.2 (wp_get.2 (finishSegments_empties job _ (le_refl _)))

/-- The packing loop takes steps, and closes every segment it opened. -/
theorem packFiles_runs [Target] [FastCdc] (job : Job) (files : List (SourceFile × Option CachedEntry)) (hs : OneEach s) :
    wp (packFiles job files)
      (fun _ t => t.activeSegments = [] ∧ ∃ cs, Steps job s cs t)
      (fun _ t => ∃ cs s', Steps job s cs s' ∧ Halted s' t.world) s := by
  have hruns : Walks job (packFiles job files) :=
    .walks_bind (.addFiles files) fun _ => Packing.finishActiveSegments.walks
  have hempty : ensures (packFiles job files) (fun _ t => t.activeSegments = []) s :=
    wp_bind.2 (ensures_of_runOn fun _ t _ => finishActiveSegments_empties job)
  refine ((hruns s hs).and hempty).mono ?_ fun _ _ h => h.1
  rintro _ t ⟨⟨cs, -, ht⟩, hactive⟩
  exact ⟨hactive, cs, ht⟩

end

end Hakutaku
