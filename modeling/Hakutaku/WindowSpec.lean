import Hakutaku.ReaderSpec

/-!
# The streaming window and the content of an asset

The loop of `read_at_buffered` on a window without buffers, that the runtime's loop refines it, and
what it copies: every byte it returns is the byte a block of the asset holds for that position, so
for an asset tiled by its blocks the content does not depend on the window.
-/

namespace Hakutaku
open Wire

section
variable [Crypto] [Target]

abbrev SpecM := ExceptT (Stop Error) (StateM Window)

/-- Makes room for a new current block. -/
def Window.shift (w : Window) (access : AccessClass) : Window :=
  if access = .streaming then { w with previous := w.current, current := none } else { w with current := none }

namespace Asset
variable {P : PackageInner} (asset : Asset P)

def idealFill (logical : Nat) : SpecM Unit := do
  let w ← get
  if w.current.any fun b => b.1.covers logical then return
  if w.previous.any fun b => b.1.covers logical then
    set { w with current := w.previous, previous := w.current }
  else
    let reference ← (asset.record.referenceForOffset P.idealRef logical : Result BlockRef)
    modify fun w => w.shift asset.record.access
    let data ← P.idealBlock reference
    modify fun w => { w with current := some (reference, data) }

def idealCopyPass (requested written logical : Nat) : SpecM Nat := do
  asset.idealFill logical
  let w ← get
  match w.current with
  | none => (panicked "read block loaded above" : Result Nat)
  | some (reference, bytes) =>
    let within ← (plainSub logical reference.logicalOffset.toNat : Result Nat)
    if usizeSize ≤ within then (fail (.invalidFormat "block logical offset") : Result Unit)
    validateBlockCoverage within bytes.length
    let amount := min (bytes.length - within) (requested - written)
    modify fun w => { w with destination := putAt w.destination written (slice bytes within amount) }
    return amount

def idealReadLoop (requested : Nat) : Nat → Nat → Nat → SpecM Nat
  | 0, written, _ => pure written
  | left + 1, written, logical => do
    if written < requested then
      let amount ← asset.idealCopyPass requested written logical
      idealReadLoop requested left (written + amount) (logical + amount)
    else return written

def idealReadAt (offset : UInt64) : SpecM Nat := do
  if asset.len < offset.toNat then (fail .invalidRange : Result Unit)
  let w ← get
  let requested := min (asset.len - offset.toNat) w.destination.length
  if usizeSize ≤ requested then (fail .invalidRange : Result Unit)
  if requested = 0 then return 0
  asset.idealReadLoop requested requested 0 offset.toNat

end Asset

/-! ### Refinement -/

variable {P : PackageInner} {asset : Asset P} {K : IoKind → Prop} {st : ReadState}

omit [Crypto] [Target] in
theorem ReadState.view_current_any (st : ReadState) (position : Nat) :
    (st.current.any fun b => b.covers position) = st.view.current.any fun b => b.1.covers position := by
  rcases h : st.current with _ | b
  · simp [view, h]
  · simp [view, h, CursorBlock.covers, CursorBlock.view]

omit [Crypto] [Target] in
theorem ReadState.view_previous_any (st : ReadState) (position : Nat) :
    (st.previous.any fun b => b.covers position) = st.view.previous.any fun b => b.1.covers position := by
  rcases h : st.previous with _ | b
  · simp [view, h]
  · simp [view, h, CursorBlock.covers, CursorBlock.view]

omit [Crypto] [Target] in
theorem BlockReader.segment_recycle (r : BlockReader) (d : BlockData) : (r.recycle d).segment = r.segment := by
  unfold recycle
  split
  · rfl
  · split
    · rfl
    · rfl

omit [Crypto] [Target] in
theorem ReadState.recycleCurrent_spec (st : ReadState) :
    st.recycleCurrent.view = { st.view with current := none } ∧ st.recycleCurrent.reader.segment = st.reader.segment := by
  unfold recycleCurrent
  split
  · rename_i h
    simp [view, h]
  · exact ⟨rfl, BlockReader.segment_recycle _ _⟩

omit [Crypto] [Target] in
theorem ReadState.recyclePrevious_spec (st : ReadState) :
    st.recyclePrevious.view = { st.view with previous := none } ∧ st.recyclePrevious.current = st.current ∧
      st.recyclePrevious.reader.segment = st.reader.segment := by
  unfold recyclePrevious
  split
  · rename_i h
    simp [view, h]
  · exact ⟨rfl, rfl, BlockReader.segment_recycle _ _⟩

omit [Crypto] [Target] in
theorem ReadState.shift_spec (st : ReadState) (access : AccessClass) :
    (st.shift access).view = st.view.shift access ∧ (st.shift access).reader.segment = st.reader.segment := by
  unfold shift Window.shift
  split
  · obtain ⟨hview, hcurrent, hseg⟩ := st.recyclePrevious_spec
    refine ⟨?_, hseg⟩
    have hdest : st.recyclePrevious.destination = st.destination := congrArg Window.destination hview
    simp [view, hcurrent, hdest]
  · exact st.recycleCurrent_spec

theorem PackageInner.Valid.shift (h : P.Valid asset.record st) (access : AccessClass) :
    P.Valid asset.record (st.shift access) := by
  obtain ⟨hview, hseg⟩ := st.shift_spec access
  refine ⟨fun b hb => ?_, fun b hb => ?_, fun s hs => h.segment s (hseg ▸ hs)⟩
  · rw [hview, Window.shift] at hb
    split at hb <;> cases hb
  · rw [hview, Window.shift] at hb
    split at hb
    · exact h.current b hb
    · exact h.previous b hb

/-- The runtime's call against the specified one. -/
abbrev Asset.Follows (asset : Asset P) (K : IoKind → Prop) {α : Type} (p : ReadM α) (q : SpecM α) (st : ReadState) : Prop :=
  Refines (P.SoundFor K) (P.Valid asset.record) ReadState.view (IoFault K) p q st

theorem follows_failIf {α : Type} {c : Prop} [Decidable c] {e : Error} {k : PUnit → ReadM α} {p : ReadM α}
    {k' : PUnit → SpecM α} {q : SpecM α} (hs : P.Valid asset.record st) (hp : ¬ c → asset.Follows K p q st) :
    asset.Follows K (if c then (liftM (fail e : Result PUnit) : ReadM PUnit) >>= k else p)
      (if c then (liftM (fail e : Result PUnit) : SpecM PUnit) >>= k' else q) st :=
  Refines.ite (fun _ => Refines.throw hs (Stop.err e)) hp

theorem fillWindow_follows (hP : P.Coherent) (hs : P.Valid asset.record st) (logical : Nat) :
    asset.Follows K (asset.fillWindow logical) (asset.idealFill logical) st := by
  refine .get_bind ?_
  rw [st.view_current_any, st.view_previous_any]
  refine .ite (fun _ => .pure hs ()) fun _ => ?_
  refine .ite (fun _ => .set ⟨hs.previous, hs.current, hs.segment⟩ rfl) fun _ => ?_
  refine .computes_bind (referenceForOffset_reads hs asset.record logical) fun r s hs hview hr => ?_
  obtain ⟨⟨i, hi, -, href⟩, -⟩ := FileRecord.referenceForOffset_eq_ok hr
  refine .modify_bind (s.shift_spec asset.record.access).1 ?_
  refine .computes_bind (loadBlockBuffered_reads hP (hs.shift _) href _) fun data s hs _ hdata => ?_
  refine .modify ⟨?_, hs.previous, hs.segment⟩ rfl
  rintro b ⟨⟩
  exact ⟨i, hi, href, hdata⟩

theorem copyPass_follows (hP : P.Coherent) (hs : P.Valid asset.record st) (requested written logical : Nat) :
    asset.Follows K (asset.copyPass requested written logical) (asset.idealCopyPass requested written logical) st := by
  refine .bind (fillWindow_follows hP hs logical) fun _ s hs => ?_
  refine .get_bind ?_
  rcases hcurrent : s.current with _ | block
  · have hview : s.view.current = none := by simp [ReadState.view, hcurrent]
    rw [hview]
    exact .throw hs _
  · have hview : s.view.current = some (block.reference, block.data.bytes) := by
      simp [ReadState.view, hcurrent, CursorBlock.view]
    rw [hview]
    refine .computes_bind (.lift hs (plainSub _ _)) fun within s' hs' _ _ => ?_
    refine follows_failIf hs' fun _ => ?_
    refine .computes_bind (.lift hs' (validateBlockCoverage _ _)) fun _ s' hs' _ _ => ?_
    exact .modify_bind rfl (.pure (hs'.withDestination _) _)

theorem readLoop_follows (hP : P.Coherent) (hs : P.Valid asset.record st) (requested left written logical : Nat) :
    asset.Follows K (asset.readLoop requested left written logical) (asset.idealReadLoop requested left written logical)
      st := by
  induction left generalizing st written logical with
  | zero => exact .pure hs written
  | succ left ih =>
    refine .ite (fun _ => ?_) fun _ => .pure hs written
    exact .bind (copyPass_follows hP hs _ _ _) fun amount s hs => ih hs _ _

/-- `read_at_buffered` does what the window without buffers says, whatever is cached. -/
theorem readAtBuffered_follows (hP : P.Coherent) (hs : P.Valid asset.record st) (offset : UInt64) :
    asset.Follows K (asset.readAtBuffered offset) (asset.idealReadAt offset) st := by
  refine follows_failIf hs fun _ => ?_
  refine .get_bind ?_
  refine follows_failIf hs fun _ => ?_
  exact .ite (fun _ => .pure hs 0) fun _ => readLoop_follows hP hs _ _ _ _

/-! ### What a call of the window returns -/

/-- The call succeeds with `a` and leaves the window `w'`. -/
def Runs {α : Type} (q : SpecM α) (w : Window) (a : α) (w' : Window) : Prop := q.run.run w = (.ok a, w')

section Runs
variable {α β : Type} {q : SpecM α} {k : α → SpecM β} {x : Result α} {w w' : Window} {a : α} {b : β}

omit [Crypto] [Target] in
theorem runs_pure {c : α} : Runs (pure c : SpecM α) w a w' ↔ c = a ∧ w = w' := by
  show ((.ok c, w) : Except (Stop Error) α × Window) = (.ok a, w') ↔ _
  simp

omit [Crypto] [Target] in
theorem runs_bind : Runs (q >>= k) w b w' ↔ ∃ a v, Runs q w a v ∧ Runs (k a) v b w' := by
  constructor
  · intro h
    rcases hq : q.run.run w with ⟨e | a, v⟩
    · unfold Runs at h
      rw [Refines.run_bind_error hq] at h
      cases h
    · exact ⟨a, v, hq, (Refines.run_bind_ok hq).symm.trans h⟩
  · rintro ⟨a, v, hq, hk⟩
    exact (Refines.run_bind_ok hq).trans hk

omit [Crypto] [Target] in
theorem runs_lift : Runs (liftM x : SpecM α) w a w' ↔ x = .ok a ∧ w = w' := by
  cases x with
  | ok c =>
    show ((.ok c, w) : Except (Stop Error) α × Window) = (.ok a, w') ↔ _
    simp
  | error e =>
    show ((.error e, w) : Except (Stop Error) α × Window) = (.ok a, w') ↔ _
    simp

omit [Crypto] [Target] in
theorem runs_get_bind {k : Window → SpecM β} : Runs (get >>= k) w b w' ↔ Runs (k w) w b w' := Iff.rfl

omit [Crypto] [Target] in
theorem runs_set {v : Window} {u : PUnit} : Runs (set v : SpecM PUnit) w u w' ↔ v = w' := by
  show ((.ok ⟨⟩, v) : Except (Stop Error) PUnit × Window) = (.ok u, w') ↔ _
  simp

omit [Crypto] [Target] in
theorem runs_modify {f : Window → Window} {u : PUnit} : Runs (modify f : SpecM PUnit) w u w' ↔ f w = w' := by
  show ((.ok ⟨⟩, f w) : Except (Stop Error) PUnit × Window) = (.ok u, w') ↔ _
  simp

omit [Crypto] [Target] in
theorem runs_failIf {c : Prop} [Decidable c] {e : Error} {k : PUnit → SpecM α} :
    Runs (if c then (liftM (fail e : Result PUnit) : SpecM PUnit) >>= k else q) w a w' ↔ ¬ c ∧ Runs q w a w' := by
  split
  · rename_i hc
    simp [hc, runs_bind, runs_lift]
  · rename_i hc
    simp [hc]

end Runs

namespace Asset

/-- The blocks of a window belong to the asset. -/
def WindowOk (asset : Asset P) (w : Window) : Prop :=
  (∀ b ∈ w.current, P.InWindow asset.record b) ∧ ∀ b ∈ w.previous, P.InWindow asset.record b

/-- Some block of the asset holds `byte` at a position. -/
def ByteAt (asset : Asset P) (position : Nat) (byte : UInt8) : Prop :=
  ∃ b, P.InWindow asset.record b ∧ b.1.logicalOffset.toNat ≤ position ∧
    b.2[position - b.1.logicalOffset.toNat]? = some byte

/-- The bytes are what the blocks of the asset hold from a position on. -/
def Holds (asset : Asset P) (position : Nat) (bytes : Bytes) : Prop :=
  ∀ k byte, bytes[k]? = some byte → asset.ByteAt (position + k) byte

theorem Holds.append {asset : Asset P} {position : Nat} {a b : Bytes} (ha : asset.Holds position a)
    (hb : asset.Holds (position + a.length) b) : asset.Holds position (a ++ b) := by
  intro k byte hk
  rw [List.getElem?_append] at hk
  split at hk
  · exact ha k byte hk
  · have := hb _ byte hk
    rwa [Nat.add_assoc, Nat.add_sub_cancel' (by omega)] at this

variable {w w' : Window} {logical requested written left n : Nat}

/-- After `idealFill` the current block covers the position. -/
theorem runs_idealFill (hw : asset.WindowOk w) {u : Unit} (h : Runs (asset.idealFill logical) w u w') :
    asset.WindowOk w' ∧ w'.destination = w.destination ∧
      ∃ b, w'.current = some b ∧ P.InWindow asset.record b ∧ b.1.logicalOffset.toNat ≤ logical := by
  have hcovers : ∀ c : Option (BlockRef × Bytes), (∀ b ∈ c, P.InWindow asset.record b) →
      (c.any fun b => b.1.covers logical) = true →
      ∃ b, c = some b ∧ P.InWindow asset.record b ∧ b.1.logicalOffset.toNat ≤ logical := by
    intro c hc hany
    rcases c with _ | b
    · cases hany
    · exact ⟨b, rfl, hc b rfl, (of_decide_eq_true hany).1⟩
  unfold idealFill at h
  rw [runs_get_bind] at h
  split at h
  · rename_i hcur
    obtain ⟨-, rfl⟩ := runs_pure.1 h
    exact ⟨hw, rfl, hcovers _ hw.1 hcur⟩
  · split at h
    · rename_i hprev
      obtain rfl := runs_set.1 h
      exact ⟨⟨hw.2, hw.1⟩, rfl, hcovers _ hw.2 hprev⟩
    · obtain ⟨r, v₁, hlookup, h⟩ := runs_bind.1 h
      obtain ⟨hr, rfl⟩ := runs_lift.1 hlookup
      obtain ⟨⟨i, hi, -, href⟩, hle, -⟩ := FileRecord.referenceForOffset_eq_ok hr
      obtain ⟨_, v₂, hshift, h⟩ := runs_bind.1 h
      obtain rfl := runs_modify.1 hshift
      obtain ⟨data, v₃, hload, h⟩ := runs_bind.1 h
      obtain ⟨hdata, rfl⟩ := runs_lift.1 hload
      obtain rfl := runs_modify.1 h
      have hin : P.InWindow asset.record (r, data) := ⟨i, hi, href, hdata⟩
      refine ⟨⟨by rintro b ⟨⟩; exact hin, fun b hb => ?_⟩, ?_, ⟨(r, data), rfl, hin, hle⟩⟩
      · simp only [Window.shift] at hb
        split at hb
        · exact hw.1 b hb
        · exact hw.2 b hb
      · unfold Window.shift
        split <;> rfl

/-- One pass copies at least one byte, and the right ones. -/
theorem runs_idealCopyPass (hw : asset.WindowOk w) (hlt : written < requested) {amount : Nat}
    (h : Runs (asset.idealCopyPass requested written logical) w amount w') :
    asset.WindowOk w' ∧ 0 < amount ∧ ∃ bytes : Bytes, bytes.length = amount ∧ amount ≤ requested - written ∧
      w'.destination = putAt w.destination written bytes ∧ asset.Holds logical bytes := by
  obtain ⟨_, v, hfill, h⟩ := runs_bind.1 h
  obtain ⟨hv, hdest, ⟨r, data⟩, hcur, hin, hle⟩ := runs_idealFill hw hfill
  rw [runs_get_bind, hcur] at h
  obtain ⟨within, v₁, hsub, h⟩ := runs_bind.1 h
  obtain ⟨hwithin, rfl⟩ := runs_lift.1 hsub
  obtain ⟨-, rfl⟩ := plainSub_eq_ok.1 hwithin
  obtain ⟨-, h⟩ := runs_failIf.1 h
  obtain ⟨_, v₂, hcheck, h⟩ := runs_bind.1 h
  obtain ⟨hcover, rfl⟩ := runs_lift.1 hcheck
  obtain ⟨_, v₃, hset, h⟩ := runs_bind.1 h
  obtain rfl := runs_modify.1 hset
  obtain ⟨rfl, rfl⟩ := runs_pure.1 h
  have hlt' : logical - r.logicalOffset.toNat < data.length := by
    simp only [validateBlockCoverage, ite_else_fail_eq_ok] at hcover
    exact hcover.1
  have hlen : (slice data (logical - r.logicalOffset.toNat)
      (min (data.length - (logical - r.logicalOffset.toNat)) (requested - written))).length =
        min (data.length - (logical - r.logicalOffset.toNat)) (requested - written) := length_slice (by omega)
  refine ⟨hv, by omega, _, hlen, min_le_right _ _, by rw [← hdest], ?_⟩
  intro k byte hk
  have hk' := (List.getElem?_eq_some_iff.1 hk).1
  rw [hlen] at hk'
  rw [getElem?_slice, if_pos hk'] at hk
  refine ⟨(r, data), hin, by dsimp only at hle ⊢; omega, ?_⟩
  have hindex : logical + k - r.logicalOffset.toNat = logical - r.logicalOffset.toNat + k := by
    dsimp only at hle; omega
  rw [hindex]
  exact hk

/-- The loop fills the destination up to `requested`. -/
theorem runs_idealReadLoop (hw : asset.WindowOk w) (hle : written ≤ requested) (hleft : requested - written ≤ left)
    (hdest : requested ≤ w.destination.length) (h : Runs (asset.idealReadLoop requested left written logical) w n w') :
    n = requested ∧ asset.WindowOk w' ∧ ∃ bytes : Bytes, bytes.length = requested - written ∧
      w'.destination = putAt w.destination written bytes ∧ asset.Holds logical bytes := by
  have hdone : written = requested → w = w' → n = written → n = requested ∧ asset.WindowOk w' ∧ ∃ bytes : Bytes,
      bytes.length = requested - written ∧ w'.destination = putAt w.destination written bytes ∧
        asset.Holds logical bytes := by
    rintro rfl rfl rfl
    refine ⟨rfl, hw, [], by simp, ?_, fun k byte hk => by simp at hk⟩
    simp [putAt]
  induction left generalizing w written logical with
  | zero =>
    obtain ⟨hn, hww⟩ := runs_pure.1 h
    exact hdone (by omega) hww hn.symm
  | succ left ih =>
    rw [idealReadLoop] at h
    split at h
    · rename_i hlt
      obtain ⟨amount, v, hpass, h⟩ := runs_bind.1 h
      obtain ⟨hv, hpos, bytes, hlen, hmax, hvdest, hholds⟩ := runs_idealCopyPass hw hlt hpass
      have hvlen : v.destination.length = w.destination.length := by
        rw [hvdest, length_putAt (by omega)]
      obtain ⟨hn, hw', rest, hrest, hdest', hholds'⟩ := ih hv (by omega) (by omega) (by omega) h (by
        rintro heq rfl rfl
        refine ⟨heq, hv, [], by simp; omega, by simp [putAt], fun k byte hk => by simp at hk⟩)
      refine ⟨hn, hw', bytes ++ rest, by rw [List.length_append]; omega, ?_, hholds.append (by rwa [hlen])⟩
      rw [hdest', hvdest, ← hlen, putAt_putAt (by omega)]
    · obtain ⟨hn, hww⟩ := runs_pure.1 h
      exact hdone (by omega) hww hn.symm

/-- A successful read returns the bytes of the asset, as many as there are and fit, and leaves the rest of
the destination. -/
theorem runs_idealReadAt (hw : asset.WindowOk w) {offset : UInt64} (h : Runs (asset.idealReadAt offset) w n w') :
    offset.toNat ≤ asset.len ∧ n = min (asset.len - offset.toNat) w.destination.length ∧ asset.WindowOk w' ∧
      ∃ bytes : Bytes, bytes.length = n ∧ w'.destination = bytes ++ w.destination.drop n ∧
        asset.Holds offset.toNat bytes := by
  obtain ⟨hoff, h⟩ := runs_failIf.1 h
  rw [runs_get_bind] at h
  obtain ⟨-, h⟩ := runs_failIf.1 h
  refine ⟨Nat.not_lt.1 hoff, ?_⟩
  split at h
  · rename_i hzero
    obtain ⟨rfl, rfl⟩ := runs_pure.1 h
    exact ⟨hzero.symm, hw, [], rfl, rfl, fun k byte hk => by simp at hk⟩
  · obtain ⟨rfl, hw', bytes, hlen, hdest, hholds⟩ :=
      runs_idealReadLoop hw (Nat.zero_le _) (Nat.sub_le _ _) (min_le_right _ _) h
    refine ⟨rfl, hw', bytes, by omega, ?_, hholds⟩
    rw [hdest, putAt, List.take_zero, List.nil_append, Nat.zero_add, hlen, Nat.sub_zero]

end Asset

end

end Hakutaku
