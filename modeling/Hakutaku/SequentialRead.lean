import Hakutaku.ReaderSystem

/-!
# Reading an asset from its start

What a reader without caches and failures reads, byte by byte. A read of `read_at_buffered` takes the same bytes as a walk
of single bytes through the same window, so reads one behind the other give the same content in whatever pieces.
-/

namespace Hakutaku
open Wire

section
variable [Crypto] [Target] {P : PackageInner}

/-- The two blocks of a streaming window. -/
abbrev Blocks : Type := Option (BlockRef × Bytes) × Option (BlockRef × Bytes)

def Window.blocks (w : Window) : Blocks := (w.current, w.previous)

omit [Crypto] [Target] in
theorem Window.eq_of_blocks {w w' : Window} (hblocks : w.blocks = w'.blocks) (hdest : w'.destination = w.destination) :
    w = w' := by
  rcases w with ⟨current, previous, destination⟩
  rcases w' with ⟨current', previous', destination'⟩
  cases hblocks
  cases hdest
  rfl

namespace Asset
variable (asset : Asset P)

/-- `idealFill` on the blocks of a window. -/
def fillBlocks (position : Nat) (v : Blocks) : Result Blocks :=
  if v.1.any fun b => b.1.covers position then .ok v
  else if v.2.any fun b => b.1.covers position then .ok (v.2, v.1)
  else do
    let reference ← asset.record.referenceForOffset P.idealRef position
    let data ← P.idealBlock reference
    return (some (reference, data), if asset.record.access = .streaming then v.1 else v.2)

/-- The byte at a position. -/
def byteFrom (position : Nat) (v : Blocks) : Result (UInt8 × Blocks) := do
  let v ← asset.fillBlocks position v
  match v.1 with
  | none => panicked "read block loaded above"
  | some (reference, bytes) =>
    let within ← plainSub position reference.logicalOffset.toNat
    let byte ← okOr bytes[within]? (.invalidFormat "block does not cover requested offset")
    return (byte, v)

/-- That many bytes from a position on, one after the other. -/
def bytesFrom : Nat → Nat → Blocks → Result (Bytes × Blocks)
  | _, 0, v => return ([], v)
  | position, count + 1, v => do
    let (byte, v) ← asset.byteFrom position v
    let (rest, v) ← bytesFrom (position + 1) count v
    return (byte :: rest, v)

/-- The bytes of the asset, read from its start. -/
def contents : Result Bytes := (asset.bytesFrom 0 asset.len (none, none)).map Prod.fst

end Asset

variable {asset : Asset P} {w w' : Window} {v v' : Blocks} {position count : Nat} {bytes : Bytes}

namespace Asset

theorem bytesFrom_add (position a b : Nat) (v : Blocks) :
    asset.bytesFrom position (a + b) v = do
      let (left, v) ← asset.bytesFrom position a v
      let (right, v) ← asset.bytesFrom (position + a) b v
      return (left ++ right, v) := by
  induction a generalizing position v with
  | zero =>
    simp only [Nat.zero_add, Nat.add_zero, bytesFrom, pure_eq_ok, ok_bind]
    rcases asset.bytesFrom position b v with _ | ⟨right, v'⟩
    · rfl
    · rfl
  | succ a ih =>
    rw [Nat.add_right_comm, bytesFrom, bytesFrom]
    rcases asset.byteFrom position v with _ | ⟨byte, v₁⟩
    · rfl
    · simp only [ok_bind, ih, Nat.add_right_comm position 1 a, Nat.add_assoc position a 1]
      rcases asset.bytesFrom (position + 1) a v₁ with _ | ⟨left, v₂⟩
      · rfl
      · simp only [ok_bind, pure_eq_ok]
        rcases asset.bytesFrom (position + (a + 1)) b v₂ with _ | ⟨right, v₃⟩
        · rfl
        · rfl

theorem length_bytesFrom (h : asset.bytesFrom position count v = .ok (bytes, v')) : bytes.length = count := by
  induction count generalizing position v bytes with
  | zero =>
    cases h
    rfl
  | succ count ih =>
    simp only [bytesFrom, bind_eq_ok, pure_eq_ok] at h
    obtain ⟨⟨byte, v₁⟩, -, ⟨rest, v₂⟩, hrest, h⟩ := h
    cases h
    rw [List.length_cons, ih hrest]

/-- A block that covers the position stays the current one. -/
theorem fillBlocks_current {r : BlockRef} {data : Bytes} (hcur : v.1 = some (r, data)) (hlen : data.length = r.plainLen.toNat)
    (hle : r.logicalOffset.toNat ≤ position) (hin : position - r.logicalOffset.toNat < data.length)
    (hfit : position + 1 < u64Size) : asset.fillBlocks position v = .ok v := by
  have hcovers : (v.1.any fun b => b.1.covers position) = true := by
    rw [hcur]
    refine decide_eq_true ⟨hle, ?_⟩
    show position < min (r.logicalOffset.toNat + r.plainLen.toNat) (u64Size - 1)
    omega
  exact if_pos hcovers

/-- A byte the current block covers. -/
theorem byteFrom_current {r : BlockRef} {data : Bytes} (hcur : v.1 = some (r, data)) (hlen : data.length = r.plainLen.toNat)
    (hle : r.logicalOffset.toNat ≤ position) (hin : position - r.logicalOffset.toNat < data.length)
    (hfit : position + 1 < u64Size) : ∃ byte, data[position - r.logicalOffset.toNat]? = some byte ∧
      asset.byteFrom position v = .ok (byte, v) := by
  refine ⟨_, List.getElem?_eq_getElem hin, ?_⟩
  rw [byteFrom, fillBlocks_current hcur hlen hle hin hfit]
  simp only [ok_bind, hcur, plainSub_of_le hle, List.getElem?_eq_getElem hin, okOr, pure_eq_ok]

/-- Where the current block covers them, the bytes are its. -/
theorem bytesFrom_current {r : BlockRef} {data : Bytes} (hcur : v.1 = some (r, data)) (hlen : data.length = r.plainLen.toNat)
    (hle : r.logicalOffset.toNat ≤ position) (hin : position - r.logicalOffset.toNat + count ≤ data.length)
    (hfit : position + count < u64Size) :
    asset.bytesFrom position count v = .ok (slice data (position - r.logicalOffset.toNat) count, v) := by
  induction count generalizing position with
  | zero =>
    rw [slice_zero_len]
    rfl
  | succ count ih =>
    obtain ⟨byte, hbyte, hfrom⟩ := asset.byteFrom_current hcur hlen hle (by omega) (by omega)
    rw [bytesFrom, hfrom, ok_bind]
    dsimp only
    rw [ih (by omega) (by omega) (by omega)]
    have hnext : position + 1 - r.logicalOffset.toNat = position - r.logicalOffset.toNat + 1 := by omega
    have hcons : slice data (position - r.logicalOffset.toNat) (count + 1) =
        byte :: slice data (position - r.logicalOffset.toNat + 1) count := by
      rw [Nat.add_comm count 1, slice_add]
      simp only [slice, List.take_one, List.head?_drop, hbyte]
      rfl
    rw [hnext, hcons]
    rfl

/-! ### Against the loop of `read_at_buffered` -/

theorem runs_idealFill_iff {u : Unit} : Runs (asset.idealFill position) w u w' ↔
    asset.fillBlocks position w.blocks = .ok w'.blocks ∧ w'.destination = w.destination := by
  rcases w with ⟨current, previous, destination⟩
  rcases w' with ⟨current', previous', destination'⟩
  show _ ↔ asset.fillBlocks position (current, previous) = .ok (current', previous') ∧ destination' = destination
  unfold idealFill
  rw [runs_get_bind]
  split
  · rename_i hcur
    have hfill : asset.fillBlocks position (current, previous) = .ok (current, previous) := if_pos hcur
    rw [hfill, runs_pure, Except.ok.injEq]
    simp only [true_and, Window.mk.injEq, Prod.mk.injEq, and_assoc, @eq_comm _ destination]
  · rename_i hcur
    split
    · rename_i hprev
      have hfill : asset.fillBlocks position (current, previous) = .ok (previous, current) :=
        (if_neg hcur).trans (if_pos hprev)
      rw [hfill, runs_set, Except.ok.injEq]
      simp only [Window.mk.injEq, Prod.mk.injEq, and_assoc, @eq_comm _ destination]
    · rename_i hprev
      have hfill : asset.fillBlocks position (current, previous) = do
          let reference ← asset.record.referenceForOffset P.idealRef position
          let data ← P.idealBlock reference
          return (some (reference, data), if asset.record.access = .streaming then current else previous) :=
        (if_neg hcur).trans (if_neg hprev)
      rw [hfill]
      simp only [runs_bind, runs_lift, runs_modify, bind_eq_ok, pure_eq_ok, Except.ok.injEq, Window.shift]
      constructor
      · rintro ⟨r, _, ⟨hr, rfl⟩, -, _, rfl, data, _, ⟨hdata, rfl⟩, h⟩
        split at h
        · rename_i hstream
          cases h
          exact ⟨⟨r, hr, data, hdata, by rw [if_pos hstream]⟩, rfl⟩
        · rename_i hother
          cases h
          exact ⟨⟨r, hr, data, hdata, by rw [if_neg hother]⟩, rfl⟩
      · rintro ⟨⟨r, hr, data, hdata, h⟩, rfl⟩
        refine ⟨r, _, ⟨hr, rfl⟩, ⟨⟩, _, rfl, data, _, ⟨hdata, rfl⟩, ?_⟩
        cases h
        split <;> rfl

variable {requested written left logical amount n : Nat}

theorem length_data (hw : asset.WindowOk w) {r : BlockRef} {data : Bytes} (hcur : w.current = some (r, data)) :
    data.length = r.plainLen.toNat := by
  obtain ⟨-, -, -, hdata⟩ := hw.1 _ hcur
  exact length_idealBlock hdata

/-- A pass copies the bytes of the walk. -/
theorem runs_idealCopyPass_bytes (hw : asset.WindowOk w) (hlt : written < requested) (hfit : logical + (requested - written) < u64Size)
    (h : Runs (asset.idealCopyPass requested written logical) w amount w') :
    ∃ bytes, asset.bytesFrom logical amount w.blocks = .ok (bytes, w'.blocks) ∧
      w'.destination = putAt w.destination written bytes := by
  obtain ⟨_, v, hfill, h⟩ := runs_bind.1 h
  obtain ⟨hv, hdest, ⟨r, data⟩, hcur, -, hle⟩ := runs_idealFill hw hfill
  obtain ⟨hblocks, -⟩ := runs_idealFill_iff.1 hfill
  rw [runs_get_bind, hcur] at h
  obtain ⟨within, v₁, hsub, h⟩ := runs_bind.1 h
  obtain ⟨hwithin, rfl⟩ := runs_lift.1 hsub
  obtain ⟨-, rfl⟩ := plainSub_eq_ok.1 hwithin
  obtain ⟨-, h⟩ := runs_failIf.1 h
  obtain ⟨_, v₂, hcheck, h⟩ := runs_bind.1 h
  obtain ⟨hcover, rfl⟩ := runs_lift.1 hcheck
  obtain ⟨_, v₃, hset, h⟩ := runs_bind.1 h
  obtain rfl := runs_modify.1 hset
  obtain ⟨rfl, rfl⟩ := runs_pure.1 h
  refine ⟨_, ?_, by rw [← hdest]⟩
  have hin : logical - r.logicalOffset.toNat < data.length := by
    simp only [validateBlockCoverage, ite_else_fail_eq_ok] at hcover
    exact hcover.1
  have hlen := length_data hv hcur
  obtain ⟨m, hm⟩ : ∃ m, min (data.length - (logical - r.logicalOffset.toNat)) (requested - written) = m + 1 :=
    ⟨min (data.length - (logical - r.logicalOffset.toNat)) (requested - written) - 1, by omega⟩
  have hfrom : asset.byteFrom logical w.blocks = asset.byteFrom logical v.blocks := by
    rw [byteFrom, byteFrom, hblocks, fillBlocks_current hcur hlen hle hin (by omega)]
  have hwalk : asset.bytesFrom logical (m + 1) v.blocks =
      .ok (slice data (logical - r.logicalOffset.toNat) (m + 1), v.blocks) :=
    bytesFrom_current hcur hlen hle (by omega) (by omega)
  rw [hm, bytesFrom, hfrom]
  exact hwalk

/-- Where the walk goes on, so does the loop. -/
theorem exists_runs_idealCopyPass (hw : asset.WindowOk w) (hlt : written < requested)
    (h : asset.bytesFrom logical (requested - written) w.blocks = .ok (bytes, v)) :
    ∃ amount w', Runs (asset.idealCopyPass requested written logical) w amount w' := by
  obtain ⟨m, hm⟩ : ∃ m, requested - written = m + 1 := ⟨requested - written - 1, by omega⟩
  rw [hm, bytesFrom] at h
  simp only [bind_eq_ok] at h
  obtain ⟨⟨byte, v₁⟩, hbyte, -⟩ := h
  simp only [byteFrom, bind_eq_ok] at hbyte
  obtain ⟨v₁, hfill, hbyte⟩ := hbyte
  have hruns : Runs (asset.idealFill logical) w () ⟨v₁.1, v₁.2, w.destination⟩ := runs_idealFill_iff.2 ⟨hfill, rfl⟩
  obtain ⟨hok, -, ⟨r, data⟩, hcur, -, hle⟩ := runs_idealFill hw hruns
  have hcur' : v₁.1 = some (r, data) := hcur
  simp only [hcur', bind_eq_ok, plainSub_eq_ok, okOr_eq_ok] at hbyte
  obtain ⟨_, ⟨-, rfl⟩, _, hget, -⟩ := hbyte
  have hin := (List.getElem?_eq_some_iff.1 hget).1
  have hlen := length_data hok hcur
  have hsmall : logical - r.logicalOffset.toNat < usizeSize :=
    (hin.trans_eq hlen).trans (r.plainLen.toNat_lt.trans_le le_usizeSize)
  have hcover : validateBlockCoverage (logical - r.logicalOffset.toNat) data.length = .ok () := if_pos hin
  refine ⟨min (data.length - (logical - r.logicalOffset.toNat)) (requested - written), ⟨v₁.1, v₁.2, putAt w.destination
    written (slice data (logical - r.logicalOffset.toNat) (min (data.length - (logical - r.logicalOffset.toNat))
      (requested - written)))⟩, runs_bind.2 ⟨(), _, hruns, ?_⟩⟩
  rw [runs_get_bind, hcur]
  refine runs_bind.2 ⟨_, _, runs_lift.2 ⟨plainSub_of_le hle, rfl⟩, runs_failIf.2 ⟨Nat.not_le.2 hsmall, ?_⟩⟩
  exact runs_bind.2 ⟨(), _, runs_lift.2 ⟨hcover, rfl⟩, runs_bind.2 ⟨⟨⟩, _, runs_modify.2 rfl, runs_pure.2 ⟨rfl, rfl⟩⟩⟩

/-- The loop reads the bytes of the walk, and runs to its end iff the walk does. -/
theorem runs_idealReadLoop_iff (hw : asset.WindowOk w) (hle : written ≤ requested) (hleft : requested - written ≤ left)
    (hdest : requested ≤ w.destination.length) (hfit : logical + (requested - written) < u64Size) :
    Runs (asset.idealReadLoop requested left written logical) w n w' ↔ n = requested ∧ ∃ bytes,
      asset.bytesFrom logical (requested - written) w.blocks = .ok (bytes, w'.blocks) ∧
        w'.destination = putAt w.destination written bytes := by
  have hdone : ∀ {w : Window} {written logical : Nat}, written = requested → requested ≤ w.destination.length →
      (Runs (pure written : SpecM Nat) w n w' ↔ n = requested ∧ ∃ bytes, asset.bytesFrom logical (requested - written)
        w.blocks = .ok (bytes, w'.blocks) ∧ w'.destination = putAt w.destination written bytes) := by
    rintro w written logical rfl hdest
    rw [runs_pure, Nat.sub_self, bytesFrom]
    constructor
    · rintro ⟨rfl, rfl⟩
      exact ⟨rfl, [], rfl, by simp [putAt]⟩
    · rintro ⟨rfl, bytes, hbytes, hdest'⟩
      obtain ⟨rfl, hblocks⟩ := Prod.mk.inj (Except.ok.inj hbytes)
      refine ⟨rfl, Window.eq_of_blocks hblocks ?_⟩
      rw [hdest']
      simp [putAt]
  induction left generalizing w written logical with
  | zero => exact hdone (by omega) hdest
  | succ left ih =>
    rw [idealReadLoop]
    split
    · rename_i hlt
      rw [runs_bind]
      constructor
      · rintro ⟨amount, u, hpass, hloop⟩
        obtain ⟨hu, hpos, copied, hcopied, hmax, hudest, -⟩ := runs_idealCopyPass hw hlt hpass
        obtain ⟨first, hfirst, hfirstdest⟩ := runs_idealCopyPass_bytes hw hlt hfit hpass
        have hfirstlen := length_bytesFrom hfirst
        have hulen : u.destination.length = w.destination.length := by rw [hfirstdest, length_putAt (by omega)]
        obtain ⟨hn, rest, hrest, hrestdest⟩ := (ih hu (by omega) (by omega) (by omega) (by omega)).1 hloop
        have hrestlen := length_bytesFrom hrest
        have hsplit : requested - written = amount + (requested - (written + amount)) := by omega
        refine ⟨hn, first ++ rest, ?_, ?_⟩
        · rw [hsplit, bytesFrom_add, hfirst, ok_bind]
          dsimp only
          rw [hrest]
          rfl
        · rw [hrestdest, hfirstdest, ← hfirstlen, putAt_putAt (by omega)]
      · rintro ⟨hn, bytes, hbytes, hdest'⟩
        obtain ⟨amount, u, hpass⟩ := exists_runs_idealCopyPass hw hlt hbytes
        obtain ⟨hu, hpos, copied, hcopied, hmax, hudest, -⟩ := runs_idealCopyPass hw hlt hpass
        obtain ⟨first, hfirst, hfirstdest⟩ := runs_idealCopyPass_bytes hw hlt hfit hpass
        have hfirstlen := length_bytesFrom hfirst
        have hulen : u.destination.length = w.destination.length := by rw [hfirstdest, length_putAt (by omega)]
        have hsplit : requested - written = amount + (requested - (written + amount)) := by omega
        rw [hsplit, bytesFrom_add, hfirst, ok_bind] at hbytes
        simp only [bind_eq_ok, pure_eq_ok, Except.ok.injEq, Prod.mk.injEq] at hbytes
        obtain ⟨⟨rest, v⟩, hrest, rfl, rfl⟩ := hbytes
        have hrestlen := length_bytesFrom hrest
        refine ⟨amount, u, hpass, (ih hu (by omega) (by omega) (by omega) (by omega)).2 ⟨hn, rest, hrest, ?_⟩⟩
        rw [hdest', hfirstdest, ← hfirstlen, putAt_putAt (by omega)]
    · rename_i hge
      exact hdone (by omega) hdest

/-- A read succeeds iff the walk over its bytes does, and returns them. -/
theorem runs_idealReadAt_iff (hw : asset.WindowOk w) {offset : UInt64} (hoffset : offset.toNat ≤ asset.len)
    (hsmall : w.destination.length < usizeSize) :
    Runs (asset.idealReadAt offset) w n w' ↔ n = min (asset.len - offset.toNat) w.destination.length ∧ ∃ bytes,
      asset.bytesFrom offset.toNat n w.blocks = .ok (bytes, w'.blocks) ∧
        w'.destination = bytes ++ w.destination.drop n := by
  have hlen : asset.len < u64Size := asset.record.logicalLen.toNat_lt
  unfold idealReadAt
  rw [runs_failIf, runs_get_bind, runs_failIf]
  rw [and_iff_right (Nat.not_lt.2 hoffset), and_iff_right (by omega)]
  split
  · rename_i hzero
    rw [runs_pure, hzero]
    constructor
    · rintro ⟨rfl, rfl⟩
      exact ⟨rfl, [], rfl, rfl⟩
    · rintro ⟨rfl, bytes, hbytes, hdest'⟩
      obtain ⟨rfl, hblocks⟩ := Prod.mk.inj (Except.ok.inj hbytes)
      exact ⟨rfl, Window.eq_of_blocks hblocks hdest'⟩
  · rw [runs_idealReadLoop_iff hw (Nat.zero_le _) (Nat.sub_le _ _) (min_le_right _ _) (by omega), Nat.sub_zero]
    constructor
    · rintro ⟨rfl, bytes, hbytes, hdest'⟩
      refine ⟨rfl, bytes, hbytes, ?_⟩
      rw [hdest', putAt, List.take_zero, List.nil_append, Nat.zero_add, length_bytesFrom hbytes]
    · rintro ⟨rfl, bytes, hbytes, hdest'⟩
      refine ⟨rfl, bytes, hbytes, ?_⟩
      rw [hdest', putAt, List.take_zero, List.nil_append, Nat.zero_add, length_bytesFrom hbytes]

/-- What the walk reads of a tiled asset is its content. -/
theorem contents_eq_plaintext {start : Nat → Nat} (htiled : asset.record.Tiled P.idealRef start)
    (hsmall : asset.len < usizeSize) (h : asset.contents = .ok bytes) : bytes = asset.plaintext := by
  rw [contents] at h
  rcases hbytes : asset.bytesFrom 0 asset.len (none, none) with e | ⟨bytes', v⟩
  · rw [hbytes] at h
    cases h
  · rw [hbytes] at h
    obtain rfl : bytes' = bytes := Except.ok.inj h
    have hwindow : asset.WindowOk (freshWindow (zeros asset.len)) := ⟨nofun, nofun⟩
    have hdest : (freshWindow (zeros asset.len)).destination.length = asset.len := length_zeros _
    have hruns : Runs (asset.idealReadAt 0) (freshWindow (zeros asset.len)) asset.len ⟨v.1, v.2, bytes'⟩ := by
      refine (runs_idealReadAt_iff hwindow (Nat.zero_le _) (hdest.trans_lt hsmall)).2 ⟨?_, bytes', hbytes, ?_⟩
      · rw [hdest]
        exact (min_self _).symm
      · rw [List.drop_eq_nil_of_le hdest.le, List.append_nil]
    have hreading : asset.Reading 0 (freshWindow (zeros asset.len)) (.ok asset.len) ⟨v.1, v.2, bytes'⟩ := by
      refine ⟨hwindow, ?_, fun hlt => absurd hlt (Nat.not_lt_zero _)⟩
      rintro n ⟨⟩
      exact hruns
    exact hreading.eq_plaintext rfl htiled

end Asset
end
end Hakutaku
