import Hakutaku.CatalogCodec
import Hakutaku.Lib.Probe

/-!
# The path index (`packer.rs: build_path_slots`, `format.rs: Catalog::find_file`)

The publisher's open-addressed table and the reader's lookup, which compute the same probe sequence
separately. `pathTable` reads a slot list as a probing table; `buildPathSlots_spec` is the invariant
the builder leaves, `findFile_of_table` the lookup on any table with that invariant.
-/

namespace Hakutaku
open Probe

/-! ### The builder -/

section Builder
variable [Target] [Crypto]

/-- The insertion loop from probe `probe` on, with `left` probes to go. -/
def placeSlot (slots : List PathSlot) (hash : UInt32) (fileIndex mask : Nat) :
    Nat → Nat → PackResult (List PathSlot)
  | _, 0 => fail (.invalidInput "path index is full")
  | probe, left + 1 =>
    let slot := (hash.toNat + probe % u32Size) % u32Size &&& mask
    match slots[slot]? with
    | none => panicked "index out of bounds"
    | some current =>
      if current.fileIndex = emptyPathSlot then
        if u32Size ≤ fileIndex then fail (.invalidInput "too many files")
        else .ok (slots.set slot { hash, fileIndex := UInt32.ofNat fileIndex })
      else placeSlot slots hash fileIndex mask (probe + 1) left

/-- The loop over the paths, from file index `fileIndex` on. -/
def placePaths (pathKey : ByteArr 32) (mask slotCount : Nat) :
    List PathSlot → Nat → List String → PackResult (List PathSlot)
  | slots, _, [] => .ok slots
  | slots, fileIndex, path :: paths => do
    let slots ← placeSlot slots (pathFingerprint pathKey (strBytes path)) fileIndex mask 0 slotCount
    placePaths pathKey mask slotCount slots (fileIndex + 1) paths

/-- `usize::checked_next_power_of_two`. -/
def checkedNextPowerOfTwo (n : Nat) : Option Nat :=
  if 2 ^ Nat.clog 2 n < usizeSize then some (2 ^ Nat.clog 2 n) else none

def buildPathSlots (paths : List String) (files : List FileRecord) (pathKey : ByteArr 32) :
    PackResult (List PathSlot) := do
  if paths.length ≠ files.length then fail (.invalidInput "path/file count mismatch")
  let desired := max (min (paths.length * 2) (usizeSize - 1)) 1
  let slotCount ← okOr (checkedNextPowerOfTwo desired) (.invalidInput "path index is too large")
  let mask ← plainSub slotCount 1
  placePaths pathKey mask slotCount (List.replicate slotCount { hash := 0, fileIndex := emptyPathSlot }) 0 paths

end Builder

/-! ### The table of a slot list -/

/-- The file index in a slot, unless it is empty. -/
def pathTable (slots : List PathSlot) (s : Nat) : Option Nat :=
  match slots[s]? with
  | some r => if r.fileIndex = emptyPathSlot then none else some r.fileIndex.toNat
  | none => none

theorem pathTable_eq_some {slots : List PathSlot} {s i : Nat} :
    pathTable slots s = some i ↔ ∃ r, slots[s]? = some r ∧ r.fileIndex ≠ emptyPathSlot ∧ r.fileIndex.toNat = i := by
  unfold pathTable
  split
  · rename_i r hr; simp [hr]
  · rename_i hr; simp [hr]

theorem pathTable_eq_none {slots : List PathSlot} {s : Nat} (hs : s < slots.length) :
    pathTable slots s = none ↔ ∃ r, slots[s]? = some r ∧ r.fileIndex = emptyPathSlot := by
  simp [pathTable, List.getElem?_eq_getElem hs]

theorem ofNat_ne_emptyPathSlot {i : Nat} (hi : i < 2 ^ 32 - 1) : UInt32.ofNat i ≠ emptyPathSlot := by
  intro h
  have := congrArg UInt32.toNat h
  rw [UInt32.toNat_ofNat_of_lt' (by show i < 2 ^ 32; omega)] at this
  have he : emptyPathSlot.toNat = 2 ^ 32 - 1 := rfl
  omega

theorem pathTable_set {slots : List PathSlot} {s i : Nat} (hash : UInt32) (hs : s < slots.length)
    (hi : i < 2 ^ 32 - 1) :
    pathTable (slots.set s { hash, fileIndex := UInt32.ofNat i }) = Function.update (pathTable slots) s (some i) := by
  funext t
  by_cases hts : t = s
  · subst hts
    have htoNat : (UInt32.ofNat i).toNat = i := UInt32.toNat_ofNat_of_lt' (by show i < 2 ^ 32; omega)
    simp [pathTable, List.getElem?_set_self hs, ofNat_ne_emptyPathSlot hi, htoNat]
  · rw [Function.update_of_ne hts, pathTable, pathTable, List.getElem?_set_ne (Ne.symm hts)]

/-! ### The invariant of the builder -/

variable [Crypto]

/-- The home of file `i`: the fingerprint of its path. -/
def home (pathKey : ByteArr 32) (paths : List String) (i : Nat) : Nat :=
  match paths[i]? with
  | some p => (pathFingerprint pathKey (strBytes p)).toNat
  | none => 0

/-- The first `m` paths are in the table of `2 ^ k` slots, each with its fingerprint. -/
structure Indexed (pathKey : ByteArr 32) (paths : List String) (k m : Nat) (slots : List PathSlot) : Prop where
  length : slots.length = 2 ^ k
  probed : Probed (2 ^ k) (home pathKey paths) (pathTable slots)
  holds : Holds (2 ^ k) (pathTable slots) m
  hash : ∀ (s : Nat) (r : PathSlot) (p : String), slots[s]? = some r → r.fileIndex ≠ emptyPathSlot → paths[r.fileIndex.toNat]? = some p →
    r.hash = pathFingerprint pathKey (strBytes p)

omit [Crypto] in
/-- The insertion loop puts the entry into the first free slot of its probe sequence. -/
theorem placeSlot_eq {slots : List PathSlot} {hash : UInt32} {i k j : Nat} (hk : k ≤ 32) (hlen : slots.length = 2 ^ k)
    (hj : j < 2 ^ k) (hfree : pathTable slots (slot (2 ^ k) hash.toNat j) = none)
    (hbusy : Busy (2 ^ k) (pathTable slots) hash.toNat j) (hi : i < u32Size) :
    placeSlot slots hash i (2 ^ k - 1) 0 (2 ^ k) =
      .ok (slots.set (slot (2 ^ k) hash.toNat j) { hash, fileIndex := UInt32.ofNat i }) := by
  have hslot : ∀ probe < 2 ^ k, (hash.toNat + probe % u32Size) % u32Size &&& (2 ^ k - 1) = slot (2 ^ k) hash.toNat probe := by
    intro probe hp
    have h32 : (2 : Nat) ^ k ≤ 2 ^ 32 := Nat.pow_le_pow_right (by decide) hk
    rw [Nat.mod_eq_of_lt (hp.trans_le h32), wrapping_and_mask hk, slot]
  -- From probe `p ≤ j` on the loop walks over occupied slots up to probe `j`.
  have walk : ∀ left p, p ≤ j → j < p + left → placeSlot slots hash i (2 ^ k - 1) p left =
      .ok (slots.set (slot (2 ^ k) hash.toNat j) { hash, fileIndex := UInt32.ofNat i }) := by
    intro left
    induction left with
    | zero => intro p h1 h2; omega
    | succ left ih =>
      intro p h1 h2
      have hlt : slot (2 ^ k) hash.toNat p < slots.length := hlen ▸ slot_lt (Nat.two_pow_pos k) _ _
      simp only [placeSlot]
      rw [hslot p (h1.trans_lt hj), List.getElem?_eq_getElem hlt]
      rcases h1.lt_or_eq with hlt' | rfl
      · have hocc := hbusy p hlt'
        obtain ⟨i', hi'⟩ := Option.isSome_iff_exists.1 hocc
        obtain ⟨r, hr, hne, -⟩ := pathTable_eq_some.1 hi'
        rw [List.getElem?_eq_getElem hlt, Option.some.injEq] at hr
        simp only [hr, if_neg hne]
        exact ih (p + 1) hlt' (by omega)
      · obtain ⟨r, hr, hempty⟩ := (pathTable_eq_none hlt).1 hfree
        rw [List.getElem?_eq_getElem hlt, Option.some.injEq] at hr
        simp only [hr, if_pos hempty, if_neg (Nat.not_le.2 hi)]
  exact walk (2 ^ k) 0 (Nat.zero_le j) (by omega)

/-- One path more. -/
theorem Indexed.place {pathKey : ByteArr 32} {paths : List String} {k m : Nat} {slots : List PathSlot} {p : String}
    (h : Indexed pathKey paths k m slots) (hk : k ≤ 32) (hp : paths[m]? = some p) (hm : m < 2 ^ k)
    (hm32 : m < 2 ^ 32 - 1) :
    ∃ slots', placeSlot slots (pathFingerprint pathKey (strBytes p)) m (2 ^ k - 1) 0 (2 ^ k) = .ok slots' ∧
      Indexed pathKey paths k (m + 1) slots' := by
  have hhome : home pathKey paths m = (pathFingerprint pathKey (strBytes p)).toNat := by simp [home, hp]
  obtain ⟨j, hj, hfree, hbusy⟩ := exists_first_free (h.holds.exists_free hm) (home pathKey paths m)
  have hlt : slot (2 ^ k) (home pathKey paths m) j < slots.length := h.length ▸ slot_lt (Nat.two_pow_pos k) _ _
  have hset := pathTable_set (pathFingerprint pathKey (strBytes p)) hlt hm32
  refine ⟨_, hhome ▸ placeSlot_eq hk h.length hj (hhome ▸ hfree) (hhome ▸ hbusy) (by show m < 2 ^ 32; omega), ?_⟩
  refine ⟨by rw [List.length_set, h.length], ?_, ?_, fun s r q hr hne hq => ?_⟩
  · rw [hset]; exact h.probed.insert hj hbusy
  · rw [hset]; exact h.holds.insert (slot_lt (Nat.two_pow_pos k) _ _) hfree
  · by_cases hs : s = slot (2 ^ k) (home pathKey paths m) j
    · rw [hs, List.getElem?_set_self hlt, Option.some.injEq] at hr
      subst hr
      rw [UInt32.toNat_ofNat_of_lt' (by show m < 2 ^ 32; omega), hp, Option.some.injEq] at hq
      rw [hq]
    · rw [List.getElem?_set_ne (Ne.symm hs)] at hr
      exact h.hash s r q hr hne hq

theorem Indexed.placeAll {pathKey : ByteArr 32} {paths : List String} {k : Nat} (hk : k ≤ 32)
    (hload : paths.length < 2 ^ k) (hsmall : paths.length < 2 ^ 32 - 1) {rest : List String} {m : Nat}
    {slots : List PathSlot} (hrest : paths.drop m = rest) (hm : m ≤ paths.length)
    (h : Indexed pathKey paths k m slots) :
    ∃ slots', placePaths pathKey (2 ^ k - 1) (2 ^ k) slots m rest = .ok slots' ∧
      Indexed pathKey paths k paths.length slots' := by
  induction rest generalizing m slots with
  | nil =>
    have : m = paths.length := by
      have := congrArg List.length hrest
      simp only [List.length_drop, List.length_nil] at this
      omega
    exact ⟨slots, rfl, this ▸ h⟩
  | cons p rest ih =>
    have hp : paths[m]? = some p := by rw [← List.head?_drop, hrest]; rfl
    have hlt : m < paths.length := (List.getElem?_eq_some_iff.1 hp).1
    obtain ⟨slots', h1, h2⟩ := h.place hk hp (by omega) (by omega)
    have hdrop : paths.drop (m + 1) = rest := by rw [← List.drop_drop, hrest]; rfl
    obtain ⟨slots'', h3, h4⟩ := ih hdrop hlt h2
    exact ⟨slots'', by rw [placePaths, h1, ok_bind, h3], h4⟩

omit [Crypto] in
theorem pathTable_replicate (n : Nat) :
    pathTable (List.replicate n { hash := 0, fileIndex := emptyPathSlot }) = fun _ => none := by
  funext s
  unfold pathTable
  split
  · rename_i r hr
    obtain rfl := List.eq_of_mem_replicate (List.mem_of_getElem? hr)
    rfl
  · rfl

/-- The builder succeeds and leaves every path indexed, with the table at most half full. -/
theorem buildPathSlots_spec [Target] (paths : List String) (files : List FileRecord) (pathKey : ByteArr 32)
    (hlen : paths.length = files.length) (hmax : paths.length ≤ maxFiles) :
    ∃ k slots, buildPathSlots paths files pathKey = .ok slots ∧ k ≤ 32 ∧ paths.length < 2 ^ k ∧
      Indexed pathKey paths k paths.length slots := by
  have hu := le_usizeSize
  simp only [maxFiles] at hmax
  have hdesired : max (min (files.length * 2) (usizeSize - 1)) 1 = max (files.length * 2) 1 := by
    rw [min_eq_left (by omega)]
  obtain ⟨k, hk⟩ : ∃ k, k = Nat.clog 2 (max (files.length * 2) 1) := ⟨_, rfl⟩
  have hge : max (files.length * 2) 1 ≤ 2 ^ k := hk ▸ Nat.le_pow_clog (by decide) _
  have hk21 : k ≤ 21 := hk ▸ Nat.clog_le_of_le_pow (by norm_num; omega)
  have hload : paths.length < 2 ^ k := by omega
  have hpow : (2 : Nat) ^ k ≤ 2 ^ 21 := Nat.pow_le_pow_right (by decide) hk21
  have hempty : Indexed pathKey paths k 0
      (List.replicate (2 ^ k) { hash := 0, fileIndex := emptyPathSlot }) := by
    refine ⟨List.length_replicate, ?_, ?_, fun s r p hr hne => ?_⟩
    · rw [pathTable_replicate]; exact Probed.empty
    · rw [pathTable_replicate]; exact Holds.empty
    · obtain rfl := List.eq_of_mem_replicate (List.mem_of_getElem? hr)
      exact absurd rfl hne
  obtain ⟨slots, h1, h2⟩ := hempty.placeAll (by omega) hload (by omega) List.drop_zero (Nat.zero_le _)
  refine ⟨k, slots, ?_, by omega, hload, h2⟩
  have hnext : checkedNextPowerOfTwo (max (files.length * 2) 1) = some (2 ^ k) := by
    rw [checkedNextPowerOfTwo, ← hk, if_pos (by omega)]
  simp only [buildPathSlots, hlen, ne_eq, not_true, if_false, hdesired, hnext, okOr, ok_bind,
    plainSub_of_le Nat.one_le_two_pow, h1]

/-! ### The lookup -/

namespace Catalog
variable [Target] {c : Catalog} {path : String} {hash : UInt32} {mask i j left s : Nat} {answer : Option Nat}

omit [Crypto] in
/-- A probe of an accepted catalog always has a verdict. -/
theorem WellFormed.probe_eq (hw : c.WellFormed) {r : PathSlot} (hr : c.pathSlot s = .ok r) :
    c.probe path hash s =
      if r.fileIndex = emptyPathSlot then .ok (some none)
      else if r.hash = hash ∧ c.path r.fileIndex.toNat = .ok path then .ok (some (some r.fileIndex.toNat))
      else .ok none := by
  obtain ⟨r', hr', hfile⟩ := hw.slots s (hw.pathSlot_eq_ok.1 hr).1
  obtain rfl : r = r' := Except.ok.inj (hr.symm.trans hr')
  simp only [probe, hr, ok_bind]
  by_cases hempty : r.fileIndex = emptyPathSlot
  · simp only [hempty, if_true]; rfl
  · obtain ⟨_, -, hok⟩ := hw.files _ (hfile hempty)
    obtain ⟨p, hp, -⟩ := hok.path
    simp only [if_neg hempty, hp, ok_bind, Except.ok.injEq]
    by_cases hh : r.hash = hash <;> by_cases hpp : p = path <;> simp [hh, hpp]

omit [Crypto] in
theorem WellFormed.probe_ok (hw : c.WellFormed) (hs : s < c.pathSlotCount.toNat) : ∃ v, c.probe path hash s = .ok v := by
  obtain ⟨r, hr, -⟩ := hw.slots s hs
  rw [hw.probe_eq hr]
  split
  · exact ⟨_, rfl⟩
  · split <;> exact ⟨_, rfl⟩

omit [Crypto] in
/-- The lookup returns the first verdict of its probe sequence. -/
theorem findFrom_eq (hj : c.probe path hash ((hash.toNat + j) % u32Size &&& mask) = .ok (some answer))
    (hbefore : ∀ k < j, c.probe path hash ((hash.toNat + k) % u32Size &&& mask) = .ok none) (hij : i ≤ j)
    (hleft : j < i + left) : c.findFrom path hash mask i left = .ok answer := by
  induction left generalizing i with
  | zero => omega
  | succ left ih =>
    rw [findFrom]
    rcases hij.lt_or_eq with hlt | rfl
    · rw [hbefore i hlt, ok_bind]
      exact ih hlt (by omega)
    · rw [hj, ok_bind]; rfl

omit [Crypto] in
/-- Where every probe has a verdict, the lookup ends with one or reports a full table. -/
theorem findFrom_cases (hp : ∀ k, ∃ v, c.probe path hash ((hash.toNat + k) % u32Size &&& mask) = .ok v) :
    (∃ a, c.findFrom path hash mask i left = .ok a) ∨
      c.findFrom path hash mask i left = fail (.invalidFormat "path index has no empty slot") := by
  induction left generalizing i with
  | zero => exact .inr rfl
  | succ left ih =>
    rw [findFrom]
    obtain ⟨v, hv⟩ := hp i
    rw [hv, ok_bind]
    cases v with
    | some a => exact .inl ⟨a, rfl⟩
    | none => exact ih

omit [Crypto] in
/-- A hit is an answer of some probe. -/
theorem findFrom_sound (h : c.findFrom path hash mask i left = .ok answer) :
    ∃ k, c.probe path hash ((hash.toNat + k) % u32Size &&& mask) = .ok (some answer) := by
  induction left generalizing i with
  | zero => exact absurd h fail_ne_ok
  | succ left ih =>
    rw [findFrom] at h
    obtain ⟨v, hv, h⟩ := bind_eq_ok.1 h
    cases v with
    | some a => exact ⟨i, by rw [hv, ← Except.ok.inj h]⟩
    | none => exact ih h

omit [Crypto] in
theorem Layout.mask_eq (hl : c.Layout) : ∃ k ≤ 32, c.pathSlotCount.toNat = 2 ^ k := by
  obtain ⟨k, hk⟩ := hl.slotCount_pow
  refine ⟨k, ?_, hk⟩
  by_contra hgt
  have hpow : (2 : Nat) ^ 32 < 2 ^ k := Nat.pow_lt_pow_right (by decide) (by omega)
  have := c.pathSlotCount.toNat_lt
  omega

omit [Crypto] [Target] in
/-- The reader's probe sequence is that of the table. -/
theorem probe_slot {k : Nat} (hk : k ≤ 32) (h j : Nat) : (h + j) % u32Size &&& (2 ^ k - 1) = slot (2 ^ k) h j :=
  wrapping_and_mask hk _

theorem findFile_eq (hl : c.Layout) (hpath : Canonical path) (pathKey : ByteArr 32) :
    c.findFile path pathKey =
      c.findFrom path (pathFingerprint pathKey (strBytes path)) (c.pathSlotCount.toNat - 1) 0 c.pathSlotCount.toNat := by
  have hpos := hl.slotCount_pos
  rw [findFile, validateCanonicalPath_eq_ok (u := ()) |>.2 hpath, ok_bind]
  simp only [plainSub_of_le (Nat.pos_of_ne_zero hpos : 1 ≤ _), ok_bind]

/-- On an accepted catalog a lookup has an answer, or the table has no empty slot. -/
theorem WellFormed.findFile_cases (hw : c.WellFormed) (hpath : Canonical path) (pathKey : ByteArr 32) :
    (∃ a, c.findFile path pathKey = .ok a) ∨
      c.findFile path pathKey = fail (.invalidFormat "path index has no empty slot") := by
  obtain ⟨k, hk, hcount⟩ := hw.mask_eq
  rw [findFile_eq hw.toLayout hpath, hcount]
  refine findFrom_cases fun j => hw.probe_ok ?_
  rw [probe_slot hk, hcount]
  exact slot_lt (Nat.two_pow_pos k) _ _

/-- On an accepted catalog a hit is the file with that path. -/
theorem WellFormed.findFile_sound (hw : c.WellFormed) {pathKey : ByteArr 32} {i : Nat}
    (h : c.findFile path pathKey = .ok (some i)) : c.path i = .ok path := by
  have hpath : Canonical path := by
    obtain ⟨u, hu, -⟩ := bind_eq_ok.1 h
    exact validateCanonicalPath_eq_ok.1 hu
  rw [findFile_eq hw.toLayout hpath] at h
  obtain ⟨k, hk⟩ := findFrom_sound h
  obtain ⟨r, hr, -⟩ := bind_eq_ok.1 hk
  rw [hw.probe_eq hr] at hk
  split at hk
  · cases hk
  · split at hk
    · rename_i hhit
      obtain rfl : r.fileIndex.toNat = i := by simpa using hk
      exact hhit.2
    · cases hk

/-- On a table the builder left, the lookup finds exactly the indexed paths. -/
theorem WellFormed.findFile_indexed (hw : c.WellFormed) {pathKey : ByteArr 32} {paths : List String}
    {slots : List PathSlot} {k : Nat} (hk : k ≤ 32) (hindexed : Indexed pathKey paths k paths.length slots)
    (hload : paths.length < 2 ^ k) (hcount : c.pathSlotCount.toNat = 2 ^ k)
    (hslots : ∀ s r, slots[s]? = some r → c.pathSlot s = .ok r)
    (hpaths : ∀ i p, paths[i]? = some p → c.path i = .ok p) (hnodup : paths.Nodup) (hpath : Canonical path) :
    ∃ a, c.findFile path pathKey = .ok a ∧ ∀ i, a = some i ↔ paths[i]? = some path := by
  have hprobe : ∀ s < 2 ^ k, ∃ r, slots[s]? = some r ∧ c.pathSlot s = .ok r := fun s hs => by
    have hlt : s < slots.length := hindexed.length ▸ hs
    exact ⟨_, List.getElem?_eq_getElem hlt, hslots s _ (List.getElem?_eq_getElem hlt)⟩
  -- The verdict of one probe, read off the table.
  have hverdict : ∀ s < 2 ^ k, c.probe path (pathFingerprint pathKey (strBytes path)) s =
      (pathTable slots s).elim (.ok (some none)) fun i =>
        if paths[i]? = some path then .ok (some (some i)) else .ok none := by
    intro s hs
    obtain ⟨r, hr, hcr⟩ := hprobe s hs
    rw [hw.probe_eq hcr]
    by_cases hempty : r.fileIndex = emptyPathSlot
    · rw [if_pos hempty]
      simp [pathTable, hr, hempty]
    · have htable : pathTable slots s = some r.fileIndex.toNat := pathTable_eq_some.2 ⟨r, hr, hempty, rfl⟩
      have hlt := hindexed.holds.lt s hs _ htable
      have hp := List.getElem?_eq_getElem hlt
      have hhash := hindexed.hash s r _ hr hempty hp
      rw [if_neg hempty, htable, hpaths _ _ hp]
      simp only [hp, Except.ok.injEq, Option.some.injEq, Option.elim_some]
      by_cases heq : paths[r.fileIndex.toNat] = path
      · rw [if_pos ⟨by rw [hhash, heq], heq⟩, if_pos heq]
      · rw [if_neg fun h => heq h.2, if_neg heq]
  rw [findFile_eq hw.toLayout hpath, hcount]
  obtain ⟨h0, hh0⟩ : ∃ h0, h0 = (pathFingerprint pathKey (strBytes path)).toNat := ⟨_, rfl⟩
  have hlt : ∀ j, slot (2 ^ k) h0 j < 2 ^ k := slot_lt (Nat.two_pow_pos k) h0
  have hinj : ∀ {i i' : Nat}, paths[i]? = some path → paths[i']? = some path → i = i' := fun h h' => by
    obtain ⟨hi, hp⟩ := List.getElem?_eq_some_iff.1 h
    obtain ⟨hi', hp'⟩ := List.getElem?_eq_some_iff.1 h'
    exact (hnodup.getElem_inj_iff).1 (hp.trans hp'.symm)
  have hstop : ∀ {j a}, j < 2 ^ k →
      c.probe path (pathFingerprint pathKey (strBytes path)) (slot (2 ^ k) h0 j) = .ok (some a) →
      (∀ l < j, c.probe path (pathFingerprint pathKey (strBytes path)) (slot (2 ^ k) h0 l) = .ok none) →
      c.findFrom path (pathFingerprint pathKey (strBytes path)) (2 ^ k - 1) 0 (2 ^ k) = .ok a := fun hj ha hb =>
    findFrom_eq (by rwa [probe_slot hk, ← hh0]) (fun l hl => by rw [probe_slot hk, ← hh0]; exact hb l hl)
      (Nat.zero_le _) (by omega)
  by_cases hmem : ∃ i : Nat, paths[i]? = some path
  · -- The path is indexed: the first probe that meets its entry answers.
    obtain ⟨i, hi⟩ := hmem
    obtain ⟨s, hs, htable⟩ := hindexed.holds.surj i (List.getElem?_eq_some_iff.1 hi).1
    obtain ⟨j, hj, hslot, hbusy⟩ := hindexed.probed s hs i htable
    have hhome : home pathKey paths i = h0 := by simp [home, hi, hh0]
    rw [hhome] at hslot hbusy
    have hex : ∃ j, pathTable slots (slot (2 ^ k) h0 j) = some i := ⟨j, hslot ▸ htable⟩
    classical
    have hle : Nat.find hex ≤ j := Nat.find_min' hex (hslot ▸ htable)
    refine ⟨some i, hstop (hle.trans_lt hj) ?_ fun l hl => ?_, fun i' => ?_⟩
    · rw [hverdict _ (hlt _), Nat.find_spec hex]
      simp only [hi, if_true, Option.elim_some]
    · obtain ⟨i', hi'⟩ := Option.isSome_iff_exists.1 (hbusy l (by omega))
      rw [hverdict _ (hlt l), hi']
      have hne : paths[i']? ≠ some path := fun hp => Nat.find_min hex hl (hinj hp hi ▸ hi')
      simp only [if_neg hne, Option.elim_some]
    · exact ⟨fun h => Option.some.inj h ▸ hi, fun h => congrArg some (hinj hi h)⟩
  · -- The path is not indexed: the first empty slot answers.
    obtain ⟨j, hj, hfree, hbusy⟩ := exists_first_free (hindexed.holds.exists_free hload) h0
    refine ⟨none, hstop hj ?_ fun l hl => ?_, fun i => ?_⟩
    · rw [hverdict _ (hlt j), hfree, Option.elim_none]
    · obtain ⟨i', hi'⟩ := Option.isSome_iff_exists.1 (hbusy l hl)
      rw [hverdict _ (hlt l), hi']
      exact if_neg fun hp => hmem ⟨_, hp⟩
    · simp only [reduceCtorEq, false_iff]
      exact fun hp => hmem ⟨i, hp⟩

end Catalog

end Hakutaku
