import Hakutaku.Lib.Chunks
import Hakutaku.PackerSpec
import Hakutaku.PageCodec
import Hakutaku.Snapshot

/-!
# What `build_pages` seals

A page is followed through `encrypt_page`: its record, its plaintext and its ciphertext (`SealedPage`), in the order of
the directory. Both tables share the nonce ordinals and the offsets of one region (`PageRegion.Sealed`).
-/

namespace Hakutaku
open Wire Act

/-- Primitives that fail on no input. -/
structure Unfailing [Crypto] : Prop where
  aeadSeal : ∀ key nonce aad plain, ∃ sealed, Crypto.aeadSeal key nonce aad plain = some sealed
  compress : ∀ level plain, ∃ packed, Crypto.compress level plain = some packed

structure SealedPage where
  record : PageRecord
  plaintext : Bytes
  ciphertext : Bytes

namespace SealedPage

/-- Where page `i` starts. -/
def start (xs : List SealedPage) (i : Nat) : Nat := ((xs.take i).map fun x => x.ciphertext.length).sum

def plaintextAt (xs : List SealedPage) (i : Nat) : Bytes := (xs[i]?.map plaintext).getD []

/-- The record describes the page, and the reader opens it. -/
structure Ok [Crypto] (w : PageSealer) (ordinal offset : Nat) (x : SealedPage) : Prop where
  ordinal : x.record.nonceOrdinal.toNat = ordinal
  offset : x.record.relativeOffset.toNat = offset
  storedLen : x.record.storedLen.toNat = x.ciphertext.length
  plainLen : x.record.plainLen.toNat = x.plaintext.length
  fits : x.record.codec.Fits x.ciphertext.length x.plaintext.length
  digest : Crypto.hash x.ciphertext = x.record.digest
  opens : ∃ stored, Crypto.aeadOpen w.snapshotKey (nonce w.noncePrefix x.record.nonceOrdinal)
      (pageAad w.projectId w.releaseSequence x.record.kind x.record.codec x.record.nonceOrdinal x.record.storedLen
        x.record.plainLen) x.ciphertext = some stored ∧
    decodeOwned x.record.codec stored x.plaintext.length = .ok x.plaintext

variable {xs ys : List SealedPage} {x : SealedPage} {i : Nat}

theorem plaintextAt_eq (h : xs[i]? = some x) : plaintextAt xs i = x.plaintext := by
  unfold plaintextAt
  rw [h]
  rfl

theorem start_append (h : i ≤ xs.length) : start (xs ++ ys) i = start xs i := by
  unfold start
  rw [List.take_append_of_le_length h]

theorem start_succ (h : xs[i]? = some x) : start xs (i + 1) = start xs i + x.ciphertext.length := by
  obtain ⟨hi, rfl⟩ := List.getElem?_eq_some_iff.1 h
  unfold start
  rw [List.take_succ_eq_append_getElem hi, List.map_append, List.sum_append, List.map_singleton, List.sum_singleton]

theorem start_eq_length (xs : List SealedPage) (i : Nat) : start xs i = ((xs.take i).map ciphertext).flatten.length := by
  rw [List.length_flatten, List.map_map]
  rfl

/-- A page lies in the region where its record says. -/
theorem slice_ciphertexts (h : xs[i]? = some x) :
    slice (xs.map ciphertext).flatten (start xs i) x.ciphertext.length = x.ciphertext := by
  obtain ⟨hi, rfl⟩ := List.getElem?_eq_some_iff.1 h
  have hsplit : (xs.map ciphertext).flatten =
      ((xs.take i).map ciphertext).flatten ++ xs[i].ciphertext ++ ((xs.drop (i + 1)).map ciphertext).flatten := by
    conv_lhs => rw [← List.take_append_drop i xs, List.drop_eq_getElem_cons hi]
    rw [List.map_append, List.map_cons, List.flatten_append, List.flatten_cons, List.append_assoc]
  rw [hsplit, start_eq_length, slice_append_mid]

theorem start_add_le (h : xs[i]? = some x) :
    start xs i + x.ciphertext.length ≤ (xs.map ciphertext).flatten.length := by
  have hall := start_eq_length xs xs.length
  rw [List.take_length] at hall
  rw [← start_succ h, ← hall]
  unfold start
  have hsub : (xs.take (i + 1)).Sublist (xs.take xs.length) := by
    rw [List.take_length]
    exact List.take_sublist _ _
  exact (hsub.map _).sum_le_sum fun _ _ => Nat.zero_le _

end SealedPage

/-- The region holds the pages `xs`, in order. -/
structure PageRegion.Sealed [Crypto] (w : PageSealer) (xs : List SealedPage) (pages : PageRegion) : Prop where
  directory : pages.directory = xs.map SealedPage.record
  ciphertexts : pages.ciphertexts = xs.map SealedPage.ciphertext
  relativeOffset : pages.relativeOffset.toNat = SealedPage.start xs xs.length
  each : ∀ i (x : SealedPage), xs[i]? = some x → x.Ok w (i + 1) (SealedPage.start xs i)

namespace PageRegion.Sealed
variable [Crypto] {w : PageSealer} {xs : List SealedPage} {x : SealedPage} {pages : PageRegion} {i : Nat}

/-- Pages are shorter than 4 GiB, so the offsets of all of them fit. -/
theorem start_le (each : ∀ i (x : SealedPage), xs[i]? = some x → x.Ok w (i + 1) (SealedPage.start xs i)) (hi : i ≤ xs.length) :
    SealedPage.start xs i ≤ i * u32Size := by
  induction i with
  | zero => simp [SealedPage.start]
  | succ i ih =>
    have hx := List.getElem?_eq_getElem (show i < xs.length by omega)
    have hlen := (each i _ hx).storedLen
    have hlt := UInt32.toNat_lt xs[i].record.storedLen
    rw [SealedPage.start_succ hx, ← hlen, Nat.add_mul, Nat.one_mul]
    exact Nat.add_le_add (ih (by omega)) hlt.le

/-- One more page. -/
theorem snoc (h : pages.Sealed w xs) (hx : x.Ok w (xs.length + 1) pages.relativeOffset.toNat) {offset : UInt64}
    (hoffset : offset.toNat = pages.relativeOffset.toNat + x.record.storedLen.toNat) :
    PageRegion.Sealed w (xs ++ [x]) ⟨offset, pages.directory ++ [x.record], pages.ciphertexts ++ [x.ciphertext]⟩ := by
  have hlast : (xs ++ [x])[xs.length]? = some x := by simp
  refine ⟨?_, ?_, ?_, fun i y hy => ?_⟩
  · rw [h.directory, List.map_append, List.map_singleton]
  · rw [h.ciphertexts, List.map_append, List.map_singleton]
  · rw [List.length_append, List.length_singleton, SealedPage.start_succ hlast, SealedPage.start_append le_rfl,
      ← h.relativeOffset, ← hx.storedLen]
    exact hoffset
  · rcases Nat.lt_or_ge i xs.length with hlt | hge
    · rw [List.getElem?_append_left hlt] at hy
      rw [SealedPage.start_append hlt.le]
      exact h.each i y hy
    · obtain rfl : i = xs.length := by
        have hlt := (List.getElem?_eq_some_iff.1 hy).1
        rw [List.length_append, List.length_singleton] at hlt
        omega
      obtain rfl : x = y := Option.some.inj (hlast.symm.trans hy)
      rw [SealedPage.start_append le_rfl, ← h.relativeOffset]
      exact hx

end PageRegion.Sealed

section
variable [Crypto]

/-! ### One page -/

/-- Compressed bytes are stored in a canonical length and decode to what was compressed. -/
theorem compressBytes_spec (hz : ZstdLaw) {level : Int} {plaintext encoded : Bytes} {codec : Codec}
    (h : BuildContext.compressBytes level plaintext = .ok (codec, encoded)) :
    codec.Fits (encoded.length + 16) plaintext.length ∧ decodeOwned codec encoded plaintext.length = .ok plaintext := by
  unfold BuildContext.compressBytes at h
  obtain ⟨compressed, hcompress, h⟩ := bind_eq_ok.1 h
  rw [okOr_eq_ok] at hcompress
  split at h
  · rename_i hsmall
    cases h
    have hback := hz.decompress_compress hcompress le_rfl
    refine ⟨⟨by omega, ?_⟩, ?_⟩
    · simp only [compressionSavings] at hsmall
      omega
    · unfold decodeOwned decompressZstdExact
      simp only [hback, okOr, ok_bind, ne_eq, not_true, if_false]
      rfl
  · cases h
    refine ⟨rfl, ?_⟩
    unfold decodeOwned
    simp only [ne_eq, not_true, if_false]
    rfl

theorem compressBytes_unfailing (hu : Unfailing) (level : Int) (plaintext : Bytes) :
    ∃ r, BuildContext.compressBytes level plaintext = .ok r := by
  obtain ⟨packed, hpacked⟩ := hu.compress level plaintext
  unfold BuildContext.compressBytes
  rw [hpacked]
  simp only [okOr, ok_bind]
  split
  · exact ⟨_, rfl⟩
  · exact ⟨_, rfl⟩

theorem sealBytes_wp (key : ByteArr 32) (nonce : ByteArr 12) (aad plaintext : Bytes) (s : BuildContext) :
    wp (sealBytes key nonce aad plaintext) (fun encrypted _ => Crypto.aeadSeal key nonce aad plaintext = some encrypted)
      (fun _ _ => ¬ Unfailing) s := by
  unfold sealBytes
  rw [wp_bind, wp_modify]
  split
  · assumption
  · rename_i hnone
    intro hu
    obtain ⟨sealed, hsealed⟩ := hu.aeadSeal key nonce aad plaintext
    rw [hnone] at hsealed
    cases hsealed

variable {w : PageSealer} {xs : List SealedPage} {pages : PageRegion} {kind : PageKind}

/-- `encrypt_page` appends one page. With primitives that do not fail it does not fail either. -/
theorem encryptPage_spec (ha : AeadLaw) (hz : ZstdLaw) {plaintext : Bytes} (h : pages.Sealed w xs)
    (hplain : plaintext.length ≤ maxPagePlainLen) (hcount : xs.length < maxPages) (s : BuildContext) :
    wp (encryptPage w kind plaintext pages)
      (fun pages' _ => ∃ x : SealedPage, x.plaintext = plaintext ∧ x.record.kind = kind ∧
        pages'.Sealed w (xs ++ [x])) (fun _ _ => ¬ Unfailing) s := by
  simp only [maxPagePlainLen] at hplain
  simp only [maxPages] at hcount
  have hlen : pages.directory.length = xs.length := by rw [h.directory, List.length_map]
  unfold encryptPage
  have hu32 : ∀ {n : Nat} {reason : String}, n < u32Size → tryU32 n reason = .ok (UInt32.ofNat n) := fun hn =>
    BuildContext.tryU32_eq_ok.2 ⟨hn, rfl⟩
  refine wp_bind.2 (wp.lift_ok (hu32 (by show _ < 2 ^ 32; omega)) ?_)
  refine wp_bind.2 ((wp_lift _).2 ⟨fun r hr => ?_, fun e he hu => ?_⟩)
  · obtain ⟨codec, encoded⟩ := r
    obtain ⟨hfits, hdecode⟩ := compressBytes_spec hz hr
    have hstored := hfits.le.2
    have hstoredLt : encoded.length + 16 < u32Size := by show _ < 2 ^ 32; omega
    have hordinalLt : pages.directory.length + 1 < u32Size := by show _ < 2 ^ 32; omega
    refine wp_bind.2 (wp.lift_ok (hu32 hstoredLt) ?_)
    refine wp_bind.2 (wp.lift_ok (hu32 hordinalLt) ?_)
    refine wp_bind.2 ((sealBytes_wp _ _ _ _ s).mono (fun encrypted t hseal => ?_) fun _ _ he => he)
    have hlength := ha.length_aeadSeal hseal
    have htoNat : ∀ {n : Nat}, n < u32Size → (UInt32.ofNat n).toNat = n := fun hn => UInt32.toNat_ofNat_of_lt' hn
    have hoffset := PageRegion.Sealed.start_le h.each le_rfl
    rw [← h.relativeOffset] at hoffset
    have hnext : pages.relativeOffset.toNat + (UInt32.ofNat (encoded.length + 16)).toNat < u64Size := by
      have hmul : xs.length * u32Size ≤ 100000 * 2 ^ 32 := Nat.mul_le_mul hcount.le le_rfl
      rw [htoNat hstoredLt]
      show _ < 2 ^ 64
      omega
    refine wp_bind.2 (wp.lift_ok (tryU64_eq_ok.2 ⟨hnext, rfl⟩) ?_)
    refine ⟨⟨⟨kind, codec, UInt32.ofNat (pages.directory.length + 1), pages.relativeOffset,
      UInt32.ofNat (encoded.length + 16), UInt32.ofNat plaintext.length, Crypto.hash encrypted⟩, plaintext, encrypted⟩,
      rfl, rfl, ?_⟩
    rw [← hlength] at hfits
    refine h.snoc ⟨?_, rfl, ?_, ?_, hfits, rfl, encoded, ha.aeadOpen_aeadSeal hseal, hdecode⟩ ?_
    · rw [← hlen]
      exact htoNat hordinalLt
    · rw [hlength]
      exact htoNat hstoredLt
    · exact htoNat (by show _ < 2 ^ 32; omega)
    · exact UInt64.toNat_ofNat_of_lt' hnext
  · obtain ⟨r, hr⟩ := compressBytes_unfailing hu w.compressionLevel plaintext
    rw [hr] at he
    cases he

/-! ### The two tables -/

variable [Target]

/-- The loop over the pages of one kind, behind the pages `xs`. -/
theorem encryptPages_spec {α : Type} (ha : AeadLaw) (hz : ZstdLaw) {encodePage : UInt32 → List α → Result Bytes}
    {perPage i : Nat} {reason : String} {chunks : List (List α)} (h : pages.Sealed w xs)
    (hencode : ∀ j records, chunks[j]? = some records → (i + j) * perPage < u32Size ∧
      ∃ b, encodePage (UInt32.ofNat ((i + j) * perPage)) records = .ok b ∧ b.length ≤ maxPagePlainLen)
    (hcount : xs.length + chunks.length ≤ maxPages) (s : BuildContext) :
    wp (encryptPages w kind encodePage perPage reason chunks i pages)
      (fun pages' _ => ∃ ys : List SealedPage, ys.length = chunks.length ∧ pages'.Sealed w (xs ++ ys) ∧
        ∀ j y, ys[j]? = some y → y.record.kind = kind ∧ ∃ records, chunks[j]? = some records ∧
          encodePage (UInt32.ofNat ((i + j) * perPage)) records = .ok y.plaintext)
      (fun _ _ => ¬ Unfailing) s := by
  induction chunks generalizing i xs pages s with
  | nil => exact ⟨[], rfl, by rw [List.append_nil]; exact h, by simp⟩
  | cons records rest ih =>
    rw [List.length_cons] at hcount
    obtain ⟨hfirst, plaintext, hplaintext, hplain⟩ := hencode 0 records rfl
    rw [Nat.add_zero] at hfirst hplaintext
    have hu := le_usizeSize
    unfold encryptPages
    refine wp_bind.2 (wp.lift_ok (plainMul_eq_ok.2 ⟨lt_of_lt_of_le hfirst hu, rfl⟩) ?_)
    refine wp_bind.2 (wp.lift_ok (BuildContext.tryU32_eq_ok.2 ⟨hfirst, rfl⟩) ?_)
    rw [hplaintext]
    refine wp_bind.2 (wp.lift_ok rfl ?_)
    refine wp_bind.2 ((encryptPage_spec ha hz h hplain (by omega) s).mono ?_ fun _ _ he => he)
    rintro pages₁ t ⟨x, rfl, hkind, h₁⟩
    have hrest : ∀ j records', rest[j]? = some records' → (i + 1 + j) * perPage < u32Size ∧
        ∃ b, encodePage (UInt32.ofNat ((i + 1 + j) * perPage)) records' = .ok b ∧ b.length ≤ maxPagePlainLen := by
      intro j records' hj
      have hj' := hencode (j + 1) records' (by simpa using hj)
      rwa [← Nat.add_assoc, Nat.add_right_comm] at hj'
    refine (ih h₁ hrest (by rw [List.length_append, List.length_singleton]; omega) t).mono ?_ fun _ _ he => he
    rintro pages₂ _ ⟨ys, hlen, h₂, hys⟩
    refine ⟨x :: ys, by rw [List.length_cons, List.length_cons, hlen], ?_, fun j y hj => ?_⟩
    · rw [List.append_cons]
      exact h₂
    · cases j with
      | zero =>
        obtain rfl : x = y := by simpa using hj
        exact ⟨hkind, records, rfl, hplaintext⟩
      | succ j =>
        obtain ⟨hk, records', hr, he⟩ := hys j y (by simpa using hj)
        rw [Nat.add_right_comm, Nat.add_assoc] at he
        exact ⟨hk, records', by simpa using hr, he⟩

omit [Crypto] [Target] in
theorem length_toChunks {α : Type} {b : Nat} (hb : 0 < b) (l : List α) : (l.toChunks b).length = divCeil l.length b := by
  have hlt : ∀ j, j < (l.toChunks b).length ↔ j < divCeil l.length b := fun j => by
    rw [List.lt_length_toChunks hb, lt_divCeil hb]
  have h₁ := hlt (l.toChunks b).length
  have h₂ := hlt (divCeil l.length b)
  omega

/-- The pages of a snapshot: the map pages, and the reuse pages behind them. -/
structure EncryptedPages.Tables (w : PageSealer) (blockRefs : List BlockRef) (chunkIds : List (ByteArr 32))
    (pages : EncryptedPages) (maps reuses : List SealedPage) : Prop where
  directory : pages.directory = (maps ++ reuses).map SealedPage.record
  ciphertexts : pages.ciphertexts = (maps ++ reuses).map SealedPage.ciphertext
  each : ∀ i (x : SealedPage), (maps ++ reuses)[i]? = some x → x.Ok w (i + 1) (SealedPage.start (maps ++ reuses) i)
  mapCount : pages.mapCount.toNat = maps.length
  reuseCount : pages.reuseCount.toNat = reuses.length
  mapPages : maps.length = divCeil blockRefs.length blocksPerMapPage
  reusePages : reuses.length = divCeil chunkIds.length reusePerPage
  map : ∀ j x, maps[j]? = some x → x.record.kind = .blockMap ∧
    encodeMapPage (UInt32.ofNat (j * blocksPerMapPage)) ((blockRefs.drop (j * blocksPerMapPage)).take blocksPerMapPage) =
      .ok x.plaintext
  reuse : ∀ j x, reuses[j]? = some x → x.record.kind = .reuse ∧
    encodeReusePage (UInt32.ofNat (j * reusePerPage)) ((chunkIds.drop (j * reusePerPage)).take reusePerPage) =
      .ok x.plaintext

omit [Crypto] [Target] in
theorem chunk_spec {α : Type} {n : Nat} (hn : 0 < n) {l chunk : List α} {j : Nat} (h : (l.toChunks n)[j]? = some chunk) :
    chunk = (l.drop (j * n)).take n ∧ chunk ≠ [] ∧ chunk.length ≤ n ∧ j * n < l.length := by
  rw [List.getElem?_toChunks hn] at h
  split at h
  · rename_i hj
    cases h
    refine ⟨rfl, List.ne_nil_of_length_pos ?_, List.length_take_le _ _, hj⟩
    rw [List.length_take, List.length_drop]
    omega
  · cases h

omit [Crypto] [Target] in
theorem encodeMapPage_eq_ok {first : UInt32} {records : List BlockRef} {b : Bytes} :
    encodeMapPage first records = .ok b ↔ records ≠ [] ∧ records.length ≤ blocksPerMapPage ∧
      b = pageHeader mapPageMagic 48 first ++ records.flatMap BlockRef.encode := by
  rw [encodeMapPage, fail_bind, ite_fail_eq_ok, not_or, not_lt, and_assoc, pure_eq_ok, Except.ok.injEq, eq_comm (a := b)]

omit [Crypto] [Target] in
theorem encodeReusePage_eq_ok {first : UInt32} {records : List (ByteArr 32)} {b : Bytes} :
    encodeReusePage first records = .ok b ↔ records ≠ [] ∧ records.length ≤ reusePerPage ∧
      b = pageHeader reusePageMagic 32 first ++ records.flatMap ByteArr.toList := by
  rw [encodeReusePage, fail_bind, ite_fail_eq_ok, not_or, not_lt, and_assoc, pure_eq_ok, Except.ok.injEq, eq_comm (a := b)]

omit [Crypto] [Target] in
theorem length_mapPage (first : UInt32) (records : List BlockRef) :
    (pageHeader mapPageMagic 48 first ++ records.flatMap BlockRef.encode).length =
      pageHeaderSize + records.length * blockRefSize := by
  rw [List.length_append, length_pageHeader rfl, length_flatMap BlockRef.length_encode]

omit [Crypto] [Target] in
theorem length_reusePage (first : UInt32) (records : List (ByteArr 32)) :
    (pageHeader reusePageMagic 32 first ++ records.flatMap ByteArr.toList).length =
      pageHeaderSize + records.length * reuseRecordSize := by
  rw [List.length_append, length_pageHeader rfl, length_flatMap_toList]
  rfl

omit [Crypto] [Target] in
theorem mapPage_le {records : List BlockRef} (hlen : records.length ≤ blocksPerMapPage) :
    pageHeaderSize + records.length * blockRefSize ≤ maxPagePlainLen := by
  have hmul : records.length * blockRefSize ≤ 341 * 48 := Nat.mul_le_mul hlen le_rfl
  simp only [pageHeaderSize, maxPagePlainLen]
  omega

omit [Crypto] [Target] in
theorem reusePage_le {records : List (ByteArr 32)} (hlen : records.length ≤ reusePerPage) :
    pageHeaderSize + records.length * reuseRecordSize ≤ maxPagePlainLen := by
  have hmul : records.length * reuseRecordSize ≤ 511 * 32 := Nat.mul_le_mul hlen le_rfl
  simp only [pageHeaderSize, maxPagePlainLen]
  omega

omit [Crypto] [Target] in
/-- The largest tables fit the page limit. -/
theorem pageCount_le {n : Nat} (hmax : n ≤ maxBlocks) : divCeil n blocksPerMapPage + divCeil n reusePerPage ≤ maxPages := by
  simp only [maxBlocks] at hmax
  have hmap : divCeil n blocksPerMapPage ≤ 29326 := by
    by_contra hgt
    have hfull : 29326 * 341 < n := (lt_divCeil (by decide)).1 (not_le.1 hgt)
    omega
  have hreuse : divCeil n reusePerPage ≤ 19570 := by
    by_contra hgt
    have hfull : 19570 * 511 < n := (lt_divCeil (by decide)).1 (not_le.1 hgt)
    omega
  simp only [maxPages]
  omega

/-- `build_pages` seals both tables. With primitives that do not fail it does not fail either. -/
theorem buildPages_spec (ha : AeadLaw) (hz : ZstdLaw) (w : PageSealer) {blockRefs : List BlockRef}
    {chunkIds : List (ByteArr 32)} (hlen : chunkIds.length = blockRefs.length) (hmax : blockRefs.length ≤ maxBlocks)
    (s : BuildContext) :
    wp (buildPages w blockRefs chunkIds) (fun pages _ => ∃ maps reuses, pages.Tables w blockRefs chunkIds maps reuses)
      (fun _ _ => ¬ Unfailing) s := by
  have hmaps := length_toChunks (show 0 < blocksPerMapPage by decide) blockRefs
  have hreuses := length_toChunks (show 0 < reusePerPage by decide) chunkIds
  have hcount := pageCount_le hmax
  rw [hlen] at hreuses
  simp only [maxBlocks] at hmax
  simp only [maxPages] at hcount
  unfold buildPages
  refine wp_bind.2 (wp.lift_ok (if_pos hlen.symm) ?_)
  have hempty : PageRegion.Sealed w [] ⟨0, [], []⟩ := ⟨rfl, rfl, rfl, by simp⟩
  refine wp_bind.2 ((encryptPages_spec ha hz hempty (fun j records hj => ?_) ?_ s).mono ?_ fun _ _ he => he)
  · obtain ⟨-, hne, hle, hlt⟩ := chunk_spec (by decide) hj
    rw [Nat.zero_add]
    refine ⟨by show _ < 2 ^ 32; omega, _, encodeMapPage_eq_ok.2 ⟨hne, hle, rfl⟩, ?_⟩
    rw [length_mapPage]
    exact mapPage_le hle
  · simp only [List.length_nil, maxPages]
    omega
  rintro pages₁ t₁ ⟨maps, hmapLen, hregion, hmap⟩
  rw [List.nil_append] at hregion
  have hdir₁ : pages₁.directory.length = maps.length := by rw [hregion.directory, List.length_map]
  have hcount₁ : pages₁.directory.length < u32Size := by show _ < 2 ^ 32; omega
  refine wp_bind.2 (wp.lift_ok (BuildContext.tryU32_eq_ok.2 ⟨hcount₁, rfl⟩) ?_)
  refine wp_bind.2 ((encryptPages_spec ha hz hregion (fun j records hj => ?_) ?_ t₁).mono ?_ fun _ _ he => he)
  · obtain ⟨-, hne, hle, hlt⟩ := chunk_spec (by decide) hj
    rw [Nat.zero_add]
    refine ⟨by show _ < 2 ^ 32; omega, _, encodeReusePage_eq_ok.2 ⟨hne, hle, rfl⟩, ?_⟩
    rw [length_reusePage]
    exact reusePage_le hle
  · simp only [maxPages]
    omega
  rintro pages₂ t₂ ⟨reuses, hreuseLen, hregion₂, hreuse⟩
  have hdir₂ : pages₂.directory.length = maps.length + reuses.length := by
    rw [hregion₂.directory, List.length_map, List.length_append]
  have hcount₂ : pages₂.directory.length < u32Size := by show _ < 2 ^ 32; omega
  have htoNat : ∀ {n : Nat}, n < u32Size → (UInt32.ofNat n).toNat = n := fun hn => UInt32.toNat_ofNat_of_lt' hn
  have hle : UInt32.ofNat pages₁.directory.length ≤ UInt32.ofNat pages₂.directory.length := by
    rw [UInt32.le_iff_toNat_le, htoNat hcount₁, htoNat hcount₂]
    omega
  refine wp_bind.2 (wp.lift_ok (BuildContext.tryU32_eq_ok.2 ⟨hcount₂, rfl⟩) ?_)
  refine wp_bind.2 (wp.lift_ok (if_pos hle) ?_)
  refine ⟨maps, reuses, hregion₂.directory, hregion₂.ciphertexts, hregion₂.each, ?_, ?_, ?_, ?_, ?_, ?_⟩
  · show (UInt32.ofNat pages₁.directory.length).toNat = _
    rw [htoNat hcount₁, hdir₁]
  · show (UInt32.ofNat pages₂.directory.length - UInt32.ofNat pages₁.directory.length).toNat = _
    rw [UInt32.toNat_sub_of_le _ _ hle, htoNat hcount₁, htoNat hcount₂]
    omega
  · rw [hmapLen, hmaps]
  · rw [hreuseLen, hreuses, hlen]
  · intro j x hj
    obtain ⟨hkind, records, hchunk, hencode⟩ := hmap j x hj
    obtain ⟨rfl, -⟩ := chunk_spec (by decide) hchunk
    rw [Nat.zero_add] at hencode
    exact ⟨hkind, hencode⟩
  · intro j x hj
    obtain ⟨hkind, records, hchunk, hencode⟩ := hreuse j x hj
    obtain ⟨rfl, -⟩ := chunk_spec (by decide) hchunk
    rw [Nat.zero_add] at hencode
    exact ⟨hkind, hencode⟩

end

end Hakutaku
