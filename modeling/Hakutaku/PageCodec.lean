import Hakutaku.Pages

/-!
# The page codecs are bijections

A page reader accepts exactly a page header followed by the encodings of its records. For map pages the
records must satisfy `BlockRef.Valid`; reuse records carry no rule of their own.
-/

namespace Hakutaku
open Wire

/-! ### Rows of 32 bytes -/

theorem rows32_flatMap (ids : List (ByteArr 32)) : rows32 ids.length (ids.flatMap ByteArr.toList) = ids := by
  induction ids with
  | nil => rfl
  | cons id ids ih =>
    have hlen : id.toList.length = 32 := ByteArr.length_toList id
    have hle : 32 ≤ (id.toList ++ ids.flatMap ByteArr.toList).length := by rw [List.length_append]; omega
    have htake : (id.toList ++ ids.flatMap ByteArr.toList).take 32 = id.toList :=
      List.take_left' hlen
    have hdrop : (id.toList ++ ids.flatMap ByteArr.toList).drop 32 = ids.flatMap ByteArr.toList :=
      List.drop_left' hlen
    rw [List.length_cons, List.flatMap_cons, rows32, dif_pos hle, hdrop, ih, List.cons.injEq]
    exact ⟨ByteArr.ext htake, rfl⟩

theorem flatMap_rows32 {n : Nat} {bytes : Bytes} (h : bytes.length = n * 32) :
    (rows32 n bytes).flatMap ByteArr.toList = bytes := by
  induction n generalizing bytes with
  | zero => exact (List.length_eq_zero_iff.1 (by omega)).symm
  | succ n ih =>
    have hle : 32 ≤ bytes.length := by omega
    have hlen : (bytes.drop 32).length = n * 32 := by rw [List.length_drop]; omega
    have hrest := ih hlen
    rw [rows32, dif_pos hle, List.flatMap_cons, hrest]
    exact List.take_append_drop 32 bytes

theorem length_flatMap_toList (ids : List (ByteArr 32)) : (ids.flatMap ByteArr.toList).length = ids.length * 32 :=
  length_flatMap ByteArr.length_toList ids

theorem chunks32_eq {bytes : Bytes} {ids : List (ByteArr 32)} (h : bytes.length % 32 = 0) :
    chunks32 bytes = ids ↔ bytes = ids.flatMap ByteArr.toList := by
  constructor
  · rintro rfl
    exact (flatMap_rows32 (by omega)).symm
  · rintro rfl
    rw [chunks32, length_flatMap_toList, Nat.mul_div_cancel _ (by decide), rows32_flatMap]

section
variable [Target] {bytes : Bytes} {first : UInt32}

/-! ### Map pages -/

theorem mapPageRecords_eq_ok {index left : Nat} {records : List BlockRef} :
    mapPageRecords bytes index left = .ok records ↔
      records.length = left ∧
        ∀ j r, records[j]? = some r → BlockRef.parse bytes (pageHeaderSize + (index + j) * blockRefSize) = .ok r := by
  induction left generalizing index records with
  | zero =>
    simp only [mapPageRecords, pure_eq_ok, Except.ok.injEq, List.length_eq_zero_iff]
    constructor
    · rintro rfl
      exact ⟨rfl, by simp⟩
    · rintro ⟨rfl, -⟩
      rfl
  | succ left ih =>
    simp only [mapPageRecords, bind_eq_ok, plainMul_eq_ok, plainAdd_eq_ok, pure_eq_ok, Except.ok.injEq, ih]
    constructor
    · rintro ⟨_, ⟨-, rfl⟩, _, ⟨-, rfl⟩, record, hrecord, rest, ⟨hlen, hrest⟩, rfl⟩
      refine ⟨by rw [List.length_cons, hlen], fun j r hj => ?_⟩
      cases j with
      | zero =>
        obtain rfl : record = r := by simpa using hj
        exact hrecord
      | succ j =>
        rw [← Nat.add_assoc, Nat.add_right_comm]
        exact hrest j r (by simpa using hj)
    · rintro ⟨hlen, hall⟩
      cases records with
      | nil => cases hlen
      | cons record rest =>
        have hrecord := hall 0 record rfl
        have hbound := (BlockRef.parse_eq_ok.1 hrecord).1
        rw [Nat.add_zero] at hrecord hbound
        refine ⟨_, ⟨by omega, rfl⟩, _, ⟨by omega, rfl⟩, record, hrecord, rest, ⟨by simpa using hlen, fun j r hj => ?_⟩, rfl⟩
        rw [Nat.add_right_comm, Nat.add_assoc]
        exact hall (j + 1) r (by simpa using hj)

/-- `parse_map_page` accepts a header followed by valid references, and nothing else. -/
theorem parseMapPage_eq_ok {records : List BlockRef} :
    parseMapPage bytes first.toNat = .ok records ↔
      records ≠ [] ∧ (∀ r ∈ records, r.Valid) ∧ bytes.length < usizeSize ∧
        bytes = pageHeader mapPageMagic 48 first ++ records.flatMap BlockRef.encode := by
  have hsize : (48 : UInt16).toNat = blockRefSize := rfl
  have hmagic : mapPageMagic.length = 8 := rfl
  have hheader := length_pageHeader hmagic 48 first
  simp only [parseMapPage, validateMapPage, bind_eq_ok, mapPageRecords_eq_ok, ← hsize,
    parsePageHeader_eq_ok hmagic (show 0 < (48 : UInt16).toNat by decide), Nat.zero_add]
  rw [hsize]
  constructor
  · rintro ⟨n, ⟨hpage, hlen, hpos⟩, rfl, hall⟩
    have hparse := fun j r hj => BlockRef.parse_eq_ok.1 (hall j r hj)
    have hne : records ≠ [] := List.ne_nil_of_length_pos hpos
    have hpayload : bytes.drop pageHeaderSize = records.flatMap BlockRef.encode := by
      have hrows : (bytes.drop pageHeaderSize).length = records.length * blockRefSize := by rw [List.length_drop]; omega
      refine eq_flatMap_of_slices hrows fun j r hj => ?_
      rw [slice, List.drop_drop]
      exact (hparse j r hj).2.2.1
    refine ⟨hne, fun r hr => ?_, ?_, ?_⟩
    · obtain ⟨j, hj⟩ := List.mem_iff_getElem?.1 hr
      exact (hparse j r hj).2.2.2
    · -- The end of the last record is the end of the page.
      have hlast : records[records.length - 1]? = some (records.getLast hne) := by
        rw [← List.getLast?_eq_getElem?, List.getLast?_eq_some_getLast hne]
      have hbound := (hparse _ _ hlast).1
      have hone : (records.length - 1) * blockRefSize + blockRefSize = records.length * blockRefSize := by
        rw [← Nat.succ_mul, Nat.succ_eq_add_one, Nat.sub_add_cancel hpos]
      omega
    · rw [← hpage, ← hpayload]
      exact (List.take_append_drop pageHeaderSize bytes).symm
  · rintro ⟨hne, hvalid, hbound, rfl⟩
    have hpos : 0 < records.length := List.length_pos_iff.2 hne
    have hpayload := length_flatMap BlockRef.length_encode records
    have hlen : (pageHeader mapPageMagic 48 first ++ records.flatMap BlockRef.encode).length =
        pageHeaderSize + records.length * blockRefSize := by
      rw [List.length_append, hheader, hpayload]
    refine ⟨records.length, ⟨?_, hlen, hpos⟩, rfl, fun j r hj => ?_⟩
    · rw [slice_append_left (by rw [hheader, Nat.zero_add]), ← hheader, slice_full]
    · have hj' := (List.getElem?_eq_some_iff.1 hj).1
      have hrow : (j + 1) * blockRefSize ≤ records.length * blockRefSize := Nat.mul_le_mul_right _ hj'
      rw [Nat.add_mul, Nat.one_mul] at hrow
      have hslice := slice_flatMap BlockRef.length_encode hj
      refine BlockRef.parse_eq_ok.2 ⟨by omega, by omega, ?_, hvalid r (List.mem_of_getElem? hj)⟩
      rw [slice_append_right (by omega), hheader, Nat.add_sub_cancel_left, hslice]

/-- `map_page_record` reads the same records as `parse_map_page`, one at a time. -/
theorem mapPageRecord_eq_ok {records : List BlockRef} (h : parseMapPage bytes first.toNat = .ok records) {index : Nat}
    {r : BlockRef} : mapPageRecord bytes index = .ok r ↔ records[index]? = some r := by
  obtain ⟨count, hcount, hrecords⟩ := bind_eq_ok.1 h
  obtain ⟨rfl, hall⟩ := mapPageRecords_eq_ok.1 hrecords
  have hlen := congrArg List.length (parseMapPage_eq_ok.1 h).2.2.2
  rw [List.length_append, length_pageHeader rfl, length_flatMap BlockRef.length_encode] at hlen
  simp only [mapPageRecord, bind_eq_ok, okOr_eq_ok, checkedMul_eq_some, checkedAdd_eq_some]
  simp only [Nat.zero_add] at hall
  constructor
  · rintro ⟨_, ⟨-, rfl⟩, _, ⟨-, rfl⟩, hparse⟩
    have hend := (BlockRef.parse_eq_ok.1 hparse).2.1
    have hlt : index < records.length := by
      by_contra hge
      have := Nat.mul_le_mul_right blockRefSize (Nat.not_lt.1 hge)
      simp only [blockRefSize] at *
      omega
    have hfound := List.getElem?_eq_getElem hlt
    rw [hfound, ← Except.ok.inj ((hall index _ hfound).symm.trans hparse)]
  · intro hr
    have hparse := hall index r hr
    have hbound := (BlockRef.parse_eq_ok.1 hparse).1
    exact ⟨_, ⟨by omega, rfl⟩, _, ⟨by omega, rfl⟩, hparse⟩

/-! ### Reuse pages -/

/-- `parse_reuse_page` accepts a header followed by chunk ids, and nothing else. -/
theorem parseReusePage_eq_ok {ids : List (ByteArr 32)} :
    parseReusePage bytes first.toNat = .ok ids ↔
      ids ≠ [] ∧ bytes = pageHeader reusePageMagic 32 first ++ ids.flatMap ByteArr.toList := by
  have hsize : (32 : UInt16).toNat = reuseRecordSize := rfl
  have hmagic : reusePageMagic.length = 8 := rfl
  have hheader := length_pageHeader hmagic 32 first
  simp only [parseReusePage, bind_eq_ok, ← hsize, pure_eq_ok, Except.ok.injEq,
    parsePageHeader_eq_ok hmagic (show 0 < (32 : UInt16).toNat by decide)]
  constructor
  · rintro ⟨n, ⟨hpage, hlen, hpos⟩, hids⟩
    have hpayload : (bytes.drop pageHeaderSize).length = n * 32 := by
      rw [List.length_drop, hlen]
      exact Nat.add_sub_cancel_left _ _
    have hbytes := (chunks32_eq (by rw [hpayload, Nat.mul_mod_left])).1 hids
    have hcount : ids.length = n := by
      rw [← hids, length_chunks32, hpayload, Nat.mul_div_cancel _ (by decide)]
    refine ⟨List.ne_nil_of_length_pos (by omega), ?_⟩
    rw [← hpage, ← hbytes]
    exact (List.take_append_drop pageHeaderSize bytes).symm
  · rintro ⟨hne, rfl⟩
    have hpayload := length_flatMap_toList ids
    refine ⟨ids.length, ⟨?_, ?_, List.length_pos_iff.2 hne⟩, ?_⟩
    · rw [slice_append_left (by rw [hheader, Nat.zero_add]), ← hheader, slice_full]
    · rw [List.length_append, hheader, hpayload]
      rfl
    · rw [← hheader, List.drop_left]
      exact (chunks32_eq (by rw [hpayload, Nat.mul_mod_left])).2 rfl

end

end Hakutaku
