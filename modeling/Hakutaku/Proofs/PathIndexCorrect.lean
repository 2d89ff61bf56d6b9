import Hakutaku.PathIndex

/-!
# The path index is correct

The table of the builder, written into a catalog and read back, answers every canonical query
exactly, for every keyed hash; and on any accepted catalog a hit is the file with the queried path.
-/

namespace Hakutaku
open Wire

/-- The lookup on a catalog that carries the builder's table and the paths it was built from. -/
theorem findFile_of_buildPathSlots [Target] [Crypto] {pathKey : ByteArr 32} {paths : List String} {d : CatalogData}
    {bytes : Bytes} {c : Catalog} {k : Nat} (hk : k ≤ 32) (hload : paths.length < 2 ^ k)
    (hindexed : Indexed pathKey paths k paths.length d.pathSlots) (hnodup : paths.Nodup)
    (hlen : d.files.length = paths.length)
    (hpool : ∀ (i : Nat) (r : FileRecord) (p : String), d.files[i]? = some r → paths[i]? = some p →
      slice d.pathPool r.pathOffset.toNat r.pathLen.toNat = strBytes p)
    (hencode : d.encode = .ok bytes) (hparse : Catalog.parse bytes = .ok c) {query : String} (hquery : Canonical query) :
    ∃ answer, c.findFile query pathKey = .ok answer ∧ ∀ i, answer = some i ↔ paths[i]? = some query := by
  obtain ⟨he, hb⟩ := CatalogData.encode_eq_ok.1 hencode
  rw [hb] at hparse
  obtain ⟨hc, hv⟩ := Catalog.eq_view_of_parse he hparse
  have hw := (CatalogData.wellFormed_view he).2 hv
  have hrecords := Catalog.records_view he hv
  rw [hc]
  refine hw.findFile_indexed hk hindexed hload (hrecords.slots_length.symm.trans hindexed.length) hrecords.slots
    (fun i p hp => ?_) hnodup hquery
  have hi : i < d.files.length := hlen ▸ (List.getElem?_eq_some_iff.1 hp).1
  have hr := List.getElem?_eq_getElem hi
  exact (Catalog.path_view he hv hr).2 (hpool i _ p hr hp)

theorem pathIndex_correct [Target] [Crypto] (pathKey : ByteArr 32) :
    (∀ (paths : List String) (d : CatalogData), paths.Nodup → paths.length ≤ maxFiles →
      d.files.length = paths.length →
      (∀ (i : Nat) (r : FileRecord) (p : String), d.files[i]? = some r → paths[i]? = some p →
        slice d.pathPool r.pathOffset.toNat r.pathLen.toNat = strBytes p) →
      ∃ slots, buildPathSlots paths d.files pathKey = .ok slots ∧
        ∀ bytes c, { d with pathSlots := slots }.encode = .ok bytes → Catalog.parse bytes = .ok c →
          ∀ query, Canonical query →
            ∃ answer, c.findFile query pathKey = .ok answer ∧ ∀ i, answer = some i ↔ paths[i]? = some query) ∧
    (∀ bytes c query i, Catalog.parse bytes = .ok c → c.findFile query pathKey = .ok (some i) →
      c.path i = .ok query) := by
  constructor
  · intro paths d hnodup hmax hlen hpool
    obtain ⟨k, slots, hbuild, hk, hload, hindexed⟩ := buildPathSlots_spec paths d.files pathKey hlen.symm hmax
    exact ⟨slots, hbuild, fun bytes c hencode hparse query hquery =>
      findFile_of_buildPathSlots (d := { d with pathSlots := slots }) hk hload hindexed hnodup hlen hpool hencode
        hparse hquery⟩
  · intro bytes c query i hparse hfind
    exact (Catalog.parse_eq_ok.1 hparse).2.2.findFile_sound hfind

theorem pathIndex_correct_sample : let _ := target64; let _ := exampleCrypto
    ∃ bytes c, sampleCatalog.encode = .ok bytes ∧ Catalog.parse bytes = .ok c ∧
      c.findFile "a" (.replicate 32 0) = .ok (some 0) ∧ c.findFile "b" (.replicate 32 0) = .ok none := by
  let _ := target64; let _ := exampleCrypto
  have he : sampleCatalog.encode = .ok sampleCatalog.wire := CatalogData.encode_eq_ok.2 ⟨sampleCatalog_encodable, rfl⟩
  have hp := CatalogData.parse_wire sampleCatalog_encodable sampleCatalog_valid
  obtain ⟨slots, hbuild, h⟩ := (pathIndex_correct (.replicate 32 0)).1 ["a"] sampleCatalog (by decide) (by decide) rfl
    (fun i r p hr hp => by
      match i with
      | 0 => obtain rfl := Option.some.inj hr; obtain rfl := Option.some.inj hp; decide)
  have hslots : buildPathSlots ["a"] sampleCatalog.files (.replicate 32 0) = .ok sampleCatalog.pathSlots := by decide
  obtain rfl := Except.ok.inj (hslots.symm.trans hbuild)
  refine ⟨_, _, he, hp, ?_, ?_⟩
  · obtain ⟨answer, ha, hiff⟩ := h _ _ he hp "a" (by decide)
    rw [ha, (hiff 0).2 rfl]
  · obtain ⟨answer, ha, hiff⟩ := h _ _ he hp "b" (by decide)
    cases answer with
    | none => exact ha
    | some i =>
      have hi := (hiff i).1 rfl
      match i with
      | 0 => exact absurd (Option.some.inj hi) (by decide)

end Hakutaku
