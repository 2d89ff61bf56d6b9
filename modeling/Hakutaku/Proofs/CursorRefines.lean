import Hakutaku.Cursor

/-!
# A cursor is a cursor over plain bytes

Every run of reads and seeks on a cursor, whatever its backend fails at, is a run on the plain content
of the asset.
-/

namespace Hakutaku
open Wire

/-- Two blocks of one file under one key: the second has other bytes at another place. -/
def twins : SampleRelease where
  file := ⟨0, 1, .fixed, .hot, 8, 0, 2, 4⟩
  refs := [⟨0, 0, 0, 128, 20, 4, .raw, ⟨[1, 2, 3, 4] ++ zeros 12, length_firstDigest⟩⟩,
    ⟨4, 0, 0, 148, 20, 4, .raw, ⟨[5, 6, 7, 8] ++ zeros 12, by decide⟩⟩]
  segmentBlocks := 1
  payload := [1, 2, 3, 4] ++ zeros 16 ++ ([5, 6, 7, 8] ++ zeros 16)

def twinsAsset : letI := target64; Asset twins.package :=
  letI := target64
  ⟨0, twins.file, by decide +kernel⟩

/-- The cache gives the first block for the second, so what a cursor reads at 4 depends on what was read
before, and is the content of no asset. -/
theorem twins_not_plain : letI := exampleCrypto; letI := target64
    twinsAsset.record.Tiled twins.package.idealRef (fun i => i * 4) ∧
      ¬ ∃ content : Bytes, ∀ calls, PlainRun content 0
        ((Session.new twinsAsset).cursorRun (.new .memoryConstrained []) calls).1
        ((Session.new twinsAsset).cursorRun (.new .memoryConstrained []) calls).2.position.toNat := by
  let _ := exampleCrypto
  let _ := target64
  have hzero : twins.package.idealRef 0 = .ok (twins.refs.head (by decide)) := by decide +kernel
  have hone : twins.package.idealRef 1 = .ok (twins.refs.getLast (by decide)) := by decide +kernel
  have hseek : ((Session.new twinsAsset).cursorRun (.new .memoryConstrained []) [.seek (.start 4), .read (zeros 4)]).1 =
      [(.seek (.start 4), .seek (.ok 4)), (.read (zeros 4), .read (.ok 4) [5, 6, 7, 8])] := by decide +kernel
  have hread : ((Session.new twinsAsset).cursorRun (.new .memoryConstrained []) [.read (zeros 4), .read (zeros 4)]).1 =
      [(.read (zeros 4), .read (.ok 4) [1, 2, 3, 4]), (.read (zeros 4), .read (.ok 4) [1, 2, 3, 4])] := by decide +kernel
  refine ⟨⟨by decide, rfl, by decide, fun i hi => ?_⟩, ?_⟩
  · rcases Nat.lt_succ_iff_lt_or_eq.1 (show i < 2 from hi) with hi | rfl
    · obtain rfl : i = 0 := Nat.lt_one_iff.1 hi
      exact ⟨_, hzero, by decide, by decide⟩
    · exact ⟨_, hone, by decide, by decide⟩
  · rintro ⟨content, h⟩
    have hfirst := h [.read (zeros 4), .read (zeros 4)]
    have hsecond := h [.seek (.start 4), .read (zeros 4)]
    rw [hread] at hfirst
    rw [hseek] at hsecond
    obtain ⟨_, hstep, _, hlast, -⟩ := hfirst
    obtain ⟨-, rfl⟩ := hstep.of_read
    obtain ⟨_, hstep', _, hlast', -⟩ := hsecond
    cases hstep'
    exact absurd (hlast.of_read.1.trans hlast'.of_read.1.symm) (by decide)

theorem cursor_refines [Crypto] [Target] (P : PackageInner) (hP : P.Coherent) (asset : Asset P)
    (htiled : ∃ start, asset.record.Tiled P.idealRef start) (faults : List (Option Fault)) (calls : List CursorCall) :
    PlainRun asset.plaintext 0 ((Session.new asset).cursorRun (.new P.budget faults) calls).1
        ((Session.new asset).cursorRun (.new P.budget faults) calls).2.position.toNat ∧
      ((Session.new asset).cursorRun (.new P.budget faults) calls).2.position.toNat ≤ asset.len ∧
      asset.plaintext.length = asset.len ∧
      ∀ (before reads : List (CursorCall × CursorReply)) (buffer buffer' : Bytes) (position : Nat),
        ((Session.new asset).cursorRun (.new P.budget faults) calls).1 =
          before ++ (reads ++ [(.read buffer, .read (.ok 0) buffer')]) →
        PlainRun asset.plaintext 0 before position → (∀ c ∈ reads, ∃ b, c.1 = .read b) → 0 < buffer.length →
          bytesRead reads = asset.plaintext.drop position := by
  obtain ⟨start, htiled⟩ := htiled
  have hlen := Asset.length_plaintext htiled
  have hrun := (Session.cursorRun_spec hP htiled (.new asset) (.new P P.budget faults) calls).2
  refine ⟨hrun, hlen ▸ hrun.le_length (Nat.zero_le _), hlen, ?_⟩
  intro before reads buffer buffer' position heq hbefore hreads hbuffer
  change PlainRun asset.plaintext 0 _ _ at hrun
  rw [heq] at hrun
  obtain ⟨middle, hfirst, hrest⟩ := hrun.append
  obtain rfl : middle = position := hfirst.unique hbefore
  exact hrest.bytesRead_until_zero (hfirst.le_length (Nat.zero_le _)) hbuffer hreads

theorem cursor_refines_sample : letI := exampleCrypto; letI := target64
    PlainRun oneBlockAsset.plaintext 0
      [(.seek (.fromEnd (-3)), .seek (.ok 1)), (.read (zeros 2), .read (.error (.err (.io .other))) (zeros 2)),
        (.read (zeros 2), .read (.ok 2) [2, 3])] 3 := by
  let _ := exampleCrypto
  let _ := target64
  have heq : ∀ {content : Bytes} {run run' : List (CursorCall × CursorReply)} {stop stop' : Nat}, run = run' → stop = stop' →
      PlainRun content 0 run stop → PlainRun content 0 run' stop' := by
    rintro content run run' stop stop' rfl rfl h
    exact h
  exact heq (by decide +kernel) (by decide +kernel)
    (cursor_refines oneBlock.package oneBlock_coherent oneBlockAsset (oneBlock_tiled oneBlockAsset) [some ⟨.other, []⟩]
      [.seek (.fromEnd (-3)), .read (zeros 2), .read (zeros 2)]).1

end Hakutaku
