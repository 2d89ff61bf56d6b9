import Hakutaku.ReaderSystem

/-!
# Reads do not see the caches

In every state that sessions, cursors and calls on one package can reach, every reply given so far is
right, whatever the budget, the interleaving and the failures of the backend were.
-/

namespace Hakutaku
open Wire

theorem read_transparency [Crypto] [Target] (P : PackageInner) (hP : P.Coherent)
    (htiled : ∀ asset : Asset P, ∃ start, asset.record.Tiled P.idealRef start) (faults : List (Option Fault))
    (s : System P) (hrun : Relation.ReflTransGen System.Step (System.opened P faults) s) (c : Call P) (reply : Reply)
    (hreply : (c, reply) ∈ s.replies) : c.Answered reply :=
  (((System.Ok.opened faults).run hP hrun).replies c reply hreply).answered htiled

theorem read_transparency_sample : letI := exampleCrypto; letI := target64
    oneBlockAsset.plaintext = [1, 2, 3, 4] ∧ oneBlockAsset.Answers 1 (zeros 5) (.ok 3) [2, 3, 4, 0, 0] := by
  let _ := exampleCrypto
  let _ := target64
  obtain ⟨s, hrun, hreply⟩ := (System.opened oneBlock.package []).exists_reply (c := .readAt oneBlockAsset 1 (zeros 5)) rfl
    (.count (.ok 3) [2, 3, 4, 0, 0]) (by decide +kernel)
  exact ⟨by decide +kernel, read_transparency oneBlock.package oneBlock_coherent oneBlock_tiled [] s hrun _ _ hreply⟩

end Hakutaku
