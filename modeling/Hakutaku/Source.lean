import Hakutaku.CanonicalPath
import Hakutaku.Records

/-!
# Publisher sources (`source.rs`)

What the packer knows about a source file, and the class a file gets from its path and length.
-/

namespace Hakutaku

inductive CompressionPolicy
  | auto
  | raw
deriving DecidableEq, Repr

def CompressionPolicy.toByte : CompressionPolicy → UInt8
  | auto => 0
  | raw => 1

/-- Whether a policy lets a stored block stand for the plaintext. -/
def CompressionPolicy.accepts (policy : CompressionPolicy) (codec : Codec) : Bool :=
  policy = .auto || codec = .raw

structure SourceClass where
  layout : LayoutKind
  fixedBlockLen : UInt32
  access : AccessClass
  compression : CompressionPolicy
deriving DecidableEq

/-- Identity of a file's state (Unix): two equal stamps mean an unchanged file. -/
structure SourceStamp where
  len : UInt64
  modified : Option (UInt64 × UInt32)
  device : UInt64
  inode : UInt64
deriving DecidableEq

structure SourceFile where
  hostPath : String
  logicalPath : String
  len : UInt64
  stamp : SourceStamp
deriving DecidableEq

def SourceFile.sourceChanged (source : SourceFile) : PackError :=
  .invalidInput ("source changed while packing: " ++ source.hostPath)

def SourceFile.keyMaterial (source : SourceFile) : PackError :=
  .invalidInput ("Hakutaku key material cannot be packaged as a resource: " ++ source.hostPath)

def streamBlock : Nat := 256 * 1024
def audioBlock : Nat := 64 * 1024
def shortAudioLimit : Nat := 1024 * 1024
def bulkBlock : Nat := 1024 * 1024
def hotFileLimit : Nat := 32 * 1024
def contentDefinedLimit : Nat := 64 * 1024 * 1024

/-- The part behind the last dot (`rsplit_once`), in ASCII lower case. -/
def lowerExtension (path : String) : List Char :=
  if path.toList.contains '.' then (path.toList.reverse.takeWhile (· ≠ '.')).reverse.map Char.toLower else []

def isOneOf (names : List String) (extension : List Char) : Bool := names.any fun name => name.toList == extension

def classify (source : SourceFile) : SourceClass :=
  let extension := lowerExtension source.logicalPath
  let audio := isOneOf ["mp3", "ogg", "opus", "flac", "wav"] extension
  let video := isOneOf ["mp4", "webm", "mkv", "mov", "m4v"] extension
  let alreadyCompressed := isOneOf ["webp", "png", "jpg", "jpeg", "avif", "opus", "mp3", "ogg", "flac", "mp4", "webm",
    "mkv", "mov", "m4v"] extension
  let compression := if alreadyCompressed then .raw else .auto
  if video || audio then
    let longLivedAudio := (source.logicalPath.toList.splitOn '/').any fun component =>
      eqIgnoreAsciiCase component "bgm".toList || eqIgnoreAsciiCase component "music".toList
    let access :=
      if video || longLivedAudio || shortAudioLimit < source.len.toNat then .streaming else .transient
    { layout := .fixed, fixedBlockLen := UInt32.ofNat (if audio then audioBlock else streamBlock), access, compression }
  else if source.len.toNat ≤ hotFileLimit then
    { layout := .fixed, fixedBlockLen := UInt32.ofNat (max source.len.toNat 1), access := .hot, compression }
  else if source.len.toNat ≤ contentDefinedLimit then
    { layout := .contentDefined, fixedBlockLen := 0, access := .normal, compression }
  else { layout := .fixed, fixedBlockLen := UInt32.ofNat bulkBlock, access := .normal, compression }

/-- Fixed layouts have a positive block length, content-defined ones none. -/
theorem classify_fixedBlockLen (source : SourceFile) :
    (classify source).layout = .fixed ∧ 0 < (classify source).fixedBlockLen.toNat ∨
      (classify source).layout = .contentDefined ∧ (classify source).fixedBlockLen = 0 := by
  have hmedia : ∀ audio : Bool, 0 < (UInt32.ofNat (if audio then audioBlock else streamBlock)).toNat := by decide
  simp only [classify]
  split
  · exact .inl ⟨rfl, hmedia _⟩
  · split
    · rename_i hlen
      have hlt : max source.len.toNat 1 < 2 ^ 32 := by
        simp only [hotFileLimit] at hlen
        omega
      refine .inl ⟨rfl, ?_⟩
      rw [UInt32.toNat_ofNat_of_lt' hlt]
      omega
    · split
      · exact .inr ⟨rfl, rfl⟩
      · refine .inl ⟨rfl, ?_⟩
        show 0 < (UInt32.ofNat bulkBlock).toNat
        decide

/-- The magics of publisher identities and runtime key files (`identity.rs`). -/
def isHakutakuKeyMagic (magic : Bytes) : Bool :=
  magic = ascii "HAKID001".toList || magic = ascii "HAKRT001".toList

end Hakutaku
