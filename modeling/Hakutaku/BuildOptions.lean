import Hakutaku.Builder
import Hakutaku.Extraction

/-!
# What a build accepts (`packer.rs`)

`validate_options` and `validate_identity_location`: the options of a build, and where it may read and write on the host.
-/

namespace Hakutaku
open Wire

/-- The paths a build is given, as absolute paths of the host and as they are displayed. -/
structure BuildPaths where
  tree : FileTree
  input : List PathPart
  inputShown : String
  output : List PathPart
  outputShown : String
  /-- Where the identity was loaded from, and how that is displayed. -/
  identity : Option (Place × String)

/-- `Path::canonicalize`, of a host whose calls do not fail for other reasons. -/
def canonicalPlace (tree : FileTree) (path : List PathPart) : PackResult Place :=
  match tree.resolve maxLinks [] path with
  | .ok place => .ok place
  | .error why => fail (.io (blockedKind why))

/-- `Path::is_dir`. -/
def isDirectory (tree : FileTree) (path : List PathPart) : Bool :=
  match tree.resolve maxLinks [] path with
  | .ok place => tree.entry place = some .directory
  | .error _ => false

/-- The loop of `resolve_candidate_path`, over the parts of the path from its end: the names behind the last ancestor that
exists are taken as they are. -/
def resolveCandidate (tree : FileTree) (shown : String) : List PathPart → PackResult Place
  | [] => canonicalPlace tree []
  | part :: above =>
    match tree.resolve maxLinks [] (part :: above).reverse with
    | .ok place => .ok place
    | .error _ =>
      match part with
      | .name name => do return (← resolveCandidate tree shown above) ++ [name]
      | _ => fail (.invalidInput ("path has no existing ancestor: " ++ shown))

/-- `resolve_candidate_path`. -/
def resolveCandidatePath (tree : FileTree) (path : List PathPart) (shown : String) : PackResult Place :=
  resolveCandidate tree shown (path.filter (· ≠ .here)).reverse

def validatePrefixes : List String → PackResult Unit
  | [] => .ok ()
  | path :: rest =>
    match validateCanonicalPath path with
    | .ok () => validatePrefixes rest
    | .error _ => fail (.invalidInput ("deferred prefix is not canonical: \"" ++ path ++ "\""))

def validateOptions (paths : BuildPaths) (options : PackOptions) : PackResult Unit := do
  if options.releaseSequenceFloor = 0 then fail (.invalidInput "release sequence floor must be positive")
  if !isDirectory paths.tree paths.input then fail (.invalidInput ("input is not a directory: " ++ paths.inputShown))
  if options.segmentTargetBytes < 1024 * 1024 then fail (.invalidInput "segment target must be at least 1 MiB")
  if options.compressionLevel < -7 ∨ 22 < options.compressionLevel then
    fail (.invalidInput "zstd level must be between -7 and 22")
  let input ← canonicalPlace paths.tree paths.input
  let output ← resolveCandidatePath paths.tree paths.output paths.outputShown
  if output = input ∨ input.isPrefixOf output then
    fail (.invalidInput ("output directory must be outside the input asset directory: " ++ paths.outputShown))
  validatePrefixes options.deferredPrefixes

def validateIdentityLocation (paths : BuildPaths) : PackResult Unit :=
  match paths.identity with
  | none => .ok ()
  | some (place, shown) => do
    let input ← canonicalPlace paths.tree paths.input
    if place = input ∨ input.isPrefixOf place then
      fail (.invalidInput ("publisher identity must be outside the input asset directory: " ++ shown))

end Hakutaku
