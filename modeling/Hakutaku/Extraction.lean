import Hakutaku.Lib.FileTree
import Hakutaku.Lib.Act
import Hakutaku.CanonicalPath

/-!
# Extraction targets (`cli/src/main.rs`)

`safe_extraction_target` walks down from the output root one component at a time: it creates the directory, asks the host
where it is, and goes on from there. The host is a tree with links, any call on which can fail for another reason.
-/

namespace Hakutaku
open Act

/-- Failures of a command. -/
inductive CommandError
  | core (e : Error)
  | io (kind : IoKind)
  | message (text : String)
deriving DecidableEq

def blockedKind : Blocked → IoKind
  | .notFound => .notFound
  | .alreadyExists => .alreadyExists
  | .notDirectory | .tooManyLinks => .other

/-- The host follows this many links on one path. -/
def maxLinks : Nat := 40

/-- The file system, and what the calls to come fail with if they do not do what they are for. -/
structure Disk where
  tree : FileTree
  faults : List (Option IoKind)

abbrev DiskM := Act CommandError Disk

def nextFault : DiskM (Option IoKind) := do
  match (← get).faults with
  | [] => return none
  | fault :: rest =>
    modify fun d => { d with faults := rest }
    return fault

/-- A call that creates something. -/
def createAt (kind : FileKind) (path : List PathPart) : DiskM (Except IoKind Unit) := do
  match ← nextFault with
  | some failure => return .error failure
  | none =>
    match (← get).tree.create kind maxLinks path with
    | .error why => return .error (blockedKind why)
    | .ok tree =>
      modify fun d => { d with tree }
      return .ok ()

/-- `std::fs::create_dir`. -/
def createDir (path : List PathPart) : DiskM (Except IoKind Unit) := createAt .directory path

/-- `OpenOptions::open` with `create_new`. -/
def createNew (path : List PathPart) : DiskM (Except IoKind Unit) := createAt .file path

/-- `Path::canonicalize`. -/
def canonicalize (path : List PathPart) : DiskM Place := do
  match ← nextFault with
  | some failure => throw (.io failure)
  | none =>
    match (← get).tree.resolve maxLinks [] path with
    | .error why => throw (.io (blockedKind why))
    | .ok place => return place

/-! ### `safe_extraction_target` -/

/-- A component of a path as the host takes it. -/
def pathPart (component : String) : PathPart :=
  if component = "" ∨ component = "." then .here else if component = ".." then .up else .name component

/-- `Path::starts_with`. -/
def startsWith (path root : List PathPart) : Bool := root.isPrefixOf path

/-- `split('/')`. -/
def pathComponents (path : String) : List String := (path.toList.splitOn '/').map String.ofList

/-- The loop over the components. -/
def extractionLoop (root : Place) : List PathPart → List String → DiskM (List PathPart)
  | _, [] => throw (.message "empty extraction path")
  | parent, [component] => do
    let target := parent ++ [pathPart component]
    if !startsWith target root.parts then throw (.message "extraction target escaped output root")
    return target
  | parent, component :: next :: rest => do
    let parent := parent ++ [pathPart component]
    match ← createDir parent with
    | .ok () => pure ()
    | .error .alreadyExists => pure ()
    | .error kind => throw (.io kind)
    let parent ← canonicalize parent
    if !startsWith parent.parts root.parts then throw (.message "extraction directory escaped output root")
    extractionLoop root parent.parts (next :: rest)

/-- `safe_extraction_target`, where the root is a path without links. -/
def safeExtractionTarget (root : Place) (logicalPath : String) : DiskM (List PathPart) := do
  if let .error (.err e) := validateCanonicalPath logicalPath then throw (.core e)
  extractionLoop root root.parts (pathComponents logicalPath)

/-- The loop of `extract_command`. Copying can fail behind the file that is created. -/
def extractAssets (root : Place) : List String → DiskM Unit
  | [] => return
  | path :: paths => do
    let target ← safeExtractionTarget root path
    match ← createNew target with
    | .ok () => pure ()
    | .error kind => throw (.io kind)
    match ← nextFault with
    | none => pure ()
    | some kind => throw (.io kind)
    extractAssets root paths

/-! ### The components of a canonical path -/

theorem pathPart_of_canonical {path component : String} (h : Canonical path) (hmem : component ∈ pathComponents path) :
    pathPart component = .name component := by
  obtain ⟨part, hpart, rfl⟩ := List.mem_map.1 hmem
  unfold Canonical nonCanonical at h
  simp only [Bool.or_eq_false_iff] at h
  have hbad : badPart part = false := by
    have hall := List.any_eq_false.1 h.2 part hpart
    simpa using hall
  unfold badPart at hbad
  simp only [Bool.or_eq_false_iff] at hbad
  obtain ⟨⟨⟨⟨⟨⟨⟨hempty, hdot⟩, hdots⟩, -⟩, -⟩, -⟩, -⟩, -⟩ := hbad
  have hne (other : String) (hother : (part == other.toList) = false) : String.ofList part ≠ other := by
    rintro rfl
    simp at hother
  have hnil : String.ofList part ≠ "" := by
    intro heq
    rw [String.ofList_eq_empty_iff] at heq
    subst heq
    cases hempty
  rw [pathPart, if_neg (not_or.2 ⟨hnil, hne "." hdot⟩), if_neg (hne ".." hdots)]

theorem pathComponents_ne_nil (path : String) : pathComponents path ≠ [] := by
  rw [pathComponents, Ne, List.map_eq_nil_iff]
  exact List.splitOnP_ne_nil _ _

end Hakutaku
