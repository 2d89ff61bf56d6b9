import Hakutaku.Lib.Act
import Hakutaku.CanonicalPath
import Hakutaku.Source
import Mathlib.Data.List.Sort

/-!
# Collecting the sources (`source.rs`)

`collect_files` walks the input directory and lists its regular files in the order of their logical paths. It stops at a
symbolic link, at a name no package can hold, and at a file that begins like a key file.
-/

namespace Hakutaku
open Act

/-! ### The host -/

/-- Programs on the publisher's machine. The state is the outcomes of the calls to come, none failing after the last. -/
abbrev HostM := Act (Stop PackError) (List (Option IoKind))

/-- One call that can fail. -/
def hostCall : HostM Unit := do
  match ← get with
  | [] => pure ()
  | outcome :: rest =>
    modify fun _ => rest
    match outcome with
    | none => pure ()
    | some kind => throw (.err (.io kind))

/-- A name in a directory as it is displayed, and whether it is UTF-8. -/
structure OsName where
  shown : String
  utf8 : Bool
deriving DecidableEq

/-- The entries of a directory in the order `read_dir` has them. -/
inductive Listing
  | nil
  | file (name : OsName) (content : Bytes) (stamp : SourceStamp) (rest : Listing)
  | directory (name : OsName) (entries rest : Listing)
  | symlink (name : OsName) (rest : Listing)
  /-- A socket, pipe or device. -/
  | other (name : OsName) (rest : Listing)

/-- The contents of the regular files of a tree. -/
def Listing.contents : Listing → List Bytes
  | .nil => []
  | .file _ content _ rest => content :: rest.contents
  | .directory _ entries rest => entries.contents ++ rest.contents
  | .symlink _ rest => rest.contents
  | .other _ rest => rest.contents

/-- `Path::join`. -/
def joinPath (directory name : String) : String :=
  if directory.toList.getLast? = some '/' then directory ++ name else directory ++ "/" ++ name

/-! ### Key files -/

/-- What `is_hakutaku_key_file` reports of a file with this content. -/
def hasKeyMagic (content : Bytes) : Bool := 8 ≤ content.length && isHakutakuKeyMagic (content.take 8)

def isHakutakuKeyFile (content : Bytes) : HostM Bool := do
  hostCall -- opening it
  hostCall -- reading its first bytes
  return hasKeyMagic content

/-- Whatever stands behind the first bytes is not looked at. -/
theorem hasKeyMagic_append {content : Bytes} (h : hasKeyMagic content = true) (trailing : Bytes) :
    hasKeyMagic (content ++ trailing) = true := by
  simp only [hasKeyMagic, Bool.and_eq_true, decide_eq_true_eq] at h ⊢
  rw [List.length_append, List.take_append_of_le_length h.1]
  exact ⟨by omega, h.2⟩

theorem isHakutakuKeyFile_returns (content : Bytes) : Returns (isHakutakuKeyFile content) (· = hasKeyMagic content) :=
  .bind (.trivial _) fun _ _ => .bind (.trivial _) fun _ _ => .pure rfl

/-! ### The walk -/

/-- The logical path of a file whose path below the input directory has these components. -/
def logicalPathOf (relative : List OsName) : PackResult String :=
  if relative.all OsName.utf8 then .ok ("/".intercalate (relative.map OsName.shown))
  else fail (.invalidInput ("path is not UTF-8: " ++ "/".intercalate (relative.map OsName.shown)))

/-- A regular file of the walk. -/
def collectFile (hostPath : String) (relative : List OsName) (content : Bytes) (stamp : SourceStamp) :
    HostM SourceFile := do
  if ← isHakutakuKeyFile content then
    throw (.err (.invalidInput ("Hakutaku key material cannot be packaged as a resource: " ++ hostPath)))
  let logicalPath ← logicalPathOf relative
  coreResult (validateCanonicalPath logicalPath)
  hostCall -- its metadata
  return { hostPath, logicalPath, len := stamp.len, stamp }

/-- The loop over the entries of a directory. -/
def collectDirectory : (directory : String) → (relative : List OsName) → Listing → List SourceFile →
    HostM (List SourceFile)
  | _, _, .nil, files => return files
  | directory, relative, .file name content stamp rest, files => do
    hostCall -- the entry
    hostCall -- its type
    let file ← collectFile (joinPath directory name.shown) (relative ++ [name]) content stamp
    collectDirectory directory relative rest (files ++ [file])
  | directory, relative, .directory name entries rest, files => do
    hostCall
    hostCall
    hostCall -- `read_dir`
    let files ← collectDirectory (joinPath directory name.shown) (relative ++ [name]) entries files
    collectDirectory directory relative rest files
  | directory, _, .symlink name _, _ => do
    hostCall
    hostCall
    throw (.err (.invalidInput ("symbolic links are not package resources: " ++ joinPath directory name.shown)))
  | directory, relative, .other _ rest, files => do
    hostCall
    hostCall
    collectDirectory directory relative rest files

def collectFiles (root : String) (listing : Listing) : HostM (List SourceFile) := do
  hostCall -- `canonicalize`
  hostCall -- `read_dir`
  let files ← collectDirectory root [] listing []
  return files.insertionSort fun a b => strBytes a.logicalPath ≤ strBytes b.logicalPath

/-! ### Key files stop the walk -/

theorem collectFile_returns (hostPath : String) (relative : List OsName) (content : Bytes) (stamp : SourceStamp) :
    Returns (collectFile hostPath relative content stamp) fun _ => hasKeyMagic content = false := by
  refine .bind (isHakutakuKeyFile_returns content) fun isKey hisKey => ?_
  subst hisKey
  refine .ite (fun _ => .bind (@Returns.throw _ _ _ (fun _ => False) _) fun _ h => h.elim) fun hkey => ?_
  exact .of_forall _ fun _ => Bool.eq_false_of_not_eq_true hkey

/-- A walk that succeeds has seen no key file. -/
theorem collectDirectory_returns (directory : String) (relative : List OsName) (listing : Listing) (files : List SourceFile) :
    Returns (collectDirectory directory relative listing files) fun _ =>
      ∀ content ∈ listing.contents, hasKeyMagic content = false := by
  induction listing generalizing directory relative files with
  | nil => exact .of_forall _ fun _ => nofun
  | file name content stamp rest ih =>
    refine .bind (.trivial _) fun _ _ => .bind (.trivial _) fun _ _ => .bind (collectFile_returns _ _ _ _) fun file hfile => ?_
    intro s
    refine (ih _ _ _ s).mono fun _ _ hrest => ?_
    exact List.forall_mem_cons.2 ⟨hfile, hrest⟩
  | directory name entries rest ihEntries ihRest =>
    refine .bind (.trivial _) fun _ _ => .bind (.trivial _) fun _ _ => .bind (.trivial _) fun _ _ =>
      .bind (ihEntries _ _ _) fun _ hentries => ?_
    intro s
    refine (ihRest _ _ _ s).mono fun _ _ hrest => ?_
    exact List.forall_mem_append.2 ⟨hentries, hrest⟩
  | symlink name rest ih => exact .bind (.trivial _) fun _ _ => .bind (.trivial _) fun _ _ => .throw _
  | other name rest ih => exact .bind (.trivial _) fun _ _ => .bind (.trivial _) fun _ _ => ih _ _ _

theorem collectFiles_returns (root : String) (listing : Listing) :
    Returns (collectFiles root listing) fun _ => ∀ content ∈ listing.contents, hasKeyMagic content = false :=
  .bind (.trivial _) fun _ _ => .bind (.trivial _) fun _ _ =>
    .bind (collectDirectory_returns root [] listing []) fun _ h => .pure h

/-! ### The walk finds each path once -/

/-- The names of the entries of a directory. -/
def Listing.names : Listing → List OsName
  | .nil => []
  | .file name _ _ rest | .directory name _ rest | .symlink name rest | .other name rest => name :: rest.names

/-- A name beside others in a directory. Names that are no text may be displayed alike. -/
structure OsName.Beside (name : OsName) (others : List OsName) : Prop where
  noSlash : '/' ∉ name.shown.toList
  fresh : name.utf8 = true → name ∉ others

/-- At every level the names are those of a directory. -/
def Listing.Named : Listing → Prop
  | .nil => True
  | .directory name entries rest => name.Beside rest.names ∧ entries.Named ∧ rest.Named
  | .file name _ _ rest | .symlink name rest | .other name rest => name.Beside rest.names ∧ rest.Named

theorem logicalPathOf_eq_ok {relative : List OsName} {path : String} : logicalPathOf relative = .ok path ↔
    (∀ name ∈ relative, name.utf8 = true) ∧ path = "/".intercalate (relative.map OsName.shown) := by
  rw [logicalPathOf]
  by_cases hutf8 : relative.all OsName.utf8 = true
  · rw [if_pos hutf8, Except.ok.injEq, eq_comm]
    exact (and_iff_right (List.all_eq_true.1 hutf8)).symm
  · rw [if_neg hutf8]
    exact iff_of_false fail_ne_ok fun hall => hutf8 (List.all_eq_true.2 hall.1)

/-- Different components come to different paths. -/
theorem logicalPathOf_injective {a b : List OsName} {path : String} (ha : ∀ name ∈ a, '/' ∉ name.shown.toList)
    (hb : ∀ name ∈ b, '/' ∉ name.shown.toList) (hane : a ≠ []) (hbne : b ≠ []) (h : logicalPathOf a = .ok path)
    (h' : logicalPathOf b = .ok path) : a = b := by
  have hsplit {l : List OsName} (hl : ∀ name ∈ l, '/' ∉ name.shown.toList) (hne : l ≠ [])
      (hpath : logicalPathOf l = .ok path) : path.toList.splitOn '/' = l.map fun name => name.shown.toList := by
    rw [(logicalPathOf_eq_ok.1 hpath).2, String.toList_intercalate, List.map_map]
    refine List.splitOn_intercalate '/' (fun part hpart => ?_) (by simpa using hne)
    obtain ⟨name, hname, rfl⟩ := List.mem_map.1 hpart
    exact hl name hname
  have hback {l : List OsName} (hpath : logicalPathOf l = .ok path) :
      ((l.map fun name => name.shown.toList).map fun part => OsName.mk (String.ofList part) true) = l := by
    rw [List.map_map, List.map_congr_left (g := id), List.map_id]
    intro name hname
    show OsName.mk _ true = name
    rw [String.ofList_toList, ← (logicalPathOf_eq_ok.1 hpath).1 name hname]
  rw [← hback h, ← hback h', ← hsplit ha hane h, ← hsplit hb hbne h']

/-- What a part of the walk adds below `relative`: files behind these names, each path once. -/
structure FoundBelow (relative names : List OsName) (found : List SourceFile) : Prop where
  once : (found.map SourceFile.logicalPath).Nodup
  behind : ∀ file ∈ found, ∃ name ∈ names, ∃ below, (∀ part ∈ name :: below, '/' ∉ part.shown.toList) ∧
    logicalPathOf (relative ++ name :: below) = .ok file.logicalPath

namespace FoundBelow
variable {relative names : List OsName} {name : OsName} {found found' : List SourceFile} {file : SourceFile}

theorem nil (relative names : List OsName) : FoundBelow relative names [] := ⟨.nil, nofun⟩

theorem cons_right (h : FoundBelow relative names found) (name : OsName) : FoundBelow relative (name :: names) found where
  once := h.once
  behind file hfile := by
    obtain ⟨other, hother, hrest⟩ := h.behind file hfile
    exact ⟨other, List.mem_cons_of_mem _ hother, hrest⟩

theorem single (hname : '/' ∉ name.shown.toList) (hpath : logicalPathOf (relative ++ [name]) = .ok file.logicalPath) :
    FoundBelow relative [name] [file] where
  once := List.nodup_singleton _
  behind := List.forall_mem_singleton.2
    ⟨name, List.mem_singleton.2 rfl, [], List.forall_mem_singleton.2 hname, hpath⟩

theorem inside (hname : '/' ∉ name.shown.toList) (h : FoundBelow (relative ++ [name]) names found) :
    FoundBelow relative [name] found where
  once := h.once
  behind file hfile := by
    obtain ⟨other, -, below, hbelow, hpath⟩ := h.behind file hfile
    refine ⟨name, List.mem_singleton.2 rfl, other :: below, List.forall_mem_cons.2 ⟨hname, hbelow⟩, ?_⟩
    rwa [List.append_assoc] at hpath

/-- The files of one entry and those of the entries behind it have different paths. -/
theorem append (hrelative : ∀ part ∈ relative, '/' ∉ part.shown.toList) (hname : name.Beside names)
    (h : FoundBelow relative [name] found) (h' : FoundBelow relative names found') :
    FoundBelow relative (name :: names) (found ++ found') where
  once := by
    rw [List.map_append, List.nodup_append]
    refine ⟨h.once, h'.once, ?_⟩
    rintro path hpath other hother rfl
    obtain ⟨file, hfile, rfl⟩ := List.mem_map.1 hpath
    obtain ⟨file', hfile', heq⟩ := List.mem_map.1 hother
    obtain ⟨first, hfirst, below, hbelow, hok⟩ := h.behind file hfile
    obtain ⟨second, hsecond, below', hbelow', hok'⟩ := h'.behind file' hfile'
    obtain rfl := List.mem_singleton.1 hfirst
    have hsame := logicalPathOf_injective (List.forall_mem_append.2 ⟨hrelative, hbelow⟩)
      (List.forall_mem_append.2 ⟨hrelative, hbelow'⟩) (by simp) (by simp) hok (heq ▸ hok')
    obtain ⟨rfl, -⟩ := List.cons.inj (List.append_cancel_left hsame)
    exact hname.fresh ((logicalPathOf_eq_ok.1 hok).1 first (by simp)) hsecond
  behind file hfile := by
    rcases List.mem_append.1 hfile with hfile | hfile
    · obtain ⟨other, hother, hrest⟩ := h.behind file hfile
      exact ⟨other, List.mem_singleton.1 hother ▸ List.mem_cons_self .., hrest⟩
    · exact (h'.cons_right name).behind file hfile

end FoundBelow

theorem collectFile_path (hostPath : String) (relative : List OsName) (content : Bytes) (stamp : SourceStamp) :
    Returns (collectFile hostPath relative content stamp) fun file => logicalPathOf relative = .ok file.logicalPath := by
  refine .bind (.trivial _) fun _ _ => .ite (fun _ => .bind (@Returns.throw _ _ _ (fun _ => False) _) fun _ h => h.elim) fun _ => ?_
  refine .bind (.lift fun _ => id) fun logicalPath hpath => .bind (.trivial _) fun _ _ => .bind (.trivial _) fun _ _ => ?_
  exact .pure hpath

/-- The walk over the entries of one directory. -/
theorem collectDirectory_found (directory : String) {relative : List OsName}
    (hrelative : ∀ part ∈ relative, '/' ∉ part.shown.toList) {listing : Listing} (hnamed : listing.Named)
    (files : List SourceFile) : Returns (collectDirectory directory relative listing files) fun out =>
      ∃ found, out = files ++ found ∧ FoundBelow relative listing.names found := by
  induction listing generalizing directory relative files with
  | nil => exact .pure ⟨[], (List.append_nil _).symm, .nil _ _⟩
  | file name content stamp rest ih =>
    refine .bind (.trivial _) fun _ _ => .bind (.trivial _) fun _ _ => .bind (collectFile_path _ _ _ _) fun file hfile => ?_
    intro s
    refine (ih _ hrelative hnamed.2 _ s).mono ?_
    rintro _ _ ⟨found, rfl, hfound⟩
    exact ⟨file :: found, List.append_assoc _ _ _, (FoundBelow.single hnamed.1.noSlash hfile).append hrelative hnamed.1 hfound⟩
  | directory name entries rest ihEntries ihRest =>
    have hbelow : ∀ part ∈ relative ++ [name], '/' ∉ part.shown.toList :=
      List.forall_mem_append.2 ⟨hrelative, List.forall_mem_singleton.2 hnamed.1.noSlash⟩
    refine .bind (.trivial _) fun _ _ => .bind (.trivial _) fun _ _ => .bind (.trivial _) fun _ _ =>
      .bind (ihEntries _ hbelow hnamed.2.1 _) ?_
    rintro _ ⟨inner, rfl, hinner⟩ s
    refine (ihRest _ hrelative hnamed.2.2 _ s).mono ?_
    rintro _ _ ⟨found, rfl, hfound⟩
    exact ⟨inner ++ found, List.append_assoc _ _ _, (hinner.inside hnamed.1.noSlash).append hrelative hnamed.1 hfound⟩
  | symlink name rest ih => exact .bind (.trivial _) fun _ _ => .bind (.trivial _) fun _ _ => .throw _
  | other name rest ih =>
    refine .bind (.trivial _) fun _ _ => .bind (.trivial _) fun _ _ => ?_
    intro s
    refine (ih _ hrelative hnamed.2 _ s).mono ?_
    rintro _ _ ⟨found, rfl, hfound⟩
    exact ⟨found, rfl, hfound.cons_right name⟩

/-- The sources in the order of their paths, each once. -/
structure Inventory (sources : List SourceFile) : Prop where
  sorted : sources.Pairwise fun a b => strBytes a.logicalPath ≤ strBytes b.logicalPath
  once : (sources.map SourceFile.logicalPath).Nodup

theorem collectFiles_inventory (root : String) {listing : Listing} (hnamed : listing.Named) :
    Returns (collectFiles root listing) Inventory := by
  refine .bind (.trivial _) fun _ _ => .bind (.trivial _) fun _ _ =>
    .bind (collectDirectory_found root (List.forall_mem_nil _) hnamed []) ?_
  rintro _ ⟨found, rfl, hfound⟩
  refine .pure ⟨List.pairwise_insertionSort _ _, ?_⟩
  exact ((List.perm_insertionSort _ _).map _).nodup_iff.2 hfound.once

end Hakutaku
