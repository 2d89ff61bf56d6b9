import Hakutaku.Extraction

/-!
# Extraction stays beneath the output root

Whatever links there are: the walk only creates directories beneath the root, and what it returns names a place in it.
-/

namespace Hakutaku
open Act FileTree

/-- Between two trees something is new, of a kind with `P` and strictly beneath the root, and nothing else differs. -/
def AddsBeneath (P : FileKind → Prop) (root : Place) (t t' : FileTree) : Prop :=
  ∀ place, t'.entry place = t.entry place ∨
    root <+: place ∧ place ≠ root ∧ t.entry place = none ∧ ∃ kind, t'.entry place = some kind ∧ P kind

namespace AddsBeneath
variable {P Q : FileKind → Prop} {root place : Place} {t t' t'' : FileTree} {kind : FileKind} {name : String}

theorem refl (P : FileKind → Prop) (root : Place) (t : FileTree) : AddsBeneath P root t t := fun _ => .inl rfl

theorem of_eq (h : t' = t) : AddsBeneath P root t t' := h ▸ refl P root t

theorem trans (h : AddsBeneath P root t t') (h' : AddsBeneath P root t' t'') : AddsBeneath P root t t'' := by
  intro place
  rcases h place with heq | ⟨hbelow, hne, hnone, kind, hkind, hP⟩
  · rw [← heq]
    exact h' place
  · rcases h' place with heq | ⟨-, -, hnone', -⟩
    · exact .inr ⟨hbelow, hne, hnone, kind, heq.trans hkind, hP⟩
    · cases hkind.symm.trans hnone'

theorem mono (h : AddsBeneath P root t t') (hPQ : ∀ kind, P kind → Q kind) : AddsBeneath Q root t t' := by
  intro place
  refine (h place).imp_right ?_
  rintro ⟨hbelow, hne, hnone, kind, hkind, hP⟩
  exact ⟨hbelow, hne, hnone, kind, hkind, hPQ kind hP⟩

/-- What is there stays. -/
theorem entry_eq (h : AddsBeneath P root t t') (hsome : t.entry place = some kind) : t'.entry place = some kind := by
  rcases h place with heq | ⟨-, -, hnone, -⟩
  · exact heq.trans hsome
  · cases hsome.symm.trans hnone

theorem solid (h : AddsBeneath P root t t') (hsolid : t.Solid place) : t'.Solid place :=
  hsolid.imp h.entry_eq h.entry_eq

theorem of_add (h : t.add kind place name = .ok t') (hbelow : root <+: place) (hP : P kind) : AddsBeneath P root t t' := by
  obtain ⟨-, hnone, hentries⟩ := add_eq_ok.1 h
  intro other
  rw [hentries]
  by_cases heq : other = place ++ [name]
  · subst heq
    refine .inr ⟨hbelow.trans (List.prefix_append _ _), fun heq => ?_, hnone, kind, if_pos rfl, hP⟩
    have hlength := hbelow.length_le
    rw [← heq, List.length_append, List.length_singleton] at hlength
    omega
  · exact .inl (if_neg heq)

end AddsBeneath

variable {d : Disk} {root place parent : Place} {kind : FileKind} {path : List PathPart} {name : String}
  {components : List String}

/-! ### The calls -/

theorem nextFault_runOn (d : Disk) : ∃ fault faults, nextFault.runOn d = (.ok fault, { d with faults }) := by
  rcases d with ⟨tree, _ | ⟨fault, rest⟩⟩
  · exact ⟨none, [], rfl⟩
  · exact ⟨fault, rest, rfl⟩

/-- A call that creates something does it or leaves the tree as it is. -/
theorem createAt_spec (kind : FileKind) (path : List PathPart) (d : Disk) : wp (createAt kind path)
    (fun r d' => d'.tree = d.tree ∨ r = .ok () ∧ d.tree.create kind maxLinks path = .ok d'.tree) (fun _ _ => False) d := by
  obtain ⟨fault, faults, hfault⟩ := nextFault_runOn d
  rw [createAt, wp_bind, wp, hfault]
  cases fault with
  | some failure => exact .inl rfl
  | none =>
    show wp (get >>= _) _ _ _
    rw [wp_bind, wp_get]
    dsimp only
    split
    · exact .inl rfl
    · rename_i tree htree
      exact .inr ⟨rfl, htree⟩

theorem canonicalize_spec (path : List PathPart) (d : Disk) : wp (canonicalize path)
    (fun place d' => d'.tree = d.tree ∧ d.tree.Resolves [] path place) (fun _ d' => d'.tree = d.tree) d := by
  obtain ⟨fault, faults, hfault⟩ := nextFault_runOn d
  rw [canonicalize, wp_bind, wp, hfault]
  cases fault with
  | some failure => exact rfl
  | none =>
    show wp (get >>= _) _ _ _
    rw [wp_bind, wp_get]
    dsimp only
    split
    · exact rfl
    · rename_i place hplace
      exact ⟨rfl, resolves_of_resolve hplace⟩

theorem startsWith_parts : startsWith place.parts root.parts = true ↔ root <+: place := by
  rw [startsWith, List.isPrefixOf_iff_prefix]
  exact List.prefix_map_iff_of_injective fun _ _ => PathPart.name.inj

/-- A path below a place leads where its last part leads from there. -/
theorem resolves_parts_append {t : FileTree} {goal : Place} {rest : List PathPart} (hsolid : t.Solid parent)
    (h : t.Resolves [] (parent.parts ++ rest) goal) : t.Resolves parent rest goal := by
  obtain ⟨place, hplace, hrest⟩ := h.of_append
  rwa [hplace.deterministic (resolves_of_resolve (resolve_parts 0 hsolid))] at hrest

/-! ### The walk -/

/-- One pass that is not the last: the directory is there or is new, and the walk goes on where it is, if that is beneath
the root. -/
theorem extractionLoop_pass {component next : String} {rest : List String} {Q : List PathPart → Disk → Prop}
    {E : CommandError → Disk → Prop} (hcomponent : pathPart component = .name component)
    (herror : ∀ e d', d'.tree = d.tree ∨
      d.tree.create .directory maxLinks (parent.parts ++ [.name component]) = .ok d'.tree → E e d')
    (hpass : ∀ d' (place : Place), d'.tree = d.tree ∨
        d.tree.create .directory maxLinks (parent.parts ++ [.name component]) = .ok d'.tree →
      d'.tree.Resolves [] (parent.parts ++ [.name component]) place → root <+: place →
        wp (extractionLoop root place.parts (next :: rest)) Q E d') :
    wp (extractionLoop root parent.parts (component :: next :: rest)) Q E d := by
  have hbehind {d' : Disk} (htree : d'.tree = d.tree ∨
      d.tree.create .directory maxLinks (parent.parts ++ [.name component]) = .ok d'.tree) :
      wp (canonicalize (parent.parts ++ [.name component]) >>= fun place =>
        if !startsWith place.parts root.parts then throw (.message "extraction directory escaped output root")
        else extractionLoop root place.parts (next :: rest)) Q E d' := by
    refine wp_bind.2 ((canonicalize_spec _ d').mono ?_ ?_)
    · rintro place d'' ⟨hsame, hresolves⟩
      rw [← hsame] at htree hresolves
      refine wp_ite.2 ⟨fun _ => herror _ _ htree, fun hinside => ?_⟩
      rw [Bool.not_eq_true', Bool.not_eq_false, startsWith_parts] at hinside
      exact hpass d'' place htree hresolves hinside
    · intro e d'' hsame
      rw [← hsame] at htree
      exact herror e d'' htree
  rw [extractionLoop, hcomponent]
  refine wp_bind.2 ((createAt_spec _ _ d).mono (fun r d' hcreated => ?_) fun _ _ h => h.elim)
  have htree := hcreated.imp_right And.right
  rcases r with kind | ⟨⟩
  · cases kind
    case alreadyExists => exact hbehind htree
    all_goals exact herror _ _ htree
  · exact hbehind htree

theorem extractionLoop_spec (hparent : d.tree.Solid parent) (hbelow : root <+: parent)
    (hnames : ∀ component ∈ components, pathPart component = .name component) :
    wp (extractionLoop root parent.parts components)
      (fun target d' => AddsBeneath (· = .directory) root d.tree d'.tree ∧
        ∃ (place : Place) (name : String), components.getLast? = some name ∧ target = place.parts ++ [.name name] ∧
          root <+: place ∧ d'.tree.Solid place)
      (fun _ d' => AddsBeneath (· = .directory) root d.tree d'.tree) d := by
  induction components generalizing parent d with
  | nil => exact .refl _ _ _
  | cons component rest ih =>
    rw [List.forall_mem_cons] at hnames
    rcases rest with _ | ⟨next, rest⟩
    · rw [extractionLoop, hnames.1]
      refine wp_ite.2 ⟨fun _ => .refl _ _ _, fun _ => ?_⟩
      exact ⟨.refl _ _ _, parent, component, rfl, rfl, hbelow, hparent⟩
    · have hadds {d' : Disk} (htree : d'.tree = d.tree ∨
          d.tree.create .directory maxLinks (parent.parts ++ [.name component]) = .ok d'.tree) :
          AddsBeneath (· = .directory) root d.tree d'.tree := by
        rcases htree with hsame | hcreated
        · exact .of_eq hsame
        · rw [create_parts hparent] at hcreated
          exact .of_add hcreated hbelow rfl
      refine extractionLoop_pass hnames.1 (fun _ _ => hadds) fun d' place htree hresolves hinside => ?_
      have hsolid : d'.tree.Solid place := hresolves.solid (.inl d'.tree.root)
      refine (ih hsolid hinside hnames.2).mono ?_ ?_
      · rintro target d'' ⟨hbehind, place', name, hlast, hrest⟩
        exact ⟨(hadds htree).trans hbehind, place', name, (List.getLast?_cons_cons ..).trans hlast, hrest⟩
      · exact fun _ _ hbehind => (hadds htree).trans hbehind

/-- Nothing is created where something is. -/
theorem tree_eq_of_exists {t' : FileTree} (hparent : d.tree.Solid parent) (hsome : d.tree.entry (parent ++ [name]) ≠ none)
    (htree : t' = d.tree ∨ d.tree.create kind maxLinks (parent.parts ++ [.name name]) = .ok t') : t' = d.tree := by
  refine htree.resolve_right fun hcreated => hsome ?_
  rw [create_parts hparent] at hcreated
  exact (add_eq_ok.1 hcreated).2.1

/-- The walk does not pass a link that leads out of the root, or nowhere. -/
theorem extractionLoop_blocked {before after : List String} {absolute : Bool} {target : List PathPart}
    (hparent : d.tree.Solid parent)
    (hnames : ∀ component ∈ before ++ name :: after, pathPart component = .name component) (hafter : after ≠ [])
    (hresolves : d.tree.Resolves parent (before.map .name) place)
    (hlink : d.tree.entry (place ++ [name]) = some (.link absolute target))
    (houtside : ∀ goal, d.tree.Resolves place [.name name] goal → ¬ root <+: goal) :
    wp (extractionLoop root parent.parts (before ++ name :: after)) (fun _ _ => False) (fun _ _ => True) d := by
  induction before generalizing parent d with
  | nil =>
    cases hresolves
    obtain ⟨next, rest, rfl⟩ := List.exists_cons_of_ne_nil hafter
    refine extractionLoop_pass (hnames name (by simp)) (fun _ _ _ => trivial) fun d' goal htree hgoal hinside => ?_
    rw [tree_eq_of_exists hparent (by simp [hlink]) htree] at hgoal
    exact (houtside goal (resolves_parts_append hparent hgoal) hinside).elim
  | cons component before ih =>
    rw [List.cons_append, List.forall_mem_cons] at hnames
    obtain ⟨next, rest, hnext⟩ : ∃ next rest, before ++ name :: after = next :: rest :=
      List.exists_cons_of_ne_nil (by simp)
    have hsome : d.tree.entry (parent ++ [component]) ≠ none := by
      rcases hresolves with _ | _ | _ | ⟨hsolid, -⟩ | ⟨hlink', -⟩
      · exact hsolid.entry_ne_none
      · simp [hlink']
    rw [List.cons_append, hnext]
    refine extractionLoop_pass hnames.1 (fun _ _ _ => trivial) fun d' goal htree hgoal hinside => ?_
    have hsame := tree_eq_of_exists hparent hsome htree
    have hgoal' := resolves_parts_append hparent (hsame ▸ hgoal)
    obtain ⟨place', hplace', hrest⟩ := Resolves.of_append (show d.tree.Resolves parent ([.name component] ++ before.map .name) place from hresolves)
    obtain rfl := hgoal'.deterministic hplace'
    rw [← hnext]
    rw [← hsame] at hrest hlink houtside
    exact ih (hgoal.solid (.inl d'.tree.root)) hnames.2 hrest hlink houtside

theorem safeExtractionTarget_of_canonical {path : String} (h : Canonical path) :
    safeExtractionTarget root path = extractionLoop root root.parts (pathComponents path) := by
  rw [safeExtractionTarget, (validateCanonicalPath_eq_ok (u := ())).2 h]

/-- What the walk returns, and what it leaves behind if it fails. -/
theorem safeExtractionTarget_spec (hroot : d.tree.entry root = some .directory) (path : String) :
    wp (safeExtractionTarget root path)
      (fun target d' => AddsBeneath (· = .directory) root d.tree d'.tree ∧ Canonical path ∧
        ∃ (place : Place) (name : String), (pathComponents path).getLast? = some name ∧
          target = place.parts ++ [.name name] ∧ root <+: place ∧ d'.tree.Solid place)
      (fun _ d' => AddsBeneath (· = .directory) root d.tree d'.tree) d := by
  rcases hpath : validateCanonicalPath path with (e | what) | ⟨⟩
  · rw [safeExtractionTarget, hpath]
    exact .refl _ _ _
  · exact absurd hpath (NoPanic.validateCanonicalPath what)
  · have hcanonical := validateCanonicalPath_eq_ok.1 hpath
    rw [safeExtractionTarget_of_canonical hcanonical]
    refine (extractionLoop_spec (.inl hroot) (List.prefix_refl _) fun _ hmem => pathPart_of_canonical hcanonical hmem).mono ?_ ?_
    · rintro target d' ⟨hadds, hrest⟩
      exact ⟨hadds, hcanonical, hrest⟩
    · exact fun _ _ hadds => hadds

/-- Whatever is extracted, everything new is a file or a directory beneath the root. -/
theorem extractAssets_beneath (hroot : d.tree.entry root = some .directory) (paths : List String) :
    wp (extractAssets root paths)
      (fun _ d' => AddsBeneath (fun kind => kind = .directory ∨ kind = .file) root d.tree d'.tree)
      (fun _ d' => AddsBeneath (fun kind => kind = .directory ∨ kind = .file) root d.tree d'.tree) d := by
  induction paths generalizing d with
  | nil => exact .refl _ _ _
  | cons path paths ih =>
    refine wp_bind.2 ((safeExtractionTarget_spec hroot path).mono ?_ fun _ _ hadds => hadds.mono fun _ => .inl)
    rintro target d₁ ⟨hadds, -, place, name, -, rfl, hinside, hsolid⟩
    have hadds := hadds.mono (Q := fun kind => kind = .directory ∨ kind = .file) fun _ => .inl
    refine wp_bind.2 ((createAt_spec _ _ d₁).mono (fun r d₂ hcreated => ?_) fun _ _ h => h.elim)
    have hadds₂ : AddsBeneath (fun kind => kind = .directory ∨ kind = .file) root d.tree d₂.tree := by
      refine hadds.trans ?_
      rcases hcreated with hsame | ⟨-, hcreated⟩
      · exact .of_eq hsame
      · rw [create_parts hsolid] at hcreated
        exact .of_add hcreated hinside (.inr rfl)
    rcases r with kind | ⟨⟩
    · exact hadds₂
    · obtain ⟨fault, faults, hfault⟩ := nextFault_runOn d₂
      refine wp_bind.2 ?_
      rw [wp, hfault]
      rcases fault with _ | kind
      · exact (ih (d := ⟨d₂.tree, faults⟩) (hadds₂.entry_eq hroot)).mono (fun _ _ => hadds₂.trans) fun _ _ => hadds₂.trans
      · exact hadds₂

theorem extraction_confined (d d' : Disk) (root : Place) (hroot : d.tree.entry root = some .directory) (path : String)
    (r : Except CommandError (List PathPart)) (hrun : (safeExtractionTarget root path).runOn d = (r, d')) :
    AddsBeneath (· = .directory) root d.tree d'.tree ∧
    (∀ target, r = .ok target → Canonical path ∧ ∃ (place : Place) (name : String),
      (pathComponents path).getLast? = some name ∧ target = place.parts ++ [.name name] ∧ root <+: place ∧
      d'.tree.Resolves [] place.parts place ∧ (d'.tree.entry place = some .directory ∨ d'.tree.entry place = some .file) ∧
      ∀ tree, d'.tree.create .file maxLinks target = .ok tree ↔
        d'.tree.entry place = some .directory ∧ d'.tree.entry (place ++ [name]) = none ∧
        ∀ other, tree.entry other = if other = place ++ [name] then some .file else d'.tree.entry other) ∧
    ∀ before name after, pathComponents path = before ++ name :: after → after ≠ [] → ∀ place absolute target,
      d.tree.Resolves root (before.map .name) place → d.tree.entry (place ++ [name]) = some (.link absolute target) →
      (∀ goal, d.tree.Resolves place [.name name] goal → ¬ root <+: goal) → ∃ e, r = .error e := by
  have hspec := safeExtractionTarget_spec hroot path
  refine ⟨?_, ?_, ?_⟩
  · rcases r with e | target
    · exact hspec.error hrun
    · exact (hspec.ok hrun).1
  · rintro target rfl
    obtain ⟨-, hcanonical, place, name, hname, rfl, hinside, hsolid⟩ := hspec.ok hrun
    refine ⟨hcanonical, place, name, hname, rfl, hinside, resolves_of_resolve (resolve_parts 0 hsolid), hsolid, fun tree => ?_⟩
    rw [create_parts hsolid]
    exact add_eq_ok
  · intro before name after hcomponents hafter place absolute target hresolves hlink houtside
    rcases r with e | found
    · exact ⟨e, rfl⟩
    · obtain ⟨-, hcanonical, -⟩ := hspec.ok hrun
      rw [safeExtractionTarget_of_canonical hcanonical, hcomponents] at hrun
      have hnames : ∀ component ∈ before ++ name :: after, pathPart component = .name component :=
        fun _ hmem => pathPart_of_canonical hcanonical (hcomponents ▸ hmem)
      exact ((extractionLoop_blocked (.inl hroot) hnames hafter hresolves hlink houtside).ok hrun).elim

/-! ### Samples -/

/-- The tree of these entries. -/
def treeOf (entries : List (Place × FileKind)) (hroot : entries.lookup [] = some .directory)
    (hparent : ∀ x ∈ entries, x.1 = [] ∨ entries.lookup x.1.dropLast = some .directory) : FileTree where
  entry place := entries.lookup place
  root := hroot
  parent place name hsome := by
    obtain ⟨x, hx, heq⟩ := List.lookup_isSome_iff.1 (Option.isSome_iff_ne_none.2 hsome)
    rw [beq_iff_eq] at heq
    rcases hparent x hx with hnil | hdirectory
    · rw [hnil] at heq
      cases List.append_ne_nil_of_right_ne_nil place (List.cons_ne_nil name []) heq
    · rwa [← heq, List.dropLast_concat] at hdirectory

/-- An output directory with a file, a directory, and links to that directory and out of the root. -/
def sampleTree : FileTree :=
  treeOf [([], .directory), (["etc"], .directory), (["out"], .directory), (["out", "a"], .file), (["out", "real"], .directory),
    (["out", "in"], .link false [.here, .name "real"]), (["out", "away"], .link false [.up, .name "etc"])] rfl (by decide)

/-- A file in the place of a directory is not noticed: the parent of the target is no directory. -/
theorem file_taken_for_directory : sampleTree.entry ["out"] = some .directory ∧
    ((safeExtractionTarget ["out"] "a/b").runOn ⟨sampleTree, []⟩).1 = .ok [.name "out", .name "a", .name "b"] ∧
    ∀ place, ((safeExtractionTarget ["out"] "a/b").runOn ⟨sampleTree, []⟩).2.tree.Resolves [] [.name "out", .name "a"] place →
      ((safeExtractionTarget ["out"] "a/b").runOn ⟨sampleTree, []⟩).2.tree.entry place ≠ some .directory := by
  refine ⟨rfl, by decide +kernel, fun place hplace => ?_⟩
  have hfile : ((safeExtractionTarget ["out"] "a/b").runOn ⟨sampleTree, []⟩).2.tree.resolve 0 []
      [.name "out", .name "a"] = .ok ["out", "a"] := by decide +kernel
  obtain rfl : place = ["out", "a"] := hplace.deterministic (resolves_of_resolve hfile)
  decide +kernel

/-- Extraction into a new directory behind a link that stays inside; and through a link that leads away. -/
theorem extraction_confined_sample :
    AddsBeneath (· = .directory) ["out"] sampleTree
        ((safeExtractionTarget ["out"] "in/new/b").runOn ⟨sampleTree, []⟩).2.tree ∧
      ((safeExtractionTarget ["out"] "in/new/b").runOn ⟨sampleTree, []⟩).2.tree.entry ["out", "real", "new"] =
        some .directory ∧
      ∃ e, ((safeExtractionTarget ["out"] "away/b").runOn ⟨sampleTree, []⟩).1 = .error e := by
  have hinside := extraction_confined ⟨sampleTree, []⟩ ((safeExtractionTarget ["out"] "in/new/b").runOn ⟨sampleTree, []⟩).2
    ["out"] rfl "in/new/b" ((safeExtractionTarget ["out"] "in/new/b").runOn ⟨sampleTree, []⟩).1 Prod.mk.eta.symm
  have haway := extraction_confined ⟨sampleTree, []⟩ ((safeExtractionTarget ["out"] "away/b").runOn ⟨sampleTree, []⟩).2
    ["out"] rfl "away/b" ((safeExtractionTarget ["out"] "away/b").runOn ⟨sampleTree, []⟩).1 Prod.mk.eta.symm
  have hcomponents : pathComponents "away/b" = [] ++ "away" :: ["b"] := by decide +kernel
  have hlink : sampleTree.resolve 1 ["out"] [.name "away"] = .ok ["etc"] := by decide +kernel
  refine ⟨hinside.1, by decide +kernel, haway.2.2 [] "away" ["b"] hcomponents (List.cons_ne_nil _ _) ["out"] false
    [.up, .name "etc"] (.done _) rfl fun goal hgoal hbelow => ?_⟩
  obtain rfl : goal = ["etc"] := hgoal.deterministic (resolves_of_resolve hlink)
  revert hbelow
  decide

end Hakutaku
