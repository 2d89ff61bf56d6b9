import Mathlib.Data.List.Infix
import Mathlib.Tactic.Common

/-!
# File trees with symbolic links

A tree as a map from places to what is there. `resolve` follows the parts of a path from a place, and the links it
meets, of which it follows so many and no more; `Resolves` is the relation without that limit.
-/

/-- A component of a path: `.`, `..` or a name. -/
inductive PathPart
  | here | up | name (name : String)
deriving DecidableEq

/-- Where something is: the names from the root of the tree, none of them a link. -/
abbrev Place := List String

/-- The path that names a place. -/
def Place.parts (place : Place) : List PathPart := place.map .name

inductive FileKind
  | file | directory | link (absolute : Bool) (target : List PathPart)
deriving DecidableEq

/-- Nothing is but in a directory. -/
structure FileTree where
  entry : Place → Option FileKind
  root : entry [] = some .directory
  parent : ∀ place name, entry (place ++ [name]) ≠ none → entry place = some .directory

/-- Why a call on a tree fails. -/
inductive Blocked
  | notFound | notDirectory | alreadyExists | tooManyLinks
deriving DecidableEq

namespace FileTree

/-- The walk along the parts up to the first link. -/
def walk (t : FileTree) (follow : Place → List PathPart → Except Blocked Place) :
    Place → List PathPart → Except Blocked Place
  | place, [] => .ok place
  | place, part :: rest =>
    if t.entry place ≠ some .directory then .error .notDirectory
    else
      match part with
      | .here => walk t follow place rest
      | .up => walk t follow place.dropLast rest
      | .name name =>
        match t.entry (place ++ [name]) with
        | none => .error .notFound
        | some (.link absolute target) => follow (if absolute then [] else place) (target ++ rest)
        | some _ => walk t follow (place ++ [name]) rest

/-- Where the parts lead to, over at most that many links. -/
def resolve (t : FileTree) : Nat → Place → List PathPart → Except Blocked Place
  | 0 => t.walk fun _ _ => .error .tooManyLinks
  | links + 1 => t.walk (t.resolve links)

/-- Something new under a name. -/
def add (t : FileTree) (kind : FileKind) (place : Place) (name : String) : Except Blocked FileTree :=
  if hdirectory : t.entry place = some .directory then
    if hnone : t.entry (place ++ [name]) = none then
      .ok {
        entry := fun other => if other = place ++ [name] then some kind else t.entry other
        root := by simp [t.root]
        parent := by
          intro other name' hsome
          have hother : t.entry other = some .directory := by
            by_cases heq : other ++ [name'] = place ++ [name]
            · exact (List.append_inj_left' heq rfl).symm ▸ hdirectory
            · rw [if_neg heq] at hsome
              exact t.parent other name' hsome
          have hne : other ≠ place ++ [name] := by
            rintro rfl
            rw [hnone] at hother
            cases hother
          rw [if_neg hne, hother] }
    else .error .alreadyExists
  else .error .notDirectory

/-- Something new at a path, as `mkdir` and `open` with `O_EXCL` create it: a link in the last place is not followed. -/
def create (t : FileTree) (kind : FileKind) (links : Nat) (path : List PathPart) : Except Blocked FileTree :=
  match path.getLast? with
  | some (.name name) =>
    match t.resolve links [] path.dropLast with
    | .error why => .error why
    | .ok place => t.add kind place name
  | _ => .error .alreadyExists

/-! ### Where paths lead to -/

/-- A file or a directory. -/
def Solid (t : FileTree) (place : Place) : Prop := t.entry place = some .directory ∨ t.entry place = some .file

inductive Resolves (t : FileTree) : Place → List PathPart → Place → Prop
  | done (place : Place) : Resolves t place [] place
  | here {place goal : Place} {rest : List PathPart} (hdirectory : t.entry place = some .directory)
    (h : Resolves t place rest goal) : Resolves t place (.here :: rest) goal
  | up {place goal : Place} {rest : List PathPart} (hdirectory : t.entry place = some .directory)
    (h : Resolves t place.dropLast rest goal) : Resolves t place (.up :: rest) goal
  | name {place goal : Place} {name : String} {rest : List PathPart} (hsolid : t.Solid (place ++ [name]))
    (h : Resolves t (place ++ [name]) rest goal) : Resolves t place (.name name :: rest) goal
  | link {place goal : Place} {name : String} {rest target : List PathPart} {absolute : Bool}
    (hlink : t.entry (place ++ [name]) = some (.link absolute target))
    (h : Resolves t (if absolute then [] else place) (target ++ rest) goal) : Resolves t place (.name name :: rest) goal

variable {t t' : FileTree} {place place' goal goal' : Place} {parts parts' rest : List PathPart} {name : String}
  {links : Nat} {kind : FileKind}

theorem Solid.entry_ne_none (h : t.Solid place) : t.entry place ≠ none := by
  rcases h with h | h
  · simp [h]
  · simp [h]

theorem Solid.not_link (h : t.Solid place) {absolute : Bool} {target : List PathPart} :
    t.entry place ≠ some (.link absolute target) := by
  rcases h with h | h
  · simp [h]
  · simp [h]

/-- What is in the way of something is a directory. -/
theorem directory_above (habove : place <+: place') (hne : place ≠ place') (h : t.entry place' ≠ none) :
    t.entry place = some .directory := by
  induction place' using List.reverseRecOn with
  | nil => exact absurd (List.prefix_nil.1 habove) hne
  | append_singleton place' name ih =>
    have hparent := t.parent place' name h
    rcases List.prefix_concat_iff.1 habove with rfl | habove
    · exact absurd rfl hne
    · by_cases heq : place = place'
      · exact heq ▸ hparent
      · exact ih habove heq (by simp [hparent])

theorem walk_cons (follow : Place → List PathPart → Except Blocked Place) (place : Place) (part : PathPart)
    (rest : List PathPart) : t.walk follow place (part :: rest) =
      if t.entry place ≠ some .directory then .error .notDirectory
      else
        match part with
        | .here => t.walk follow place rest
        | .up => t.walk follow place.dropLast rest
        | .name name =>
          match t.entry (place ++ [name]) with
          | none => .error .notFound
          | some (.link absolute target) => follow (if absolute then [] else place) (target ++ rest)
          | some _ => t.walk follow (place ++ [name]) rest := rfl

theorem resolves_of_walk {follow : Place → List PathPart → Except Blocked Place}
    (hfollow : ∀ place parts goal, follow place parts = .ok goal → t.Resolves place parts goal)
    (h : t.walk follow place parts = .ok goal) : t.Resolves place parts goal := by
  induction parts generalizing place with
  | nil =>
    cases h
    exact .done _
  | cons part rest ih =>
    rw [walk_cons] at h
    split at h
    · cases h
    · rename_i hdirectory
      rw [not_ne_iff] at hdirectory
      cases part with
      | here => exact .here hdirectory (ih h)
      | up => exact .up hdirectory (ih h)
      | name name =>
        dsimp only at h
        split at h
        · cases h
        · rename_i hlink
          exact .link hlink (hfollow _ _ _ h)
        · rename_i kind hnotLink hentry
          refine .name ?_ (ih h)
          rcases kind with _ | _ | ⟨absolute, target⟩
          · exact .inr hentry
          · exact .inl hentry
          · exact absurd rfl (hnotLink absolute target)

/-- What `resolve` finds is where the path leads to. -/
theorem resolves_of_resolve (h : t.resolve links place parts = .ok goal) : t.Resolves place parts goal := by
  induction links generalizing place parts goal with
  | zero => exact resolves_of_walk (fun _ _ _ hnone => by cases hnone) h
  | succ links ih => exact resolves_of_walk (fun _ _ _ => ih) h

namespace Resolves

theorem deterministic (h : t.Resolves place parts goal) (h' : t.Resolves place parts goal') : goal = goal' := by
  induction h with
  | done =>
    cases h'
    rfl
  | here _ _ ih =>
    cases h'
    exact ih ‹_›
  | up _ _ ih =>
    cases h'
    exact ih ‹_›
  | name hsolid _ ih =>
    rcases h' with _ | _ | _ | ⟨-, h'⟩ | ⟨hlink, -⟩
    · exact ih h'
    · exact (hsolid.not_link hlink).elim
  | link hlink _ ih =>
    rcases h' with _ | _ | _ | ⟨hsolid, -⟩ | ⟨hlink', h'⟩
    · exact (hsolid.not_link hlink).elim
    · cases hlink.symm.trans hlink'
      exact ih h'

theorem append (h : t.Resolves place parts place') (h' : t.Resolves place' rest goal) :
    t.Resolves place (parts ++ rest) goal := by
  induction h with
  | done => exact h'
  | here hdirectory _ ih => exact .here hdirectory (ih h')
  | up hdirectory _ ih => exact .up hdirectory (ih h')
  | name hsolid _ ih => exact .name hsolid (ih h')
  | link hlink _ ih =>
    have hfurther := ih h'
    rw [List.append_assoc] at hfurther
    exact .link hlink hfurther

theorem of_append (h : t.Resolves place (parts ++ rest) goal) :
    ∃ place', t.Resolves place parts place' ∧ t.Resolves place' rest goal := by
  generalize hall : parts ++ rest = all at h
  induction h generalizing parts with
  | done place =>
    obtain ⟨rfl, rfl⟩ := List.append_eq_nil_iff.1 hall
    exact ⟨_, .done _, .done _⟩
  | @here place goal tail hdirectory h ih =>
    rcases List.append_eq_cons_iff.1 hall with ⟨rfl, rfl⟩ | ⟨parts, rfl, rfl⟩
    · exact ⟨_, .done _, .here hdirectory h⟩
    · obtain ⟨place', hfirst, hrest⟩ := ih rfl
      exact ⟨place', .here hdirectory hfirst, hrest⟩
  | @up place goal tail hdirectory h ih =>
    rcases List.append_eq_cons_iff.1 hall with ⟨rfl, rfl⟩ | ⟨parts, rfl, rfl⟩
    · exact ⟨_, .done _, .up hdirectory h⟩
    · obtain ⟨place', hfirst, hrest⟩ := ih rfl
      exact ⟨place', .up hdirectory hfirst, hrest⟩
  | @name place goal name tail hsolid h ih =>
    rcases List.append_eq_cons_iff.1 hall with ⟨rfl, rfl⟩ | ⟨parts, rfl, rfl⟩
    · exact ⟨_, .done _, .name hsolid h⟩
    · obtain ⟨place', hfirst, hrest⟩ := ih rfl
      exact ⟨place', .name hsolid hfirst, hrest⟩
  | @link place goal name tail target absolute hlink h ih =>
    rcases List.append_eq_cons_iff.1 hall with ⟨rfl, rfl⟩ | ⟨parts, rfl, rfl⟩
    · exact ⟨_, .done _, .link hlink h⟩
    · obtain ⟨place', hfirst, hrest⟩ := ih (List.append_assoc ..)
      exact ⟨place', .link hlink hfirst, hrest⟩

/-- A path from something that is no link leads to something that is none. -/
theorem solid (h : t.Resolves place parts goal) (hsolid : t.Solid place) : t.Solid goal := by
  induction h with
  | done => exact hsolid
  | here _ _ ih => exact ih hsolid
  | @up place goal rest hdirectory _ ih =>
    refine ih (.inl ?_)
    rcases List.eq_nil_or_concat' place with rfl | ⟨place, name, rfl⟩
    · exact hdirectory
    · rw [List.dropLast_concat]
      exact t.parent place name (by simp [hdirectory])
  | name hsolid' _ ih => exact ih hsolid'
  | @link place goal name rest target absolute hlink _ ih =>
    refine ih (.inl ?_)
    split
    · exact t.root
    · exact t.parent place name (by simp [hlink])

end Resolves

/-- The path of a place leads there and meets no link on the way. -/
theorem walk_parts (follow : Place → List PathPart → Except Blocked Place) (hsolid : t.Solid (place ++ place')) :
    t.walk follow place (Place.parts place' ++ rest) = t.walk follow (place ++ place') rest := by
  induction place' generalizing place with
  | nil => rw [List.append_nil]; rfl
  | cons name place' ih =>
    have hall : place ++ name :: place' = place ++ [name] ++ place' := (List.append_assoc place [name] place').symm
    have hnext : t.Solid (place ++ [name]) := by
      by_cases hend : place' = []
      · rw [hall, hend, List.append_nil] at hsolid
        exact hsolid
      · refine .inl (directory_above (hall ▸ List.prefix_append _ _) (fun heq => hend ?_) hsolid.entry_ne_none)
        exact List.append_right_eq_self.1 (heq.trans hall).symm
    have hdirectory : t.entry place = some .directory := t.parent place name hnext.entry_ne_none
    show t.walk follow place (.name name :: (Place.parts place' ++ rest)) = _
    rw [walk_cons, if_neg (not_not.2 hdirectory), hall, ← ih (hall ▸ hsolid)]
    rcases hnext with hentry | hentry
    · simp only [hentry]
    · simp only [hentry]

theorem resolve_parts (links : Nat) (hsolid : t.Solid place) : t.resolve links [] place.parts = .ok place := by
  have hwalk (follow : Place → List PathPart → Except Blocked Place) : t.walk follow [] place.parts = .ok place := by
    have hfollow : t.walk follow [] (place.parts ++ []) = t.walk follow ([] ++ place) [] :=
      walk_parts follow (show t.Solid ([] ++ place) from hsolid)
    rwa [List.append_nil, walk] at hfollow
  cases links with
  | zero => exact hwalk _
  | succ links => exact hwalk _

/-! ### What creating changes -/

theorem add_eq_ok : t.add kind place name = .ok t' ↔ t.entry place = some .directory ∧ t.entry (place ++ [name]) = none ∧
    ∀ other, t'.entry other = if other = place ++ [name] then some kind else t.entry other := by
  unfold add
  by_cases hdirectory : t.entry place = some .directory
  · by_cases hnone : t.entry (place ++ [name]) = none
    · rw [dif_pos hdirectory, dif_pos hnone, and_iff_right hdirectory, and_iff_right hnone]
      constructor
      · rintro ⟨⟩
        exact fun _ => rfl
      · intro hentries
        obtain ⟨entry, _, _⟩ := t'
        obtain rfl : entry = _ := funext hentries
        rfl
    · rw [dif_pos hdirectory, dif_neg hnone]
      exact iff_of_false nofun fun h => hnone h.2.1
  · rw [dif_neg hdirectory]
    exact iff_of_false nofun fun h => hdirectory h.1

/-- Creating beside a solid place. -/
theorem create_parts (hsolid : t.Solid place) : t.create kind links (place.parts ++ [.name name]) = t.add kind place name := by
  rw [create, List.getLast?_concat, List.dropLast_concat]
  simp only [resolve_parts links hsolid]

end FileTree
