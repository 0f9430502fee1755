import JewelCase.Scanner.Paths

/-!
# Paths that no link is on

`crates/scanner/src/confine.rs`: a path below a root is taken only if no symlink sits between the
root and it. What a path leads to is found by walking a tree of files with links anywhere in it, as
the system does for `canonicalize`.
-/
namespace JewelCase.Scanner

set_option autoImplicit false

open Store (Name FilePath)

/-! ### The tree -/

/-- A step of a path as the system walks it. -/
inductive Step where
  | curDir
  | parentDir
  | normal (name : Name)
deriving DecidableEq, Repr

/-- Where a link leads: from the root directory, or from the folder it is in. -/
inductive Target where
  | absolute (steps : List Step)
  | relative (first : Step) (rest : List Step)
deriving DecidableEq, Repr

namespace Target

/-- The folder a link in `folder` leads from. -/
def base (folder : FilePath) : Target → FilePath
  | .absolute _ => []
  | .relative _ _ => folder

def steps : Target → List Step
  | .absolute steps => steps
  | .relative first rest => first :: rest

end Target

inductive Entry where
  | file
  | folder
  | link (target : Target)
deriving DecidableEq, Repr

def Entry.isLink : Entry → Bool
  | .link _ => true
  | _ => false

/-- A tree of files: what each real path names. The root directory is a folder, and so is whatever
holds an entry. -/
structure Tree where
  entry : FilePath → Option Entry
  root : entry [] = some .folder
  folder : ∀ path name found, entry (path ++ [name]) = some found → entry path = some .folder

/-- Why a path leads nowhere. -/
inductive WalkError where
  | notFound
  | notADirectory
  | tooManyLinks
deriving DecidableEq, Repr

namespace Tree

variable (tree : Tree)

/-- Walks `steps` from the real path `here`, and goes on by `follow` from a link. -/
def walkWith (follow : FilePath → List Step → Except WalkError FilePath) (here : FilePath) :
    List Step → Except WalkError FilePath
  | [] => .ok here
  | step :: rest =>
    if tree.entry here ≠ some .folder then .error .notADirectory
    else
      match step with
      | .curDir => walkWith follow here rest
      | .parentDir => walkWith follow here.dropLast rest
      | .normal name =>
        match tree.entry (here ++ [name]) with
        | none => .error .notFound
        | some (.link target) => follow (target.base here) (target.steps ++ rest)
        | some _ => walkWith follow (here ++ [name]) rest

/-- Walks `steps` from `here` through `links` links at most. -/
def walk : Nat → FilePath → List Step → Except WalkError FilePath
  | 0 => tree.walkWith fun _ _ => .error .tooManyLinks
  | links + 1 => tree.walkWith (walk links)

end Tree

/-- A path's steps. -/
def Path.steps (path : Path) : List Step :=
  path.map fun
    | .parentDir => .parentDir
    | .normal name => .normal name

/-- A real path's components. -/
def components (real : FilePath) : Path := real.map .normal

/-- A tree as the system reads it, following so many links in one path and no more. -/
structure FileSystem where
  tree : Tree
  maxLinks : Nat

namespace FileSystem

variable (system : FileSystem)

/-- The real path of `path`, or why it leads nowhere. -/
def canonicalize (path : Path) : Except WalkError FilePath :=
  system.tree.walk system.maxLinks [] path.steps

/-- Whether `path` is itself a link, wherever it leads. -/
def isSymlink (path : Path) : Bool :=
  match path.getLast? with
  | some (.normal name) =>
    match system.canonicalize path.dropLast with
    | .ok folder => (system.tree.entry (folder ++ [name])).any Entry.isLink
    | .error _ => false
  | _ => false

end FileSystem

/-- Why a path is refused: "symlinks are not followed", or the system's own error. -/
inductive Refused where
  | notFollowed
  | system (error : WalkError)
deriving DecidableEq, Repr

/-- The real path of `path`, which lies under `root`, refused unless no symlink sits anywhere
between `root` and it. -/
def withoutLinks (system : FileSystem) (root path : Path) : Except Refused FilePath :=
  match system.canonicalize path with
  | .error error => .error (if system.isSymlink path then .notFollowed else .system error)
  | .ok real =>
    match path.stripPrefix root with
    | none => .error .notFollowed
    | some rel =>
      match system.canonicalize root with
      | .error error => .error (.system error)
      | .ok base => if components real = components base ++ rel then .ok real
        else .error .notFollowed

/-! ### What a walk finds -/

namespace Tree

variable {tree : Tree}

/-- Every part of a real path is there, and none is a link. -/
def Real (tree : Tree) (path : FilePath) : Prop :=
  ∀ start, start <+: path → ∃ found, tree.entry start = some found ∧ found.isLink = false

theorem real_root : tree.Real [] := by
  intro start hstart
  rw [List.prefix_nil.mp hstart]
  exact ⟨.folder, tree.root, rfl⟩

theorem Real.dropLast {path : FilePath} (h : tree.Real path) : tree.Real path.dropLast :=
  fun start hstart => h start (hstart.trans (List.dropLast_prefix path))

theorem Real.snoc {path : FilePath} {name : Name} {found : Entry} (h : tree.Real path)
    (hfound : tree.entry (path ++ [name]) = some found) (hlink : found.isLink = false) :
    tree.Real (path ++ [name]) := by
  intro start hstart
  rcases List.prefix_concat_iff.mp hstart with rfl | hbefore
  · exact ⟨found, hfound, hlink⟩
  · exact h start hbefore

/-- **What one step can do.** -/
theorem walkWith_cons {follow : FilePath → List Step → Except WalkError FilePath}
    {here real : FilePath} {step : Step} {rest : List Step} :
    tree.walkWith follow here (step :: rest) = .ok real ↔ tree.entry here = some .folder ∧
      ((step = .curDir ∧ tree.walkWith follow here rest = .ok real) ∨
        (step = .parentDir ∧ tree.walkWith follow here.dropLast rest = .ok real) ∨
        ∃ name found, step = .normal name ∧ tree.entry (here ++ [name]) = some found ∧
          ((∃ target, found = .link target ∧
              follow (target.base here) (target.steps ++ rest) = .ok real) ∨
            found.isLink = false ∧ tree.walkWith follow (here ++ [name]) rest = .ok real)) := by
  rw [walkWith.eq_def]
  dsimp only
  split
  case isTrue hother => simp [hother]
  case isFalse hfolder =>
    rw [not_not] at hfolder
    cases step with
    | curDir => simp [hfolder]
    | parentDir => simp [hfolder]
    | normal name =>
      dsimp only
      cases hfound : tree.entry (here ++ [name]) with
      | none => simp [hfound]
      | some found => cases found <;> simp [hfolder, hfound, Entry.isLink]

/-- A walk from a real path leads to one, whatever links it follows. -/
private theorem walkWith_real {follow : FilePath → List Step → Except WalkError FilePath}
    (hfollow : ∀ here steps real, tree.Real here → follow here steps = .ok real → tree.Real real)
    {here real : FilePath} {steps : List Step} (hhere : tree.Real here)
    (h : tree.walkWith follow here steps = .ok real) : tree.Real real := by
  induction steps generalizing here with
  | nil =>
    obtain rfl := Except.ok.inj h
    exact hhere
  | cons step rest ih =>
    obtain ⟨-, ⟨-, hrest⟩ | ⟨-, hrest⟩ | ⟨name, found, -, hfound, hnext⟩⟩ := walkWith_cons.1 h
    · exact ih hhere hrest
    · exact ih hhere.dropLast hrest
    · rcases hnext with ⟨target, rfl, hrest⟩ | ⟨hlink, hrest⟩
      · refine hfollow _ _ _ ?_ hrest
        cases target with
        | absolute => exact real_root
        | relative => exact hhere
      · exact ih (hhere.snoc hfound hlink) hrest

theorem walk_real {links : Nat} {here real : FilePath} {steps : List Step}
    (hhere : tree.Real here) (h : tree.walk links here steps = .ok real) : tree.Real real := by
  induction links generalizing here real steps with
  | zero => exact walkWith_real (fun _ _ _ _ herror => by cases herror) hhere h
  | succ links ih => exact walkWith_real (fun _ _ _ hhere hrest => ih hhere hrest) hhere h

/-- A walk goes on from where its first part led, where it follows no more links from there. -/
private theorem walkWith_append {follow : FilePath → List Step → Except WalkError FilePath}
    {rest : List Step} {middle real : FilePath}
    (hfollow : ∀ here steps, follow here steps = .ok middle → follow here (steps ++ rest) = .ok real)
    (hrest : tree.walkWith follow middle rest = .ok real) {here : FilePath} {steps : List Step}
    (h : tree.walkWith follow here steps = .ok middle) :
    tree.walkWith follow here (steps ++ rest) = .ok real := by
  induction steps generalizing here with
  | nil =>
    obtain rfl := Except.ok.inj h
    exact hrest
  | cons step steps ih =>
    rw [List.cons_append, walkWith_cons]
    obtain ⟨hfolder, hnext⟩ := walkWith_cons.1 h
    refine ⟨hfolder, ?_⟩
    rcases hnext with ⟨hstep, hnext⟩ | ⟨hstep, hnext⟩ | ⟨name, found, hstep, hfound, hnext⟩
    · exact Or.inl ⟨hstep, ih hnext⟩
    · exact Or.inr (Or.inl ⟨hstep, ih hnext⟩)
    · refine Or.inr (Or.inr ⟨name, found, hstep, hfound, ?_⟩)
      rcases hnext with ⟨target, hlink, hnext⟩ | ⟨hlink, hnext⟩
      · exact Or.inl ⟨target, hlink, by rw [← List.append_assoc]; exact hfollow _ _ hnext⟩
      · exact Or.inr ⟨hlink, ih hnext⟩

theorem walk_append {links : Nat} {rest : List Step} {here middle real : FilePath}
    {steps : List Step} (hrest : ∀ follow, tree.walkWith follow middle rest = .ok real)
    (h : tree.walk links here steps = .ok middle) :
    tree.walk links here (steps ++ rest) = .ok real := by
  induction links generalizing here steps with
  | zero => exact walkWith_append (fun _ _ herror => by cases herror) (hrest _) h
  | succ links ih => exact walkWith_append (fun _ _ hnext => ih hnext) (hrest _) h

/-- Every entry that `names` name below `base` is there, and none is a link. -/
def Plain (tree : Tree) (base names : FilePath) : Prop :=
  ∀ start, start ≠ [] → start <+: names →
    ∃ found, tree.entry (base ++ start) = some found ∧ found.isLink = false

theorem Real.plain {base names : FilePath} (h : tree.Real (base ++ names)) :
    tree.Plain base names :=
  fun _ _ hstart => h _ ((List.prefix_append_right_inj base).mpr hstart)

/-- A walk along entries that are no links leads where they say. -/
theorem Plain.walk {base names : FilePath} (h : tree.Plain base names)
    (follow : FilePath → List Step → Except WalkError FilePath) :
    tree.walkWith follow base (names.map .normal) = .ok (base ++ names) := by
  induction names generalizing base with
  | nil =>
    rw [List.map_nil, List.append_nil]
    rfl
  | cons name names ih =>
    obtain ⟨found, hfound, hlink⟩ := h [name] (by simp) (by simp)
    have hrest : tree.Plain (base ++ [name]) names := by
      intro start hne hstart
      have := h (name :: start) (by simp) ((List.prefix_cons_inj name).mpr hstart)
      rwa [List.append_assoc, List.singleton_append]
    rw [List.map_cons, walkWith_cons]
    refine ⟨tree.folder base name found hfound,
      Or.inr (Or.inr ⟨name, found, rfl, hfound, Or.inr ⟨hlink, ?_⟩⟩)⟩
    have := ih hrest
    rwa [List.append_assoc, List.singleton_append] at this

end Tree

/-! ### What is let through -/

theorem steps_append (a b : Path) : Path.steps (a ++ b) = Path.steps a ++ Path.steps b :=
  List.map_append

theorem steps_components (names : FilePath) :
    Path.steps (components names) = names.map .normal := by
  rw [Path.steps, components, List.map_map]
  rfl

theorem components_injective {a b : FilePath} (h : components a = components b) : a = b :=
  List.map_injective_iff.mpr (fun _ _ hname => Component.normal.inj hname) h

theorem components_append (a b : FilePath) : components (a ++ b) = components a ++ components b :=
  List.map_append

/-- A real path whose components start with another's names what follows them. -/
theorem components_eq_append {real base : FilePath} {rel : Path}
    (h : components real = components base ++ rel) :
    ∃ names, real = base ++ names ∧ rel = components names := by
  obtain ⟨front, names, rfl, hfront, hnames⟩ := List.map_eq_append_iff.mp h
  obtain rfl := components_injective hfront
  exact ⟨names, rfl, hnames.symm⟩

/-- For every tree, root and path: what is let through is a root followed by ordinary components
whose entries are all there and no links, and the answer is the real root joined with them; a path
whose last component is a link that leads nowhere is refused as not followed. Paths are compared
component by component, so a slash at the end, which names no component, is left out of them. -/
theorem exactly_without_links (system : FileSystem) (root path : Path) :
    (∀ real, withoutLinks system root path = .ok real ↔
      ∃ base names, system.canonicalize root = .ok base ∧ path = root ++ components names ∧
        system.tree.Plain base names ∧ real = base ++ names) ∧
    (∀ folder name base target error, path = folder ++ [.normal name] →
      system.canonicalize folder = .ok base →
      system.tree.entry (base ++ [name]) = some (.link target) →
      system.canonicalize path = .error error →
      withoutLinks system root path = .error .notFollowed) := by
  constructor
  · intro real
    constructor
    · intro h
      unfold withoutLinks at h
      cases hreal : system.canonicalize path with
      | error error => simp [hreal] at h
      | ok found =>
        cases hrel : path.stripPrefix root with
        | none => simp [hreal, hrel] at h
        | some rel =>
          cases hbase : system.canonicalize root with
          | error error => simp [hreal, hrel, hbase] at h
          | ok base =>
            simp only [hreal, hrel, hbase] at h
            split at h
            case isFalse => cases h
            case isTrue heq =>
              obtain rfl := Except.ok.inj h
              obtain ⟨names, rfl, rfl⟩ := components_eq_append heq
              -- No part of a real path is a link, so none that spells it is.
              have hall := Tree.walk_real Tree.real_root hreal
              exact ⟨base, names, rfl, Path.stripPrefix_eq_some.1 hrel, hall.plain, rfl⟩
    · rintro ⟨base, names, hbase, rfl, hplain, rfl⟩
      have hreal : system.canonicalize (root ++ components names) = .ok (base ++ names) := by
        unfold FileSystem.canonicalize
        rw [steps_append, steps_components]
        exact Tree.walk_append hplain.walk hbase
      unfold withoutLinks
      simp only [hreal, Path.stripPrefix_eq_some.2 rfl, hbase]
      rw [if_pos (components_append base names)]
  · rintro folder name base target error rfl hbase hlink herror
    have hsymlink : system.isSymlink (folder ++ [.normal name]) = true := by
      rw [FileSystem.isSymlink, List.getLast?_concat, List.dropLast_concat]
      simp only [hbase, hlink]
      rfl
    unfold withoutLinks
    simp only [herror, hsymlink]
    rfl

/-- A folder of music reached through a link, with a file and a link that leads nowhere. -/
def linkedMusic : List (FilePath × Entry) :=
  [([], .folder), ([name "music"], .link (.relative (.normal (name "real")) [])),
    ([name "real"], .folder), ([name "real", name "1.flac"], .file),
    ([name "real", name "2.flac"], .link (.relative (.normal (name "gone")) []))]
where
  name (text : String) : Name := text.toList.map Char.toUInt8

/-- The system with that folder, following 40 links in a path. -/
def withMusic : FileSystem where
  tree.entry path := linkedMusic.lookup path
  tree.root := by decide +kernel
  tree.folder path name found h := by
    obtain ⟨before, after, hsplit, -⟩ := List.lookup_eq_some_iff.mp h
    have hmem : (path ++ [name], found) ∈ linkedMusic := by
      rw [hsplit]
      exact List.mem_append_right _ List.mem_cons_self
    have hfolders : ∀ e ∈ linkedMusic, e.1 ≠ [] →
        linkedMusic.lookup e.1.dropLast = some .folder := by decide +kernel
    have hfolder := hfolders _ hmem (List.append_ne_nil_of_right_ne_nil _ (List.cons_ne_nil _ _))
    rwa [List.dropLast_concat] at hfolder
  maxLinks := 40

/-- The file is let through, and the link is refused as not followed. -/
theorem exactly_without_links_of_music :
    let root : Path := [.normal (linkedMusic.name "music")]
    withoutLinks withMusic root (root ++ [.normal (linkedMusic.name "1.flac")]) =
        .ok [linkedMusic.name "real", linkedMusic.name "1.flac"] ∧
      withoutLinks withMusic root (root ++ [.normal (linkedMusic.name "2.flac")]) =
        .error .notFollowed := by
  intro root
  have hroot : withMusic.canonicalize root = .ok [linkedMusic.name "real"] := by rfl
  have hplain : withMusic.tree.Plain [linkedMusic.name "real"] [linkedMusic.name "1.flac"] := by
    intro start hne hstart
    obtain rfl | ⟨rest, rfl, hrest⟩ := List.prefix_cons_iff.mp hstart
    · exact absurd rfl hne
    · rw [List.prefix_nil.mp hrest]
      exact ⟨.file, rfl, rfl⟩
  refine ⟨((exactly_without_links withMusic root _).1 _).mpr
    ⟨_, [linkedMusic.name "1.flac"], hroot, rfl, hplain, rfl⟩, ?_⟩
  exact (exactly_without_links withMusic root _).2 root (linkedMusic.name "2.flac") _ _ _ rfl hroot
    rfl rfl

end JewelCase.Scanner
