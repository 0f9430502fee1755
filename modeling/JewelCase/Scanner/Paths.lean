import Mathlib.Data.List.Induction
import Mathlib.Data.List.Lex
import Mathlib.Data.List.Perm.Subperm
import Mathlib.Data.Prod.Lex
import Mathlib.Order.Lattice
import Mathlib.Order.WithBot
import JewelCase.Library.Lists
import JewelCase.Store.Roots

/-!
# Paths by component

Absolute paths as `Path::components` reads them, which compare, start and join by component, and
never by their text.
-/
namespace JewelCase.Scanner

set_option autoImplicit false

open Store (Name)

/-- What a path names next: the folder above, or an entry of the folder. -/
inductive Component where
  | parentDir
  | normal (name : Name)
deriving DecidableEq, Repr

/-- An absolute path, as its components after the root directory. -/
abbrev Path := List Component

/-- Where a component stands in order: `..` before every name, and names by their bytes. -/
def Component.rank : Component → WithBot (List Nat)
  | .parentDir => ⊥
  | .normal name => (name.map UInt8.toNat : List Nat)

theorem Component.rank_injective : Function.Injective Component.rank := by
  intro a b hrank
  cases a with
  | parentDir =>
    cases b with
    | parentDir => rfl
    | normal name => exact absurd hrank.symm WithBot.coe_ne_bot
  | normal name =>
    cases b with
    | parentDir => exact absurd hrank WithBot.coe_ne_bot
    | normal other =>
      have hbytes := WithBot.coe_injective hrank
      exact congrArg _ (List.map_injective_iff.mpr (fun _ _ => UInt8.toNat_inj.mp) hbytes)

instance : LinearOrder Component := LinearOrder.lift' Component.rank Component.rank_injective

namespace Path

/-- Whether `path` is `base` or below it. -/
def startsWith (path base : Path) : Bool := base.isPrefixOf path

/-- What follows `root` in `path`, if it starts with it. -/
def stripPrefix (path root : Path) : Option Path :=
  if root.isPrefixOf path then some (path.drop root.length) else none

/-- The path without its last component; the root directory has none. -/
def parent : Path → Option Path
  | [] => none
  | component :: rest => some (component :: rest).dropLast

theorem startsWith_iff {path base : Path} : path.startsWith base = true ↔ base <+: path :=
  List.isPrefixOf_iff_prefix

theorem stripPrefix_eq_some {path root rel : Path} :
    path.stripPrefix root = some rel ↔ path = root ++ rel := by
  unfold stripPrefix
  constructor
  · intro h
    split at h
    case isTrue hprefix =>
      obtain ⟨rest, rfl⟩ := List.isPrefixOf_iff_prefix.mp hprefix
      rw [List.drop_left] at h
      rw [Option.some.inj h]
    case isFalse => cases h
  · rintro rfl
    rw [if_pos (List.isPrefixOf_iff_prefix.mpr (List.prefix_append root rel)), List.drop_left]

theorem parent_eq_some {path base : Path} :
    path.parent = some base ↔ ∃ component, path = base ++ [component] := by
  cases path with
  | nil => simp [parent]
  | cons component rest =>
    rw [parent, Option.some_inj]
    constructor
    · intro hbase
      refine ⟨(component :: rest).getLast (List.cons_ne_nil _ _), ?_⟩
      rw [← hbase, List.dropLast_concat_getLast]
    · rintro ⟨last, hpath⟩
      rw [hpath, List.dropLast_concat]

end Path

end JewelCase.Scanner

/-!
## Coalescing scopes

The scopes of a request, as `crates/scanner/src/scope.rs` and `queue.rs` have them: those that others
cover are dropped, and every file that some scope visits is still visited.
-/
namespace JewelCase.Scanner

set_option autoImplicit false

open Library.Prefixes

/-- How deep a scope reaches: the files directly in the directory, or everything below it. -/
inductive Depth where
  | directory
  | subtree
deriving DecidableEq, Repr

/-- A unit of scanning work: a root, or a folder inside one. -/
structure Scope where
  root : Path
  path : Path
  depth : Depth
deriving DecidableEq, Repr

namespace Scope

/-- Whether every file `other` visits is also visited by `self`. -/
def covers (self other : Scope) : Bool :=
  if self.root ≠ other.root then false
  else
    match self.depth with
    | .subtree => Path.startsWith other.path self.path
    | .directory => decide (other.depth = .directory ∧ other.path = self.path)

/-- Whether `path` is a file this scope visits: one under its folder, or for a Directory scope
directly in it. -/
def containsFile (self : Scope) (path : Path) : Bool :=
  match self.depth with
  | .subtree => decide (path ≠ self.path) && Path.startsWith path self.path
  | .directory => decide (Path.parent path = some self.path)

/-- What scopes are sorted by. -/
def key (scope : Scope) : Path ×ₗ Path ×ₗ Bool :=
  toLex (scope.root, toLex (scope.path, decide (scope.depth ≠ .subtree)))

end Scope

/-- Appends a scope, unless the last one kept covers it. -/
def keepScope (out : List Scope) (scope : Scope) : List Scope :=
  if out.getLast?.any (·.covers scope) then out else out ++ [scope]

/-- Drops scopes covered by other scopes in the same request, and answers the rest sorted by root
and path. -/
def coalesceScopes (scopes : List Scope) : List Scope :=
  (scopes.mergeSort fun a b => decide (a.key ≤ b.key)).foldl keepScope []

/-! ### Order -/

theorem Scope.key_le {a b : Scope} : a.key ≤ b.key ↔
    a.root < b.root ∨ a.root = b.root ∧ (a.path < b.path ∨ a.path = b.path ∧
      (a.depth = .subtree ∨ b.depth = .directory)) := by
  have hdepth : decide (a.depth ≠ .subtree) ≤ decide (b.depth ≠ .subtree) ↔
      a.depth = .subtree ∨ b.depth = .directory := by
    cases a.depth <;> cases b.depth <;> decide
  rw [key, key, Prod.Lex.toLex_le_toLex, Prod.Lex.toLex_le_toLex, hdepth]

theorem Scope.key_injective {a b : Scope} (h : a.key = b.key) : a = b := by
  obtain ⟨root, path, depth⟩ := a
  obtain ⟨root', path', depth'⟩ := b
  have hkey := toLex.injective h
  obtain ⟨rfl, hkey⟩ := Prod.mk.inj hkey
  obtain ⟨rfl, hdepth⟩ := Prod.mk.inj (toLex.injective hkey)
  cases depth <;> cases depth' <;> simp_all

/-! ### Covering -/

namespace Scope

variable {a b c : Scope}

/-- What a scope covers: below a Subtree scope everything, and of a Directory scope itself. -/
theorem covers_iff : a.covers b = true ↔ a.root = b.root ∧
    (a.depth = .subtree ∧ a.path <+: b.path ∨
      a.depth = .directory ∧ b.depth = .directory ∧ b.path = a.path) := by
  unfold covers
  split_ifs with hroot
  · simp [hroot]
  · rw [not_not] at hroot
    cases a.depth <;> simp [hroot, Path.startsWith_iff]

theorem covers_self : a.covers a = true := by
  rw [covers_iff]
  cases h : a.depth <;> simp

/-- What a scope covers does not sort before it. -/
theorem key_le_of_covers (h : a.covers b = true) : a.key ≤ b.key := by
  rw [covers_iff] at h
  obtain ⟨hroot, ⟨ha, hpath⟩ | ⟨-, hb, hpath⟩⟩ := h
  · have hle := not_lt_of_prefix hpath
    rw [key_le]
    refine Or.inr ⟨hroot, ?_⟩
    rcases lt_or_eq_of_le (not_lt.mp hle) with hlt | heq
    · exact Or.inl hlt
    · exact Or.inr ⟨heq, Or.inl ha⟩
  · rw [key_le]
    exact Or.inr ⟨hroot, Or.inr ⟨hpath.symm, Or.inr hb⟩⟩

/-- **Together.** Whatever sorts between a scope and one it covers, it covers. -/
theorem covers_between (h : a.covers c = true) (hab : a.key ≤ b.key) (hbc : b.key ≤ c.key) :
    a.covers b = true := by
  rw [covers_iff] at h
  rw [key_le] at hab hbc
  obtain ⟨hroot, hcover⟩ := h
  have hroots : a.root = b.root := by
    rcases hab with hlt | ⟨heq, -⟩
    · rcases hbc with hlt' | ⟨heq', -⟩
      · exact absurd (hlt.trans hlt') (hroot ▸ lt_irrefl _)
      · exact absurd hlt (heq' ▸ hroot ▸ lt_irrefl _)
    · exact heq
  have hab' := (hab.resolve_left (hroots ▸ lt_irrefl _)).2
  have hbc' := (hbc.resolve_left (hroots ▸ hroot ▸ lt_irrefl _)).2
  rw [covers_iff]
  refine ⟨hroots, ?_⟩
  rcases hcover with ⟨ha, hpath⟩ | ⟨ha, hc, hpath⟩
  · refine Or.inl ⟨ha, ?_⟩
    rcases hab' with hlt | ⟨heq, -⟩
    · rcases hbc' with hlt' | ⟨heq', -⟩
      · exact prefix_between hlt.asymm hlt' hpath
      · exact heq' ▸ hpath
    · exact heq ▸ List.prefix_rfl
  · refine Or.inr ⟨ha, ?_⟩
    rcases hab' with hlt | ⟨heq, hdepth⟩
    · rcases hbc' with hlt' | ⟨heq', -⟩
      · exact absurd (hlt.trans hlt') (hpath ▸ lt_irrefl _)
      · exact absurd hlt (heq' ▸ hpath ▸ lt_irrefl _)
    · refine ⟨hdepth.resolve_left (by rw [ha]; decide), heq.symm⟩

/-- What a scope visits: what is below its folder, or directly in it. -/
theorem containsFile_iff {file : Path} : a.containsFile file = true ↔
    a.depth = .subtree ∧ file ≠ a.path ∧ a.path <+: file ∨
      a.depth = .directory ∧ ∃ component, file = a.path ++ [component] := by
  unfold containsFile
  cases a.depth <;> simp [Path.startsWith_iff, Path.parent_eq_some]

/-- A scope visits the files that those it covers visit. -/
theorem containsFile_of_covers {file : Path} (h : a.covers b = true)
    (hfile : b.containsFile file = true) : a.containsFile file = true := by
  rw [covers_iff] at h
  rw [containsFile_iff] at *
  obtain ⟨-, ⟨ha, hpath⟩ | ⟨ha, hb, hpath⟩⟩ := h
  · rcases hfile with ⟨-, hne, hbelow⟩ | ⟨-, component, rfl⟩
    · refine Or.inl ⟨ha, ?_, hpath.trans hbelow⟩
      -- The folder itself is not below one it holds.
      rintro rfl
      exact hne (hbelow.eq_of_length_le hpath.length_le).symm
    · refine Or.inl ⟨ha, ?_, hpath.trans (List.prefix_append _ _)⟩
      intro heq
      have hlen := hpath.length_le
      rw [← heq, List.length_append, List.length_singleton] at hlen
      omega
  · rcases hfile with ⟨hb', -⟩ | ⟨-, component, rfl⟩
    · rw [hb] at hb'
      cases hb'
    · exact Or.inr ⟨ha, component, by rw [hpath]⟩

end Scope

/-! ### The pass -/

/-- The scopes kept of those sorted so far: none covers another, and each one given is covered. -/
structure Coalesced (given out : List Scope) : Prop where
  sublist : out.Sublist given
  apart : out.Pairwise fun a b => a.covers b = false ∧ b.covers a = false
  covered : ∀ s ∈ given, ∃ t ∈ out, t.covers s = true

/-- A scope that none of those sorted before it equals covers none of them that does not cover it. -/
private theorem not_covers_back {t s : Scope} (hle : t.key ≤ s.key) (h : t.covers s = false) :
    s.covers t = false := by
  by_contra hback
  rw [Bool.not_eq_false] at hback
  have heq := Scope.key_injective (le_antisymm hle (Scope.key_le_of_covers hback))
  rw [heq, Scope.covers_self] at h
  cases h

/-- **The last one kept decides.** If it does not cover a scope, none kept before it does. -/
private theorem Coalesced.not_covers {given out : List Scope} {s : Scope} (h : Coalesced given out)
    (hsorted : (given ++ [s]).Pairwise fun a b => a.key ≤ b.key)
    (hlast : out.getLast?.any (·.covers s) = false) : ∀ t ∈ out, t.covers s = false := by
  intro t ht
  rcases List.eq_nil_or_concat out with rfl | ⟨front, last, rfl⟩
  · cases ht
  · rw [List.concat_eq_append] at *
    rw [List.getLast?_append_of_ne_nil _ (by simp), List.getLast?_singleton, Option.any_some]
      at hlast
    rcases List.mem_append.mp ht with hfront | hmem
    · have hpair := List.pairwise_append.mp h.apart
      by_contra hcovers
      rw [Bool.not_eq_false] at hcovers
      have hle := (List.pairwise_append.mp ((hsorted.sublist
        (List.sublist_append_left given [s])).sublist h.sublist)).2.2 t hfront last (by simp)
      have hles := (List.pairwise_append.mp hsorted).2.2 last
        (h.sublist.subset (by simp)) s (by simp)
      have hbetween := Scope.covers_between hcovers hle hles
      rw [(hpair.2.2 t hfront last (by simp)).1] at hbetween
      cases hbetween
    · rw [List.mem_singleton.mp hmem]
      exact hlast

/-- One more scope in order. -/
theorem Coalesced.keepScope {given out : List Scope} {s : Scope} (h : Coalesced given out)
    (hsorted : (given ++ [s]).Pairwise fun a b => a.key ≤ b.key) :
    Coalesced (given ++ [s]) (keepScope out s) := by
  unfold Scanner.keepScope
  split_ifs with hlast
  · refine ⟨h.sublist.trans (List.sublist_append_left given [s]), h.apart, ?_⟩
    intro scope hscope
    rcases List.mem_append.mp hscope with hgiven | hnew
    · exact h.covered scope hgiven
    · obtain ⟨last, hlast, hcovers⟩ := (Option.any_eq_true _ _).mp hlast
      rw [List.mem_singleton.mp hnew]
      exact ⟨last, List.mem_of_getLast? hlast, hcovers⟩
  · have hnot := h.not_covers hsorted (by simpa using hlast)
    refine ⟨h.sublist.append (List.Sublist.refl [s]), ?_, ?_⟩
    · rw [List.pairwise_append]
      refine ⟨h.apart, List.pairwise_singleton _ _, ?_⟩
      intro t ht scope hscope
      rw [List.mem_singleton.mp hscope]
      have hle := (List.pairwise_append.mp hsorted).2.2 t (h.sublist.subset ht) s (by simp)
      exact ⟨hnot t ht, not_covers_back hle (hnot t ht)⟩
    · intro scope hscope
      rcases List.mem_append.mp hscope with hgiven | hnew
      · obtain ⟨t, ht, hcovers⟩ := h.covered scope hgiven
        exact ⟨t, List.mem_append_left _ ht, hcovers⟩
      · rw [List.mem_singleton.mp hnew]
        exact ⟨s, by simp, Scope.covers_self⟩

/-- The whole pass over scopes in order. -/
theorem coalesced_foldl {scopes : List Scope} (hsorted : scopes.Pairwise fun a b => a.key ≤ b.key) :
    Coalesced scopes (scopes.foldl Scanner.keepScope []) := by
  induction scopes using List.reverseRecOn with
  | nil => exact ⟨List.Sublist.refl _, List.Pairwise.nil, by simp⟩
  | append_singleton given s ih =>
    rw [List.foldl_append, List.foldl_cons, List.foldl_nil]
    exact (ih (hsorted.sublist (List.sublist_append_left given [s]))).keepScope hsorted

/-! ### Any order -/

theorem sorted_scopes (scopes : List Scope) :
    (scopes.mergeSort fun a b => decide (a.key ≤ b.key)).Pairwise fun a b => a.key ≤ b.key := by
  have h := @List.pairwise_mergeSort _ (fun a b : Scope => decide (a.key ≤ b.key))
    (fun a b c hab hbc => by simpa using le_trans (by simpa using hab) (by simpa using hbc))
    (fun a b => by simpa using le_total a.key b.key) scopes
  exact h.imp (by simp)

/-- For every list of scopes: what is kept are scopes given, in order of root and path, none
covering another; every scope given is covered by one kept, so a file is visited by some scope given
exactly when it is by some scope kept; and the order they came in does not matter. -/
theorem coalesce_keeps_the_work (scopes : List Scope) :
    (coalesceScopes scopes).Subperm scopes ∧
      (coalesceScopes scopes).Pairwise (fun a b => a.covers b = false ∧ b.covers a = false) ∧
      (coalesceScopes scopes).Pairwise
        (fun a b => a.root < b.root ∨ a.root = b.root ∧ a.path < b.path) ∧
      (∀ s ∈ scopes, ∃ t ∈ coalesceScopes scopes, t.covers s = true) ∧
      (∀ file, (∃ s ∈ scopes, s.containsFile file = true) ↔
        ∃ t ∈ coalesceScopes scopes, t.containsFile file = true) ∧
      ∀ scopes' : List Scope, scopes'.Perm scopes →
        coalesceScopes scopes' = coalesceScopes scopes := by
  have hperm := List.mergeSort_perm scopes fun a b => decide (a.key ≤ b.key)
  have hsorted := sorted_scopes scopes
  have hkept := coalesced_foldl hsorted
  have hsub : (coalesceScopes scopes).Subperm scopes := hkept.sublist.subperm.trans hperm.subperm
  have hcovered : ∀ s ∈ scopes, ∃ t ∈ coalesceScopes scopes, t.covers s = true :=
    fun s hs => hkept.covered s (hperm.mem_iff.mpr hs)
  refine ⟨hsub, hkept.apart, ?_, hcovered, ?_, ?_⟩
  · refine ((hsorted.sublist hkept.sublist).and hkept.apart).imp ?_
    rintro a b ⟨hle, hab, -⟩
    rw [Scope.key_le] at hle
    rcases hle with hlt | ⟨hroot, hlt | ⟨hpath, hdepth⟩⟩
    · exact Or.inl hlt
    · exact Or.inr ⟨hroot, hlt⟩
    · -- At one path, the scope that sorts first covers the other.
      have hcovers : a.covers b = true := by
        rw [Scope.covers_iff]
        refine ⟨hroot, ?_⟩
        cases ha : a.depth with
        | subtree => exact Or.inl ⟨rfl, hpath ▸ List.prefix_rfl⟩
        | directory => exact Or.inr ⟨rfl, hdepth.resolve_left (by simp [ha]), hpath.symm⟩
      rw [hcovers] at hab
      cases hab
  · intro file
    constructor
    · rintro ⟨s, hs, hfile⟩
      obtain ⟨t, ht, hcovers⟩ := hcovered s hs
      exact ⟨t, ht, Scope.containsFile_of_covers hcovers hfile⟩
    · rintro ⟨t, ht, hfile⟩
      exact ⟨t, hsub.subset ht, hfile⟩
  · intro scopes' hscopes
    have hsame : (scopes'.mergeSort fun a b => decide (a.key ≤ b.key)) =
        scopes.mergeSort fun a b => decide (a.key ≤ b.key) := by
      refine List.Perm.eq_of_pairwise ?_ (sorted_scopes scopes') hsorted ?_
      · intro a b _ _ hab hba
        exact Scope.key_injective (le_antisymm hab hba)
      · exact (List.mergeSort_perm _ _).trans (hscopes.trans hperm.symm)
    rw [coalesceScopes, hsame, coalesceScopes]

end JewelCase.Scanner
