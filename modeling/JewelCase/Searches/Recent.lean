import Mathlib.Data.List.Induction
import Mathlib.Data.List.Sort
import JewelCase.Library.Keyed
import JewelCase.Network.Limits

/-!
# Recent searches

`crates/server/src/api/recent_searches.rs`: each user's own in each library, one for each query, the
newest twenty. `words` of the search core is a parameter.
-/
namespace JewelCase.Searches

set_option autoImplicit false

open Network (trim)

abbrev Text := List Char

/-- The most recent searches kept per user and library. -/
def KEPT : Nat := 20

/-- The longest query kept, in bytes. -/
def MAX_QUERY : Nat := 500

/-- How long a search is listed: 30 days. -/
def WINDOW_MS : Int := 30 * 24 * 60 * 60 * 1000

/-- The kinds of result a search returns. -/
def KINDS : List String := ["track", "album", "artist"]

/-- A row of `recent_searches`. -/
structure Search where
  id : Nat
  user : Int
  library : Int
  query : Text
  folded : Text
  selected : Option (String × Int)
  searchedAt : Int
deriving DecidableEq, Repr

/-- What a user did with one of their searches: recorded it, with how many tracks, albums and artists
it found, or removed it. -/
inductive Noted where
  | searched (found : Nat × Nat × Nat)
  | forgotten
deriving DecidableEq, Repr

/-- A row of `search_events`. -/
structure SearchEvent where
  user : Int
  library : Int
  noted : Noted
  search : Nat
  createdAt : Int
deriving DecidableEq, Repr

/-- The two tables, and the last ID that `recent_searches` gave, which it never gives again. -/
structure Tables where
  searches : List Search
  lastId : Nat
  events : List SearchEvent
deriving DecidableEq, Repr

/-- Tables with nothing in them. -/
def Tables.empty : Tables := ⟨[], 0, []⟩

/-- The spec's `RecentSearch`. -/
structure RecentSearch where
  id : Nat
  query : Text
  selected : Option (String × Int)
  searchedAt : Int
deriving DecidableEq, Repr

inductive Problem where
  | invalid (detail : String)
  | notFound
  | internal
deriving DecidableEq, Repr

/-- A row as it is answered: a selected result of a type no longer a kind reads as none. -/
def Search.answer (row : Search) : RecentSearch :=
  ⟨row.id, row.query, row.selected.filter fun selected => KINDS.contains selected.1, row.searchedAt⟩

/-- Whether a row is the user's in the library. -/
def Search.isOf (row : Search) (user library : Int) : Bool :=
  decide (row.user = user ∧ row.library = library)

/-- `ORDER BY searched_at DESC, id DESC` -/
def Search.Later (a b : Search) : Prop :=
  b.searchedAt < a.searchedAt ∨ b.searchedAt = a.searchedAt ∧ b.id ≤ a.id

instance (a b : Search) : Decidable (a.Later b) := inferInstanceAs (Decidable (_ ∨ _))

namespace Tables

/-- The user's searches in the library, newest first. -/
def newest (tables : Tables) (user library : Int) : List Search :=
  (tables.searches.filter (·.isOf user library)).insertionSort Search.Later

/-- Notes what `user` did with a search, if they share their searches. -/
def note (tables : Tables) (shares : Bool) (user library : Int) (search : Nat) (noted : Noted)
    (now : Int) : Tables :=
  if shares then { tables with events := tables.events ++ [⟨user, library, noted, search, now⟩] }
  else tables

end Tables

/-- The caller's recent searches, newest first. -/
def list (tables : Tables) (user library now : Int) : List RecentSearch :=
  ((((tables.searches.filter fun row =>
    row.isOf user library && decide (now - WINDOW_MS ≤ row.searchedAt)).insertionSort
      Search.Later).take KEPT).map Search.answer)

/-- The spec's `RecentSearchCreate`; a selected ID that is none does not parse. -/
structure Create where
  query : Text
  selected : Option (String × Option Int)
deriving DecidableEq, Repr

/-- What a search is recorded by: its words as search compares them, and what was selected. -/
structure Checked where
  query : Text
  folded : Text
  selected : Option (String × Int)
deriving DecidableEq, Repr

section Calls

variable (words : Text → List Text)

/-- The checks that a record makes before it writes. -/
def Create.check (create : Create) : Except Problem Checked :=
  let query := trim create.query
  if MAX_QUERY < (query.map fun c => c.utf8Size).sum then
    .error (.invalid "query must be at most 500 bytes.")
  else
    let folded := List.intercalate [' '] (words query)
    if folded = [] then .error (.invalid "query has nothing in it to search for.")
    else
      match create.selected with
      | none => .ok ⟨query, folded, none⟩
      | some (kind, id) =>
        if !KINDS.contains kind then
          .error (.invalid "selected must be a track, album, or artist.")
        else
          match id with
          | none => .error (.invalid "selected.id is not an ID.")
          | some id => .ok ⟨query, folded, some (kind, id)⟩

/-- A search recorded, as it is stored. -/
def Checked.row (checked : Checked) (id : Nat) (user library now : Int) : Search :=
  ⟨id, user, library, checked.query, checked.folded, checked.selected, now⟩

namespace Tables

/-- The searches but the user's of the same words. -/
def others (tables : Tables) (user library : Int) (folded : Text) : List Search :=
  tables.searches.filter fun row => !(row.isOf user library && decide (row.folded = folded))

/-- Puts a search in place of an earlier one of the same words. -/
def insert (tables : Tables) (user library : Int) (checked : Checked) (now : Int) : Tables :=
  { tables with
    searches := tables.others user library checked.folded ++
      [checked.row (tables.lastId + 1) user library now]
    lastId := tables.lastId + 1 }

/-- Keeps only the user's newest. -/
def prune (tables : Tables) (user library : Int) : Tables :=
  let kept := ((tables.newest user library).take KEPT).map (·.id)
  { tables with searches := tables.searches.filter fun row =>
      !(row.isOf user library && !kept.contains row.id) }

end Tables

/-- The transaction of a record. `inLibrary` says whether what was selected is in the library;
`found` is what the search found, if its user shared their searches when it was counted, and
`shares` whether they do now. -/
def write (tables : Tables) (user library : Int) (checked : Checked) (inLibrary : Bool)
    (found : Option (Nat × Nat × Nat)) (shares : Bool) (now : Int) :
    Except Problem (Tables × RecentSearch) :=
  if checked.selected.isSome && !inLibrary then
    .error (.invalid "selected is not in this library.")
  else
    let inserted := tables.insert user library checked now
    let id := inserted.lastId
    let noted := match found with
      | some found => inserted.note shares user library id (.searched found) now
      | none => inserted
    let pruned := noted.prune user library
    match Library.Keyed.find (·.id) pruned.searches id with
    | some row => .ok (pruned, row.answer)
    | none => .error .internal

/-- A call of a user's in a library, with what it meets: `shares` and `found` as for `write`. -/
inductive Call where
  | record (create : Create) (inLibrary : Bool) (found : Option (Nat × Nat × Nat))
  | delete (search : Nat)
  | clear
deriving DecidableEq, Repr

structure Request where
  user : Int
  library : Int
  call : Call
  shares : Bool
  now : Int
deriving DecidableEq, Repr

/-- What a request answers: a search recorded, or nothing. -/
abbrev Answer := Except Problem (Option RecentSearch)

/-- What a request changes and answers; one that fails changes nothing. -/
def Tables.step (tables : Tables) (request : Request) : Tables × Answer :=
  match request.call with
  | .record create inLibrary found =>
    match create.check words with
    | .error problem => (tables, .error problem)
    | .ok checked =>
      match write tables request.user request.library checked inLibrary found request.shares
        request.now with
      | .error problem => (tables, .error problem)
      | .ok (tables, row) => (tables, .ok (some row))
  | .delete search =>
    let gone := fun row : Search =>
      decide (row.id = search) && row.isOf request.user request.library
    if tables.searches.any gone then
      let left := { tables with searches := tables.searches.filter fun row => !gone row }
      (left.note request.shares request.user request.library search .forgotten request.now, .ok none)
    else (tables, .error .notFound)
  | .clear =>
    let cleared := tables.searches.filter (·.isOf request.user request.library)
    let left := { tables with searches := tables.searches.filter fun row =>
      !(row.isOf request.user request.library) }
    (cleared.foldl (fun tables row => tables.note request.shares request.user request.library row.id
      .forgotten request.now) left, .ok none)

def Tables.run (tables : Tables) (requests : List Request) : Tables :=
  requests.foldl (fun tables request => (tables.step words request).1) tables

end Calls

end JewelCase.Searches

/-!
## The latest searches

A book keeps each user's latest searches in a library, one for each query. The tables keep what the
book does, as long as no record reads a clock earlier than a search that its user keeps there.
-/
namespace JewelCase.Searches

set_option autoImplicit false

/-! ### Newest first -/

theorem Search.later_trans {a b c : Search} (hab : a.Later b) (hbc : b.Later c) : a.Later c := by
  unfold Later at *
  omega

theorem Search.later_total (a b : Search) : a.Later b ∨ b.Later a := by
  unfold Later
  omega

instance : IsTrans Search Search.Later := ⟨fun _ _ _ => Search.later_trans⟩

instance : Std.Total Search.Later := ⟨Search.later_total⟩

namespace Tables

variable {t : Tables}

/-- No two searches have an ID, none has one to come, no two of a user's in a library have the same
words, and there are not too many of them. -/
structure Good (t : Tables) : Prop where
  ids : (t.searches.map (·.id)).Nodup
  bounded : ∀ row ∈ t.searches, row.id ≤ t.lastId
  folded : t.searches.Pairwise fun a b =>
    a.user = b.user → a.library = b.library → a.folded ≠ b.folded
  few : ∀ user library, (t.newest user library).length ≤ KEPT

theorem good_empty : empty.Good where
  ids := List.nodup_nil
  bounded := by simp [empty]
  folded := List.Pairwise.nil
  few := by simp [newest, empty]

theorem newest_perm (t : Tables) (user library : Int) :
    (t.newest user library).Perm (t.searches.filter (·.isOf user library)) :=
  List.perm_insertionSort _ _

theorem newest_sorted (t : Tables) (user library : Int) :
    (t.newest user library).Pairwise Search.Later := List.pairwise_insertionSort _ _

theorem mem_newest {user library : Int} {row : Search} :
    row ∈ t.newest user library ↔ row ∈ t.searches ∧ row.isOf user library = true := by
  rw [(t.newest_perm user library).mem_iff, List.mem_filter]

/-- **One order.** Searches with IDs of their own stand in one way only. -/
theorem newest_eq {user library : Int} (hids : (t.searches.map (·.id)).Nodup) {rows : List Search}
    (hperm : rows.Perm (t.searches.filter (·.isOf user library)))
    (hsorted : rows.Pairwise Search.Later) : t.newest user library = rows := by
  refine List.Perm.eq_of_pairwise ?_ (t.newest_sorted user library) hsorted
    ((t.newest_perm user library).trans hperm.symm)
  intro a b ha hb hab hba
  have hid : a.id = b.id := by
    unfold Search.Later at hab hba
    omega
  exact List.inj_on_of_nodup_map hids (mem_newest.1 ha).1
    (List.mem_of_mem_filter (hperm.mem_iff.mp hb)) hid

/-- Rows taken out leave the others as they stood. -/
theorem newest_filter {user library : Int} (hids : (t.searches.map (·.id)).Nodup)
    {t' : Tables} (p : Search → Bool) (hsearches : t'.searches = t.searches.filter p) :
    t'.newest user library = (t.newest user library).filter p := by
  have hids' : (t'.searches.map (·.id)).Nodup := by
    rw [hsearches]
    exact hids.sublist (List.filter_sublist.map _)
  refine newest_eq hids' ?_ ((t.newest_sorted user library).filter p)
  rw [hsearches, List.filter_comm]
  exact (t.newest_perm user library).filter p

/-- Rows taken out leave the tables in order. -/
theorem Good.filter (h : t.Good) {t' : Tables} (p : Search → Bool)
    (hsearches : t'.searches = t.searches.filter p) (hlast : t'.lastId = t.lastId) : t'.Good where
  ids := by
    rw [hsearches]
    exact h.ids.sublist (List.filter_sublist.map _)
  bounded row hrow := by
    rw [hsearches] at hrow
    rw [hlast]
    exact h.bounded row (List.mem_of_mem_filter hrow)
  folded := by
    rw [hsearches]
    exact h.folded.sublist List.filter_sublist
  few user library := by
    rw [newest_filter h.ids p hsearches]
    exact (List.length_filter_le _ _).trans (h.few user library)

@[simp] theorem note_searches (shares : Bool) (user library : Int) (search : Nat) (noted : Noted)
    (now : Int) : (t.note shares user library search noted now).searches = t.searches := by
  unfold note
  split_ifs <;> rfl

@[simp] theorem note_lastId (shares : Bool) (user library : Int) (search : Nat) (noted : Noted)
    (now : Int) : (t.note shares user library search noted now).lastId = t.lastId := by
  unfold note
  split_ifs <;> rfl

end Tables

theorem Search.isOf_iff {row : Search} {user library : Int} :
    row.isOf user library = true ↔ row.user = user ∧ row.library = library := decide_eq_true_iff

/-- A row of one user in one library is no other's. -/
theorem Search.isOf_other {row : Search} {user library user' library' : Int}
    (h : row.isOf user library = true) (hother : user = user' → library = library' → False) :
    row.isOf user' library' = false := by
  rw [Search.isOf_iff] at h
  rw [← Bool.not_eq_true, Search.isOf_iff]
  rintro ⟨huser, hlibrary⟩
  exact hother (h.1.symm.trans huser) (h.2.symm.trans hlibrary)

/-- The rows among the first `n`, told by their IDs. -/
theorem filter_first {rows : List Search} (hids : (rows.map (·.id)).Nodup) (n : Nat) :
    rows.filter (fun row => ((rows.take n).map (·.id)).contains row.id) = rows.take n := by
  have hsplit : (rows.take n ++ rows.drop n) = rows := List.take_append_drop n rows
  have hfirst : ∀ row ∈ rows.take n, ((rows.take n).map (·.id)).contains row.id = true :=
    fun row hrow => List.contains_iff_mem.mpr (List.mem_map_of_mem hrow)
  have hlater : ∀ row ∈ rows.drop n, ¬ ((rows.take n).map (·.id)).contains row.id = true := by
    intro row hrow hcontains
    rw [← hsplit, List.map_append, List.nodup_append] at hids
    exact hids.2.2 _ (List.contains_iff_mem.mp hcontains) _ (List.mem_map_of_mem hrow) rfl
  generalize ((rows.take n).map (·.id)) = first at hfirst hlater ⊢
  calc rows.filter (fun row => first.contains row.id)
      = (rows.take n ++ rows.drop n).filter fun row => first.contains row.id := by rw [hsplit]
    _ = rows.take n := by
      rw [List.filter_append, List.filter_eq_self.mpr hfirst, List.filter_eq_nil_iff.mpr hlater,
        List.append_nil]

/-! ### Recording -/

/-- Whether every search that the user keeps in the library under other words is no later than
`now`. -/
def Tables.NoLater (t : Tables) (user library : Int) (folded : Text) (now : Int) : Prop :=
  ∀ row ∈ t.searches, row.isOf user library = true → row.folded ≠ folded → row.searchedAt ≤ now

/-- Tables with a new search in them. -/
structure Inserted (t : Tables) (row : Search) (t' : Tables) : Prop where
  searches : t'.searches = t.others row.user row.library row.folded ++ [row]
  id : row.id = t.lastId + 1
  lastId : t'.lastId = row.id

section Inserted

variable {t t' : Tables} {row : Search}

theorem Inserted.ids (h : Inserted t row t') (hgood : t.Good) :
    (t'.searches.map (·.id)).Nodup := by
  rw [h.searches, List.map_append, List.map_singleton, List.nodup_append]
  refine ⟨hgood.ids.sublist (List.filter_sublist.map _), by simp, ?_⟩
  intro id hmem id' hid' heq
  obtain ⟨other, hother, rfl⟩ := List.mem_map.mp hmem
  have hle := hgood.bounded other (List.mem_of_mem_filter hother)
  have hnew := List.mem_singleton.mp hid'
  have hid := h.id
  omega

/-- Where no other search is later, the new one is the newest. -/
theorem Inserted.newest (h : Inserted t row t') (hgood : t.Good)
    (horder : t.NoLater row.user row.library row.folded row.searchedAt) :
    t'.newest row.user row.library =
      row :: (t.newest row.user row.library).filter fun other => other.folded ≠ row.folded := by
  have hmine : (t.others row.user row.library row.folded).filter
      (·.isOf row.user row.library) = (t.searches.filter (·.isOf row.user row.library)).filter
        fun other => other.folded ≠ row.folded := by
    rw [Tables.others, List.filter_filter, List.filter_filter]
    apply List.filter_congr
    intro other _
    by_cases hsame : other.folded = row.folded <;> simp [hsame]
  have hself : [row].filter (·.isOf row.user row.library) = [row] := by simp [Search.isOf_iff]
  refine Tables.newest_eq (h.ids hgood) ?_ ?_
  · rw [h.searches, List.filter_append, hself, hmine]
    exact (((t.newest_perm row.user row.library).filter _).cons row).trans
      (List.perm_append_singleton row _).symm
  · refine List.pairwise_cons.mpr ⟨?_, (t.newest_sorted row.user row.library).filter _⟩
    intro other hother
    obtain ⟨hmem, hdiffers⟩ := List.mem_filter.mp hother
    obtain ⟨hmem, hisOf⟩ := Tables.mem_newest.1 hmem
    have hle := horder other hmem hisOf (by simpa using hdiffers)
    have hbefore := hgood.bounded other hmem
    have hid := h.id
    unfold Search.Later
    omega

/-- Another's searches, or those in another library, stand as they did. -/
theorem Inserted.newest_other (h : Inserted t row t') (hgood : t.Good) {user library : Int}
    (hother : user = row.user → library = row.library → False) :
    t'.newest user library = t.newest user library := by
  refine Tables.newest_eq (h.ids hgood) ?_ (t.newest_sorted user library)
  have hself : [row].filter (·.isOf user library) = [] := by
    rw [List.filter_eq_nil_iff]
    intro other hmem hisOf
    rw [List.mem_singleton.mp hmem, Search.isOf_iff] at hisOf
    exact hother hisOf.1.symm hisOf.2.symm
  rw [h.searches, List.filter_append, hself, List.append_nil, Tables.others, List.filter_comm]
  rw [List.filter_eq_self.mpr]
  · exact t.newest_perm user library
  · intro other hmem
    rw [Search.isOf_other (List.mem_filter.mp hmem).2 hother]
    rfl

theorem Inserted.folded (h : Inserted t row t') (hgood : t.Good) :
    t'.searches.Pairwise fun a b => a.user = b.user → a.library = b.library →
      a.folded ≠ b.folded := by
  rw [h.searches, List.pairwise_append]
  refine ⟨hgood.folded.sublist List.filter_sublist, List.pairwise_singleton _ _, ?_⟩
  intro other hother new hnew huser hlibrary hfolded
  rw [List.mem_singleton.mp hnew] at huser hlibrary hfolded
  have hkept := (List.mem_filter.mp hother).2
  rw [Search.isOf_iff.2 ⟨huser, hlibrary⟩, hfolded] at hkept
  simp at hkept

/-- **Pruning** leaves the newest of the user's, and everyone else's. -/
theorem Inserted.prune (h : Inserted t row t') (hgood : t.Good) :
    (t'.prune row.user row.library).Good ∧
      (t'.prune row.user row.library).newest row.user row.library =
        (t'.newest row.user row.library).take KEPT ∧
      ∀ user library, (user = row.user → library = row.library → False) →
        (t'.prune row.user row.library).newest user library = t.newest user library := by
  generalize hpruned : t'.prune row.user row.library = pruned
  have hsearches : pruned.searches = t'.searches.filter fun other =>
      !(other.isOf row.user row.library &&
        !(((t'.newest row.user row.library).take KEPT).map (·.id)).contains other.id) := by
    rw [← hpruned]
    rfl
  have hlast : pruned.lastId = t'.lastId := by rw [← hpruned]; rfl
  have hids := h.ids hgood
  have hmine : pruned.newest row.user row.library = (t'.newest row.user row.library).take KEPT := by
    have hrows : ((t'.newest row.user row.library).map (·.id)).Nodup :=
      ((t'.newest_perm _ _).map _).nodup_iff.mpr (hids.sublist (List.filter_sublist.map _))
    rw [Tables.newest_filter hids _ hsearches]
    refine Eq.trans ?_ (filter_first hrows KEPT)
    apply List.filter_congr
    intro other hother
    rw [(Tables.mem_newest.1 hother).2, Bool.true_and, Bool.not_not]
  have hothers : ∀ user library, (user = row.user → library = row.library → False) →
      pruned.newest user library = t.newest user library := by
    intro user library hother
    rw [Tables.newest_filter hids _ hsearches, h.newest_other hgood hother]
    rw [List.filter_eq_self]
    intro other hmem
    rw [Search.isOf_other (Tables.mem_newest.1 hmem).2 hother]
    rfl
  refine ⟨?_, hmine, hothers⟩
  constructor
  · rw [hsearches]
    exact hids.sublist (List.filter_sublist.map _)
  · intro other hother
    rw [hlast, h.lastId]
    rw [hsearches, h.searches] at hother
    rcases List.mem_append.mp (List.mem_of_mem_filter hother) with hold | hnew
    · have hle := hgood.bounded other (List.mem_of_mem_filter hold)
      have hid := h.id
      omega
    · rw [List.mem_singleton.mp hnew]
  · rw [hsearches]
    exact (h.folded hgood).sublist List.filter_sublist
  · intro user library
    by_cases hsame : user = row.user ∧ library = row.library
    · rw [hsame.1, hsame.2, hmine, List.length_take]
      exact Nat.min_le_left _ _
    · rw [hothers user library fun huser hlibrary => hsame ⟨huser, hlibrary⟩]
      exact hgood.few user library

end Inserted

/-- What a record that may write comes to. -/
theorem write_eq (t : Tables) (user library now : Int) {checked : Checked} {inLibrary : Bool}
    (shares : Bool) (found : Option (Nat × Nat × Nat))
    (hthere : (checked.selected.isSome && !inLibrary) = false) :
    ∃ noted, Inserted t (checked.row (t.lastId + 1) user library now) noted ∧
      noted.events = t.events ++ (match found with
        | some found => if shares then [⟨user, library, .searched found, t.lastId + 1, now⟩] else []
        | none => []) ∧
      write t user library checked inLibrary found shares now =
        match Library.Keyed.find (·.id) (noted.prune user library).searches (t.lastId + 1) with
        | some row => .ok (noted.prune user library, row.answer)
        | none => .error .internal := by
  unfold write
  rw [hthere]
  cases found with
  | none =>
    exact ⟨t.insert user library checked now, ⟨rfl, rfl, rfl⟩, (List.append_nil _).symm, rfl⟩
  | some found =>
    refine ⟨_, ⟨Tables.note_searches .., rfl, Tables.note_lastId ..⟩, ?_, rfl⟩
    unfold Tables.note
    cases shares with
    | true => rfl
    | false => exact (List.append_nil _).symm

/-- **A record in order.** It succeeds, and leaves its search first among the user's latest. -/
theorem write_in_order {t : Tables} (h : t.Good) {user library now : Int} {checked : Checked}
    {inLibrary : Bool} (shares : Bool) (found : Option (Nat × Nat × Nat))
    (hthere : (checked.selected.isSome && !inLibrary) = false)
    (horder : t.NoLater user library checked.folded now) :
    ∃ t', write t user library checked inLibrary found shares now =
        .ok (t', (checked.row (t.lastId + 1) user library now).answer) ∧
      t'.Good ∧ t'.lastId = t.lastId + 1 ∧
      t'.newest user library = (checked.row (t.lastId + 1) user library now ::
        (t.newest user library).filter fun row => row.folded ≠ checked.folded).take KEPT ∧
      ∀ user' library', (user' = user → library' = library → False) →
        t'.newest user' library' = t.newest user' library' := by
  obtain ⟨noted, hinserted, -, hwrite⟩ := write_eq t user library now shares found hthere
  obtain ⟨hgood, hnewest, hothers⟩ := hinserted.prune h
  have hlast : (noted.prune user library).lastId = t.lastId + 1 := hinserted.lastId
  rw [hinserted.newest h horder] at hnewest
  change (noted.prune user library).newest user library =
    (checked.row (t.lastId + 1) user library now ::
      (t.newest user library).filter fun row => row.folded ≠ checked.folded).take KEPT at hnewest
  have hfirst : checked.row (t.lastId + 1) user library now ∈
      (noted.prune user library).newest user library := by
    rw [hnewest]
    exact List.mem_cons_self
  have hfind := (Library.Keyed.find_eq_some hgood.ids).2 ⟨(Tables.mem_newest.1 hfirst).1, rfl⟩
  change Library.Keyed.find (·.id) (noted.prune user library).searches (t.lastId + 1) = _ at hfind
  refine ⟨_, ?_, hgood, hlast, hnewest, hothers⟩
  rw [hwrite, hfind]
  rfl

end JewelCase.Searches
