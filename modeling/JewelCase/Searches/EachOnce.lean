import JewelCase.Searches.Recent
import Mathlib.Data.List.Pairwise

/-!
# Each once

What a user's searches come to over a run of requests. A book keeps each user's latest searches in a
library, one for each query; the tables keep what it does, as long as every record is in order.
-/
namespace JewelCase.Searches

set_option autoImplicit false

section Requests

variable (words : Text → List Text)

/-- What a request records, if it is a record of a valid query and what it selects is there. -/
def Request.recorded (request : Request) : Option Checked :=
  match request.call with
  | .record create inLibrary _ =>
    match create.check words with
    | .error _ => none
    | .ok checked => if checked.selected.isSome && !inLibrary then none else some checked
  | _ => none

/-- The rows that a removal takes out. -/
def Request.removes (request : Request) (row : Search) : Bool :=
  row.isOf request.user request.library &&
    match request.call with
    | .record .. => false
    | .delete search => decide (row.id = search)
    | .clear => true

/-- What a removal notes of the rows that it takes out. -/
def Request.notes (request : Request) (t : Tables) : List SearchEvent :=
  if request.shares then
    (t.searches.filter request.removes).map fun row =>
      ⟨request.user, request.library, .forgotten, row.id, request.now⟩
  else []

/-- The removals among some events. -/
def forgotten (events : List SearchEvent) : List SearchEvent :=
  events.filter fun event => event.noted = .forgotten

/-- Whether a record is made no earlier than the searches that its user keeps in the library under
other words. -/
def Request.InOrder (request : Request) (t : Tables) : Prop :=
  ∀ checked, request.recorded words = some checked →
    t.NoLater request.user request.library checked.folded request.now

/-- Whether every record of a run is made in order. -/
def InOrder : Tables → List Request → Prop
  | _, [] => True
  | t, request :: rest => request.InOrder words t ∧ InOrder (t.step words request).1 rest

/-- Whether a request neither records a search of the user's in the library nor removes `row`. -/
def Request.Spares (request : Request) (row : Search) : Prop :=
  (row.isOf request.user request.library = true → request.recorded words = none) ∧
    request.removes row = false

/-- Each user's latest searches in each library, the last recorded first. -/
structure Book where
  lastId : Nat
  kept : Int → Int → List Search

def Book.empty : Book := ⟨0, fun _ _ => []⟩

/-- A record puts its search first, in place of one of the same words, and pushes out what then has
twenty before it. A removal takes out what it removes. -/
def Book.step (book : Book) (request : Request) : Book :=
  match request.recorded words with
  | some checked =>
    let row := checked.row (book.lastId + 1) request.user request.library request.now
    ⟨row.id, fun user library =>
      if user = request.user ∧ library = request.library then
        (row :: (book.kept user library).filter fun old => old.folded ≠ row.folded).take KEPT
      else book.kept user library⟩
  | none =>
    { book with kept := fun user library =>
        (book.kept user library).filter fun row => !request.removes row }

def Book.run (book : Book) (requests : List Request) : Book :=
  requests.foldl (·.step words) book

end Requests

variable {words : Text → List Text} {t : Tables} {request : Request}

/-! ### One request -/

theorem note_events (t : Tables) (shares : Bool) (user library : Int) (search : Nat) (noted : Noted)
    (now : Int) : (t.note shares user library search noted now).events =
      t.events ++ if shares then [⟨user, library, noted, search, now⟩] else [] := by
  unfold Tables.note
  cases shares with
  | true => rfl
  | false => exact (List.append_nil _).symm

/-- What a clear notes, one row after another. -/
theorem noteEach (shares : Bool) (user library now : Int) (rows : List Search) (t : Tables) :
    let noted := rows.foldl (fun tables row => tables.note shares user library row.id .forgotten now) t
    noted.searches = t.searches ∧ noted.lastId = t.lastId ∧
      noted.events = t.events ++
        if shares then rows.map fun row => ⟨user, library, .forgotten, row.id, now⟩ else [] := by
  induction rows generalizing t with
  | nil => simp
  | cons row rest ih =>
    obtain ⟨hsearches, hlast, hevents⟩ := ih (t.note shares user library row.id .forgotten now)
    refine ⟨hsearches.trans (t.note_searches ..), hlast.trans (t.note_lastId ..), hevents.trans ?_⟩
    rw [note_events, List.append_assoc]
    cases shares <;> rfl

/-- The row with an ID is the only one. -/
theorem filter_id {rows : List Search} (hids : (rows.map (·.id)).Nodup) {row : Search}
    (hrow : row ∈ rows) (p : Search → Bool) (hp : p row = true)
    (hid : ∀ other, p other = true → other.id = row.id) : rows.filter p = [row] := by
  have hnodup : (rows.filter p).Nodup := (List.Nodup.of_map _ hids).filter p
  have hall : ∀ other ∈ rows.filter p, other = row := by
    intro other hother
    obtain ⟨hmem, hpother⟩ := List.mem_filter.mp hother
    exact List.inj_on_of_nodup_map hids hmem hrow (hid other hpother)
  have hmem : row ∈ rows.filter p := List.mem_filter.mpr ⟨hrow, hp⟩
  obtain ⟨n, hn⟩ : ∃ n, rows.filter p = List.replicate n row :=
    ⟨_, List.eq_replicate_of_mem hall⟩
  rw [hn] at hnodup hmem ⊢
  have hle := List.nodup_replicate.mp hnodup
  have hpos := (List.mem_replicate.mp hmem).1
  rw [show n = 1 by omega]
  rfl

/-- **A request that records nothing** takes out what it removes, and notes just that. -/
theorem step_none (h : t.Good) (hnone : request.recorded words = none) :
    (t.step words request).1.searches = t.searches.filter (fun row => !request.removes row) ∧
      (t.step words request).1.lastId = t.lastId ∧
      (t.step words request).1.events = t.events ++ request.notes t := by
  have hunchanged : (∀ row ∈ t.searches, request.removes row = false) →
      t.searches = t.searches.filter (fun row => !request.removes row) ∧ t.lastId = t.lastId ∧
        t.events = t.events ++ request.notes t := by
    intro hspared
    have hnone : t.searches.filter request.removes = [] := List.filter_eq_nil_iff.mpr fun row hrow =>
      Bool.not_eq_true _ ▸ hspared row hrow
    refine ⟨(List.filter_eq_self.mpr fun row hrow => by rw [hspared row hrow]; rfl).symm, rfl, ?_⟩
    unfold Request.notes
    rw [hnone]
    simp
  unfold Tables.step
  cases hcall : request.call with
  | record create inLibrary found =>
    have hspared : ∀ row ∈ t.searches, request.removes row = false := by
      intro row _
      simp [Request.removes, hcall]
    unfold Request.recorded at hnone
    rw [hcall] at hnone
    dsimp only at hnone ⊢
    cases hcheck : create.check words with
    | error problem => exact hunchanged hspared
    | ok checked =>
      rw [hcheck] at hnone
      dsimp only at hnone ⊢
      split_ifs at hnone with hthere
      rw [show write t request.user request.library checked inLibrary found request.shares
        request.now = .error (.invalid "selected is not in this library.") from if_pos hthere]
      exact hunchanged hspared
  | delete search =>
    have hremoves : (fun row : Search =>
        decide (row.id = search) && row.isOf request.user request.library) = request.removes := by
      funext row
      unfold Request.removes
      rw [hcall, Bool.and_comm]
    dsimp only
    rw [hremoves]
    by_cases hany : t.searches.any request.removes = true
    · rw [if_pos hany]
      obtain ⟨row, hrow, hgone⟩ := List.any_eq_true.mp hany
      have hid : ∀ other : Search, request.removes other = true → other.id = search := by
        intro other hother
        rw [← hremoves, Bool.and_eq_true, decide_eq_true_iff] at hother
        exact hother.1
      refine ⟨(Tables.note_searches ..).trans ?_, Tables.note_lastId .., ?_⟩
      · rw [← hremoves]
      have honly := filter_id h.ids hrow _ hgone fun other hother =>
        (hid other hother).trans (hid row hgone).symm
      rw [note_events, Request.notes, honly, ← hid row hgone]
      rfl
    · rw [if_neg hany]
      apply hunchanged
      intro row hrow
      rw [← Bool.not_eq_true]
      exact fun hgone => hany (List.any_eq_true.mpr ⟨row, hrow, hgone⟩)
  | clear =>
    have hremoves : (fun row : Search => row.isOf request.user request.library) =
        request.removes := by
      funext row
      unfold Request.removes
      rw [hcall, Bool.and_true]
    dsimp only
    rw [hremoves]
    obtain ⟨hsearches, hlast, hevents⟩ := noteEach request.shares request.user request.library
      request.now (t.searches.filter request.removes) { t with searches := t.searches.filter fun row =>
        !(row.isOf request.user request.library) }
    refine ⟨hsearches.trans ?_, hlast, hevents⟩
    rw [← hremoves]

/-- What a request that records a search comes to. -/
theorem step_some {checked : Checked} (hsome : request.recorded words = some checked) :
    ∃ inLibrary found, (checked.selected.isSome && !inLibrary) = false ∧
      t.step words request =
        match write t request.user request.library checked inLibrary found request.shares
          request.now with
        | .error problem => (t, .error problem)
        | .ok (next, row) => (next, .ok (some row)) := by
  unfold Request.recorded at hsome
  unfold Tables.step
  cases hcall : request.call with
  | delete search => rw [hcall] at hsome; cases hsome
  | clear => rw [hcall] at hsome; cases hsome
  | record create inLibrary found =>
    rw [hcall] at hsome
    dsimp only at hsome ⊢
    cases hcheck : create.check words with
    | error problem => rw [hcheck] at hsome; cases hsome
    | ok checked' =>
      rw [hcheck] at hsome
      dsimp only at hsome ⊢
      split_ifs at hsome with hthere
      cases hsome
      exact ⟨inLibrary, found, Bool.not_eq_true _ ▸ hthere, rfl⟩

/-- What a record that writes leaves, in order or not. -/
theorem write_ok (h : t.Good) {user library now : Int} {checked : Checked}
    {inLibrary shares : Bool} {found : Option (Nat × Nat × Nat)} {next : Tables}
    {answer : RecentSearch} (hthere : (checked.selected.isSome && !inLibrary) = false)
    (hok : write t user library checked inLibrary found shares now = .ok (next, answer)) :
    next.Good ∧ next.lastId = t.lastId + 1 ∧ forgotten next.events = forgotten t.events ∧
      ∀ row ∈ next.searches, row ∈ t.searches ∨ row.id = t.lastId + 1 := by
  obtain ⟨noted, hinserted, hevents, hwrite⟩ := write_eq t user library now shares found hthere
  rw [hwrite] at hok
  have hnext : noted.prune user library = next := by
    split at hok
    · cases hok
      rfl
    · cases hok
  have hlast := hinserted.lastId
  have hsearches := hinserted.searches
  rw [← hnext]
  refine ⟨(hinserted.prune h).1, hlast, ?_, ?_⟩
  · change forgotten noted.events = _
    rw [hevents, forgotten, List.filter_append]
    cases found with
    | none => exact List.append_nil _
    | some found => cases shares <;> exact List.append_nil _
  · intro row hrow
    have hmem := List.mem_of_mem_filter hrow
    rw [hsearches] at hmem
    rcases List.mem_append.mp hmem with hold | hnew
    · exact .inl (List.mem_of_mem_filter hold)
    · rw [List.mem_singleton.mp hnew]
      exact .inr rfl

/-- A removal is noted for searches that are gone, once each. -/
structure Told (t : Tables) : Prop where
  once : ((forgotten t.events).map (·.search)).Nodup
  past : ∀ event ∈ forgotten t.events, event.search ≤ t.lastId
  gone : ∀ event ∈ forgotten t.events, ∀ row ∈ t.searches, row.id ≠ event.search

theorem told_empty : Told .empty where
  once := List.nodup_nil
  past _ hevent := absurd hevent List.not_mem_nil
  gone _ hevent := absurd hevent List.not_mem_nil

/-- All that a removal notes is a removal. -/
theorem forgotten_notes : forgotten (t.events ++ request.notes t) =
    forgotten t.events ++ request.notes t := by
  rw [forgotten, List.filter_append]
  congr 1
  rw [List.filter_eq_self]
  intro event hevent
  unfold Request.notes at hevent
  split_ifs at hevent
  · obtain ⟨row, -, rfl⟩ := List.mem_map.mp hevent
    rfl
  · exact absurd hevent List.not_mem_nil

/-- A removal notes rows that it takes out. -/
theorem mem_notes {event : SearchEvent} (hevent : event ∈ request.notes t) :
    ∃ row ∈ t.searches, request.removes row = true ∧ event.search = row.id := by
  unfold Request.notes at hevent
  split_ifs at hevent
  · obtain ⟨row, hrow, rfl⟩ := List.mem_map.mp hevent
    obtain ⟨hmem, hgone⟩ := List.mem_filter.mp hrow
    exact ⟨row, hmem, hgone, rfl⟩
  · exact absurd hevent List.not_mem_nil

theorem nodup_notes (h : t.Good) : ((request.notes t).map (·.search)).Nodup := by
  unfold Request.notes
  split_ifs
  · rw [List.map_map]
    exact h.ids.sublist (List.filter_sublist.map _)
  · exact List.nodup_nil

variable (words) in
/-- **Any request** leaves the tables in order, and its removals told once. -/
theorem step_keeps (h : t.Good) (htold : Told t) (request : Request) :
    (t.step words request).1.Good ∧ Told (t.step words request).1 := by
  cases hrecorded : request.recorded words with
  | none =>
    obtain ⟨hsearches, hlast, hevents⟩ := step_none h hrecorded
    refine ⟨h.filter _ hsearches hlast, ?_⟩
    generalize (t.step words request).1 = next at hsearches hlast hevents
    have hforgotten : forgotten next.events = forgotten t.events ++ request.notes t := by
      rw [hevents, forgotten_notes]
    constructor
    · rw [hforgotten, List.map_append, List.nodup_append]
      refine ⟨htold.once, nodup_notes h, ?_⟩
      intro search hbefore search' hnow heq
      obtain ⟨event, hevent, rfl⟩ := List.mem_map.mp hbefore
      obtain ⟨event', hevent', rfl⟩ := List.mem_map.mp hnow
      obtain ⟨row, hrow, -, hid⟩ := mem_notes hevent'
      exact htold.gone event hevent row hrow (hid.symm.trans heq.symm)
    · intro event hevent
      rw [hlast]
      rw [hforgotten] at hevent
      rcases List.mem_append.mp hevent with hbefore | hnow
      · exact htold.past event hbefore
      · obtain ⟨row, hrow, -, hid⟩ := mem_notes hnow
        rw [hid]
        exact h.bounded row hrow
    · intro event hevent row hrow
      rw [hsearches] at hrow
      obtain ⟨hmem, hspared⟩ := List.mem_filter.mp hrow
      rw [hforgotten] at hevent
      rcases List.mem_append.mp hevent with hbefore | hnow
      · exact htold.gone event hbefore row hmem
      · obtain ⟨other, hother, hgone, hid⟩ := mem_notes hnow
        intro heq
        have hsame := List.inj_on_of_nodup_map h.ids hmem hother (heq.trans hid)
        rw [hsame, hgone] at hspared
        cases hspared
  | some checked =>
    obtain ⟨inLibrary, found, hthere, hstep⟩ := step_some (t := t) hrecorded
    rw [hstep]
    cases hwrite : write t request.user request.library checked inLibrary found request.shares
        request.now with
    | error problem => exact ⟨h, htold⟩
    | ok result =>
      obtain ⟨next, answer⟩ := result
      obtain ⟨hgood, hlast, hforgotten, hfrom⟩ := write_ok h hthere hwrite
      refine ⟨hgood, ?_, ?_, ?_⟩
      · exact hforgotten.symm ▸ htold.once
      · intro event hevent
        have hle := htold.past event (hforgotten ▸ hevent)
        exact hlast.symm ▸ hle.trans (Nat.le_succ _)
      · intro event hevent row hrow
        rcases hfrom row hrow with hold | hnew
        · exact htold.gone event (hforgotten ▸ hevent) row hold
        · have hle := htold.past event (hforgotten ▸ hevent)
          omega

/-- **A record in order** succeeds, puts its search first and tells of no removal. -/
theorem step_in_order (h : t.Good) (horder : request.InOrder words t) {checked : Checked}
    (hsome : request.recorded words = some checked) :
    let row := checked.row (t.lastId + 1) request.user request.library request.now
    (t.step words request).2 = .ok (some row.answer) ∧
      (t.step words request).1.lastId = t.lastId + 1 ∧
      forgotten (t.step words request).1.events = forgotten t.events ∧
      (t.step words request).1.newest request.user request.library =
        (row :: (t.newest request.user request.library).filter fun old =>
          old.folded ≠ row.folded).take KEPT ∧
      ∀ user library, (user = request.user → library = request.library → False) →
        (t.step words request).1.newest user library = t.newest user library := by
  intro row
  obtain ⟨inLibrary, found, hthere, hstep⟩ := step_some (t := t) hsome
  obtain ⟨next, hwrite, -, hlast, hnewest, hothers⟩ :=
    write_in_order h request.shares found hthere (horder checked hsome)
  obtain ⟨-, -, hforgotten, -⟩ := write_ok h hthere hwrite
  rw [hstep, hwrite]
  exact ⟨rfl, hlast, hforgotten, hnewest, hothers⟩

/-! ### Runs -/

theorem inOrder_append {before rest : List Request} (t : Tables)
    (h : InOrder words t (before ++ rest)) :
    InOrder words t before ∧ InOrder words (t.run words before) rest := by
  induction before generalizing t with
  | nil => exact ⟨trivial, h⟩
  | cons request before ih =>
    obtain ⟨hbefore, hrest⟩ := ih _ h.2
    exact ⟨⟨h.1, hbefore⟩, hrest⟩

variable (words) in
/-- **A run** keeps the tables in order, and its removals told once. -/
theorem run_keeps (h : t.Good) (htold : Told t) (requests : List Request) :
    (t.run words requests).Good ∧ Told (t.run words requests) := by
  induction requests generalizing t with
  | nil => exact ⟨h, htold⟩
  | cons request rest ih =>
    obtain ⟨hnext, htoldNext⟩ := step_keeps words h htold request
    exact ih hnext htoldNext

/-- The tables keep what a book does. -/
structure Matches (t : Tables) (book : Book) : Prop where
  lastId : t.lastId = book.lastId
  kept : ∀ user library, t.newest user library = book.kept user library

theorem matches_step (h : t.Good) {book : Book} (hmatches : Matches t book)
    (horder : request.InOrder words t) :
    Matches (t.step words request).1 (book.step words request) := by
  unfold Book.step
  cases hrecorded : request.recorded words with
  | none =>
    obtain ⟨hsearches, hlast, -⟩ := step_none h hrecorded
    refine ⟨hlast.trans hmatches.lastId, fun user library => ?_⟩
    rw [Tables.newest_filter h.ids _ hsearches, hmatches.kept]
  | some checked =>
    obtain ⟨-, hlast, -, hnewest, hothers⟩ := step_in_order h horder hrecorded
    refine ⟨by rw [hlast, hmatches.lastId]; rfl, fun user library => ?_⟩
    dsimp only
    rw [← hmatches.lastId]
    by_cases hsame : user = request.user ∧ library = request.library
    · rw [if_pos hsame, hsame.1, hsame.2, hnewest, hmatches.kept]
    · rw [if_neg hsame, hothers user library fun huser hlibrary => hsame ⟨huser, hlibrary⟩]
      exact hmatches.kept user library

theorem matches_run (h : t.Good) (htold : Told t) {book : Book} (hmatches : Matches t book)
    {requests : List Request} (horder : InOrder words t requests) :
    Matches (t.run words requests) (book.run words requests) := by
  induction requests generalizing t book with
  | nil => exact hmatches
  | cons request rest ih =>
    obtain ⟨hnext, htoldNext⟩ := step_keeps words h htold request
    exact ih hnext htoldNext (matches_step h hmatches horder.1) horder.2

/-- A search stays first until its user records another, or removes it. -/
theorem stays_first (h : t.Good) (htold : Told t) {row : Search} {user library : Int}
    (hisOf : row.isOf user library = true) (hfirst : (t.newest user library).head? = some row)
    {requests : List Request} (horder : InOrder words t requests)
    (hspares : ∀ request ∈ requests, request.Spares words row) :
    ((t.run words requests).newest user library).head? = some row := by
  induction requests generalizing t with
  | nil => exact hfirst
  | cons request rest ih =>
    obtain ⟨hnext, htoldNext⟩ := step_keeps words h htold request
    refine ih hnext htoldNext ?_ horder.2 fun later hlater =>
      hspares later (List.mem_cons_of_mem _ hlater)
    obtain ⟨hrecords, hremoves⟩ := hspares request List.mem_cons_self
    cases hrecorded : request.recorded words with
    | none =>
      obtain ⟨hsearches, -, -⟩ := step_none h hrecorded
      obtain ⟨rest, hrest⟩ := List.head?_eq_some_iff.mp hfirst
      rw [Tables.newest_filter h.ids _ hsearches, hrest, List.filter_cons_of_pos (by rw [hremoves]; rfl)]
      rfl
    | some checked =>
      obtain ⟨-, -, -, -, hothers⟩ := step_in_order h horder.1 hrecorded
      rw [hothers user library]
      · exact hfirst
      · intro huser hlibrary
        rw [huser, hlibrary] at hisOf
        rw [hrecords hisOf] at hrecorded
        cases hrecorded

/-- The search that stands first is listed first, for as long as it is listed. -/
theorem list_first (h : t.Good) {row : Search} {user library now : Int}
    (hfirst : (t.newest user library).head? = some row) (hnow : now - WINDOW_MS ≤ row.searchedAt) :
    (list t user library now).head? = some row.answer := by
  obtain ⟨rest, hrest⟩ := List.head?_eq_some_iff.mp hfirst
  let shown : Tables := ⟨t.searches.filter fun row => decide (now - WINDOW_MS ≤ row.searchedAt),
    t.lastId, t.events⟩
  have hshown : shown.newest user library = _ := Tables.newest_filter h.ids _ rfl
  have hlisted : ((t.searches.filter fun row =>
      row.isOf user library && decide (now - WINDOW_MS ≤ row.searchedAt)).insertionSort
        Search.Later) = shown.newest user library := by
    rw [Tables.newest, List.filter_filter]
  rw [hshown] at hlisted
  rw [list, hlisted, hrest, List.filter_cons_of_pos (by simpa using hnow)]
  rfl

theorem folded_once (h : t.Good) {a b : Search} (ha : a ∈ t.searches) (hb : b ∈ t.searches)
    (huser : a.user = b.user) (hlibrary : a.library = b.library) (hfolded : a.folded = b.folded) :
    a = b := by
  by_contra hne
  have hsymm : Std.Symm fun a b : Search =>
      a.user = b.user → a.library = b.library → a.folded ≠ b.folded :=
    ⟨fun a b h huser hlibrary hfolded => h huser.symm hlibrary.symm hfolded.symm⟩
  exact h.folded.forall ha hb hne huser hlibrary hfolded

/-- **Each user's latest searches, each once.** In a run whose records are all in order, the tables
keep what the book does; a record of a valid query succeeds, and its search is kept and listed first
until its user records another or removes it; a removal takes out the caller's searches in that
library only, and notes just those, where a record notes none; and none is noted twice. -/
theorem latest_each_once (words : Text → List Text) (requests : List Request)
    (horder : InOrder words .empty requests) (before after : List Request)
    (hsplit : requests = before ++ after) :
    let t := Tables.empty.run words before
    (∀ user library, t.newest user library = (Book.empty.run words before).kept user library ∧
      (t.newest user library).length ≤ 20) ∧
    (∀ a ∈ t.searches, ∀ b ∈ t.searches, a.user = b.user → a.library = b.library →
      a.folded = b.folded → a = b) ∧
    ((forgotten t.events).map (·.search)).Nodup ∧
    ∀ request rest, after = request :: rest →
      let next := (t.step words request).1
      (∀ checked, request.recorded words = some checked →
        let row := checked.row (t.lastId + 1) request.user request.library request.now
        (t.step words request).2 = .ok (some row.answer) ∧
        forgotten next.events = forgotten t.events ∧
        ∀ spared later, rest = spared ++ later → (∀ r ∈ spared, r.Spares words row) →
          row ∈ (next.run words spared).searches ∧
          ∀ now, now - WINDOW_MS ≤ row.searchedAt →
            (list (next.run words spared) request.user request.library now).head? =
              some row.answer) ∧
      (request.recorded words = none →
        next.searches = t.searches.filter (fun row => !request.removes row) ∧
        (∀ row, request.removes row = true → row.isOf request.user request.library = true) ∧
        next.events = t.events ++ request.notes t) := by
  intro t
  rw [hsplit] at horder
  obtain ⟨hbefore, hafter⟩ := inOrder_append Tables.empty horder
  obtain ⟨hgood, htold⟩ := run_keeps words Tables.good_empty told_empty before
  have hmatches : Matches t (Book.empty.run words before) :=
    matches_run Tables.good_empty told_empty ⟨rfl, fun _ _ => rfl⟩ hbefore
  refine ⟨fun user library => ⟨hmatches.kept user library, hgood.few user library⟩,
    fun a ha b hb => folded_once hgood ha hb, htold.once, ?_⟩
  intro request rest hrest next
  rw [hrest] at hafter
  constructor
  · intro checked hsome row
    obtain ⟨hanswer, -, hforgotten, hnewest, -⟩ := step_in_order hgood hafter.1 hsome
    obtain ⟨hnext, htoldNext⟩ := step_keeps words hgood htold request
    refine ⟨hanswer, hforgotten, ?_⟩
    intro spared later hspared hspares
    have hfirst : (next.newest request.user request.library).head? = some row := by
      rw [hnewest]
      rfl
    rw [hspared] at hafter
    have hlast := stays_first hnext htoldNext (Search.isOf_iff.2 ⟨rfl, rfl⟩) hfirst
      (inOrder_append _ hafter.2).1 hspares
    refine ⟨(Tables.mem_newest.1 (List.mem_of_mem_head? hlast)).1, fun now hnow => ?_⟩
    exact list_first (run_keeps words hnext htoldNext spared).1 hlast hnow
  · intro hnone
    obtain ⟨hsearches, -, hevents⟩ := step_none hgood hnone
    refine ⟨hsearches, ?_, hevents⟩
    intro row hgone
    exact (Bool.and_eq_true _ _ ▸ hgone : _ ∧ _).1

/-- A user's record of one letter. -/
def letter (n : Nat) (now : Int) : Request :=
  ⟨1, 1, .record ⟨[Char.ofNat (97 + n)], none⟩ true none, true, now⟩

theorem latest_each_once_of_two :
    let t := Tables.empty.run (fun query => [query]) [letter 0 10]
    (t.step (fun query => [query]) (letter 1 10)).2 = .ok (some ⟨2, ['b'], none, 10⟩) :=
  ((latest_each_once (fun query => [query]) [letter 0 10, letter 1 10]
    ⟨fun _ _ row hrow => absurd hrow List.not_mem_nil, by
      unfold Request.InOrder Tables.NoLater
      decide +kernel, trivial⟩ [letter 0 10] [letter 1 10] rfl).2.2.2 _ _ rfl).1 ⟨['b'], ['b'], none⟩
    (by decide +kernel) |>.1

/-- **A clock that stepped back.** Twenty searches are kept from before it did. The next one is no
longer among the twenty newest once it is recorded, so it fails. -/
theorem fails_after_step_back :
    let t := Tables.empty.run (fun query => [query]) ((List.range 20).map fun n => letter n 10)
    (letter 20 9).recorded (fun query => [query]) = some ⟨['u'], ['u'], none⟩ ∧
      (t.step (fun query => [query]) (letter 20 9)).2 = .error .internal := by
  decide +kernel

end JewelCase.Searches
