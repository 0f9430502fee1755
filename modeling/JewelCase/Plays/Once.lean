import Mathlib.Data.List.Induction
import JewelCase.Plays.Record

/-!
# Plays are recorded once

Reports of one play come in any order and any number of times. Its row is what the first report
began with and what every report of that track adds: the longest listen time, and the end. Only the
first end adds an event.
-/
namespace JewelCase.Plays

set_option autoImplicit false

variable {render : Json → String} {user : Int} {id : String}

/-! ### What requests record -/

/-- The rows of the reports that a request records. -/
def Request.rows (render : Json → String) (request : Request) : List PlayRow :=
  match request.plays render with
  | .ok plays => plays.filterMap (rowOf request.catalog request.caller request.now)
  | .error _ => []

/-- The rows of the reports that requests record, in their order. -/
def rows (render : Json → String) (requests : List Request) : List PlayRow :=
  requests.flatMap (Request.rows render)

theorem save_eq (catalog : Catalog) (tables : Tables) (caller : Caller) (plays : List Play)
    (now : Int) : save catalog tables caller plays now =
      (plays.filterMap (rowOf catalog caller now)).foldl Tables.upsert tables := by
  induction plays generalizing tables with
  | nil => rfl
  | cons play plays ih =>
    rw [save, List.foldl_cons, ← save, ih]
    cases hrow : rowOf catalog caller now play with
    | none => rw [List.filterMap_cons_none hrow]
    | some row => rw [List.filterMap_cons_some hrow, List.foldl_cons]

theorem step_eq (tables : Tables) (request : Request) :
    step render tables request = (request.rows render).foldl Tables.upsert tables := by
  rw [step, record, Request.rows]
  cases request.plays render with
  | ok plays => exact save_eq _ _ _ _ _
  | error problem => rfl

/-- **The tables after requests are those after the rows they record.** -/
theorem after_eq (requests : List Request) :
    after render requests = (rows render requests).foldl Tables.upsert .empty := by
  rw [after, rows, List.foldl_flatMap]
  congr 1
  funext tables request
  exact step_eq tables request

/-! ### One play -/

/-- A row is of a user's play. -/
def PlayRow.isOf (user : Int) (id : String) (row : PlayRow) : Bool :=
  user = row.userId && id = row.id

/-- An event is of a user's play. -/
def PlayEvent.isOf (user : Int) (id : String) (kind : Kind) (event : PlayEvent) : Bool :=
  user = event.userId && id = event.playId && kind = event.kind

/-- What a report makes of a play's row. -/
def taken : Option PlayRow → PlayRow → Option PlayRow
  | none, row => some row
  | some old, row => some (if old.trackId = row.trackId then old.refresh row else old)

/-- The rows of one play's reports. -/
def mine (user : Int) (id : String) (rows : List PlayRow) : List PlayRow :=
  rows.filter (PlayRow.isOf user id)

/-- The row of one play, of its reports. -/
def rowAfter (user : Int) (id : String) (rows : List PlayRow) : Option PlayRow :=
  (mine user id rows).foldl taken none

theorem mine_append (rows : List PlayRow) (row : PlayRow) :
    mine user id (rows ++ [row]) = mine user id rows ++ if row.isOf user id then [row] else [] := by
  rw [mine, List.filter_append, List.filter_cons, List.filter_nil]
  rfl

theorem rowAfter_append (rows : List PlayRow) (row : PlayRow) :
    rowAfter user id (rows ++ [row]) =
      if row.isOf user id then taken (rowAfter user id rows) row else rowAfter user id rows := by
  rw [rowAfter, mine_append, List.foldl_append]
  split_ifs <;> rfl

/-- A play's row has its key. -/
theorem rowAfter_isOf {rows : List PlayRow} {row : PlayRow} (h : rowAfter user id rows = some row) :
    row.isOf user id = true := by
  induction rows using List.reverseRecOn generalizing row with
  | nil => cases h
  | append_singleton rows last ih =>
    rw [rowAfter_append] at h
    split_ifs at h with hlast
    · cases hold : rowAfter user id rows with
      | none =>
        rw [hold] at h
        obtain rfl := Option.some.inj h
        exact hlast
      | some old =>
        rw [hold] at h
        obtain rfl := Option.some.inj h
        have hkey := ih hold
        split_ifs
        · exact hkey
        · exact hkey
    · exact ih h

theorem isOf_iff {row : PlayRow} : row.isOf user id = true ↔ user = row.userId ∧ id = row.id := by
  simp [PlayRow.isOf]

/-! ### Every play -/

/-- The tables hold one row of each play reported, and the events of its start and its end. -/
structure Recorded (tables : Tables) (rows : List PlayRow) : Prop where
  plays : ∀ user id, tables.plays.filter (PlayRow.isOf user id) = (rowAfter user id rows).toList
  ended : ∀ user id, (tables.events.filter (PlayEvent.isOf user id .ended)).length =
    if ((rowAfter user id rows).bind PlayRow.ended).isSome then 1 else 0
  started : ∀ user id, (tables.events.filter (PlayEvent.isOf user id .started)).length ≤
    if ((mine user id rows).head?.any fun first => first.ended.isNone) then 1 else 0

theorem recorded_empty : Recorded .empty [] := by
  constructor
  · intro user id
    rfl
  · intro user id
    rfl
  · intro user id
    exact Nat.le_refl _

variable {tables : Tables} {reported : List PlayRow} {row : PlayRow}

theorem find_same (h : Recorded tables reported) (row : PlayRow) :
    tables.plays.find? row.same = rowAfter row.userId row.id reported := by
  rw [← List.head?_filter]
  have hplays := h.plays row.userId row.id
  have hsame : row.same = PlayRow.isOf row.userId row.id := rfl
  rw [hsame, hplays]
  cases rowAfter row.userId row.id reported <;> rfl

/-- Changing the row of one play leaves every other play's. -/
theorem filter_map_same {plays : List PlayRow} {changed : PlayRow}
    (hchanged : changed.isOf row.userId row.id = true) (user : Int) (id : String) :
    (plays.map fun play => if row.same play then changed else play).filter (PlayRow.isOf user id) =
      if row.isOf user id then (plays.filter (PlayRow.isOf user id)).map fun _ => changed
      else plays.filter (PlayRow.isOf user id) := by
  have hkey : ∀ play : PlayRow, PlayRow.isOf user id (if row.same play then changed else play) =
      play.isOf user id := by
    intro play
    split_ifs with hsame
    · obtain ⟨hu, hi⟩ := isOf_iff.1 hsame
      obtain ⟨hcu, hci⟩ := isOf_iff.1 hchanged
      rw [PlayRow.isOf, PlayRow.isOf, ← hu, ← hi, ← hcu, ← hci]
    · rfl
  rw [List.filter_map]
  have hfun : PlayRow.isOf user id ∘ (fun play => if row.same play then changed else play) =
      PlayRow.isOf user id := funext hkey
  rw [hfun]
  split_ifs with hrow
  · apply List.map_congr_left
    intro play hp
    obtain ⟨hu, hi⟩ := isOf_iff.1 (List.mem_filter.mp hp).2
    obtain ⟨hru, hri⟩ := isOf_iff.1 hrow
    rw [if_pos]
    exact isOf_iff.2 ⟨hru ▸ hu, hri ▸ hi⟩
  · conv_rhs => rw [← List.map_id (plays.filter (PlayRow.isOf user id))]
    apply List.map_congr_left
    intro play hp
    obtain ⟨hu, hi⟩ := isOf_iff.1 (List.mem_filter.mp hp).2
    rw [if_neg]
    · rfl
    · intro hsame
      obtain ⟨hru, hri⟩ := isOf_iff.1 hsame
      exact hrow (isOf_iff.2 ⟨hu.trans hru.symm, hi.trans hri.symm⟩)

theorem plays_upsert (h : Recorded tables reported) (row : PlayRow) (user : Int) (id : String) :
    (tables.upsert row).plays.filter (PlayRow.isOf user id) =
      (rowAfter user id (reported ++ [row])).toList := by
  rw [rowAfter_append, Tables.upsert, find_same h]
  have hplays := h.plays user id
  cases hold : rowAfter row.userId row.id reported with
  | none =>
    change (tables.plays ++ [row]).filter (PlayRow.isOf user id) = _
    rw [List.filter_append, hplays, List.filter_cons, List.filter_nil]
    split_ifs with hrow
    · obtain ⟨rfl, rfl⟩ := isOf_iff.1 hrow
      rw [hold]
      rfl
    · exact List.append_nil _
  | some old =>
    simp only
    have hold' := rowAfter_isOf hold
    have hkey : (old.refresh row).isOf row.userId row.id = true := hold'
    split_ifs with htrack hrow hrow
    · obtain ⟨rfl, rfl⟩ := isOf_iff.1 hrow
      have hmap := @filter_map_same row tables.plays _ hkey row.userId row.id
      rw [if_pos hrow, hplays, hold] at hmap
      rw [Tables.playEnd]
      rw [hold, taken, if_pos htrack]
      split_ifs <;> exact hmap
    · have hmap := @filter_map_same row tables.plays _ hkey user id
      rw [if_neg hrow, hplays] at hmap
      rw [Tables.playEnd]
      split_ifs <;> exact hmap
    · obtain ⟨rfl, rfl⟩ := isOf_iff.1 hrow
      rw [hplays, hold, taken, if_neg htrack]
    · exact hplays

theorem event_isOf (seq : Nat) (row : PlayRow) (kind other : Kind) :
    PlayEvent.isOf user id other ⟨seq, row.id, row.userId, row.libraryId, kind, row.updatedAt⟩ =
      (row.isOf user id && decide (other = kind)) := rfl

theorem events_add (tables : Tables) (row : PlayRow) (kind other : Kind) :
    ((tables.addEvent row kind).events.filter (PlayEvent.isOf user id other)).length =
      (tables.events.filter (PlayEvent.isOf user id other)).length +
        if row.isOf user id && decide (other = kind) then 1 else 0 := by
  rw [Tables.addEvent, List.filter_append, List.length_append, List.filter_cons, event_isOf]
  split_ifs <;> rfl

theorem events_playEnd (tables : Tables) (old row : PlayRow) (kind : Kind) :
    ((tables.playEnd old row).events.filter (PlayEvent.isOf user id kind)).length =
      (tables.events.filter (PlayEvent.isOf user id kind)).length +
        if row.isOf user id && decide (kind = .ended ∧ old.ended = none ∧ row.ended ≠ none) then 1
        else 0 := by
  rw [Tables.playEnd]
  split_ifs with hend hrow hrow
  · rw [events_add]
    simp only [hend, and_true, ne_eq, not_false_eq_true] at hrow
    rw [if_pos hrow]
  · rw [events_add]
    simp only [hend, and_true, ne_eq, not_false_eq_true] at hrow
    rw [if_neg hrow]
  · simp [hend] at hrow
  · rfl

theorem count_or (new old : Option End) :
    (if old.isSome then 1 else 0) + (if old = none ∧ new.or old ≠ none then 1 else 0) =
      if (new.or old).isSome then 1 else 0 := by
  cases new <;> cases old <;> simp

/-- Ends are never swept away. -/
theorem ended_firstReport (tables : Tables) (row : PlayRow) :
    ((tables.firstReport row).events.filter (PlayEvent.isOf user id .ended)).length =
      (tables.events.filter (PlayEvent.isOf user id .ended)).length +
        if row.isOf user id && row.ended.isSome then 1 else 0 := by
  rw [Tables.firstReport]
  simp only [List.filter_filter]
  have hswept : ∀ event ∈ (tables.addEvent row (if row.ended.isNone then .started else .ended)).events,
      (event.isOf user id .ended &&
        decide (¬ (event.kind = .started ∧ event.reportedAt < row.updatedAt - 3600000))) =
        event.isOf user id .ended := by
    intro event _
    cases hevent : event.isOf user id .ended with
    | false => rfl
    | true =>
      have hkind : Kind.ended = event.kind := by
        simp only [PlayEvent.isOf, Bool.and_eq_true, decide_eq_true_eq] at hevent
        exact hevent.2
      simp [← hkind]
  rw [List.filter_congr hswept, events_add]
  cases row.ended <;> simp

theorem started_firstReport (tables : Tables) (row : PlayRow) :
    ((tables.firstReport row).events.filter (PlayEvent.isOf user id .started)).length ≤
      (tables.events.filter (PlayEvent.isOf user id .started)).length +
        if row.isOf user id && row.ended.isNone then 1 else 0 := by
  have hadd := @events_add user id tables row (if row.ended.isNone then .started else .ended) .started
  have hsub := (List.filter_sublist (l := (tables.addEvent row
      (if row.ended.isNone then .started else .ended)).events)
    (p := fun event => decide (¬ (event.kind = .started ∧
      event.reportedAt < row.updatedAt - 3600000)))).filter (PlayEvent.isOf user id .started)
  refine Nat.le_trans hsub.length_le ?_
  rw [hadd]
  cases row.ended <;> simp

theorem mine_nil {rows : List PlayRow} (h : rowAfter user id rows = none) :
    mine user id rows = [] := by
  cases hmine : mine user id rows with
  | nil => rfl
  | cons first rest =>
    rw [rowAfter, hmine, List.foldl_cons] at h
    have hsome : ∀ (rest : List PlayRow) (old : PlayRow), rest.foldl taken (some old) ≠ none := by
      intro rest
      induction rest with
      | nil =>
        intro old hnone
        cases hnone
      | cons next rest ih => exact fun old => ih _
    exact absurd h (hsome rest first)

/-- **A report takes its play's row and events on, and no other's.** -/
theorem recorded_upsert (h : Recorded tables reported) (row : PlayRow) :
    Recorded (tables.upsert row) (reported ++ [row]) := by
  refine ⟨plays_upsert h row, ?_, ?_⟩
  · intro user id
    have hended := h.ended user id
    rw [rowAfter_append, Tables.upsert, find_same h]
    cases hold : rowAfter row.userId row.id reported with
    | none =>
      simp only
      rw [ended_firstReport]
      simp only [hended]
      cases hrow : row.isOf user id with
      | false => simp
      | true =>
        obtain ⟨rfl, rfl⟩ := isOf_iff.1 hrow
        simp [hold, taken]
    | some old =>
      simp only
      by_cases htrack : old.trackId = row.trackId
      · rw [if_pos htrack, events_playEnd]
        simp only [hended]
        have hkey := isOf_iff.1 (rowAfter_isOf hold)
        have hrefresh : (old.refresh row).isOf user id = row.isOf user id := by
          rw [PlayRow.isOf, PlayRow.isOf, hkey.1, hkey.2]
          rfl
        rw [hrefresh]
        cases hrow : row.isOf user id with
        | false => simp
        | true =>
          obtain ⟨rfl, rfl⟩ := isOf_iff.1 hrow
          rw [hold]
          simp only [taken, if_pos htrack, Option.bind_some, if_true, PlayRow.refresh]
          simpa only [Bool.true_and, decide_eq_true_eq, true_and] using count_or row.ended old.ended
      · rw [if_neg htrack, hended]
        cases hrow : row.isOf user id with
        | false => simp
        | true =>
          obtain ⟨rfl, rfl⟩ := isOf_iff.1 hrow
          simp [hold, taken, htrack]
  · intro user id
    have hstarted := h.started user id
    rw [mine_append, Tables.upsert, find_same h]
    cases hold : rowAfter row.userId row.id reported with
    | none =>
      simp only
      refine Nat.le_trans (started_firstReport _ row) ?_
      cases hrow : row.isOf user id with
      | false => simpa using hstarted
      | true =>
        obtain ⟨rfl, rfl⟩ := isOf_iff.1 hrow
        rw [mine_nil hold] at hstarted ⊢
        simp only [List.head?_nil, Option.any_none, Bool.false_eq_true, if_false] at hstarted
        simp only [Nat.le_zero.mp hstarted, if_true, List.nil_append, List.head?_cons,
          Option.any_some, Bool.true_and, Nat.zero_add]
        exact Nat.le_refl _
    | some old =>
      have hhead : ((mine user id reported ++ if row.isOf user id then [row] else []).head?.any
          fun first => first.ended.isNone) =
          (mine user id reported).head?.any fun first => first.ended.isNone := by
        cases hrow : row.isOf user id with
        | false => simp
        | true =>
          obtain ⟨rfl, rfl⟩ := isOf_iff.1 hrow
          cases hmine : mine row.userId row.id reported with
          | nil =>
            rw [rowAfter, hmine] at hold
            cases hold
          | cons first rest => rfl
      rw [hhead]
      by_cases htrack : old.trackId = row.trackId
      · simp only [if_pos htrack]
        rw [events_playEnd]
        simpa using hstarted
      · simp only [if_neg htrack]
        exact hstarted

/-- **So do all that are reported.** -/
theorem recorded_after (requests : List Request) :
    Recorded (after render requests) (rows render requests) := by
  rw [after_eq]
  generalize rows render requests = rows
  induction rows using List.reverseRecOn with
  | nil => exact recorded_empty
  | append_singleton rows row ih =>
    rw [List.foldl_append]
    exact recorded_upsert ih row

/-! ### One play's reports -/

/-- What a play's row is of its reports: the first began it, and those of its track add to it. -/
structure Combined (first : PlayRow) (rest : List PlayRow) (row : PlayRow) : Prop where
  track : row.trackId = first.trackId
  longest : ∀ report ∈ first :: rest, report.trackId = first.trackId →
    report.listenTimeMs ≤ row.listenTimeMs
  listened : ∃ report ∈ first :: rest, report.trackId = first.trackId ∧
    report.listenTimeMs = row.listenTimeMs
  playing : row.ended = none → ∀ report ∈ first :: rest, report.trackId = first.trackId →
    report.ended = none
  ended : ∀ ended, row.ended = some ended → ∃ report ∈ first :: rest,
    report.trackId = first.trackId ∧ report.ended = some ended

variable {first old : PlayRow} {rest : List PlayRow}

theorem combined_first (first : PlayRow) : Combined first [] first := by
  constructor
  · rfl
  · intro report hr _
    obtain rfl := List.mem_singleton.mp hr
    exact Nat.le_refl _
  · exact ⟨first, List.mem_cons_self, rfl, rfl⟩
  · intro hnone report hr _
    rw [List.mem_singleton.mp hr]
    exact hnone
  · intro ended hended
    exact ⟨first, List.mem_cons_self, rfl, hended⟩

/-- A report of another track adds nothing. -/
theorem Combined.other (h : Combined first rest old) (htrack : old.trackId ≠ row.trackId) :
    Combined first (rest ++ [row]) old := by
  have hnot : ∀ report ∈ first :: (rest ++ [row]), report.trackId = first.trackId →
      report ∈ first :: rest := by
    intro report hr ht
    rw [← List.cons_append] at hr
    obtain hr | hr := List.mem_append.mp hr
    · exact hr
    · rw [List.mem_singleton.mp hr] at ht
      exact absurd (h.track.trans ht.symm) htrack
  have hmem : ∀ report ∈ first :: rest, report ∈ first :: (rest ++ [row]) := by
    intro report hr
    rw [← List.cons_append]
    exact List.mem_append_left _ hr
  constructor
  · exact h.track
  · intro report hr ht
    exact h.longest report (hnot report hr ht) ht
  · obtain ⟨report, hr, ht, hl⟩ := h.listened
    exact ⟨report, hmem report hr, ht, hl⟩
  · intro hnone report hr ht
    exact h.playing hnone report (hnot report hr ht) ht
  · intro ended hended
    obtain ⟨report, hr, ht, he⟩ := h.ended ended hended
    exact ⟨report, hmem report hr, ht, he⟩

/-- A report of the play's track adds its listen time and its end. -/
theorem Combined.refresh (h : Combined first rest old) (htrack : old.trackId = row.trackId) :
    Combined first (rest ++ [row]) (old.refresh row) := by
  have hsplit : ∀ report ∈ first :: (rest ++ [row]), report ∈ first :: rest ∨ report = row := by
    intro report hr
    rw [← List.cons_append] at hr
    obtain hr | hr := List.mem_append.mp hr
    · exact .inl hr
    · exact .inr (List.mem_singleton.mp hr)
  have hmem : ∀ report ∈ first :: rest, report ∈ first :: (rest ++ [row]) := by
    intro report hr
    rw [← List.cons_append]
    exact List.mem_append_left _ hr
  have hlast : row ∈ first :: (rest ++ [row]) := by
    rw [← List.cons_append]
    exact List.mem_append_right _ List.mem_cons_self
  have hrow : row.trackId = first.trackId := htrack.symm.trans h.track
  constructor
  · exact h.track
  · intro report hr ht
    obtain hr | rfl := hsplit report hr
    · exact Nat.le_trans (h.longest report hr ht) (Nat.le_max_left _ _)
    · exact Nat.le_max_right _ _
  · obtain hle | hle := Nat.le_total old.listenTimeMs row.listenTimeMs
    · exact ⟨row, hlast, hrow, (Nat.max_eq_right hle).symm⟩
    · obtain ⟨report, hr, ht, hl⟩ := h.listened
      exact ⟨report, hmem report hr, ht, hl.trans (Nat.max_eq_left hle).symm⟩
  · intro hnone report hr ht
    obtain ⟨hnew, hold⟩ := Option.or_eq_none_iff.mp hnone
    obtain hr | rfl := hsplit report hr
    · exact h.playing hold report hr ht
    · exact hnew
  · intro ended hended
    cases hnew : row.ended with
    | some e =>
      have he : (old.refresh row).ended = some e := by rw [PlayRow.refresh, hnew, Option.some_or]
      refine ⟨row, hlast, hrow, ?_⟩
      rw [hnew, ← he, hended]
    | none =>
      have he : (old.refresh row).ended = old.ended := by rw [PlayRow.refresh, hnew, Option.none_or]
      rw [he] at hended
      obtain ⟨report, hr, ht, hre⟩ := h.ended ended hended
      exact ⟨report, hmem report hr, ht, hre⟩

/-- **A play's row is what its reports make of it.** -/
theorem combined_run (first : PlayRow) (rest : List PlayRow) :
    ∃ row, rest.foldl taken (some first) = some row ∧ Combined first rest row := by
  induction rest using List.reverseRecOn with
  | nil => exact ⟨first, rfl, combined_first first⟩
  | append_singleton rest row ih =>
    obtain ⟨old, hold, hcombined⟩ := ih
    rw [List.foldl_append, hold]
    by_cases htrack : old.trackId = row.trackId
    · refine ⟨old.refresh row, ?_, hcombined.refresh htrack⟩
      simp only [List.foldl_cons, List.foldl_nil, taken, if_pos htrack]
    · refine ⟨old, ?_, hcombined.other htrack⟩
      simp only [List.foldl_cons, List.foldl_nil, taken, if_neg htrack]

theorem rowAfter_some {rows : List PlayRow} (h : rowAfter user id rows = some row) :
    ∃ first rest, mine user id rows = first :: rest ∧ Combined first rest row := by
  cases hmine : mine user id rows with
  | nil =>
    rw [rowAfter, hmine] at h
    cases h
  | cons first rest =>
    rw [rowAfter, hmine, List.foldl_cons] at h
    obtain ⟨combined, hrun, hcombined⟩ := combined_run first rest
    have heq : some combined = some row := hrun.symm.trans h
    obtain rfl := Option.some.inj heq
    exact ⟨first, rest, rfl, hcombined⟩

/-- Reports of other plays, and of another track, leave a play's row as it is. -/
theorem rowAfter_others {before rows : List PlayRow} (h : rowAfter user id before = some row)
    (hothers : ∀ other ∈ rows, other.isOf user id = true → other.trackId ≠ row.trackId) :
    rowAfter user id (before ++ rows) = some row := by
  induction rows using List.reverseRecOn with
  | nil => rwa [List.append_nil]
  | append_singleton rows last ih =>
    rw [← List.append_assoc, rowAfter_append,
      ih fun other ho => hothers other (List.mem_append_left _ ho)]
    split_ifs with hlast
    · have hne := hothers last (List.mem_append_right _ List.mem_cons_self) hlast
      rw [taken, if_neg (Ne.symm hne)]
    · rfl

theorem rows_append (requests : List Request) (request : Request) :
    rows render (requests ++ [request]) = rows render requests ++ request.rows render := by
  rw [rows, List.flatMap_append, List.flatMap_singleton]
  rfl

theorem Recorded.play (h : Recorded tables reported)
    (hplay : tables.plays.filter (PlayRow.isOf user id) = [row]) :
    rowAfter user id reported = some row := by
  have hplays := h.plays user id
  rw [hplay] at hplays
  cases hrow : rowAfter user id reported with
  | none =>
    rw [hrow] at hplays
    cases hplays
  | some other =>
    rw [hrow] at hplays
    rw [List.singleton_inj.mp hplays]

/-- **Plays are recorded once, whatever order their reports come in.** The first report of a play
names its track, and those of that track add to it: the longest listen time, and the end, which adds
one event. Reports of another track or of another user change nothing of it, and any order of the
same reports of one track gives the same. -/
theorem plays_once (render : Json → String) (requests : List Request) (user : Int) (id : String)
    (hends : ∀ a ∈ mine user id (rows render requests), ∀ b ∈ mine user id (rows render requests),
      a.trackId = b.trackId → ∀ e e', a.ended = some e → b.ended = some e' → e = e') :
    (mine user id (rows render requests) = [] →
      (after render requests).plays.filter (PlayRow.isOf user id) = [] ∧
      (after render requests).events.filter (PlayEvent.isOf user id .ended) = [] ∧
      (after render requests).events.filter (PlayEvent.isOf user id .started) = []) ∧
    (∀ first rest, mine user id (rows render requests) = first :: rest →
      ∃ row, (after render requests).plays.filter (PlayRow.isOf user id) = [row] ∧
        row.trackId = first.trackId ∧
        (∀ report ∈ first :: rest, report.trackId = first.trackId →
          report.listenTimeMs ≤ row.listenTimeMs) ∧
        (∃ report ∈ first :: rest, report.trackId = first.trackId ∧
          report.listenTimeMs = row.listenTimeMs) ∧
        (∀ ended, row.ended = some ended ↔ ∃ report ∈ first :: rest,
          report.trackId = first.trackId ∧ report.ended = some ended) ∧
        ((after render requests).events.filter (PlayEvent.isOf user id .ended)).length =
          (if row.ended.isSome then 1 else 0) ∧
        ((after render requests).events.filter (PlayEvent.isOf user id .started)).length ≤
          (if first.ended.isNone then 1 else 0)) ∧
    (∀ row request, (after render requests).plays.filter (PlayRow.isOf user id) = [row] →
      (∀ report ∈ request.rows render, report.isOf user id = true → report.trackId ≠ row.trackId) →
        (after render (requests ++ [request])).plays.filter (PlayRow.isOf user id) = [row]) ∧
    ∀ others row row', (mine user id (rows render others)).Perm (mine user id (rows render requests)) →
      (∀ a ∈ mine user id (rows render requests), ∀ b ∈ mine user id (rows render requests),
        a.trackId = b.trackId) →
      (after render requests).plays.filter (PlayRow.isOf user id) = [row] →
      (after render others).plays.filter (PlayRow.isOf user id) = [row'] →
        row'.listenTimeMs = row.listenTimeMs ∧ row'.ended = row.ended := by
  have hrecorded := @recorded_after render requests
  refine ⟨?_, ?_, ?_, ?_⟩
  · intro hnone
    have hplays := hrecorded.plays user id
    have hended := hrecorded.ended user id
    have hstarted := hrecorded.started user id
    rw [rowAfter, hnone] at hplays hended
    rw [hnone] at hstarted
    exact ⟨hplays, List.length_eq_zero_iff.mp hended,
      List.length_eq_zero_iff.mp (Nat.le_zero.mp hstarted)⟩
  · intro first rest hmine
    obtain ⟨row, hrun, hcombined⟩ := combined_run first rest
    have hrow : rowAfter user id (rows render requests) = some row := by
      rw [rowAfter, hmine]
      exact hrun
    have hplays := hrecorded.plays user id
    have hended := hrecorded.ended user id
    have hstarted := hrecorded.started user id
    rw [hrow] at hplays hended
    rw [hmine] at hstarted hends
    refine ⟨row, hplays, hcombined.track, hcombined.longest, hcombined.listened, ?_, hended, hstarted⟩
    intro ended
    constructor
    · exact hcombined.ended ended
    · intro hreport
      obtain ⟨report, hr, ht, he⟩ := hreport
      cases hend : row.ended with
      | none =>
        rw [hcombined.playing hend report hr ht] at he
        cases he
      | some other =>
        obtain ⟨source, hs, hst, hse⟩ := hcombined.ended other hend
        rw [hends source hs report hr (hst.trans ht.symm) other ended hse he]
  · intro row request hplay hothers
    have hrow := rowAfter_others (hrecorded.play hplay) hothers
    rw [(recorded_after (requests ++ [request])).plays user id, rows_append, hrow]
    rfl
  · intro others row row' hperm htracks hplay hplay'
    obtain ⟨first, rest, hmine, hcombined⟩ := rowAfter_some (hrecorded.play hplay)
    obtain ⟨first', rest', hmine', hcombined'⟩ :=
      rowAfter_some ((recorded_after others).play hplay')
    rw [hmine] at hperm htracks hends
    rw [hmine'] at hperm
    have hmem : ∀ report, report ∈ first' :: rest' ↔ report ∈ first :: rest := fun report =>
      hperm.mem_iff
    have htrack : ∀ report ∈ first :: rest, report.trackId = first.trackId := fun report hr =>
      htracks report hr first List.mem_cons_self
    have hfirst : first'.trackId = first.trackId :=
      htrack first' ((hmem first').mp List.mem_cons_self)
    constructor
    · obtain ⟨report, hr, -, hl⟩ := hcombined.listened
      obtain ⟨report', hr', -, hl'⟩ := hcombined'.listened
      apply Nat.le_antisymm
      · rw [← hl']
        have hin := (hmem report').mp hr'
        exact hcombined.longest report' hin (htrack report' hin)
      · rw [← hl]
        exact hcombined'.longest report ((hmem report).mpr hr) ((htrack report hr).trans hfirst.symm)
    · cases hend : row.ended with
      | none =>
        cases hend' : row'.ended with
        | none => rfl
        | some ended =>
          obtain ⟨report, hr, -, he⟩ := hcombined'.ended ended hend'
          have hin := (hmem report).mp hr
          rw [hcombined.playing hend report hin (htrack report hin)] at he
          cases he
      | some ended =>
        obtain ⟨report, hr, -, he⟩ := hcombined.ended ended hend
        cases hend' : row'.ended with
        | none =>
          have hnone := hcombined'.playing hend' report ((hmem report).mpr hr)
            ((htrack report hr).trans hfirst.symm)
          rw [hnone] at he
          cases he
        | some ended' =>
          obtain ⟨report', hr', -, he'⟩ := hcombined'.ended ended' hend'
          have hin := (hmem report').mp hr'
          rw [hends report' hin report hr (htracks report' hin report hr) ended' ended he' he]

def aTrack : Track := ⟨7, 1, ⟨"Song", "[]", "[]", none, "", "", "[]", none, 200000000⟩⟩

def aReport (listenTimeMs : Nat) (ended : Option End) : PlayReport :=
  ⟨"p", some 1, some (some 7), false, 5, listenTimeMs, ended,
    .object [("type", .string "album")], .manual, none⟩

/-- The end of a play arrives before an earlier report. -/
def aPlay : List Request :=
  [⟨⟨1, 2, false⟩, [aReport 9000 (some .finished)], 100, ⟨[aTrack], [(1, 1)]⟩⟩,
    ⟨⟨1, 2, false⟩, [aReport 0 none, aReport 4000 none], 200, ⟨[aTrack], [(1, 1)]⟩⟩]

theorem plays_once_late :
    ((after (fun _ => "{}") aPlay).plays.map fun row => (row.listenTimeMs, row.ended)) =
      [(9000, some .finished)] ∧
    ((after (fun _ => "{}") aPlay).events.filter (PlayEvent.isOf 1 "p" .ended)).length = 1 := by
  have hfinished : ∀ a ∈ mine 1 "p" (rows (fun _ => "{}") aPlay),
      a.ended = none ∨ a.ended = some .finished := by decide
  have hends : ∀ a ∈ mine 1 "p" (rows (fun _ => "{}") aPlay),
      ∀ e, a.ended = some e → e = .finished := by
    intro a ha e he
    obtain hnone | hsome := hfinished a ha
    · rw [hnone] at he
      cases he
    · rw [hsome] at he
      exact (Option.some.inj he).symm
  have honce := plays_once (fun _ => "{}") aPlay 1 "p" (by
    intro a ha b hb _ e e' he he'
    rw [hends a ha e he, hends b hb e' he'])
  obtain ⟨row, -, -, -, -, hend, hended, -⟩ := honce.2.1 _ _ rfl
  refine ⟨by decide, ?_⟩
  rw [hended, (hend .finished).mpr ⟨_, List.mem_cons_self, rfl, rfl⟩]
  rfl

end JewelCase.Plays
