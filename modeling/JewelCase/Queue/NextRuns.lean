import JewelCase.Queue.EditResults

/-!
# Next, repeated

A jump is as many steps of Next as it passes rows: runs of plays, their numbers, the trim and
clean-up come out the same, in bulk or one at a time.
-/
namespace JewelCase.Queue

set_option autoImplicit false

open Library (Stretch)
open Library.Lists
open Library.Runs

namespace QueueState

variable {q : QueueState}

/-- Clean-up once, then again over fewer references, is clean-up over those. -/
theorem cleanUp_absorb {x z : QueueState} (hs : z.sources = x.sources) (hc : z.copies = x.copies)
    (hused : ∀ key ∈ z.usedKeys, key ∈ x.usedKeys) :
    cleanUp { z with sources := x.cleanUp.sources, copies := x.cleanUp.copies } = z.cleanUp := by
  have hcopies : x.cleanUp.copies.filter (·.key ∈ z.usedKeys) =
      z.copies.filter (·.key ∈ z.usedKeys) := by
    rw [hc]
    simp only [cleanUp, List.filter_filter]
    refine List.filter_congr fun c _ => ?_
    by_cases hk : c.key ∈ z.usedKeys
    · simp [hk, hused _ hk]
    · simp [hk]
  have hsources : ∀ copies : List QueueCopy, (∀ c ∈ copies, c ∈ x.cleanUp.copies) →
      x.cleanUp.sources.filter
          (·.key ∈ copies.foldl (fun used copy => addKeys copy.of used) z.usedKeys) =
        z.sources.filter
          (·.key ∈ copies.foldl (fun used copy => addKeys copy.of used) z.usedKeys) := by
    intro copies hsub
    rw [hs]
    simp only [cleanUp, List.filter_filter]
    refine List.filter_congr fun s _ => ?_
    by_cases hk : s.key ∈ copies.foldl (fun used copy => addKeys copy.of used) z.usedKeys
    · have hx : s.key ∈ x.cleanUp.copies.foldl (fun used copy => addKeys copy.of used)
          x.usedKeys := by
        rw [mem_foldl_addKeys] at hk ⊢
        rcases hk with hk | ⟨c, hcm, hp⟩
        · exact Or.inl (hused _ hk)
        · exact Or.inr ⟨c, hsub c hcm, hp⟩
      rw [cleanUp] at hx
      simp only [hk, hx, decide_true, Bool.and_self]
    · simp only [hk, decide_false, Bool.false_and]
  have hsub : ∀ c ∈ z.copies.filter (·.key ∈ z.usedKeys), c ∈ x.cleanUp.copies := by
    intro c hm
    rw [← hcopies] at hm
    exact (List.mem_filter.mp hm).1
  have hsrc := hsources _ hsub
  change { z with
      copies := x.cleanUp.copies.filter fun c : QueueCopy => c.key ∈ z.usedKeys
      sources := x.cleanUp.sources.filter fun s : Source =>
        s.key ∈ (x.cleanUp.copies.filter fun c : QueueCopy => c.key ∈ z.usedKeys).foldl
          (fun used (copy : QueueCopy) => addKeys copy.of used) z.usedKeys } =
    { z with
      copies := z.copies.filter fun c : QueueCopy => c.key ∈ z.usedKeys
      sources := z.sources.filter fun s : Source =>
        s.key ∈ (z.copies.filter fun c : QueueCopy => c.key ∈ z.usedKeys).foldl
          (fun used (copy : QueueCopy) => addKeys copy.of used) z.usedKeys }
  rw [hcopies, hsrc]

/-- The state with `all` as its runs, but for those the trim drops, and play number `n` to
come. -/
def withRuns (q : QueueState) (all : List Run) (n : Nat) : QueueState :=
  { q with history := lastN historyRuns all, nextPlay := n }

/-- Recording, where it leaves a valid queue, is keeping the newest runs and cleaning up. -/
theorem recordAndClean_eq (hq : Stretch.Canonical q.history) (hok : ∀ s ∈ q.shuffle, s.Ok)
    {spans : List Span} (hread : Defined (rowItem q.shuffle) (rowsOf spans))
    (hpos : ∀ s ∈ spans, 0 < s.len) (hv : (q.recordAndClean spans).Valid) {all : List Run}
    (hall : Stretch.Canonical all)
    (hflat : Stretch.flat all =
      q.plays ++ numbered q.nextPlay (listRows q.shuffle (rowsOf spans))) :
    q.recordAndClean spans = (q.withRuns all (q.nextPlay + (rowsOf spans).length)).cleanUp := by
  have hrec := recordPlays_eq hq hok hread hpos hall hflat
  unfold recordAndClean at hv ⊢
  rw [hrec] at hv ⊢
  by_cases ht : historyRuns < all.length
  · simp only [ht, decide_true, if_true]
    rfl
  · simp only [ht, decide_false, Bool.false_eq_true, if_false] at hv ⊢
    exact (hv.tidy.cleanUp_eq hv.runs_pos).symm

/-- The items that playing on to Up Next index `n` makes plays of. -/
def passedItems (q : QueueState) (n : Nat) : List ItemId :=
  q.current.toList ++ q.lists.upNext.take n

theorem Readable.passedItems_rows (h : q.Readable) (n : Nat) :
    Defined (rowItem q.shuffle) (q.currentRows ++ q.upNextRows.take n) ∧
      listRows q.shuffle (q.currentRows ++ q.upNextRows.take n) =
        (q.passedItems n).map ItemId.row := by
  have hcur : itemsOf q.shuffle q.currentRows = q.current.toList := by
    rw [currentRows]
    cases q.current with
    | none => rfl
    | some item => rfl
  have hcurd : Defined (rowItem q.shuffle) q.currentRows := by
    rw [currentRows]
    cases q.current with
    | none =>
      intro r hr
      cases hr
    | some item =>
      intro r hr
      obtain rfl : r = item.row := by simpa using hr
      rfl
  have hup := h.upNextRows_defined
  refine ⟨hcurd.append (hup.sub fun _ hr => List.mem_of_mem_take hr), ?_⟩
  rw [listRows, itemsOf_append, hcur, itemsOf_take hup, upNextRows_items, passedItems]

/-- **Next `n` times, in one step**: play on to index `n - 1` of Up Next and record everything
passed. -/
def nextTimes (q : QueueState) (n : Nat) (all : List Run) : QueueState :=
  ((q.playOn n).withRuns all (q.nextPlay + (q.passedItems (n - 1)).length)).cleanUp

/-- What the runs of `nextTimes` are. -/
structure Passes (q : QueueState) (n : Nat) (all : List Run) : Prop where
  canonical : Stretch.Canonical all
  flat : Stretch.flat all =
    q.plays ++ numbered q.nextPlay ((q.passedItems (n - 1)).map ItemId.row)

theorem Valid.recorded_eq (h : q.Valid) {n : Nat} {all : List Run} (ha : Passes q n all)
    {spans : List Span} (hrows : rowsOf spans = q.currentRows ++ q.upNextRows.take (n - 1))
    (hpos : ∀ s ∈ spans, 0 < s.len) (hv : ((q.playOn n).recordAndClean spans).Valid) :
    (q.playOn n).recordAndClean spans = q.nextTimes n all := by
  obtain ⟨hdef, hlist⟩ := h.placed.passedItems_rows (n - 1)
  have hread : Defined (rowItem (q.playOn n).shuffle) (rowsOf spans) := hrows ▸ hdef
  have hflat : Stretch.flat all = (q.playOn n).plays ++
      Queue.numbered (q.playOn n).nextPlay (listRows (q.playOn n).shuffle (rowsOf spans)) := by
    rw [ha.flat, hrows]
    exact congrArg (fun rows => q.plays ++ Queue.numbered q.nextPlay rows) hlist.symm
  rw [recordAndClean_eq (q := q.playOn n) h.numbered.canonical h.placed.shuffle_ok hread hpos hv
    ha.canonical hflat, nextTimes]
  have hlen : (rowsOf spans).length = (q.passedItems (n - 1)).length := by
    rw [hrows, ← length_listRows hdef, hlist, List.length_map]
  rw [hlen]
  rfl

theorem Valid.jump_eq (h : q.Valid) {item : ItemId} {i : Nat} (hi : q.findItem item = some i)
    {all : List Run} (ha : Passes q (i + 1) all) : q.jump item = q.nextTimes (i + 1) all := by
  obtain ⟨spans, hrows, hpos, he⟩ := h.placed.jump_eq hi
  rw [he]
  refine h.recorded_eq ha hrows hpos ?_
  rw [← he]
  exact (h.jump item).valid

theorem restart_of_upNext (h : q.Readable) (hne : q.lists.upNext ≠ []) : q.restart = q := by
  unfold restart
  rw [if_neg]
  rintro ⟨hm, hc, -⟩
  have hman : q.lists.manual = [] := by
    rw [h.manual_items, (SpanList.isEmpty_iff _).mp hm]
    rfl
  have hahead : q.lists.ahead = [] := by
    apply List.eq_nil_of_length_eq_zero
    rw [h.length_ahead]
    omega
  exact hne (by rw [Lists.upNext, hman, hahead]; rfl)

theorem Valid.next_eq (h : q.Valid) (hne : q.lists.upNext ≠ []) {all : List Run}
    (ha : Passes q 1 all) : q.next = q.nextTimes 1 all := by
  have he : q.next = (q.playOn 1).recordAndClean (q.current.map playSpan).toList := by
    rw [QueueState.next, restart_of_upNext h.placed.toReadable hne,
      h.placed.advance_eq, if_neg hne]
  rw [he]
  refine h.recorded_eq ha ?_ (current_pos q) ?_
  · rw [rowsOf_current]
    simp
  · rw [← he]
    exact h.next.valid

/-! ### One more step -/

theorem flat_extend_play {all : List Run} {n : Nat} {item : ItemId} :
    Stretch.flat (Stretch.extendLast Run.join all ⟨n, playSpan item⟩) =
      Stretch.flat all ++ [(n, item.row)] := by
  rw [Stretch.flat_extendLast Run.joins, Run.rows_eq, rows_playSpan]
  rfl

theorem playOn_playOn (h : q.Readable) (n : Nat) : (q.playOn n).playOn 1 = q.playOn (n + 1) := by
  have hman : ((q.playOn n).manual.remove 0 1).2 = (q.manual.remove 0 (n + 1)).2 := by
    apply SpanList.ext_rows
    simp only [playOn, rows_remove_front, List.drop_drop]
  have hcur : (q.playOn n).lists.upNext[1 - 1]? = q.lists.upNext[n + 1 - 1]? := by
    rw [upNext_playOn h, List.getElem?_drop, Nat.add_sub_cancel, Nat.sub_self, Nat.add_zero]
  have hcursor : (q.playOn n).cursor + (1 - (q.playOn n).manual.len) =
      q.cursor + (n + 1 - q.manual.len) := by
    simp only [playOn, SpanList.len_eq, rows_remove_front, List.length_drop]
    omega
  rw [playOn, hman, hcur, hcursor]
  rfl

/-- The runs after one more play. -/
def onePlayMore (q : QueueState) (n : Nat) (all : List Run) (item : ItemId) : List Run :=
  Stretch.extendLast Run.join all ⟨q.nextPlay + (q.passedItems (n - 1)).length, playSpan item⟩

theorem passedItems_succ {n : Nat} (hn : 0 < n) {item : ItemId}
    (hi : q.lists.upNext[n - 1]? = some item) :
    q.passedItems n = q.passedItems (n - 1) ++ [item] := by
  have htake : q.lists.upNext.take n = q.lists.upNext.take (n - 1) ++ [item] := by
    conv_lhs => rw [show n = n - 1 + 1 by omega]
    rw [List.take_add_one, hi, Option.toList_some]
  rw [passedItems, passedItems, htake, List.append_assoc]

theorem Passes.succ {n : Nat} (hn : 0 < n) {all : List Run} (ha : Passes q n all)
    {item : ItemId} (hi : q.lists.upNext[n - 1]? = some item) :
    Passes q (n + 1) (q.onePlayMore n all item) := by
  refine ⟨ha.canonical.extendLast Run.joins (Nat.one_pos), ?_⟩
  rw [onePlayMore, flat_extend_play, ha.flat, Nat.add_sub_cancel, passedItems_succ hn hi,
    List.map_append, numbered_append, List.append_assoc, List.length_map]
  rfl

theorem mem_flat_lastN {n : Nat} {all : List Run} {x : Nat × Row}
    (hx : x ∈ Stretch.flat (lastN n all)) : x ∈ Stretch.flat all := by
  obtain ⟨run, hrun, hxr⟩ := List.mem_flatMap.mp hx
  exact List.mem_flatMap.mpr ⟨run, (lastN_suffix n all).subset hrun, hxr⟩

/-- One more step of Next after `n` of them. -/
theorem Valid.nextTimes_succ (h : q.Valid) {n : Nat} (hn : 0 < n)
    (hlt : n < q.lists.upNext.length) {all : List Run} (ha : Passes q n all)
    (hv : (q.nextTimes n all).Valid) {item : ItemId} (hi : q.lists.upNext[n - 1]? = some item) :
    (q.nextTimes n all).next = q.nextTimes (n + 1) (q.onePlayMore n all item) := by
  have hr := h.placed.toReadable
  let N := q.nextPlay + (q.passedItems (n - 1)).length
  -- the state after `n` steps, before clean-up, and the one after one more
  let x := (q.playOn n).withRuns all N
  let z := (q.playOn (n + 1)).withRuns (q.onePlayMore n all item) (N + 1)
  let allS := Stretch.extendLast Run.join (lastN historyRuns all) ⟨N, playSpan item⟩
  have hrunsEq : lastN historyRuns allS = lastN historyRuns (q.onePlayMore n all item) :=
    Stretch.lastN_extendLast historyRuns_pos all _
  have hup : (q.nextTimes n all).lists.upNext = q.lists.upNext.drop n := upNext_playOn hr n
  have hcur : (q.nextTimes n all).current = some item := hi
  have hne : (q.nextTimes n all).lists.upNext ≠ [] := by
    rw [hup]
    intro he
    have := List.drop_eq_nil_iff.mp he
    omega
  have hpasses : Passes (q.nextTimes n all) 1 allS := by
    refine ⟨hv.numbered.canonical.extendLast Run.joins Nat.one_pos, ?_⟩
    rw [flat_extend_play]
    simp only [passedItems, hcur]
    rfl
  have hstep : (q.nextTimes n all).next = (((q.nextTimes n all).playOn 1).withRuns allS
      (N + 1)).cleanUp := by
    rw [hv.next_eq hne hpasses, nextTimes]
    simp only [passedItems, hcur]
    rfl
  have hfields : ((q.nextTimes n all).playOn 1).withRuns allS (N + 1) =
      { z with sources := x.cleanUp.sources, copies := x.cleanUp.copies } := by
    have hp : (q.nextTimes n all).playOn 1 = { (q.playOn n).playOn 1 with
        sources := x.cleanUp.sources
        copies := x.cleanUp.copies
        history := lastN historyRuns all
        nextPlay := N } := rfl
    rw [hp, playOn_playOn hr]
    simp only [withRuns, z, hrunsEq]
  have hzpos : ∀ run ∈ z.history, 0 < run.span.len := by
    intro run hrun
    have hc := (ha.succ hn hi).canonical
    exact hc.1 run ((lastN_suffix _ _).subset hrun)
  have hxpos : ∀ run ∈ x.history, 0 < run.span.len := hv.runs_pos
  -- what the later state refers to, the earlier one does
  have hrefers : ∀ key, z.Refers key → x.Refers key := by
    rintro key ⟨p, hp⟩
    refine ⟨p, ?_⟩
    have hxm : x.mentioned = (q.nextTimes n all).mentioned := rfl
    rcases mem_mentioned.1 hp with ⟨it, hit, he⟩ | hm | hm | hm | hm
    · rw [hxm, he]
      refine hv.placed.upNext_mentioned ?_
      rw [hup]
      have hget : q.lists.upNext[n + 1 - 1]? = some it := hit
      rw [Nat.add_sub_cancel] at hget
      exact List.mem_of_getElem? (i := 0) (by rw [List.getElem?_drop]; exact hget)
    · refine mem_mentioned.2 (Or.inr (Or.inl ?_))
      have hz : z.manual.rows = x.manual.rows.drop 1 := by
        simp only [z, x, withRuns, QueueState.playOn, rows_remove_front, List.drop_drop]
      rw [hz] at hm
      exact List.mem_of_mem_drop hm
    · exact mem_mentioned.2 (Or.inr (Or.inr (Or.inl hm)))
    · exact mem_mentioned.2 (Or.inr (Or.inr (Or.inr (Or.inl hm))))
    · obtain ⟨y, hy, he⟩ := List.mem_map.mp hm
      have hy' : y ∈ Stretch.flat (lastN historyRuns allS) := hrunsEq ▸ hy
      have hy'' := mem_flat_lastN hy'
      rw [flat_extend_play] at hy''
      rcases List.mem_append.mp hy'' with hy'' | hy''
      · refine mem_mentioned.2 (Or.inr (Or.inr (Or.inr (Or.inr ?_))))
        exact List.mem_map.mpr ⟨y, hy'', he⟩
      · obtain rfl : y = (N, item.row) := by simpa using hy''
        exact mem_mentioned.2 (Or.inl ⟨item, hi, he.symm⟩)
  rw [hstep, hfields]
  have habs := cleanUp_absorb (x := x) (z := z) rfl rfl fun key hk =>
    (mem_usedKeys hxpos).mpr (hrefers key ((mem_usedKeys hzpos).mp hk))
  rw [habs, nextTimes, passedItems_succ (n := n + 1 - 1) (by omega) (by simpa using hi)]
  simp only [z, N, Nat.add_sub_cancel, List.length_append, List.length_singleton, Nat.add_assoc]

theorem exists_passes (q : QueueState) (n : Nat) : ∃ all, Passes q n all := by
  obtain ⟨all, hc, hf⟩ := exists_history
    (q.plays ++ numbered q.nextPlay ((q.passedItems (n - 1)).map ItemId.row))
  exact ⟨all, hc, hf⟩

theorem Passes.unique {n : Nat} {all all' : List Run} (h : Passes q n all)
    (h' : Passes q n all') : all = all' :=
  Stretch.canonical_ext h.canonical h'.canonical (h.flat.trans h'.flat.symm)

/-- Next, as often as Up Next is long. -/
theorem Valid.next_iterate (h : q.Valid) {n : Nat} (hn : 0 < n)
    (hle : n ≤ q.lists.upNext.length) :
    (QueueState.next^[n] q).Valid ∧ ∀ all, Passes q n all → QueueState.next^[n] q = q.nextTimes n all := by
  induction n with
  | zero => omega
  | succ n ih =>
    rw [Function.iterate_succ_apply']
    by_cases hn0 : n = 0
    · subst hn0
      have hne : q.lists.upNext ≠ [] := by
        rintro he
        rw [he] at hle
        simp at hle
      exact ⟨h.next.valid, fun all ha => h.next_eq hne ha⟩
    · obtain ⟨hv, heq⟩ := ih (by omega) (by omega)
      refine ⟨hv.next.valid, fun all ha => ?_⟩
      obtain ⟨item, hi⟩ := upNext_get (q := q) (n := n) (by omega) (by omega)
      obtain ⟨all', ha'⟩ := q.exists_passes n
      rw [heq all' ha'] at hv ⊢
      rw [h.nextTimes_succ (by omega) (by omega) ha' hv hi, (ha'.succ (by omega) hi).unique ha]

/-- **A jump is Next repeated**, in every queue: to the item at index `i` of Up Next, `i + 1`
times, with the same state in every field. -/
theorem jump_eq_next (calls : List Call) (item : ItemId) (i : Nat)
    (hi : (run calls).findItem item = some i) :
    (run calls).apply (.jump item) = (.ok (), QueueState.next^[i + 1] (run calls)) ∧
      ∀ q : QueueState, q.apply .next = (.ok (), q.next) := by
  have hv : (run calls).Valid := run_valid calls
  have hlt : i < (run calls).lists.upNext.length :=
    (List.getElem?_eq_some_iff.mp (hv.placed.findItem_iff.mp hi)).1
  obtain ⟨all, ha⟩ := (run calls).exists_passes (i + 1)
  have hnext := (hv.next_iterate (n := i + 1) (by omega) (by omega)).2 all ha
  refine ⟨?_, fun _ => rfl⟩
  rw [apply, hv.jump_eq hi ha, hnext]

theorem jump_eq_next_twice :
    let q := run [.start ⟨"a", "", none, 4, none⟩ 0]
    q.findItem ⟨"a", 2⟩ = some 1 ∧ q.apply (.jump ⟨"a", 2⟩) = (.ok (), QueueState.next^[2] q) := by
  have hi : (run [.start ⟨"a", "", none, 4, none⟩ 0]).findItem ⟨"a", 2⟩ = some 1 := by
    decide +kernel
  exact ⟨hi, (jump_eq_next [.start ⟨"a", "", none, 4, none⟩ 0] ⟨"a", 2⟩ 1 hi).1⟩

end QueueState

end JewelCase.Queue
