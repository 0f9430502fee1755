import JewelCase.Queue.RewindReads
import JewelCase.Queue.Invariants

/-!
# Reading Up Next and finding in it

Every item the queue refers to reads a row of a source. So each row of Up Next is there, and finding
an item, one at a time or in one sweep, is the inverse of reading a row.
-/
namespace JewelCase.Queue

set_option autoImplicit false

open Library.Lists

namespace QueueState

variable {q : QueueState}

theorem Grounded.source_eq (h : q.Grounded) {s : Source} (hs : s ∈ q.sources) :
    q.source s.key = some s := by
  have hn := (List.nodup_append.mp h.keys_nodup).1
  have hf : (q.sources.find? (·.key = s.key)).isSome := by
    rw [List.find?_isSome]
    exact ⟨s, hs, by simp⟩
  obtain ⟨other, hother⟩ := Option.isSome_iff_exists.mp hf
  have hmem := List.mem_of_find?_eq_some hother
  have hkey : other.key = s.key := by simpa using List.find?_some hother
  rw [source, hother, List.inj_on_of_nodup_map hn hmem hs hkey]

theorem Grounded.readRow_isSome (h : q.Grounded) {row : Row} (hrow : q.NamesSource row) :
    (q.readRow row).isSome := by
  obtain ⟨view, pos⟩ := row
  obtain ⟨s, hs, hview, hpos⟩ := hrow
  simp only at hview hpos
  subst hview
  rw [readRow, h.source_eq hs, Option.bind_some, if_neg (by omega)]
  rfl

/-- The row of an item is its own. -/
theorem rowOf_item {key : String} {pos : Nat} {row : ReadRow} (h : q.rowOf key pos = some row) :
    row.item = ⟨key, pos⟩ := by
  unfold rowOf at h
  dsimp only at h
  split at h
  · split at h
    · cases h
    · obtain rfl := Option.some.inj h
      rfl
  · split at h
    · cases h
    · split at h
      · obtain ⟨s, -, hread⟩ := Option.bind_eq_some_iff.mp h
        split at hread
        · cases hread
        · obtain rfl := Option.some.inj hread
          rfl
      · cases h

/-- An item that the queue refers to has a row. -/
theorem Grounded.rowOf_mentioned (h : q.Grounded) {item : ItemId} (hitem : item.row ∈ q.mentioned) :
    ∃ row, q.rowOf item.key item.pos = some row ∧ row.item = item := by
  have hnames : ∀ pos, item.pos ≤ pos → pos < item.pos + 1 → q.Names item.key pos := by
    intro pos hlo hhi
    obtain rfl : pos = item.pos := by omega
    exact h.named item.key item.pos hitem
  obtain ⟨hsource, hlength⟩ := h.sourceRange hnames
  have hread : (q.readItem item).isSome := by
    rw [h.readItem_eq item, sourceSpans]
    cases hrows : rowsOf (q.sourceRange item.key item.pos 1) with
    | nil =>
      rw [hrows] at hlength
      cases hlength
    | cons row rest =>
      rw [List.head?_cons, Option.bind_some]
      refine h.readRow_isSome (hsource row ?_)
      rw [hrows]
      exact List.mem_cons_self
  rw [readItem, Option.isSome_map] at hread
  obtain ⟨row, hrow⟩ := Option.isSome_iff_exists.mp hread
  exact ⟨row, hrow, rowOf_item hrow⟩

theorem Valid.upNextRow_iff (h : q.Valid) {i : Nat} {item : ItemId} :
    (∃ row, q.upNextRow i = some row ∧ row.item = item) ↔ q.lists.upNext[i]? = some item := by
  have hr := h.placed.toReadable
  rw [upNextRow_eq, hr.upNextItem_eq]
  constructor
  · rintro ⟨row, hrow, rfl⟩
    obtain ⟨found, hfound, hread⟩ := Option.bind_eq_some_iff.mp hrow
    rw [hfound, rowOf_item hread]
  · intro hitem
    rw [hitem, Option.bind_some]
    exact h.grounded.rowOf_mentioned (hr.upNext_mentioned (List.mem_of_getElem? hitem))

theorem sorted_ext {as bs : List Nat} (ha : as.Pairwise (· < ·)) (hb : bs.Pairwise (· < ·))
    (h : ∀ n, n ∈ as ↔ n ∈ bs) : as = bs := by
  refine List.Perm.eq_of_pairwise ?_ ha hb ?_
  · intro a b _ _ hab hba
    omega
  · rw [List.perm_ext_iff_of_nodup (ha.imp fun hlt => Nat.ne_of_lt hlt)
      (hb.imp fun hlt => Nat.ne_of_lt hlt)]
    exact h

/-- The sweep finds what finding each item does. -/
theorem Placed.resolve_eq (h : q.Placed) (items : List ItemId) :
    q.resolve items = dedup (sortRows (items.filterMap q.findItem)) := by
  refine sorted_ext (q.resolve_pairwise items) (dedup_pairwise_lt (sortRows_pairwise _)) ?_
  intro i
  rw [h.mem_resolve, mem_dedup, mem_sortRows, List.mem_filterMap]
  simp only [h.findItem_iff]

/-- In every queue there is, each index of Up Next has a row, and its item is found there. What is
found is read there. One sweep finds the indices that finding the items one by one does, ascending
and each once. -/
theorem find_reads (calls : List Call) :
    (∀ i < (run calls).upNextLen, ∃ row, (run calls).upNextRow i = some row ∧
      (run calls).findItem row.item = some i) ∧
    (∀ item i, (run calls).findItem item = some i → i < (run calls).upNextLen ∧
      ∃ row, (run calls).upNextRow i = some row ∧ row.item = item) ∧
    (∀ items, (run calls).resolve items =
        dedup (sortRows (items.filterMap (run calls).findItem)) ∧
      ((run calls).resolve items).Pairwise (· < ·) ∧
      ∀ i, i ∈ (run calls).resolve items ↔ ∃ item ∈ items, (run calls).findItem item = some i) := by
  have hvalid := run_valid calls
  have hplaced := hvalid.placed
  refine ⟨?_, ?_, ?_⟩
  · intro i hi
    rw [← hplaced.toReadable.length_upNext] at hi
    obtain ⟨row, hrow, hitem⟩ := hvalid.upNextRow_iff.mpr (List.getElem?_eq_getElem hi)
    refine ⟨row, hrow, ?_⟩
    rw [hplaced.findItem_iff, hitem]
    exact List.getElem?_eq_getElem hi
  · intro item i hfind
    have hitem := hplaced.findItem_iff.mp hfind
    rw [← hplaced.toReadable.length_upNext]
    exact ⟨(List.getElem?_eq_some_iff.mp hitem).1, hvalid.upNextRow_iff.mpr hitem⟩
  · intro items
    refine ⟨hplaced.resolve_eq items, (run calls).resolve_pairwise items, ?_⟩
    intro i
    simp only [hplaced.mem_resolve, hplaced.findItem_iff]

end QueueState

end JewelCase.Queue

/-!
## What Previous leaves

Behind the item that was playing, Up Next is as it was, whatever moved: the cursor, or the item's
second place at the front of the Manual Queue.
-/
namespace JewelCase.Queue

set_option autoImplicit false

open Library.Lists

namespace QueueState

variable {q : QueueState}

/-- The items of Up Next, row by row. -/
def upNextItems (q : QueueState) : List ItemId :=
  (List.range q.upNextLen).filterMap fun i => (q.upNextRow i).map ReadRow.item

/-- The items of the context, row by row. -/
def orderItems (q : QueueState) : List ItemId :=
  (List.range q.order.len).filterMap (q.itemAt q.order)

theorem Valid.upNextItems_eq (h : q.Valid) : q.upNextItems = q.lists.upNext := by
  have hrow : ∀ i, (q.upNextRow i).map ReadRow.item = q.lists.upNext[i]? := by
    intro i
    cases hitem : q.lists.upNext[i]? with
    | some item =>
      obtain ⟨row, hrow, rfl⟩ := h.upNextRow_iff.mpr hitem
      rw [hrow]
      rfl
    | none =>
      rw [Option.map_eq_none_iff]
      cases hread : q.upNextRow i with
      | none => rfl
      | some row =>
        have hsome := h.upNextRow_iff.mp ⟨row, hread, rfl⟩
        rw [hitem] at hsome
        cases hsome
  unfold upNextItems
  simp only [hrow, ← h.placed.toReadable.length_upNext]
  exact filterMap_range_get _

theorem orderItems_of_eq {q' : QueueState} (horder : q'.order = q.order)
    (hshuffle : q'.shuffle = q.shuffle) : q'.orderItems = q.orderItems := by
  have hitem : q'.itemAt q.order = q.itemAt q.order := by
    funext i
    simp only [itemAt, itemOf, hshuffle]
  unfold orderItems
  rw [horder, hitem]

/-- The item playing after a step back reads what the newest play did. -/
theorem Valid.steppedTo_reads (h : q.Valid) {run : Run} (hl : q.history.getLast? = some run)
    {item : ItemId} (hitem : item.row = (run.span.view, run.span.start + (run.span.len - 1)))
    {key : String} (hk : q.CopyNeeded item → q.hasKey key = false) :
    ∃ row playing, q.rowOf item.key item.pos = some row ∧
      (q.steppedTo item key).currentRow = some playing ∧
        playing.source = row.source ∧ playing.position = row.position := by
  have hstepped := h.steppedBack hl hitem hk
  have hwent := hstepped.went
  have hvalid := (h.wentBack hwent).valid
  have hmore : MoreCopies q (q.steppedTo item key) _ :=
    ⟨hwent.sources, hwent.copies, h.grounded, hvalid.grounded⟩
  obtain ⟨n, hplays⟩ := hstepped.plays
  have hplayed : item.row ∈ q.playRows := by
    rw [playRows, hplays]
    simp
  have hmentioned : item.row ∈ q.mentioned :=
    mem_mentioned.2 (.inr (.inr (.inr (.inr hplayed))))
  have hnamed : q.Names item.key item.pos := h.grounded.named _ _ hmentioned
  obtain ⟨row, hrow, -⟩ := h.grounded.rowOf_mentioned hmentioned
  have hread : q.readItem item = some row.at := by
    rw [readItem, hrow]
    rfl
  have hcurrent : (q.steppedTo item key).current =
      some (if q.CopyNeeded item then ⟨key, 0⟩ else item) := by
    have := congrArg Lists.current hstepped.lists
    exact this
  have hplaying : (q.steppedTo item key).readItem
      (if q.CopyNeeded item then ⟨key, 0⟩ else item) = some row.at := by
    by_cases hneeded : q.CopyNeeded item
    · rw [if_pos hneeded]
      have hextra := hmore.readItem_extra (c := ⟨key, .fromSpans (q.sourceSpans item)⟩)
        (by rw [if_pos hneeded]; exact List.mem_singleton.mpr rfl) 0
      rw [hextra, SpanList.rows_fromSpans, ← hread, h.grounded.readItem_eq, List.head?_eq_getElem?]
    · rw [if_neg hneeded, hmore.readItem hnamed, hread]
  rw [readItem, Option.map_eq_some_iff] at hplaying
  obtain ⟨playing, hfound, hat⟩ := hplaying
  refine ⟨row, playing, hrow, ?_, ?_⟩
  · rw [currentRow, hcurrent, Option.bind_some]
    exact hfound
  · exact Prod.mk.inj hat

/-- In every queue there is with a play in History, stepping back with a key not in use is
accepted. Up Next is then the item that was playing and Up Next as it was. What plays reads the row
that the newest play did, and only that play left History. The context, the shuffle, the repeat mode
and the rest stay. A copy is made, under the key, exactly where Up Next then holds the item, which
stays in it. -/
theorem previous_leaves (calls : List Call) (key : String) (hhistory : (run calls).history ≠ [])
    (hkey : (run calls).hasKey key = false) :
    ((run calls).apply (.previous key)).1 = .ok () ∧
    ((run calls).edited (.previous key)).upNextItems =
      (run calls).current.toList ++ (run calls).upNextItems ∧
    (∃ n item row playing,
      (run calls).plays = ((run calls).edited (.previous key)).plays ++ [(n, item.row)] ∧
      (run calls).rowOf item.key item.pos = some row ∧
      ((run calls).edited (.previous key)).currentRow = some playing ∧
      playing.source = row.source ∧ playing.position = row.position ∧
      (item ∈ ((run calls).edited (.previous key)).upNextItems →
        ((run calls).edited (.previous key)).copies =
          (run calls).copies ++ [⟨key, .fromSpans ((run calls).sourceSpans item)⟩] ∧
        ((run calls).edited (.previous key)).current = some ⟨key, 0⟩) ∧
      (item ∉ ((run calls).edited (.previous key)).upNextItems →
        ((run calls).edited (.previous key)).copies = (run calls).copies ∧
        ((run calls).edited (.previous key)).current = some item)) ∧
    ((run calls).edited (.previous key)).sources = (run calls).sources ∧
    ((run calls).edited (.previous key)).order = (run calls).order ∧
    ((run calls).edited (.previous key)).orderItems = (run calls).orderItems ∧
    ((run calls).edited (.previous key)).shuffle = (run calls).shuffle ∧
    ((run calls).edited (.previous key)).nextPlay = (run calls).nextPlay ∧
    ((run calls).edited (.previous key)).repeatMode = (run calls).repeatMode ∧
    ((run calls).edited (.previous key)).adjusted = (run calls).adjusted := by
  have h := run_valid calls
  obtain ⟨hnone, -⟩ | ⟨last, item, hl, -, hitem, hrefused | ⟨hk, hprevious⟩⟩ :=
    h.previous_cases key
  · exact absurd hnone hhistory
  · rw [hrefused.2.1] at hkey
    cases hkey
  have happly : (run calls).apply (.previous key) = (.ok (), (run calls).steppedTo item key) :=
    hprevious
  have hedited : (run calls).edited (.previous key) = (run calls).steppedTo item key :=
    congrArg Prod.snd happly
  have hstepped := h.steppedBack hl hitem hk
  have hwent := hstepped.went
  have hvalid := (h.wentBack hwent).valid
  have hupNext : ((run calls).steppedTo item key).lists.upNext =
      (run calls).current.toList ++ (run calls).lists.upNext := by
    rw [hstepped.lists]
    exact Lists.upNext_putBack _
  have hneeded : item ∈ ((run calls).steppedTo item key).upNextItems ↔
      (run calls).CopyNeeded item := by
    rw [hvalid.upNextItems_eq, hstepped.lists]
    rfl
  have hcurrent : ((run calls).steppedTo item key).current =
      some (if (run calls).CopyNeeded item then ⟨key, 0⟩ else item) :=
    congrArg Lists.current hstepped.lists
  obtain ⟨n, hplays⟩ := hstepped.plays
  obtain ⟨row, playing, hrow, hplaying, hsource, hposition⟩ := h.steppedTo_reads hl hitem hk
  rw [happly, hedited]
  refine ⟨rfl, ?_, ⟨n, item, row, playing, hplays, hrow, hplaying, hsource, hposition, ?_, ?_⟩,
    hwent.sources, hwent.order, orderItems_of_eq hwent.order hwent.shuffle, hwent.shuffle,
    hstepped.nextPlay, hstepped.repeatMode, hstepped.adjusted⟩
  · rw [hvalid.upNextItems_eq, h.upNextItems_eq]
    exact hupNext
  · intro hin
    have hcopy := hneeded.mp hin
    exact ⟨by rw [hwent.copies, if_pos hcopy], by rw [hcurrent, if_pos hcopy]⟩
  · intro hout
    have hcopy := mt hneeded.mpr hout
    exact ⟨by rw [hwent.copies, if_neg hcopy, List.append_nil], by rw [hcurrent, if_neg hcopy]⟩

theorem previous_leaves_lap :
    let q := run [.start ⟨"a", "", none, 2, none⟩ 0, .apply (.repeatMode .all), .apply .next,
      .apply .next]
    (q.edited (.previous "k")).upNextItems = q.current.toList ++ q.upNextItems :=
  (previous_leaves [.start ⟨"a", "", none, 2, none⟩ 0, .apply (.repeatMode .all), .apply .next,
    .apply .next] "k" (by decide +kernel) (by decide +kernel)).2.1

end QueueState

end JewelCase.Queue
