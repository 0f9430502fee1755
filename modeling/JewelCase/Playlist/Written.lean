import Mathlib.Data.List.Perm.Subperm
import JewelCase.Playlist.Ops
import JewelCase.Playlist.Keys
import JewelCase.Playlist.Plan

/-!
# An edited playlist, read back

An edit's write never meets a key that is taken, and the rows it leaves, read in key order, are the
items the ops make. The rows that keep their key are a longest run of keys already in order, and
the write does not touch them.
-/
namespace JewelCase.Playlist

set_option autoImplicit false

open Library.Picks

variable {α β : Type}

/-! ### Ops on items carried along -/

/-- An op on the images of its items. -/
def Op.map (f : α → β) : Op α → Op β
  | .add place items => .add place (items.map f)
  | .remove positions => .remove positions
  | .move positions place => .move positions place

theorem Op.refused_map (f : α → β) (op : Op α) (length : Nat) :
    (op.map f).Refused length ↔ op.Refused length := by
  cases op <;> exact Iff.rfl

theorem Op.result_map (f : α → β) (op : Op α) (items : List α) :
    (op.map f).result (items.map f) = (op.result items).map f := by
  cases op with
  | add place new => simp [Op.map, Op.result, splice, List.map_take, List.map_drop]
  | remove positions => simp only [Op.map, Op.result, kept, filterIdx_map]
  | move positions place =>
    simp only [Op.map, Op.result, splice, kept, picked, filterIdx_map, List.map_append,
      List.map_take, List.map_drop]

theorem Replayed.map (f : α → β) {items after : List α} {ops : List (Op α)}
    (h : Replayed items ops after) :
    Replayed (items.map f) (ops.map (Op.map f)) (after.map f) := by
  induction h with
  | nil items => exact .nil _
  | @cons items after op ops ok rest ih =>
    refine .cons (fun hr => ok ?_) (by rwa [Op.result_map])
    rwa [List.length_map, Op.refused_map] at hr

/-- Ops are refused, or not, whatever the items carry. -/
theorem applyOps_map_error (f : α → β) {items : List α} {ops : List (Op α)} :
    (∃ e, applyOps (items.map f) (ops.map (Op.map f)) = .error e) ↔
      ∃ e, applyOps items ops = .error e := by
  constructor
  · rintro ⟨e, he⟩
    cases ha : applyOps items ops with
    | error e' => exact ⟨e', rfl⟩
    | ok after =>
      have hm := (applyOps_eq_ok.1 ha).map f
      rw [applyOps_eq_ok.2 hm] at he
      cases he
  · intro h
    obtain ⟨done, op, rest, before, rfl, hd, hr⟩ := applyOps_error.1 h
    refine applyOps_error.2 ⟨done.map (Op.map f), op.map f, rest.map (Op.map f), before.map f,
      by simp, hd.map f, ?_⟩
    rwa [List.length_map, Op.refused_map]

/-- What an op adds. -/
def Op.items : Op α → List α
  | .add _ items => items
  | .remove _ => []
  | .move _ _ => []

/-- An op leaves no item twice that was not there or added twice. -/
theorem Op.result_subperm (op : Op α) (items : List α) :
    (op.result items).Subperm (items ++ op.items) := by
  cases op with
  | add place new =>
    exact ((insert_perm _ new items).trans List.perm_append_comm).subperm
  | remove positions =>
    rw [Op.items, List.append_nil, Op.result, kept]
    exact (filterIdx_sublist _ _).subperm
  | move positions place =>
    rw [Op.items, List.append_nil]
    exact ((insert_perm place _ _).trans (picked_perm_kept positions items)).subperm

theorem Replayed.subperm {items after : List α} {ops : List (Op α)} (h : Replayed items ops after) :
    after.Subperm (items ++ ops.flatMap Op.items) := by
  induction h with
  | nil items => simpa using List.Subperm.refl items
  | @cons items after op ops ok rest ih =>
    rw [List.flatMap_cons, ← List.append_assoc]
    exact ih.trans ((op.result_subperm items).append (List.Subperm.refl _))

/-! ### The table -/

/-- Rows with a key of their own are in one order only. -/
theorem inOrder_eq {rows sorted : List Row} (hp : rows.Perm sorted)
    (hs : sorted.Pairwise fun a b => a.key < b.key) : inOrder rows = sorted := by
  have hle : (inOrder rows).Pairwise fun a b : Row => a.key ≤ b.key :=
    have : Std.Total fun a b : Row => a.key ≤ b.key := ⟨fun a b => le_total a.key b.key⟩
    have : IsTrans Row fun a b => a.key ≤ b.key := ⟨fun _ _ _ => le_trans⟩
    List.pairwise_insertionSort _ rows
  have hperm : (inOrder rows).Perm sorted := (List.perm_insertionSort _ rows).trans hp
  have hne : (inOrder rows).Pairwise fun a b : Row => a.key ≠ b.key := by
    refine (hperm.pairwise_iff ?_).mpr (hs.imp fun h => ne_of_lt h)
    intro a b h
    exact h.symm
  refine @List.Perm.eq_of_pairwise _ (fun a b : Row => a.key < b.key) _ _ ?_
    ((hle.and hne).imp fun h => lt_of_le_of_ne h.1 h.2) hs hperm
  intro a b _ _ hab hba
  omega

theorem insertRows_ok {rows more : List Row}
    (h : (rows.map (·.key) ++ more.map (·.key)).Nodup) :
    insertRows rows more = some (rows ++ more) := by
  induction more generalizing rows with
  | nil => rw [insertRows, List.append_nil]
  | cons row more ih =>
    have hnew : row.key ∉ rows.map (·.key) := by
      intro hin
      rw [List.map_cons, List.nodup_append] at h
      exact h.2.2 _ hin _ List.mem_cons_self rfl
    rw [insertRows, insertRow, if_neg hnew, Option.bind_some, ih (by simpa using h),
      List.append_assoc]
    rfl

theorem deleteRows_some (rows : List Row) (keys : List Int) :
    deleteRows rows (some keys) = rows.filter fun row => !decide (row.key ∈ keys) := by
  rw [deleteRows]
  induction keys generalizing rows with
  | nil => simp
  | cons key keys ih =>
    rw [List.foldl_cons, ih, List.filter_filter]
    congr 1
    funext row
    by_cases h : row.key = key <;> simp [h]

/-! ### The rows to write -/

/-- The row an item is stored as. -/
def rowOf (r : Item × Int) : Row := ⟨r.2, r.1.track, r.1.addedAt⟩

/-- The items to come of stored ones: every key an item carries is that of its stored row, and no
two carry the same. -/
structure Carried (rows : List Row) (after : List Item) : Prop where
  nodup : (after.filterMap (·.key)).Nodup
  stored : ∀ item ∈ after, ∀ key, item.key = some key → rowOf (item, key) ∈ rows

variable {rows : List Row} {after : List Item} {keys : List Int}

/-- The pairs written and those that keep their key are all of them. -/
theorem written_perm (pairs : List (Item × Int)) :
    (pairs.filter (fun r => !isWritten r) ++ pairs.filter isWritten).Perm pairs := by
  have h := List.filter_append_perm (fun r => !isWritten r) pairs
  simpa using h

theorem zip_keys (hlen : keys.length = after.length) : (after.zip keys).map Prod.snd = keys := by
  rw [List.map_snd_zip (by omega)]

theorem zip_items (hlen : keys.length = after.length) : (after.zip keys).map Prod.fst = after := by
  rw [List.map_fst_zip (by omega)]

/-- A pair that keeps its key is its stored row. -/
theorem isWritten_false {r : Item × Int} : (!isWritten r) = true ↔ r.1.key = some r.2 := by
  simp [isWritten]

/-- **The rows left by the deletes are those of the items that keep their key.** -/
theorem left_perm (h : Carried rows after) (hrows : (rows.map (·.key)).Nodup)
    (hlen : keys.length = after.length) (hkeys : keys.Nodup) {before : List Item}
    (hbefore : ∀ row ∈ rows, row.key ∈ before.filterMap (·.key)) :
    (rows.filter fun row => !decide (row.key ∈ ((before.filterMap (·.key)).filter fun key =>
        !decide (key ∈ (after.map (·.key)).filterMap id)) ++
      ((after.zip keys).filter isWritten).filterMap (·.1.key))).Perm
        (((after.zip keys).filter fun r => !isWritten r).map rowOf) := by
  have hread : ((after.zip keys).filterMap (·.1.key)).Nodup := by
    have he : (after.zip keys).filterMap (·.1.key) = after.filterMap (·.key) := by
      conv_rhs => rw [← zip_items hlen, List.filterMap_map]
      rfl
    rw [he]
    exact h.nodup
  have hsame : ∀ a ∈ rows, ∀ b ∈ rows, a.key = b.key → a = b :=
    fun a ha b hb he => List.inj_on_of_nodup_map hrows ha hb he
  have hn₂ : (((after.zip keys).filter fun r => !isWritten r).map rowOf).Nodup := by
    have hk : ((((after.zip keys).filter fun r => !isWritten r).map rowOf).map (·.key)).Nodup := by
      rw [List.map_map]
      have hsub : (((after.zip keys).filter fun r => !isWritten r).map Prod.snd).Sublist keys := by
        conv_rhs => rw [← zip_keys hlen]
        exact List.filter_sublist.map _
      exact hkeys.sublist hsub
    exact hk.of_map _
  rw [List.perm_ext_iff_of_nodup (hrows.of_map _ |>.filter _) hn₂]
  intro row
  simp only [List.mem_filter, List.mem_map, Bool.not_eq_true', decide_eq_false_iff_not,
    List.mem_append, not_or]
  constructor
  · rintro ⟨hrow, hremoved, hmoved⟩
    have hkept : row.key ∈ (after.map (·.key)).filterMap id := by
      by_contra hno
      exact hremoved ⟨hbefore row hrow, hno⟩
    obtain ⟨k, hk, hrk⟩ := List.mem_filterMap.mp hkept
    obtain ⟨item, hitem, rfl⟩ := List.mem_map.mp hk
    rw [← zip_items hlen] at hitem
    obtain ⟨r, hr, rfl⟩ := List.mem_map.mp hitem
    have hnot : isWritten r = false := by
      by_contra hw
      rw [Bool.not_eq_false] at hw
      exact hmoved (List.mem_filterMap.mpr ⟨r, List.mem_filter.mpr ⟨hr, hw⟩, hrk⟩)
    have hkey : r.1.key = some r.2 := by simpa [isWritten] using hnot
    have hr2 : r.2 = row.key := Option.some.inj (hkey.symm.trans hrk)
    refine ⟨r, ⟨hr, hnot⟩, ?_⟩
    exact hsame _ (h.stored r.1 (List.of_mem_zip hr).1 r.2 hkey) _ hrow hr2
  · rintro ⟨r, ⟨hr, hnot⟩, rfl⟩
    have hkey : r.1.key = some r.2 := by simpa [isWritten] using hnot
    have hitem : r.1 ∈ after := (List.of_mem_zip hr).1
    refine ⟨h.stored r.1 hitem r.2 hkey, ?_, ?_⟩
    · rintro ⟨-, hno⟩
      exact hno (List.mem_filterMap.mpr ⟨_, List.mem_map.mpr ⟨r.1, hitem, rfl⟩, hkey⟩)
    · intro hm
      obtain ⟨r', hr', hk'⟩ := List.mem_filterMap.mp hm
      obtain ⟨hr', hw⟩ := List.mem_filter.mp hr'
      obtain rfl : r' = r := Library.Lists.eq_of_filterMap_nodup hread hr' hr hk' hkey
      rw [hnot] at hw
      cases hw

/-- **Keys assigned.** The deletes and inserts leave the items in the order of the keys. -/
theorem write_assigned (h : Carried rows after) (hrows : (rows.map (·.key)).Nodup)
    {before : List Item} (hbefore : ∀ row ∈ rows, row.key ∈ before.filterMap (·.key))
    (hkeys : assign (after.map (·.key)) = some keys) :
    ∃ rows', insertRows (deleteRows rows (rowsToWrite before after).1)
        (rowsToWrite before after).2 = some rows' ∧ rows'.Perm ((after.zip keys).map rowOf) := by
  obtain ⟨hlen, hinc, -⟩ := assign_spec hkeys
  rw [List.length_map] at hlen
  have hn : keys.Nodup := hinc.imp ne_of_lt
  have hleft := left_perm h hrows hlen hn hbefore
  have hall := (written_perm (after.zip keys)).map rowOf
  rw [List.map_append] at hall
  simp only [rowsToWrite, hkeys, deleteRows_some]
  have hto : ((after.zip keys).filter isWritten).map
      (fun r => (⟨r.2, r.1.track, r.1.addedAt⟩ : Row)) =
        ((after.zip keys).filter isWritten).map rowOf := rfl
  rw [hto]
  refine ⟨_, insertRows_ok ?_, (hleft.append_right _).trans hall⟩
  rw [← List.map_append]
  refine (((hleft.append_right _).trans hall).map (·.key)).nodup_iff.mpr ?_
  rw [List.map_map]
  have : ((·.key) ∘ rowOf : Item × Int → Int) = Prod.snd := rfl
  rw [this, zip_keys hlen]
  exact hn

theorem assigned_sorted (hlen : keys.length = after.length) (hinc : keys.Pairwise (· < ·)) :
    ((after.zip keys).map rowOf).Pairwise fun a b => a.key < b.key := by
  rw [List.pairwise_map]
  have h : ((after.zip keys).map Prod.snd).Pairwise (· < ·) := by rwa [zip_keys hlen]
  rwa [List.pairwise_map] at h

/-- **A renumber.** -/
theorem renumbered_sorted (after : List Item) :
    (renumbered after).Pairwise fun a b => a.key < b.key := by
  rw [renumbered, List.pairwise_map]
  have hz : after.zipIdx.Pairwise fun a b => a.2 < b.2 := by
    rw [← List.pairwise_map (f := Prod.snd) (R := fun a b : Nat => a < b), List.zipIdx_map_snd]
    exact List.pairwise_lt_range' 1 Nat.one_pos
  refine hz.imp ?_
  intro a b hab
  exact Int.mul_lt_mul_of_pos_right (by omega) (by decide)

theorem write_renumbered (hkeys : assign (after.map (·.key)) = none) (before : List Item) :
    insertRows (deleteRows rows (rowsToWrite before after).1) (rowsToWrite before after).2 =
      some (renumbered after) := by
  simp only [rowsToWrite, hkeys, deleteRows]
  rw [insertRows_ok, List.nil_append]
  rw [List.map_nil, List.nil_append]
  have h := renumbered_sorted after
  rw [← List.pairwise_map (f := fun r : Row => r.key) (R := fun a b : Int => a < b)] at h
  exact h.imp ne_of_lt

/-! ### The keys kept -/

/-- The keys of the items stored under the key they had. -/
def keptKeys (after : List Item) (keys : List Int) : List Int :=
  ((after.zip keys).filter fun r => !isWritten r).map Prod.snd

theorem mem_keptKeys {k : Int} :
    k ∈ keptKeys after keys ↔ ∃ item, (item, k) ∈ after.zip keys ∧ item.key = some k := by
  rw [keptKeys, List.mem_map]
  constructor
  · rintro ⟨r, hr, rfl⟩
    obtain ⟨hr, hw⟩ := List.mem_filter.mp hr
    exact ⟨r.1, hr, isWritten_false.1 hw⟩
  · rintro ⟨item, hr, hk⟩
    exact ⟨(item, k), List.mem_filter.mpr ⟨hr, isWritten_false.2 hk⟩, rfl⟩

theorem keptKeys_sublist (hlen : keys.length = after.length) :
    (keptKeys after keys).Sublist (keysIn (after.map (·.key))) := by
  have he : keptKeys after keys =
      ((after.zip keys).filter fun r => !isWritten r).filterMap (·.1.key) := by
    rw [keptKeys, ← List.filterMap_eq_map]
    apply List.filterMap_congr
    intro r hr
    exact (isWritten_false.1 (List.mem_filter.mp hr).2).symm
  have hz : keysIn (after.map (·.key)) = (after.zip keys).filterMap (·.1.key) := by
    rw [keysIn, List.filterMap_map]
    conv_lhs => rw [← zip_items hlen, List.filterMap_map]
    rfl
  rw [he, hz]
  exact List.filter_sublist.filterMap _

/-- **The keys kept are a longest run of the stored keys that already increase.** -/
theorem keptKeys_longest (h : assign (after.map (·.key)) = some keys) :
    (keptKeys after keys).Pairwise (· < ·) ∧
      ∀ ys : List Int, ys.Sublist (keysIn (after.map (·.key))) → ys.Pairwise (· < ·) →
        ys.length ≤ (keptKeys after keys).length := by
  obtain ⟨hlen, hinc, hkept⟩ := assign_spec h
  rw [List.length_map] at hlen
  constructor
  · have hsub : (keptKeys after keys).Sublist keys := by
      conv_rhs => rw [← zip_keys hlen]
      exact List.filter_sublist.map _
    exact hinc.sublist hsub
  · intro ys hys hyinc
    refine (kept_longest hys hyinc).trans ?_
    have hn : (keysIn (longestIncreasing (after.map (·.key)))).Nodup :=
      (kept_increasing _).imp ne_of_lt
    refine (hn.subperm ?_).length_le
    intro k hk
    rw [← present_snd] at hk
    obtain ⟨⟨p, k'⟩, hp, rfl⟩ := List.mem_map.mp hk
    have hp := mem_present.1 hp
    have hstored := longestIncreasing_stored hp
    have hkey := hkept p k' hp
    rw [List.getElem?_map, Option.map_eq_some_iff] at hstored
    obtain ⟨item, hitem, hik⟩ := hstored
    refine mem_keptKeys.2 ⟨item, List.mem_iff_getElem?.mpr ⟨p, ?_⟩, hik⟩
    rw [List.getElem?_zip_eq_some]
    exact ⟨hitem, hkey⟩

/-! ### An edit, stored -/

/-- What a stored playlist keeps: a key of its own for every row, only tracks of the library, and
the count and duration of its rows. -/
structure Stored.Ok (library : Tracks) (s : Stored) : Prop where
  keys : (s.rows.map (·.key)).Nodup
  tracks : ∀ row ∈ s.rows, (library row.track).isSome
  count : s.trackCount = s.rows.length
  duration : s.duration = (s.rows.map fun row => (library row.track).getD 0).sum

/-- The playlist as it is read: its tracks, with when each was added, in key order. -/
def Stored.read (s : Stored) : List (Int × Int) :=
  (inOrder s.rows).map fun row => (row.track, row.addedAt)

/-- An add's tracks as they are read back: those the library still has, added now. -/
def Op.toRead (library : Tracks) (now : Int) : Op Int → Op (Int × Int)
  | .add place tracks =>
    .add place ((tracks.filter fun track => (library track).isSome).map fun track => (track, now))
  | .remove positions => .remove positions
  | .move positions place => .move positions place

variable {library : Tracks} {s : Stored} {now : Int}

theorem toItems_read (op : Op Int) :
    (op.toItems library now).map (fun item => (item.track, item.addedAt)) =
      op.toRead library now := by
  cases op with
  | add place tracks =>
    simp only [Op.toItems, Op.map, Op.toRead, Op.add.injEq, true_and, List.map_filterMap]
    rw [← List.filterMap_eq_filter, List.map_filterMap]
    apply List.filterMap_congr
    intro track _
    cases h : library track <;> simp [addedItem, h, Option.guard]
  | remove positions => rfl
  | move positions place => rfl

theorem mem_toItems {op : Op Int} {item : Item} (h : item ∈ (op.toItems library now).items) :
    item.key = none ∧ library item.track = some item.duration := by
  cases op with
  | add place tracks =>
    obtain ⟨track, -, he⟩ := List.mem_filterMap.mp h
    obtain ⟨duration, hd, rfl⟩ := Option.map_eq_some_iff.mp he
    exact ⟨rfl, hd⟩
  | remove positions => cases h
  | move positions place => cases h

theorem Stored.Ok.itemsOf_eq (h : s.Ok library) :
    itemsOf library s.rows = (inOrder s.rows).map fun row =>
      ⟨some row.key, row.track, row.addedAt, (library row.track).getD 0⟩ := by
  rw [itemsOf, ← List.filterMap_eq_map]
  apply List.filterMap_congr
  intro row hrow
  obtain ⟨duration, hd⟩ := Option.isSome_iff_exists.mp
    (h.tracks row ((List.perm_insertionSort _ s.rows).mem_iff.mp hrow))
  simp [hd]

theorem Stored.Ok.read_items (h : s.Ok library) :
    (itemsOf library s.rows).map (fun item => (item.track, item.addedAt)) = s.read := by
  rw [h.itemsOf_eq, List.map_map]
  rfl

theorem Stored.Ok.item_keys (h : s.Ok library) :
    (itemsOf library s.rows).filterMap (·.key) = (inOrder s.rows).map (·.key) := by
  rw [h.itemsOf_eq, List.filterMap_map, ← List.filterMap_eq_map]
  rfl

theorem Stored.Ok.carried (h : s.Ok library) {ops : List (Op Int)}
    (hr : Replayed (itemsOf library s.rows) (ops.map (Op.toItems library now)) after) :
    Carried s.rows after ∧ ∀ item ∈ after, library item.track = some item.duration := by
  have hperm : (inOrder s.rows).Perm s.rows := List.perm_insertionSort _ _
  have hsub := hr.subperm
  have hadded : ∀ item ∈ (ops.map (Op.toItems library now)).flatMap Op.items,
      item.key = none ∧ library item.track = some item.duration := by
    intro item hi
    obtain ⟨op, hop, hi⟩ := List.mem_flatMap.mp hi
    obtain ⟨op', -, rfl⟩ := List.mem_map.mp hop
    exact mem_toItems hi
  refine ⟨⟨?_, ?_⟩, ?_⟩
  · obtain ⟨l, hl, hsl⟩ := hsub
    have hnone : ((ops.map (Op.toItems library now)).flatMap Op.items).filterMap (·.key) = [] :=
      List.filterMap_eq_nil_iff.mpr fun item hi => (hadded item hi).1
    have hkeys := (hsl.filterMap (·.key))
    rw [List.filterMap_append, hnone, List.append_nil, h.item_keys] at hkeys
    have hn : ((inOrder s.rows).map (·.key)).Nodup := (hperm.map _).nodup_iff.mpr h.keys
    exact (hl.filterMap _).nodup_iff.mp (hn.sublist hkeys)
  · intro item hi key hk
    rcases List.mem_append.mp (hsub.subset hi) with hb | ha
    · rw [h.itemsOf_eq] at hb
      obtain ⟨row, hrow, rfl⟩ := List.mem_map.mp hb
      obtain rfl : row.key = key := by simpa using hk
      exact hperm.mem_iff.mp hrow
    · rw [(hadded item ha).1] at hk
      cases hk
  · intro item hi
    rcases List.mem_append.mp (hsub.subset hi) with hb | ha
    · rw [h.itemsOf_eq] at hb
      obtain ⟨row, hrow, rfl⟩ := List.mem_map.mp hb
      obtain ⟨duration, hd⟩ := Option.isSome_iff_exists.mp (h.tracks row (hperm.mem_iff.mp hrow))
      simp [hd]
    · exact (hadded item ha).2

/-- What the write leaves, in key order. -/
structure Leaves (after : List Item) (rows' sorted : List Row) : Prop where
  perm : rows'.Perm sorted
  increasing : sorted.Pairwise fun a b => a.key < b.key
  items : sorted.map (fun row => (row.track, row.addedAt)) =
    after.map fun item => (item.track, item.addedAt)

theorem Leaves.length {rows' sorted : List Row} (h : Leaves after rows' sorted) :
    rows'.length = after.length := by
  have := congrArg List.length h.items
  rw [List.length_map, List.length_map] at this
  rw [h.perm.length_eq, this]

theorem Leaves.tracks {rows' sorted : List Row} (h : Leaves after rows' sorted) :
    (rows'.map (·.track)).Perm (after.map (·.track)) := by
  have he := congrArg (List.map Prod.fst) h.items
  rw [List.map_map, List.map_map] at he
  exact (h.perm.map _).trans (he ▸ List.Perm.refl _)

/-- A playlist left so is as a stored one should be. -/
theorem Leaves.ok {sorted : List Row} {s' : Stored} (h : Leaves after s'.rows sorted)
    (hlib : ∀ item ∈ after, library item.track = some item.duration)
    (hcount : s'.trackCount = after.length)
    (hduration : s'.duration = (after.map (·.duration)).sum) :
    s'.Ok library ∧ s'.read = after.map fun item => (item.track, item.addedAt) := by
  refine ⟨⟨?_, ?_, ?_, ?_⟩, ?_⟩
  · refine ((h.perm.map (·.key)).nodup_iff).mpr ?_
    have hinc := h.increasing
    rw [← List.pairwise_map (f := fun r : Row => r.key) (R := fun a b : Int => a < b)] at hinc
    exact hinc.imp ne_of_lt
  · intro row hrow
    have hm : row.track ∈ after.map (·.track) :=
      h.tracks.mem_iff.mp (List.mem_map.mpr ⟨row, hrow, rfl⟩)
    obtain ⟨item, hi, he⟩ := List.mem_map.mp hm
    rw [← he, hlib item hi]
    rfl
  · rw [hcount, h.length]
  · have hsum := (h.tracks.map fun track => (library track).getD 0).sum_eq
    rw [List.map_map, List.map_map] at hsum
    rw [hduration]
    refine Eq.trans ?_ hsum.symm
    congr 1
    apply List.map_congr_left
    intro item hi
    simp [hlib item hi]
  · rw [Stored.read, inOrder_eq h.perm h.increasing, h.items]

theorem zip_read (hlen : keys.length = after.length) :
    ((after.zip keys).map rowOf).map (fun row => (row.track, row.addedAt)) =
      after.map fun item => (item.track, item.addedAt) := by
  conv_rhs => rw [← zip_items hlen, List.map_map]
  rw [List.map_map]
  rfl

theorem renumbered_read (after : List Item) :
    (renumbered after).map (fun row => (row.track, row.addedAt)) =
      after.map fun item => (item.track, item.addedAt) := by
  conv_rhs => rw [← List.zipIdx_map_fst 0 after, List.map_map]
  rw [renumbered, List.map_map]
  rfl

/-- The rows that keep their key: none of them is deleted or inserted. -/
def LeftAlone (keys : List Int) (plan : Plan) (s s' : Stored) : Prop :=
  ∀ row ∈ s.rows, row.key ∈ keys →
    row ∈ s'.rows ∧ (∀ deleted, plan.delete = some deleted → row.key ∉ deleted) ∧
      row.key ∉ plan.insert.map (·.key)

/-- Planned from the items of the playlist, an edit is written, and what it leaves is the ops'
result. -/
theorem Stored.Ok.written (h : s.Ok library) {ops : List (Op Int)}
    (hr : Replayed (itemsOf library s.rows) (ops.map (Op.toItems library now)) after) {p : Plan}
    (hp : p.totals = some ((after.length : Int), (after.map (·.duration)).sum))
    (hd : (p.delete, p.insert) = rowsToWrite (itemsOf library s.rows) after) :
    ∃ s', s.edited p = some s' ∧ s'.version = s.version + 1 ∧ s'.Ok library ∧
      s'.read = after.map (fun item => (item.track, item.addedAt)) ∧
      ∀ keys, assign (after.map (·.key)) = some keys → LeftAlone (keptKeys after keys) p s s' := by
  obtain ⟨hcar, hlib⟩ := h.carried hr
  have hdelete : p.delete = (rowsToWrite (itemsOf library s.rows) after).1 :=
    congrArg Prod.fst hd
  have hinsert : p.insert = (rowsToWrite (itemsOf library s.rows) after).2 :=
    congrArg Prod.snd hd
  have hbefore : ∀ row ∈ s.rows, row.key ∈ (itemsOf library s.rows).filterMap (·.key) := by
    intro row hrow
    rw [h.item_keys]
    exact List.mem_map.mpr ⟨row, (List.perm_insertionSort _ s.rows).mem_iff.mpr hrow, rfl⟩
  have hedited : ∀ rows', write p s.rows = some rows' → s.edited p =
      some ⟨s.version + 1, after.length, (after.map (·.duration)).sum, rows'⟩ := by
    intro rows' hw
    rw [Stored.edited, hw, hp]
    rfl
  cases hkeys : assign (after.map (·.key)) with
  | none =>
    have hw : write p s.rows = some (renumbered after) := by
      rw [write, hdelete, hinsert]
      exact write_renumbered hkeys _
    refine ⟨_, hedited _ hw, rfl, ?_⟩
    have hl : Leaves after (renumbered after) (renumbered after) :=
      ⟨List.Perm.refl _, renumbered_sorted after, renumbered_read after⟩
    obtain ⟨hok, hread⟩ := @Leaves.ok after library _
      ⟨s.version + 1, after.length, (after.map (·.duration)).sum, renumbered after⟩ hl hlib rfl rfl
    exact ⟨hok, hread, fun keys hk => by cases hk⟩
  | some keys =>
    obtain ⟨hlen, hinc, -⟩ := assign_spec hkeys
    rw [List.length_map] at hlen
    obtain ⟨rows', hw, hperm⟩ := write_assigned hcar h.keys hbefore hkeys
    rw [← hdelete, ← hinsert] at hw
    refine ⟨_, hedited _ hw, rfl, ?_⟩
    have hl : Leaves after rows' ((after.zip keys).map rowOf) :=
      ⟨hperm, assigned_sorted hlen hinc, zip_read hlen⟩
    obtain ⟨hok, hread⟩ := @Leaves.ok after library _
      ⟨s.version + 1, after.length, (after.map (·.duration)).sum, rows'⟩ hl hlib rfl rfl
    refine ⟨hok, hread, ?_⟩
    intro keys' hk row hrow hkept
    obtain rfl : keys = keys' := Option.some.inj hk
    obtain ⟨item, hzip, hik⟩ := mem_keptKeys.1 hkept
    have hsame : rowOf (item, row.key) = row :=
      List.inj_on_of_nodup_map h.keys (hcar.stored item (List.of_mem_zip hzip).1 _ hik) hrow rfl
    have hnot : (item, row.key) ∈ (after.zip keys).filter fun r => !isWritten r :=
      List.mem_filter.mpr ⟨hzip, isWritten_false.2 hik⟩
    refine ⟨?_, ?_, ?_⟩
    · refine hperm.mem_iff.mpr (List.mem_map.mpr ⟨_, hzip, hsame⟩)
    · intro deleted hdel hin
      have hleft := (left_perm hcar h.keys hlen (hinc.imp ne_of_lt) hbefore).mem_iff.mpr
        (List.mem_map.mpr ⟨_, hnot, hsame⟩)
      have hno := (List.mem_filter.mp hleft).2
      rw [hdel, rowsToWrite, hkeys] at hdelete
      simp only [Option.some.injEq] at hdelete
      rw [← hdelete] at hno
      simp [hin] at hno
    · intro hin
      rw [hinsert, rowsToWrite, hkeys] at hin
      simp only [List.map_map] at hin
      obtain ⟨r, hr', he⟩ := List.mem_map.mp hin
      obtain ⟨hr', hwr⟩ := List.mem_filter.mp hr'
      have hsnd : r.2 = (item, row.key).2 := he
      have hn : ((after.zip keys).map Prod.snd).Nodup := by
        rw [zip_keys hlen]
        exact hinc.imp ne_of_lt
      obtain rfl := List.inj_on_of_nodup_map hn hr' hzip hsnd
      have := (List.mem_filter.mp hnot).2
      rw [hwr] at this
      cases this

theorem plan_error {rows : List Row} {ops : List (Op Int)} :
    (∃ e, plan library rows ops now = .error e) ↔
      ∃ e, applyOps (itemsOf library rows) (ops.map (Op.toItems library now)) = .error e := by
  unfold plan
  by_cases hnil : ops = []
  · subst hnil
    exact iff_of_false (by rintro ⟨e, he⟩; cases he) (by rintro ⟨e, he⟩; cases he)
  · rw [if_neg (by simpa using hnil)]
    simp only
    cases ha : applyOps (itemsOf library rows) (ops.map (Op.toItems library now)) with
    | error e => exact iff_of_true ⟨e, rfl⟩ ⟨e, rfl⟩
    | ok after => exact iff_of_false (by rintro ⟨e, he⟩; cases he) (by rintro ⟨e, he⟩; cases he)

/-- **An edited playlist is stored as the edit made it.** Planned and written to the same version,
an edit meets no key that is taken; read back in key order, the playlist is what the ops make of
it; its totals are those of its rows; and the rows that keep their key, a longest run of the stored
keys that already increase, are left alone. Where no gap is left, the renumbered playlist is the
same list. An edit is refused exactly when its ops are. -/
theorem edit_stored (library : Tracks) (s : Stored) (hs : s.Ok library) (ops : List (Op Int))
    (now : Int) :
    (∀ p, plan library s.rows ops now = .ok p →
      ∃ after s', applyOps (itemsOf library s.rows) (ops.map (Op.toItems library now)) = .ok after ∧
        s.edited p = some s' ∧ s'.version = s.version + 1 ∧ s'.Ok library ∧
        applyOps s.read (ops.map (Op.toRead library now)) = .ok s'.read ∧
        ∀ keys, assign (after.map (·.key)) = some keys →
          (keptKeys after keys).Sublist (keysIn (after.map (·.key))) ∧
          (keptKeys after keys).Pairwise (· < ·) ∧
          (∀ ys : List Int, ys.Sublist (keysIn (after.map (·.key))) → ys.Pairwise (· < ·) →
            ys.length ≤ (keptKeys after keys).length) ∧
          LeftAlone (keptKeys after keys) p s s') ∧
      ((∃ e, plan library s.rows ops now = .error e) ↔
        ∃ e, applyOps s.read (ops.map (Op.toRead library now)) = .error e) := by
  have hops : ops.map (Op.toRead library now) =
      (ops.map (Op.toItems library now)).map (Op.map fun item => (item.track, item.addedAt)) := by
    rw [List.map_map]
    exact List.map_congr_left fun op _ => (toItems_read op).symm
  refine ⟨?_, ?_⟩
  · intro p hp
    unfold plan at hp
    by_cases hnil : ops = []
    · -- an edit of details alone leaves the items and the totals
      subst hnil
      obtain rfl := Except.ok.inj hp
      refine ⟨itemsOf library s.rows, ⟨s.version + 1, s.trackCount, s.duration, s.rows⟩, rfl, rfl,
        rfl, ⟨hs.keys, hs.tracks, hs.count, hs.duration⟩, rfl, ?_⟩
      intro keys hk
      obtain ⟨hlen, -, -⟩ := assign_spec hk
      rw [List.length_map] at hlen
      obtain ⟨hinc, hlong⟩ := keptKeys_longest hk
      refine ⟨keptKeys_sublist hlen, hinc, hlong, ?_⟩
      intro row hrow _
      refine ⟨hrow, ?_, by simp⟩
      intro deleted hd
      obtain rfl : [] = deleted := Option.some.inj hd
      simp
    · rw [if_neg (by simpa using hnil)] at hp
      simp only at hp
      cases ha : applyOps (itemsOf library s.rows) (ops.map (Op.toItems library now)) with
      | error e =>
        rw [ha] at hp
        cases hp
      | ok after =>
        rw [ha] at hp
        have hplan := Except.ok.inj hp
        have hr := applyOps_eq_ok.1 ha
        obtain ⟨s', hedited, hversion, hok, hread, halone⟩ :=
          hs.written hr (p := p) (by rw [← hplan]) (by rw [← hplan])
        refine ⟨after, s', rfl, hedited, hversion, hok, ?_, ?_⟩
        · rw [hops, ← hs.read_items, hread]
          exact applyOps_eq_ok.2 (hr.map _)
        · intro keys hk
          obtain ⟨hlen, -, -⟩ := assign_spec hk
          rw [List.length_map] at hlen
          obtain ⟨hinc, hlong⟩ := keptKeys_longest hk
          exact ⟨keptKeys_sublist hlen, hinc, hlong, halone keys hk⟩
  · rw [plan_error, hops, ← hs.read_items, applyOps_map_error]

/-- A playlist of three, the first moved last and a track added that the library lacks. -/
theorem edit_stored_of_three :
    let library : Tracks := fun track => if track = 1 then some 100 else if track = 2 then some 50
      else none
    let s : Stored := ⟨4, 3, 250, [⟨30, 1, 6⟩, ⟨10, 1, 5⟩, ⟨20, 2, 5⟩]⟩
    let ops : List (Op Int) := [.move [0] 2, .add none [2, 9]]
    s.Ok library ∧ ∃ s' : Stored, s'.version = 5 ∧ s'.Ok library ∧
      applyOps s.read (ops.map (Op.toRead library 7)) = .ok s'.read := by
  have hs : Stored.Ok (fun track => if track = 1 then some 100 else if track = 2 then some 50
      else none) ⟨4, 3, 250, [⟨30, 1, 6⟩, ⟨10, 1, 5⟩, ⟨20, 2, 5⟩]⟩ :=
    ⟨by decide, by decide, by decide, by decide⟩
  refine ⟨hs, ?_⟩
  obtain ⟨_, s', _, _, hversion, hok, hread, _⟩ :=
    (edit_stored _ _ hs [.move [0] 2, .add none [2, 9]] 7).1 _ rfl
  exact ⟨s', hversion, hok, hread⟩

end JewelCase.Playlist
