import JewelCase.Queue.EditResults

/-!
# The queue panel's rows

`web/src/lib/queue/layout.ts`: what each row of Up Next is, which items to read for a range of rows,
and the anchor of a drop between rows. The Manual Queue is under its heading, or a hint when it is
empty, and the context's items are under theirs.
-/
namespace JewelCase.Queue.Panel

set_option autoImplicit false

inductive Section where
  | manual
  | context
deriving DecidableEq, Repr

/-- What one row of Up Next is; an item's `place` is its place in the `upNext` section. -/
inductive Row where
  | heading (part : Section)
  | hint
  | item (place : Nat)
deriving DecidableEq, Repr

/-- A run of the `upNext` section's items, and the row of the first. -/
structure Piece where
  offset : Nat
  limit : Nat
  row : Nat
deriving DecidableEq, Repr

/-- The row of the context's heading: after the Manual Queue, or its hint when it is empty. -/
def contextHeading (manual : Nat) : Nat := 1 + max manual 1

/-- How many rows Up Next has, from the Manual Queue's items and all of Up Next's. -/
def upNextRows (manual upNext : Nat) : Nat := contextHeading manual + 1 + (upNext - manual)

/-- What row `v` of Up Next is. -/
def upNextRow (v manual : Nat) : Row :=
  if v = 0 then .heading .manual
  else if v < contextHeading manual then if 0 < manual then .item (v - 1) else .hint
  else if v = contextHeading manual then .heading .context
  else .item (manual + v - contextHeading manual - 1)

/-- The runs of items to read for rows `first` up to `last` of Up Next. -/
def upNextPieces (first last manual upNext : Nat) : List Piece :=
  let heading := contextHeading manual
  let manualFrom := max first 1
  let manualTo := min last (1 + manual)
  let contextFrom := max first (heading + 1)
  let contextTo := min last (heading + 1 + (upNext - manual))
  (if manualTo > manualFrom then
    [{ offset := manualFrom - 1, limit := manualTo - manualFrom, row := manualFrom }] else []) ++
  (if contextTo > contextFrom then
    [{ offset := manual + contextFrom - heading - 1, limit := contextTo - contextFrom,
       row := contextFrom }] else [])

/-- The gap taken past the moving items right below it. -/
def pastMoving (rows : Nat) (itemAt : Nat → Option ItemId) (moving : List ItemId) (g : Nat) : Nat :=
  if g < rows ∧ (itemAt g).any (· ∈ moving) then pastMoving rows itemAt moving (g + 1) else g
termination_by rows - g

/-- The anchor in front of an item, or the end of a section where there is none. -/
def beforeOr (item : Option ItemId) (sectionEnd : Anchor) : Anchor :=
  item.elim sectionEnd .before

/-- Where a drop at `gap`, the line before row `gap`, puts items. -/
def anchorAt (gap manual upNext : Nat) (itemAt : Nat → Option ItemId) (moving : List ItemId) :
    Anchor :=
  let rows := upNextRows manual upNext
  let heading := contextHeading manual
  let g := pastMoving rows itemAt moving gap
  if g ≤ 1 then .manualStart
  else if g ≤ heading then
    beforeOr (if 0 < manual ∧ g < heading then itemAt g else none) .manualEnd
  else beforeOr (if g < rows then itemAt g else none) .contextEnd

example : upNextPieces 0 12 3 500003 = [⟨0, 3, 1⟩, ⟨3, 7, 5⟩] := by decide

/-! ### Rows and reads -/

/-- The rows a piece fills, each with the place of its item. -/
def Piece.rows (piece : Piece) : List (Nat × Nat) :=
  (List.range piece.limit).map fun k => (piece.row + k, piece.offset + k)

/-- The place of the item a row shows, if it shows one. -/
def Row.place : Row → Option Nat
  | .item place => some place
  | .heading _ | .hint => none

/-- Row `v` with the place of its item, if it is a row that shows one. -/
def shown (manual upNext v : Nat) : Option (Nat × Nat) :=
  if v < upNextRows manual upNext then (upNextRow v manual).place.map fun place => (v, place)
  else none

theorem mem_rows {piece : Piece} {v place : Nat} :
    (v, place) ∈ piece.rows ↔
      piece.row ≤ v ∧ v < piece.row + piece.limit ∧ place + piece.row = piece.offset + v := by
  simp only [Piece.rows, List.mem_map, List.mem_range, Prod.mk.injEq]
  constructor
  · rintro ⟨k, hk, rfl, rfl⟩
    omega
  · rintro ⟨hle, hlt, hplace⟩
    exact ⟨v - piece.row, by omega, by omega, by omega⟩

theorem rows_sorted (piece : Piece) : piece.rows.Pairwise fun a b => a.1 < b.1 := by
  refine List.pairwise_map.mpr (List.pairwise_lt_range.imp fun hlt => ?_)
  exact Nat.add_lt_add_left hlt _

/-- Which rows show an item, and which. -/
theorem place_iff {v manual place : Nat} :
    (upNextRow v manual).place = some place ↔
      1 ≤ v ∧ v < 1 + manual ∧ place + 1 = v ∨
        contextHeading manual < v ∧ place + contextHeading manual + 1 = manual + v := by
  have hheading : contextHeading manual = 1 + max manual 1 := rfl
  unfold upNextRow
  split
  · simp only [Row.place, reduceCtorEq, false_iff]
    omega
  · split
    · split
      · simp only [Row.place, Option.some.injEq]
        omega
      · simp only [Row.place, reduceCtorEq, false_iff]
        omega
    · split
      · simp only [Row.place, reduceCtorEq, false_iff]
        omega
      · simp only [Row.place, Option.some.injEq]
        omega

theorem shown_iff {manual upNext v v' place : Nat} :
    shown manual upNext v = some (v', place) ↔
      v' = v ∧ v < upNextRows manual upNext ∧ (upNextRow v manual).place = some place := by
  unfold shown
  split
  · rename_i hlt
    simp only [Option.map_eq_some_iff, Prod.mk.injEq]
    constructor
    · rintro ⟨place', hplace, rfl, rfl⟩
      exact ⟨rfl, hlt, hplace⟩
    · rintro ⟨rfl, -, hplace⟩
      exact ⟨place, hplace, rfl, rfl⟩
  · rename_i hge
    simp [hge]

/-- The rows and places that a piece from one row up to another reads. -/
theorem mem_piece {start stop offset v place : Nat} :
    (v, place) ∈ (if stop > start then
        [({ offset := offset, limit := stop - start, row := start } : Piece)]
        else []).flatMap Piece.rows ↔
      start ≤ v ∧ v < stop ∧ place + start = offset + v := by
  split
  · simp only [List.flatMap_cons, List.flatMap_nil, List.append_nil, mem_rows]
    omega
  · simp only [List.flatMap_nil, List.not_mem_nil, false_iff]
    omega

/-- The rows and places the pieces read. -/
theorem mem_pieces {first last manual upNext v place : Nat} :
    (v, place) ∈ (upNextPieces first last manual upNext).flatMap Piece.rows ↔
      first ≤ v ∧ v < last ∧ v < upNextRows manual upNext ∧
        (upNextRow v manual).place = some place := by
  have hheading : contextHeading manual = 1 + max manual 1 := rfl
  have hrows : upNextRows manual upNext = contextHeading manual + 1 + (upNext - manual) := rfl
  simp only [upNextPieces, List.flatMap_append, List.mem_append, place_iff, mem_piece]
  constructor
  · rintro (⟨hfrom, hto, hplace⟩ | ⟨hfrom, hto, hplace⟩)
    · exact ⟨by omega, by omega, by omega, .inl (by omega)⟩
    · exact ⟨by omega, by omega, by omega, .inr (by omega)⟩
  · rintro ⟨hfirst, hlast, hlt, hmanual | hcontext⟩
    · exact .inl (by omega)
    · exact .inr (by omega)

theorem pieces_sorted (first last manual upNext : Nat) :
    ((upNextPieces first last manual upNext).flatMap Piece.rows).Pairwise
      fun a b => a.1 < b.1 := by
  have hheading : contextHeading manual = 1 + max manual 1 := rfl
  simp only [upNextPieces, List.flatMap_append]
  refine List.pairwise_append.mpr ⟨?_, ?_, ?_⟩
  · split
    · simpa using rows_sorted _
    · exact List.Pairwise.nil
  · split
    · simpa using rows_sorted _
    · exact List.Pairwise.nil
  · rintro ⟨v, place⟩ hv ⟨w, place'⟩ hw
    rw [mem_piece] at hv hw
    omega

/-- **The pieces of a range of rows are the items it shows, in order.** -/
theorem pieces_eq {first last manual upNext : Nat} :
    (upNextPieces first last manual upNext).flatMap Piece.rows =
      (List.range' first (last - first)).filterMap (shown manual upNext) := by
  have hsorted : ((List.range' first (last - first)).filterMap
      (shown manual upNext)).Pairwise fun a b => a.1 < b.1 := by
    refine List.Pairwise.filterMap _ ?_ List.pairwise_lt_range'
    rintro v w hlt ⟨v', place⟩ hv ⟨w', place'⟩ hw
    obtain ⟨rfl, -⟩ := shown_iff.1 hv
    obtain ⟨rfl, -⟩ := shown_iff.1 hw
    exact hlt
  have hirrefl : Std.Irrefl fun a b : Nat × Nat => a.1 < b.1 := ⟨fun a => Nat.lt_irrefl a.1⟩
  have hantisymm : Std.Antisymm fun a b : Nat × Nat => a.1 < b.1 :=
    ⟨fun a b hab hba => absurd hab (Nat.lt_asymm hba)⟩
  refine (pieces_sorted first last manual upNext).eq_of_mem_iff hsorted ?_
  rintro ⟨v, place⟩
  rw [mem_pieces, List.mem_filterMap]
  constructor
  · rintro ⟨hfirst, hlast, hlt, hplace⟩
    refine ⟨v, ?_, shown_iff.2 ⟨rfl, hlt, hplace⟩⟩
    rw [List.mem_range'_1]
    omega
  · rintro ⟨w, hw, hshown⟩
    obtain ⟨rfl, hlt, hplace⟩ := shown_iff.1 hshown
    rw [List.mem_range'_1] at hw
    exact ⟨by omega, by omega, hlt, hplace⟩

end JewelCase.Queue.Panel

/-!
## Where a drop lands

A drop at a gap between rows moves its block into the section the gap lies in: between the items
above the gap and those below it, the moved ones left out. The anchor is never one of those moved,
and skipping them cannot carry the gap over the context's heading, which names no item.
-/
namespace JewelCase.Queue.Panel

set_option autoImplicit false

open QueueState (run run_valid)

/-! ### Past the moving items -/

variable {rows g : Nat} {itemAt : Nat → Option ItemId} {moving : List ItemId}

/-- What the gap is taken past, and where it stops. -/
theorem pastMoving_spec (itemAt : Nat → Option ItemId) (moving : List ItemId) (hg : g ≤ rows) :
    g ≤ pastMoving rows itemAt moving g ∧ pastMoving rows itemAt moving g ≤ rows ∧
      (∀ v, g ≤ v → v < pastMoving rows itemAt moving g → ∃ item ∈ itemAt v, item ∈ moving) ∧
      (pastMoving rows itemAt moving g < rows →
        ∀ item ∈ itemAt (pastMoving rows itemAt moving g), item ∉ moving) := by
  fun_induction pastMoving rows itemAt moving g with
  | case1 g h ih =>
    obtain ⟨hlt, hany⟩ := h
    obtain ⟨hle, hrows, hpast, hstop⟩ := ih (by omega)
    refine ⟨by omega, hrows, fun v hv hlt' => ?_, hstop⟩
    by_cases he : v = g
    · obtain ⟨item, hitem, hmem⟩ := (Option.any_eq_true _ _).mp hany
      exact ⟨item, he ▸ hitem, by simpa using hmem⟩
    · exact hpast v (by omega) hlt'
  | case2 g h =>
    refine ⟨Nat.le_refl _, hg, fun v hv hlt => absurd hlt (by omega), ?_⟩
    intro hlt item hitem hmem
    refine h ⟨hlt, ?_⟩
    rw [Option.mem_def.mp hitem]
    simpa using hmem

/-! ### A block put into a list -/

/-- `block` between the items of a list above a place and those below it, the moving ones left
out. -/
def landed (list : List ItemId) (place : Nat) (moving block : List ItemId) : List ItemId :=
  (list.take place).filter (· ∉ moving) ++ block ++ (list.drop place).filter (· ∉ moving)

variable {list block : List ItemId} {i j : Nat}

/-- Moving items between two places make no difference between them. -/
theorem landed_skip (hle : i ≤ j)
    (hmoving : ∀ k, i ≤ k → k < j → ∀ item ∈ list[k]?, item ∈ moving) :
    landed list i moving block = landed list j moving block := by
  have hsplit : (list.drop i).take (j - i) ++ list.drop j = list.drop i := by
    have hdrop := List.take_append_drop (j - i) (list.drop i)
    rwa [List.drop_drop, Nat.add_sub_cancel' hle] at hdrop
  have htake : list.take j = list.take i ++ (list.drop i).take (j - i) := by
    rw [← List.take_add, Nat.add_sub_cancel' hle]
  have hnone : ((list.drop i).take (j - i)).filter (· ∉ moving) = [] := by
    rw [List.filter_eq_nil_iff]
    intro item hmem
    obtain ⟨k, hk⟩ := List.mem_iff_getElem?.mp hmem
    rw [List.getElem?_take] at hk
    split at hk
    · rename_i hlt
      rw [List.getElem?_drop] at hk
      simpa using hmoving (i + k) (by omega) (by omega) item hk
    · exact absurd hk (by simp)
  rw [landed, landed, ← hsplit, htake, List.filter_append, List.filter_append, hnone,
    List.nil_append, List.append_nil]

theorem landed_start : landed list 0 moving block = block ++ list.filter (· ∉ moving) := rfl

theorem landed_end (hle : list.length ≤ i) :
    landed list i moving block = list.filter (· ∉ moving) ++ block := by
  rw [landed, List.take_of_length_le hle, List.drop_of_length_le hle, List.filter_nil,
    List.append_nil]

/-- Put before an item that stays, a block lands at the item's place. -/
theorem insertBefore_landed (hnodup : list.Nodup) {item : ItemId} (hitem : list[i]? = some item)
    (hstays : item ∉ moving) :
    Lists.insertBefore item block (list.filter (· ∉ moving)) = landed list i moving block := by
  obtain ⟨hlt, he⟩ := List.getElem?_eq_some_iff.mp hitem
  have hdrop : list.drop i = item :: list.drop (i + 1) := by
    rw [List.drop_eq_getElem_cons hlt, he]
  have hsplit : list.filter (· ∉ moving) = (list.take i).filter (· ∉ moving) ++
      item :: (list.drop (i + 1)).filter (· ∉ moving) := by
    conv_lhs => rw [← List.take_append_drop i list, hdrop]
    rw [List.filter_append, List.filter_cons_of_pos (by simpa using hstays)]
  have hbefore : ∀ x ∈ (list.take i).filter (· ∉ moving), decide (x ≠ item) = true := by
    intro x hx
    rw [decide_eq_true_eq]
    rintro rfl
    have hmem := (List.mem_filter.mp hx).1
    rw [← List.take_append_drop i list, hdrop] at hnodup
    exact (List.nodup_append.mp hnodup).2.2 x hmem x List.mem_cons_self rfl
  rw [Lists.insertBefore, hsplit, List.takeWhile_append_of_pos hbefore,
    List.dropWhile_append_of_pos hbefore, landed, hdrop,
    List.filter_cons_of_pos (by simpa using hstays)]
  simp

/-! ### The names of rows -/

/-- `itemAt` names the item of each row that shows one. -/
def Names (l : Lists) (itemAt : Nat → Option ItemId) : Prop :=
  ∀ v < upNextRows l.manual.length l.upNext.length,
    itemAt v = (upNextRow v l.manual.length).place.bind fun place => l.upNext[place]?

variable {l : Lists}

theorem Names.manual (h : Names l itemAt) {k : Nat} (hk : k < l.manual.length) :
    itemAt (k + 1) = l.manual[k]? := by
  have hrows : k + 1 < upNextRows l.manual.length l.upNext.length := by
    unfold upNextRows contextHeading
    omega
  have hplace : (upNextRow (k + 1) l.manual.length).place = some k :=
    place_iff.2 (.inl (by omega))
  rw [h _ hrows, hplace]
  exact List.getElem?_append_left hk

theorem Names.context (h : Names l itemAt) {k : Nat} (hk : k < l.ahead.length) :
    itemAt (contextHeading l.manual.length + 1 + k) = l.ahead[k]? := by
  have hlength : l.upNext.length = l.manual.length + l.ahead.length := List.length_append
  have hrows : contextHeading l.manual.length + 1 + k <
      upNextRows l.manual.length l.upNext.length := by
    unfold upNextRows
    omega
  have hplace : (upNextRow (contextHeading l.manual.length + 1 + k) l.manual.length).place =
      some (l.manual.length + k) := place_iff.2 (.inr (by omega))
  rw [h _ hrows, hplace]
  change (l.manual ++ l.ahead)[l.manual.length + k]? = _
  rw [List.getElem?_append_right (by omega)]
  congr 1
  omega

/-- A row with no item has no name. -/
theorem Names.unnamed (h : Names l itemAt) {v : Nat}
    (hv : v = 0 ∨ v = contextHeading l.manual.length ∨ v = 1 ∧ l.manual.length = 0) :
    itemAt v = none := by
  have hheading : contextHeading l.manual.length = 1 + max l.manual.length 1 := rfl
  have hrows : v < upNextRows l.manual.length l.upNext.length := by
    unfold upNextRows
    omega
  have hplace : (upNextRow v l.manual.length).place = none := by
    cases hp : (upNextRow v l.manual.length).place with
    | none => rfl
    | some place =>
      have hitem := place_iff.1 hp
      omega
  rw [h v hrows, hplace]
  rfl

/-! ### Where the block lands -/

/-- The section a gap between rows lies in. -/
def gapSection (gap manual : Nat) : Section :=
  if gap ≤ contextHeading manual then .manual else .context

/-- The lists after a drop of `items` at `gap`: taken out, and put as one block into the gap's
section. -/
def dropped (l : Lists) (items : List ItemId) (gap : Nat) : Lists :=
  let block := l.upNext.filter (· ∈ items)
  match gapSection gap l.manual.length with
  | .manual =>
    { l.without items true with manual := landed l.manual (gap - 1) items block }
  | .context =>
    { l.without items false with
      ahead := landed l.ahead (gap - contextHeading l.manual.length - 1) items block }

theorem move_manual {items : List ItemId} {anchor : Anchor} {lists : List ItemId}
    (hmanual : l.toManual anchor = true)
    (hins : (l.without items true).insert (l.upNext.filter (· ∈ items)) anchor =
      some { l.without items true with manual := lists }) :
    l.move items anchor = some { l.without items true with manual := lists } := by
  rw [Lists.move, hmanual, hins]

/-- **A drop in the Manual Queue's rows lands there.** -/
theorem anchorAt_manual (hs : l.Sound) (h : Names l itemAt) {gap : Nat} {items : List ItemId}
    (hgap : gap ≤ contextHeading l.manual.length) :
    let anchor := anchorAt gap l.manual.length l.upNext.length itemAt items
    (∀ item, anchor = .before item → item ∉ items) ∧
      l.move items anchor = some (dropped l items gap) := by
  have hheading : contextHeading l.manual.length = 1 + max l.manual.length 1 := rfl
  have hrows : contextHeading l.manual.length <
      upNextRows l.manual.length l.upNext.length := by
    unfold upNextRows
    omega
  have hdropped : dropped l items gap = { l.without items true with
      manual := landed l.manual (gap - 1) items (l.upNext.filter (· ∈ items)) } := by
    rw [dropped, gapSection, if_pos hgap]
  obtain ⟨hle, -, hpast, hstop⟩ :=
    pastMoving_spec itemAt items (hgap.trans hrows.le)
  simp only [anchorAt]
  generalize pastMoving (upNextRows l.manual.length l.upNext.length) itemAt items gap = g at *
  -- The heading names no item, so the gap stops at it.
  have hg : g ≤ contextHeading l.manual.length := by
    by_contra hlt
    obtain ⟨item, hitem, -⟩ := hpast _ hgap (by omega)
    rw [h.unnamed (.inr (.inl rfl))] at hitem
    exact absurd hitem (by simp)
  have hzero : gap = 0 → g = 0 := by
    intro hzero
    by_contra hne
    obtain ⟨item, hitem, -⟩ := hpast 0 (by omega) (by omega)
    rw [h.unnamed (.inl rfl)] at hitem
    exact absurd hitem (by simp)
  have hskip : landed l.manual (gap - 1) items (l.upNext.filter (· ∈ items)) =
      landed l.manual (g - 1) items (l.upNext.filter (· ∈ items)) := by
    refine landed_skip (by omega) fun k hk hlt item hitem => ?_
    have hin : k < l.manual.length := (List.getElem?_eq_some_iff.mp hitem).1
    obtain ⟨moved, hmoved, hmem⟩ := hpast (k + 1) (by omega) (by omega)
    rw [h.manual hin, hitem] at hmoved
    exact Option.some.inj hmoved ▸ hmem
  rw [hdropped, hskip]
  by_cases hone : g ≤ 1
  · rw [if_pos hone]
    refine ⟨by simp, move_manual rfl ?_⟩
    have hstart : g - 1 = 0 := by omega
    rw [hstart, landed_start]
    rfl
  · rw [if_neg hone, if_pos hg]
    by_cases hin : 0 < l.manual.length ∧ g < contextHeading l.manual.length
    · have hlt : g - 1 < l.manual.length := by omega
      have hname : itemAt g = l.manual[g - 1]? := by
        have hmanual := h.manual hlt
        rwa [Nat.sub_add_cancel (by omega)] at hmanual
      have hitem := List.getElem?_eq_getElem hlt
      have hstays : l.manual[g - 1] ∉ items :=
        hstop (by omega) _ (hname.trans hitem)
      rw [if_pos hin, hname, hitem]
      refine ⟨fun item he => Anchor.before.inj he ▸ hstays, ?_⟩
      refine move_manual (by simp [beforeOr, Lists.toManual]) ?_
      have hkept : l.manual[g - 1] ∈ (l.without items true).manual := by
        simpa [Lists.without] using hstays
      have hnodup : l.manual.Nodup := (List.nodup_append.mp hs.upNext_nodup).1
      rw [← insertBefore_landed hnodup hitem hstays]
      simp only [beforeOr, Option.elim_some, Lists.insert, if_pos hkept]
      rfl
    · rw [if_neg hin]
      refine ⟨by simp [beforeOr], move_manual rfl ?_⟩
      rw [landed_end (by omega)]
      rfl

/-- **A drop in the context's rows lands there.** -/
theorem anchorAt_context (hs : l.Sound) (h : Names l itemAt) {gap : Nat} {items : List ItemId}
    (hgap : contextHeading l.manual.length < gap)
    (hgap' : gap ≤ upNextRows l.manual.length l.upNext.length) :
    let anchor := anchorAt gap l.manual.length l.upNext.length itemAt items
    (∀ item, anchor = .before item → item ∉ items) ∧
      l.move items anchor = some (dropped l items gap) := by
  have hheading : 2 ≤ contextHeading l.manual.length := by
    unfold contextHeading
    omega
  have hlength : l.upNext.length = l.manual.length + l.ahead.length := List.length_append
  have hrows : upNextRows l.manual.length l.upNext.length =
      contextHeading l.manual.length + 1 + l.ahead.length := by
    unfold upNextRows
    omega
  have hdropped : dropped l items gap = { l.without items false with
      ahead := landed l.ahead (gap - contextHeading l.manual.length - 1) items
        (l.upNext.filter (· ∈ items)) } := by
    rw [dropped, gapSection, if_neg (by omega)]
  obtain ⟨hle, hend, hpast, hstop⟩ := pastMoving_spec itemAt items hgap'
  simp only [anchorAt]
  generalize pastMoving (upNextRows l.manual.length l.upNext.length) itemAt items gap = g at *
  have hname : ∀ k < l.ahead.length,
      itemAt (contextHeading l.manual.length + 1 + k) = l.ahead[k]? := fun k hk => h.context hk
  have hskip : landed l.ahead (gap - contextHeading l.manual.length - 1) items
        (l.upNext.filter (· ∈ items)) =
      landed l.ahead (g - contextHeading l.manual.length - 1) items
        (l.upNext.filter (· ∈ items)) := by
    refine landed_skip (by omega) fun k hk hlt item hitem => ?_
    have hin : k < l.ahead.length := (List.getElem?_eq_some_iff.mp hitem).1
    obtain ⟨moved, hmoved, hmem⟩ :=
      hpast (contextHeading l.manual.length + 1 + k) (by omega) (by omega)
    rw [hname k hin, hitem] at hmoved
    exact Option.some.inj hmoved ▸ hmem
  rw [hdropped, hskip, if_neg (by omega), if_neg (by omega)]
  by_cases hlt : g < upNextRows l.manual.length l.upNext.length
  · have hin : g - contextHeading l.manual.length - 1 < l.ahead.length := by omega
    have hitem := List.getElem?_eq_getElem hin
    have hat : itemAt g = some l.ahead[g - contextHeading l.manual.length - 1] := by
      rw [← hitem, ← hname _ hin]
      congr 1
      omega
    have hstays := hstop hlt _ hat
    have hmem : l.ahead[g - contextHeading l.manual.length - 1] ∈ l.ahead := List.getElem_mem hin
    have hnot : l.ahead[g - contextHeading l.manual.length - 1] ∉ l.manual := fun hm =>
      (List.nodup_append.mp hs.upNext_nodup).2.2 _ hm _ hmem rfl
    rw [if_pos hlt, hat]
    refine ⟨fun item he => Anchor.before.inj he ▸ hstays, ?_⟩
    have hmanual : l.toManual
        (beforeOr (some l.ahead[g - contextHeading l.manual.length - 1]) .contextEnd) = false := by
      simpa [beforeOr, Lists.toManual] using hnot
    have hkept : l.ahead[g - contextHeading l.manual.length - 1] ∈
        (l.without items false).ahead := by
      simpa [Lists.without] using hstays
    have hgone : l.ahead[g - contextHeading l.manual.length - 1] ∉
        (l.without items false).manual := by
      simp [Lists.without, hnot]
    have hnodup : l.ahead.Nodup := (List.nodup_append.mp hs.upNext_nodup).2.1
    rw [Lists.move, hmanual, ← insertBefore_landed hnodup hitem hstays]
    simp only [beforeOr, Option.elim_some, Lists.insert, if_neg hgone, if_pos hkept]
    rfl
  · rw [if_neg hlt]
    refine ⟨by simp [beforeOr], ?_⟩
    rw [landed_end (by omega)]
    rfl

/-- **The panel's rows and its reads agree, and a drop lands where it shows.** The pieces of a range
of rows are the items its rows show, in order. In every queue, a drop of any items at any gap has an
anchor that is none of them, and the queue's move to it leaves the lists with the moved items as one
block in the gap's section, between the items above the gap and those below it that stay. -/
theorem rows_and_drops :
    (∀ manual upNext first last : Nat, manual ≤ upNext → first ≤ last →
      (upNextPieces first last manual upNext).flatMap Piece.rows =
        (List.range' first (last - first)).filterMap (shown manual upNext)) ∧
    ∀ (calls : List Call) (gap : Nat) (items : List ItemId) (itemAt : Nat → Option ItemId),
      let q := run calls
      let anchor := anchorAt gap q.lists.manual.length q.lists.upNext.length itemAt items
      gap ≤ upNextRows q.lists.manual.length q.lists.upNext.length → Names q.lists itemAt →
        (∀ item, anchor = .before item → item ∉ items) ∧
        (q.apply (.move items anchor)).1 = .ok () ∧
        (q.apply (.move items anchor)).2.lists = dropped q.lists items gap := by
  refine ⟨fun manual upNext first last _ _ => pieces_eq, ?_⟩
  intro calls gap items itemAt q anchor hgap hnames
  have hplaced : q.Placed := (run_valid calls).placed
  have hlands : (∀ item, anchor = .before item → item ∉ items) ∧
      q.lists.move items anchor = some (dropped q.lists items gap) := by
    by_cases hsection : gap ≤ contextHeading q.lists.manual.length
    · exact anchorAt_manual hplaced.sound hnames hsection
    · exact anchorAt_context hplaced.sound hnames (Nat.not_le.mp hsection) hgap
  obtain ⟨hstays, hmove⟩ := hlands
  obtain ⟨hgone, hanswer, -, hlists, -⟩ := hplaced.move_spec items anchor
  have hok : (q.moveItems items anchor).1 = .ok () := by
    refine hanswer.resolve_left fun herror => ?_
    obtain ⟨item, he, hor⟩ := hgone.mp herror
    refine hor.elim (fun hnot => ?_) (hstays item he)
    have hnone : q.lists.move items anchor = none := by
      rw [Lists.move, Lists.insert_eq_none]
      refine ⟨item, he, fun hmem => hnot ?_⟩
      rw [Lists.upNext_without] at hmem
      exact List.mem_of_mem_filter hmem
    rw [hnone] at hmove
    exact absurd hmove (by simp)
  exact ⟨hstays, hok, Option.some.inj ((hlists hok).symm.trans hmove)⟩

end JewelCase.Queue.Panel
