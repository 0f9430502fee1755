import JewelCase.Library.Lists
import JewelCase.Playlist.Undo

/-!
# Moves of the rows a list shows

`web/src/lib/playlist.svelte.ts`, `rowMoveOps`. A list shows the tracks of a playlist and leaves out
its external items, so a move of rows names positions through what is shown. Each row move is made
on the rows as the ones before it left them, and so is each op.
-/
namespace JewelCase.Playlist.Web

set_option autoImplicit false

open Library.Picks
open Library.Lists

variable {α β τ ρ : Type}

/-! ### The moves -/

/-- A move of the rows at `indexes` to `place` among the rest. -/
structure RowMove where
  indexes : List Int
  place : Int
deriving DecidableEq, Repr

/-- The move as an op on the rows alone. -/
def RowMove.op (m : RowMove) : PlaylistOp ρ := .move m.indexes m.place

/-- What is thrown: what an op throws, or that a row is not there. -/
inductive RowThrown where
  | op (e : Thrown)
  | notShown
deriving DecidableEq, Repr

/-- `xs[i]`, or `none` where there is no such element. -/
def readAt (xs : List α) (i : Int) : Option α := if i < 0 then none else xs[i.toNat]?

/-- No op of a move adds anything. -/
def addsNothing : Resolve ρ α := fun _ => .ok []

/-- The positions of the items that are shown. -/
def shown (track : α → Option τ) (items : List α) : List Nat :=
  items.zipIdx.flatMap fun (item, position) => if (track item).isSome then [position] else []

/-- The rows that are shown. -/
def rows (track : α → Option τ) (items : List α) : List τ := items.filterMap track

/-- Where the rows at `positions` go, in front of the row that will follow them, or at the end. -/
def landing (length : Nat) (positions rest : List Nat) (place : Int) : Int :=
  match readAt rest place with
  | none => length - positions.length
  | some next => next - (positions.filter (· < next)).length

/-- A row move as a move of positions, or `none` where a row is not there. -/
def rowMoveOp (track : α → Option τ) (items : List α) (m : RowMove) : Option (PlaylistOp ρ) :=
  (m.indexes.mapM (readAt (shown track items))).map fun positions =>
    let rest := (shown track items).filter fun p => !positions.contains p
    .move (whole positions) (landing items.length positions rest m.place)

/-- Moves of the rows as moves of positions in the playlist. -/
def rowMoveOps (track : α → Option τ) :
    List α → List RowMove → Except RowThrown (List (PlaylistOp ρ))
  | _, [] => .ok []
  | items, m :: moves =>
    match (rowMoveOp track items m : Option (PlaylistOp ρ)) with
    | none => .error .notShown
    | some op =>
      match applyOps addsNothing items [op] with
      | .error e => .error (.op e)
      | .ok items =>
        match (rowMoveOps track items moves : Except RowThrown (List (PlaylistOp ρ))) with
        | .error e => .error e
        | .ok ops => .ok (op :: ops)

/-- A move of distinct rows of `rows`, to a place among the others. -/
structure RowMove.Valid (m : RowMove) (rows : Nat) : Prop where
  distinct : m.indexes.Nodup
  shown : ∀ i ∈ m.indexes, 0 ≤ i ∧ i < rows
  place_nonneg : 0 ≤ m.place
  place_le : m.place ≤ rows - m.indexes.length

instance (m : RowMove) (rows : Nat) : Decidable (m.Valid rows) :=
  decidable_of_iff (m.indexes.Nodup ∧ (∀ i ∈ m.indexes, 0 ≤ i ∧ i < rows) ∧ 0 ≤ m.place ∧
      m.place ≤ rows - m.indexes.length)
    ⟨fun h => ⟨h.1, h.2.1, h.2.2.1, h.2.2.2⟩, fun h => ⟨h.1, h.2, h.3, h.4⟩⟩

/-- The rows that the moves take, each from the rows as the ones before left them. -/
def takenRows (rows : List α) : List RowMove → List α
  | [] => []
  | m :: moves =>
    m.indexes.filterMap (readAt rows) ++
      match applyOp rows (addsNothing : Resolve Unit α) m.op with
      | .error _ => []
      | .ok rows => takenRows rows moves

/-! ### What is read through what -/

theorem filterIdx_filterMap {f : α → Option β} {xs : List α} (h : Defined f xs)
    (p : Nat → Bool) : filterIdx p (xs.filterMap f) = (filterIdx p xs).filterMap f := by
  rw [filterIdx_eq_filterMap, filterIdx_eq_filterMap, List.filterMap_filterMap, h.length]
  congr 1
  funext i
  exact h.getElem? i

/-- A move goes through what the elements read. -/
theorem move_filterMap {f : α → Option β} {xs : List α} (h : Defined f xs) (ps : List Nat)
    (place : Nat) :
    (Op.move ps place).result (xs.filterMap f) =
      ((Op.move ps place).result xs).filterMap f := by
  have hkept : Defined f (filterIdx (fun i => !decide (i ∈ ps)) xs) :=
    h.sub (filterIdx_sublist _ _).subset
  simp only [Op.result, splice, kept, picked, filterIdx_filterMap h, List.filterMap_append,
    hkept.take, hkept.drop]

theorem filterIdx_range (p : Nat → Bool) (n : Nat) :
    filterIdx p (List.range n) = (List.range n).filter p := by
  refine zipIdx_filter p p _ 0 fun i x hx => ?_
  obtain ⟨hlt, rfl⟩ := List.getElem?_eq_some_iff.mp hx
  rw [Nat.zero_add, List.getElem_range]

theorem shown_eq (track : α → Option τ) (items : List α) :
    shown track items =
      (List.range items.length).filter fun i => ((items[i]?).bind track).isSome := by
  have hzip : ∀ (xs : List α) (k : Nat), (xs.zipIdx k).flatMap
      (fun (item, position) => if (track item).isSome then [position] else []) =
        (List.range' k xs.length).filter fun i => ((xs[i - k]?).bind track).isSome := by
    intro xs
    induction xs with
    | nil => intro k; rfl
    | cons x xs ih =>
      intro k
      have hrest : (List.range' (k + 1) xs.length).filter
          (fun i => (((x :: xs)[i - k]?).bind track).isSome) =
            (List.range' (k + 1) xs.length).filter fun i => ((xs[i - (k + 1)]?).bind track).isSome := by
        apply List.filter_congr
        intro i hi
        rw [List.mem_range'_1] at hi
        rw [show i - k = i - (k + 1) + 1 by omega, List.getElem?_cons_succ]
      rw [List.zipIdx_cons, List.flatMap_cons, ih, List.length_cons, List.range'_succ,
        List.filter_cons, hrest]
      simp only [Nat.sub_self, List.getElem?_cons_zero, Option.bind_some]
      split <;> rfl
  have h := hzip items 0
  simp only [Nat.sub_zero, ← List.range_eq_range'] at h
  exact h

theorem shown_filterMap (track : β → Option τ) {f : α → Option β} {xs : List α} (h : Defined f xs) :
    shown track (xs.filterMap f) = shown (fun x => (f x).bind track) xs := by
  rw [shown_eq, shown_eq, h.length]
  congr 1
  funext i
  rw [h.getElem?, Option.bind_assoc]

theorem rowMoveOp_filterMap (track : β → Option τ) {f : α → Option β} {xs : List α}
    (h : Defined f xs) (m : RowMove) :
    (rowMoveOp track (xs.filterMap f) m : Option (PlaylistOp ρ)) =
      rowMoveOp (fun x => (f x).bind track) xs m := by
  rw [rowMoveOp, rowMoveOp, shown_filterMap track h, h.length]

/-- The rows are the elements at the positions shown. -/
theorem rows_eq (track : α → Option τ) (items : List α) :
    rows track items = (shown track items).filterMap fun i => (items[i]?).bind track := by
  have hfilter : ∀ xs : List Nat, (xs.filter fun i => ((items[i]?).bind track).isSome).filterMap
      (fun i => (items[i]?).bind track) = xs.filterMap fun i => (items[i]?).bind track := by
    intro xs
    rw [List.filterMap_filter]
    apply List.filterMap_congr
    intro i _
    cases (items[i]?).bind track <;> rfl
  rw [shown_eq, hfilter, ← List.filterMap_filterMap, filterMap_range_get]
  rfl

/-! ### Where the rows land -/

section Landing

variable {n place : Nat} {visible : Nat → Bool} {indexes : List Nat}

/-- The positions in `shown` of the rows at `indexes`. -/
def positionsAt (shown indexes : List Nat) : List Nat := indexes.filterMap (shown[·]?)

theorem defined_positions {shown : List Nat} (h : ∀ i ∈ indexes, i < shown.length) :
    Defined (shown[·]?) indexes := by
  intro i hi
  show (shown[i]?).isSome
  rw [List.getElem?_eq_getElem (h i hi)]
  rfl

theorem mem_positionsAt {shown : List Nat} (hs : shown.Nodup) {i p : Nat} (hp : shown[i]? = some p) :
    p ∈ positionsAt shown indexes ↔ i ∈ indexes := by
  rw [positionsAt, List.mem_filterMap]
  constructor
  · rintro ⟨j, hj, hread⟩
    exact index_unique hs hp hread ▸ hj
  · intro hi
    exact ⟨i, hi, hp⟩

theorem selects_positionsAt {shown : List Nat} (hs : shown.Nodup) (hn : ∀ p ∈ shown, p < n)
    (h : Selects indexes shown.length) :
    Selects (positionsAt shown indexes) n ∧
      (positionsAt shown indexes).length = indexes.length := by
  have hdefined := defined_positions h.in_range
  refine ⟨⟨?_, ?_, ?_⟩, hdefined.length⟩
  · intro hnil
    exact h.nonempty (List.eq_nil_of_length_eq_zero (by rw [← hdefined.length]; exact congrArg _ hnil))
  · refine List.Nodup.filterMap ?_ h.nodup
    intro i j p hi hj
    exact index_unique hs hi hj
  · intro p hp
    obtain ⟨i, -, hread⟩ := List.mem_filterMap.mp hp
    exact hn p (List.mem_of_getElem? hread)

/-- Rows taken by index are those at the positions taken. -/
theorem cut_shown {shown : List Nat} (hs : shown.Nodup) :
    kept indexes shown = shown.filter (fun p => !decide (p ∈ positionsAt shown indexes)) ∧
      picked indexes shown = shown.filter (fun p => decide (p ∈ positionsAt shown indexes)) := by
  constructor
  · rw [kept, filterIdx]
    refine zipIdx_filter (fun i => !decide (i ∈ indexes)) _ _ 0 fun i p hp => ?_
    rw [Nat.zero_add]
    simp only [mem_positionsAt hs hp]
  · rw [picked, filterIdx]
    refine zipIdx_filter (fun i => decide (i ∈ indexes)) _ _ 0 fun i p hp => ?_
    rw [Nat.zero_add]
    simp only [mem_positionsAt hs hp]

/-- The first elements of an ascending list are those below the next. -/
theorem filter_lt_getElem {xs : List Nat} (h : xs.Pairwise (· < ·)) {i x : Nat}
    (hx : xs[i]? = some x) : xs.filter (fun y => decide (y < x)) = xs.take i := by
  obtain ⟨hi, rfl⟩ := List.getElem?_eq_some_iff.mp hx
  have hsplit : xs = xs.take i ++ xs[i] :: xs.drop (i + 1) := by
    rw [← List.drop_eq_getElem_cons hi, List.take_append_drop]
  have hup := h
  rw [hsplit, List.pairwise_append, List.pairwise_cons] at hup
  have hbefore : (xs.take i).filter (fun y => decide (y < xs[i])) = xs.take i := by
    refine List.filter_eq_self.mpr fun y hy => ?_
    exact decide_eq_true (hup.2.2 y hy _ List.mem_cons_self)
  have hafter : (xs[i] :: xs.drop (i + 1)).filter (fun y => decide (y < xs[i])) = [] := by
    refine List.filter_eq_nil_iff.mpr fun y hy => ?_
    rw [decide_eq_true_eq]
    rcases List.mem_cons.mp hy with rfl | hy
    · exact Nat.lt_irrefl _
    · exact Nat.lt_asymm (hup.2.1.1 y hy)
  calc xs.filter (fun y => decide (y < xs[i]))
      = (xs.take i ++ xs[i] :: xs.drop (i + 1)).filter (fun y => decide (y < xs[i])) :=
        congrArg _ hsplit
    _ = xs.take i := by rw [List.filter_append, hbefore, hafter, List.append_nil]

/-- The positions below `b` that are not taken. -/
theorem count_below {ps : List Nat} (hps : ps.Nodup) {b : Nat} (hb : b ≤ n) :
    (((List.range n).filter fun p => !decide (p ∈ ps)).filter fun p => decide (p < b)).length +
      (ps.filter fun p => decide (p < b)).length = b := by
  have hbelow : ((List.range n).filter fun p => !decide (p ∈ ps)).filter (fun p => decide (p < b)) =
      (List.range b).filter fun p => !decide (p ∈ ps) := by
    rw [List.filter_comm]
    congr 1
    refine List.Perm.eq_of_pairwise ?_ (List.pairwise_lt_range.filter _) List.pairwise_lt_range ?_
    · intro i j _ _ hij hji
      omega
    · rw [List.perm_ext_iff_of_nodup (List.nodup_range.filter _) List.nodup_range]
      intro i
      simp only [List.mem_filter, List.mem_range, decide_eq_true_eq]
      omega
  have htaken : (ps.filter fun p => decide (p < b)).length =
      ((List.range b).filter fun p => decide (p ∈ ps)).length := by
    apply List.Perm.length_eq
    rw [List.perm_ext_iff_of_nodup (hps.filter _) (List.nodup_range.filter _)]
    intro i
    simp only [List.mem_filter, List.mem_range, decide_eq_true_eq]
    exact and_comm
  have hsplit := filterIdx_length (fun p => decide (p ∈ ps)) (List.range b)
  rw [filterIdx_range, filterIdx_range, List.length_range] at hsplit
  rw [hbelow, htaken]
  omega

theorem length_rest {shown : List Nat} (hs : shown.Nodup) (h : Selects indexes shown.length) :
    (shown.filter fun p => !decide (p ∈ positionsAt shown indexes)).length + indexes.length =
      shown.length := by
  rw [← (cut_shown hs).1]
  exact h.length_kept

/-- The rows land with as many of the other rows in front of them as their place says. -/
theorem landing_spec (h : Selects indexes ((List.range n).filter visible).length)
    (hplace : place + indexes.length ≤ ((List.range n).filter visible).length) :
    let ps := positionsAt ((List.range n).filter visible) indexes
    let others := (List.range n).filter fun p => !decide (p ∈ ps)
    ∃ start : Nat, landing n ps (((List.range n).filter visible).filter
        fun p => !decide (p ∈ ps)) place = start ∧ start + ps.length ≤ n ∧
      ((others.take start).filter visible).length = place := by
  intro ps others
  have hs : ((List.range n).filter visible).Nodup := List.nodup_range.filter _
  obtain ⟨hsel, hlen⟩ := @selects_positionsAt n _ _ hs (fun p hp =>
    List.mem_range.mp (List.mem_filter.mp hp).1) h
  have hrest := length_rest hs h
  have hothers : others.length + ps.length = n := by
    have hkept := @Selects.length_kept _ ps (List.range n) (by rwa [List.length_range])
    rw [kept, filterIdx_range, List.length_range] at hkept
    exact hkept
  have hcomm : ((List.range n).filter visible).filter (fun p => !decide (p ∈ ps)) =
      others.filter visible := List.filter_comm ..
  rw [hcomm] at hrest ⊢
  have hup : others.Pairwise (· < ·) := List.pairwise_lt_range.filter _
  have hread : readAt (others.filter visible) (place : Int) = (others.filter visible)[place]? := by
    rw [readAt, if_neg (by omega), Int.toNat_natCast]
  rw [landing, hread]
  cases hnext : (others.filter visible)[place]? with
  | none =>
    -- Nothing follows them, so they land after all the others.
    have hend := List.getElem?_eq_none_iff.mp hnext
    refine ⟨others.length, by simp only; omega, by omega, ?_⟩
    rw [List.take_length]
    omega
  | some next =>
    have hmem := List.mem_filter.mp (List.mem_of_getElem? hnext)
    have hnext_lt : next < n := List.mem_range.mp (List.mem_filter.mp hmem.1).1
    obtain ⟨start, hstart⟩ := List.getElem?_of_mem hmem.1
    have hcount := count_below hsel.nodup hnext_lt.le
    have hbefore := filter_lt_getElem hup hstart
    have hstart_lt := (List.getElem?_eq_some_iff.mp hstart).1
    have hlength : (others.filter fun p => decide (p < next)).length = start := by
      rw [hbefore, List.length_take]
      omega
    have hbelow := filter_lt_getElem (hup.filter visible) hnext
    refine ⟨start, ?_, by omega, ?_⟩
    · have hsum : start + (ps.filter fun p => decide (p < next)).length = next := by
        rw [← hlength]
        exact hcount
      simp only
      omega
    · rw [← hbefore, List.filter_comm, hbelow, List.length_take]
      have := (List.getElem?_eq_some_iff.mp hnext).1
      omega

/-- **The positions shown move as the rows do.** -/
theorem move_shown {start : Nat} (hstart : (((((List.range n).filter fun p =>
      !decide (p ∈ positionsAt ((List.range n).filter visible) indexes))).take start).filter
        visible).length = place) :
    ((Op.move (positionsAt ((List.range n).filter visible) indexes) start).result
        (List.range n)).filter visible =
      (Op.move indexes place).result ((List.range n).filter visible) := by
  have hs : ((List.range n).filter visible).Nodup := List.nodup_range.filter _
  obtain ⟨hkept, hpicked⟩ := @cut_shown indexes _ hs
  simp only [Op.result, hkept, hpicked]
  generalize positionsAt ((List.range n).filter visible) indexes = ps at hstart ⊢
  have hrest : ((List.range n).filter visible).filter (fun p => !decide (p ∈ ps)) =
      (((List.range n).filter fun p => !decide (p ∈ ps)).take start).filter visible ++
        (((List.range n).filter fun p => !decide (p ∈ ps)).drop start).filter visible := by
    rw [← List.filter_append, List.take_append_drop, List.filter_comm]
  rw [hrest, splice, splice, kept, picked, filterIdx_range, filterIdx_range, List.filter_append,
    List.filter_append, List.take_left' hstart, List.drop_left' hstart]
  congr 2
  exact List.filter_comm ..

end Landing

/-! ### One move -/

variable {tr : α → Option τ} {xs : List α}

theorem length_rows : (rows tr xs).length = (shown tr xs).length := by
  rw [rows_eq]
  refine Defined.length fun i hi => ?_
  rw [shown_eq, List.mem_filter] at hi
  exact hi.2

theorem mapM_readAt {shown indexes : List Nat} (h : ∀ i ∈ indexes, i < shown.length) :
    (whole indexes).mapM (readAt shown) = some (positionsAt shown indexes) := by
  induction indexes with
  | nil => rfl
  | cons i indexes ih =>
    have hi := h i List.mem_cons_self
    have hread : readAt shown (i : Int) = some shown[i] := by
      rw [readAt, if_neg (by omega), Int.toNat_natCast, List.getElem?_eq_getElem hi]
    have hrest := ih fun j hj => h j (List.mem_cons_of_mem _ hj)
    rw [whole, List.map_cons, List.mapM_cons, hread, positionsAt,
      List.filterMap_cons_some (List.getElem?_eq_getElem hi)]
    rw [whole] at hrest
    simp only [Option.pure_def, Option.bind_eq_bind, Option.bind_some, hrest]
    rfl

/-- A row move by its numbers: the rows it names, and the op it becomes. -/
structure RowStep (tr : α → Option τ) (xs : List α) (m : RowMove) (indexes : List Nat)
    (place start : Nat) : Prop where
  named : m = ⟨whole indexes, place⟩
  selects : Selects indexes (shown tr xs).length
  fits : place + indexes.length ≤ (shown tr xs).length
  op : ∀ ρ : Type, (rowMoveOp tr xs m : Option (PlaylistOp ρ)) =
    some (.move (whole (positionsAt (shown tr xs) indexes)) start)
  accepted : ¬ (Op.move (α := α) (positionsAt (shown tr xs) indexes) start).Refused xs.length
  moves : ((Op.move (positionsAt (shown tr xs) indexes) start).result
      (List.range xs.length)).filter (fun i => ((xs[i]?).bind tr).isSome) =
    (Op.move indexes place).result (shown tr xs)

theorem exists_rowStep {m : RowMove} (h : m.Valid (rows tr xs).length) (hne : m.indexes ≠ []) :
    ∃ indexes place start, RowStep tr xs m indexes place start := by
  obtain ⟨hnodup, hshown, hnonneg, hle⟩ := h
  rw [length_rows] at hshown hle
  obtain ⟨indexes, hindexes⟩ : ∃ indexes, m.indexes = whole indexes :=
    ⟨_, whole_of_nonneg fun i hi => (hshown i hi).1⟩
  obtain ⟨place, hplace⟩ := Int.eq_ofNat_of_zero_le hnonneg
  have hsel : Selects indexes (shown tr xs).length := by
    refine ⟨?_, ?_, fun i hi => ?_⟩
    · rintro rfl
      exact hne hindexes
    · rw [hindexes, whole] at hnodup
      exact hnodup.of_map _
    · have := (hshown i (hindexes ▸ mem_whole.2 hi)).2
      omega
  have hlength : m.indexes.length = indexes.length := by rw [hindexes, whole, List.length_map]
  have hfits : place + indexes.length ≤ (shown tr xs).length := by omega
  have hsel' := hsel
  have hfits' := hfits
  rw [shown_eq] at hsel' hfits'
  obtain ⟨start, hland, hstart, hahead⟩ := landing_spec hsel' hfits'
  rw [← shown_eq] at hland hstart
  have hpositions := @selects_positionsAt xs.length indexes (shown tr xs)
    (by rw [shown_eq]; exact List.nodup_range.filter _)
    (fun p hp => by
      rw [shown_eq, List.mem_filter, List.mem_range] at hp
      exact hp.1) hsel
  refine ⟨indexes, place, start, ?_, hsel, hfits, fun ρ => ?_, ?_, ?_⟩
  · rw [← hindexes, ← hplace]
  · rw [rowMoveOp, hindexes, mapM_readAt hsel.in_range, hplace, Option.map_some]
    simp only [List.contains_eq_mem, hland]
  · rw [Op.Refused, not_or, not_not, Nat.not_lt]
    exact ⟨hpositions.1, by omega⟩
  · have hmove := move_shown hahead
    rw [← shown_eq] at hmove
    exact hmove

/-- What one row move leaves of the items. -/
def moved (tr : α → Option τ) (xs : List α) (indexes : List Nat) (start : Nat) : List α :=
  (Op.move (positionsAt (shown tr xs) indexes) start).result xs

theorem visible_eq (xs : List α) :
    xs.filter (fun x => (tr x).isSome) = rows (fun x => (tr x).map fun _ => x) xs := by
  rw [rows, ← List.filterMap_eq_filter]
  apply List.filterMap_congr
  intro y _
  rw [Option.guard]
  cases tr y <;> rfl

theorem shown_marked : shown (fun x => (tr x).map fun _ => x) xs = shown tr xs := by
  rw [shown_eq, shown_eq]
  congr 1
  funext i
  cases xs[i]? with
  | none => rfl
  | some y => exact Option.isSome_map

theorem moved_perm (indexes : List Nat) (start : Nat) : (moved tr xs indexes start).Perm xs :=
  (insert_perm _ _ _).trans (picked_perm_kept _ _)

section Step

variable {m : RowMove} {indexes : List Nat} {place start : Nat}
  (h : RowStep tr xs m indexes place start)

include h

theorem RowStep.rows_moved :
    rows tr (moved tr xs indexes start) = (Op.move indexes place).result (rows tr xs) := by
  have hget : Defined (xs[·]?) (List.range xs.length) := by
    intro i hi
    show (xs[i]?).isSome
    rw [List.getElem?_eq_getElem (List.mem_range.mp hi)]
    rfl
  have hshown : Defined (fun i => (xs[i]?).bind tr) (shown tr xs) := by
    intro i hi
    rw [shown_eq, List.mem_filter] at hi
    exact hi.2
  have hresult := move_filterMap hget (positionsAt (shown tr xs) indexes) start
  rw [filterMap_range_get] at hresult
  have hfilter : ∀ is : List Nat, (is.filter fun i => ((xs[i]?).bind tr).isSome).filterMap
      (fun i => (xs[i]?).bind tr) = is.filterMap fun i => (xs[i]?).bind tr := by
    intro is
    rw [List.filterMap_filter]
    apply List.filterMap_congr
    intro i _
    cases (xs[i]?).bind tr <;> rfl
  rw [rows, moved, hresult, List.filterMap_filterMap, ← hfilter, h.moves, rows_eq,
    move_filterMap hshown]

/-- The op does the move, whatever is read of the items. -/
theorem RowStep.applies {γ : Type} {f : α → Option γ} (hf : Defined f xs)
    (resolve : Resolve ρ γ) :
    applyOp (xs.filterMap f) resolve
        (.move (whole (positionsAt (shown tr xs) indexes)) start) =
      .ok ((moved tr xs indexes start).filterMap f) := by
  rw [applyOp_means (.move _ _), move_filterMap hf, hf.length]
  exact ⟨h.accepted, rfl⟩

/-- The rows alone make the move. -/
theorem RowStep.rows_apply (resolve : Resolve ρ τ) :
    applyOp (rows tr xs) resolve m.op = .ok (rows tr (moved tr xs indexes start)) := by
  have hop : (m.op : PlaylistOp ρ) = .move (whole indexes) place := by
    rw [h.named]
    rfl
  rw [hop, applyOp_means (.move _ _), h.rows_moved, Op.Refused, not_or, not_not, Nat.not_lt,
    length_rows]
  have := h.fits
  exact ⟨⟨h.selects, by omega⟩, rfl⟩

/-- The items taken are those of the rows named. -/
theorem RowStep.mem_taken {x : α} (hx : x ∈ picked (positionsAt (shown tr xs) indexes) xs) :
    x ∈ m.indexes.filterMap (readAt (xs.filter fun x => (tr x).isSome)) := by
  have hdefined : Defined (fun i => (xs[i]?).bind fun x => (tr x).map fun _ => x)
      (shown tr xs) := by
    intro i hi
    rw [← shown_marked, shown_eq, List.mem_filter] at hi
    exact hi.2
  rw [picked, filterIdx_eq_filterMap, List.mem_filterMap] at hx
  obtain ⟨p, hp, hread⟩ := hx
  have hps := of_decide_eq_true (List.mem_filter.mp hp).2
  obtain ⟨i, hi, hshown⟩ := List.mem_filterMap.mp hps
  rw [h.named, List.mem_filterMap]
  refine ⟨i, mem_whole.2 hi, ?_⟩
  rw [readAt, if_neg (by omega), Int.toNat_natCast, visible_eq, rows_eq, shown_marked, hdefined.getElem?,
    hshown, Option.bind_some, hread, Option.bind_some]
  have hvisible : ((xs[p]?).bind tr).isSome := by
    have := List.mem_of_getElem? hshown
    rw [shown_eq, List.mem_filter] at this
    exact this.2
  rw [hread, Option.bind_some] at hvisible
  obtain ⟨t, ht⟩ := Option.isSome_iff_exists.mp hvisible
  rw [ht]
  rfl

/-- What is not taken keeps its order. -/
theorem RowStep.filter_moved {keep : α → Bool}
    (hkeep : ∀ x ∈ m.indexes.filterMap (readAt (xs.filter fun x => (tr x).isSome)),
      keep x = false) :
    (moved tr xs indexes start).filter keep = xs.filter keep := by
  have htaken : (picked (positionsAt (shown tr xs) indexes) xs).filter keep = [] := by
    refine List.filter_eq_nil_iff.mpr fun x hx => ?_
    rw [hkeep x (h.mem_taken hx)]
    exact Bool.false_ne_true
  have hpicked : ∀ i x, xs[i]? = some x → i ∈ positionsAt (shown tr xs) indexes →
      keep x = false := by
    intro i x hx hi
    refine hkeep x (h.mem_taken ?_)
    rw [picked, filterIdx_eq_filterMap, List.mem_filterMap]
    refine ⟨i, List.mem_filter.mpr ⟨?_, decide_eq_true hi⟩, hx⟩
    exact List.mem_range.mpr (List.getElem?_eq_some_iff.mp hx).1
  have hkept : (kept (positionsAt (shown tr xs) indexes) xs).filter keep = xs.filter keep := by
    rw [kept, filterIdx, List.filter_map, List.filter_filter]
    have hboth : xs.zipIdx.filter (fun x => (keep ∘ Prod.fst) x &&
        !decide (x.2 ∈ positionsAt (shown tr xs) indexes)) =
          xs.zipIdx.filter (keep ∘ Prod.fst) := by
      apply List.filter_congr
      rintro ⟨x, i⟩ hx
      have hget : xs[i]? = some x := List.mem_zipIdx_iff_getElem?.mp hx
      by_cases hi : i ∈ positionsAt (shown tr xs) indexes
      · simp only [Function.comp, hpicked i x hget hi, Bool.false_and]
      · simp only [Function.comp, hi, decide_false, Bool.not_false, Bool.and_true]
    rw [hboth, ← List.filter_map, List.zipIdx_map_fst]
  rw [moved, Op.result, splice, List.filter_append, List.filter_append, htaken, List.append_nil,
    ← List.filter_append, List.take_append_drop, hkept]

end Step

/-! ### A sequence of moves -/

/-- What the ops of a sequence of row moves do, whatever is read of the items: the rows move as the
row moves say, and what is not taken keeps its order. -/
structure RowsMoved (tr : α → Option τ) (xs : List α) (moves : List RowMove)
    (ops : List (PlaylistOp ρ)) (after : List α) : Prop where
  ops_eq : ∀ {γ : Type} (f : α → Option γ) (track : γ → Option τ),
    (∀ x, (f x).bind track = tr x) → Defined f xs →
      rowMoveOps track (xs.filterMap f) moves = .ok ops
  applies : ∀ {γ : Type} (f : α → Option γ) (resolve : Resolve ρ γ), Defined f xs →
    applyOps resolve (xs.filterMap f) ops = .ok (after.filterMap f)
  rows_apply : ∀ resolve : Resolve ρ τ,
    applyOps resolve (rows tr xs) (moves.map RowMove.op) = .ok (rows tr after)
  perm : after.Perm xs
  taken : ∀ x ∈ takenRows (xs.filter fun x => (tr x).isSome) moves, (tr x).isSome
  order : ∀ keep : α → Bool,
    (∀ x ∈ takenRows (xs.filter fun x => (tr x).isSome) moves, keep x = false) →
      after.filter keep = xs.filter keep

/-- The visible items make the move as the rows do. -/
theorem RowStep.marked {m : RowMove} {indexes : List Nat} {place start : Nat}
    (h : RowStep tr xs m indexes place start) :
    RowStep (fun x => (tr x).map fun _ => x) xs m indexes place start := by
  obtain ⟨hnamed, hselects, hfits, hop, haccepted, hmoves⟩ := h
  have hsome : ∀ i : Nat, ((xs[i]?).bind fun x => (tr x).map fun _ => x).isSome =
      ((xs[i]?).bind tr).isSome := by
    intro i
    cases xs[i]? with
    | none => rfl
    | some y => exact Option.isSome_map
  refine ⟨hnamed, ?_, ?_, fun ρ => ?_, ?_, ?_⟩
  · rwa [shown_marked]
  · rwa [shown_marked]
  · rw [rowMoveOp, shown_marked, ← hop ρ, rowMoveOp]
  · rwa [shown_marked]
  · simp only [hsome, shown_marked]
    exact hmoves

theorem rows_moved_nil : RowsMoved tr xs [] ([] : List (PlaylistOp ρ)) xs where
  ops_eq _ _ _ _ := rfl
  applies _ _ _ := rfl
  rows_apply _ := rfl
  perm := List.Perm.refl _
  taken := fun _ hx => absurd hx List.not_mem_nil
  order _ _ := rfl

/-- **One more move**, made before the others. -/
theorem RowsMoved.cons {m : RowMove} {indexes : List Nat} {place start : Nat}
    (h : RowStep tr xs m indexes place start) {moves : List RowMove}
    {ops : List (PlaylistOp ρ)} {after : List α}
    (hrest : RowsMoved tr (moved tr xs indexes start) moves ops after) :
    RowsMoved tr xs (m :: moves)
      (.move (whole (positionsAt (shown tr xs) indexes)) start :: ops) after := by
  have htaken : takenRows (xs.filter fun x => (tr x).isSome) (m :: moves) =
      m.indexes.filterMap (readAt (xs.filter fun x => (tr x).isSome)) ++
        takenRows ((moved tr xs indexes start).filter fun x => (tr x).isSome) moves := by
    have hmoved : moved (fun x => (tr x).map fun _ => x) xs indexes start =
        moved tr xs indexes start := by
      rw [moved, moved, shown_marked]
    have happly := h.marked.rows_apply (addsNothing : Resolve Unit α)
    rw [hmoved, ← visible_eq, ← visible_eq] at happly
    rw [takenRows, happly]
  have hsub : ∀ {γ : Type} {f : α → Option γ}, Defined f xs → Defined f (moved tr xs indexes start) :=
    fun hf => hf.sub (moved_perm indexes start).subset
  refine ⟨fun f track hread hf => ?_, fun f resolve hf => ?_, fun resolve => ?_,
    hrest.perm.trans (moved_perm indexes start), ?_, fun keep hkeep => ?_⟩
  · have hop : (rowMoveOp track (xs.filterMap f) m : Option (PlaylistOp ρ)) = _ :=
      (rowMoveOp_filterMap track hf m).trans (by simp only [hread]; exact h.op ρ)
    rw [rowMoveOps, hop]
    simp only [applyOps, h.applies hf, hrest.ops_eq f track hread (hsub hf)]
  · rw [applyOps_cons (h.applies hf resolve)]
    exact hrest.applies f resolve (hsub hf)
  · rw [List.map_cons, applyOps_cons (h.rows_apply resolve)]
    exact hrest.rows_apply resolve
  · intro x hx
    rw [htaken, List.mem_append] at hx
    rcases hx with hx | hx
    · obtain ⟨i, -, hread⟩ := List.mem_filterMap.mp hx
      have hmem : x ∈ xs.filter fun x => (tr x).isSome := by
        rw [readAt] at hread
        split at hread
        · cases hread
        · exact List.mem_of_getElem? hread
      exact (List.mem_filter.mp hmem).2
    · exact hrest.taken x hx
  · rw [htaken] at hkeep
    rw [hrest.order keep fun x hx => hkeep x (List.mem_append_right _ hx),
      h.filter_moved fun x hx => hkeep x (List.mem_append_left _ hx)]

/-- **Valid moves become ops that make them.** -/
theorem exists_rowsMoved (moves : List RowMove)
    (h : ∀ m ∈ moves, m.Valid (rows tr xs).length ∧ m.indexes ≠ []) :
    ∃ (ops : List (PlaylistOp ρ)) (after : List α), RowsMoved tr xs moves ops after := by
  induction moves generalizing xs with
  | nil => exact ⟨[], xs, rows_moved_nil⟩
  | cons m moves ih =>
    obtain ⟨hm, hmoves⟩ := List.forall_mem_cons.mp h
    obtain ⟨indexes, place, start, hstep⟩ := exists_rowStep hm.1 hm.2
    have hlength : (rows tr (moved tr xs indexes start)).length = (rows tr xs).length :=
      ((moved_perm indexes start).filterMap tr).length_eq
    obtain ⟨ops, after, hrest⟩ := ih fun m hm => hlength ▸ hmoves m hm
    exact ⟨_, _, hrest.cons hstep⟩

/-- Row moves, each of one or more rows, become ops that any playlist of these items accepts. The
tracks are then the rows as the row moves leave them, and `places` says which item stands where: the
items that are no moved row, external ones among them, stand in the order they had. -/
theorem rowMoveOps_moves (track : α → Option τ) (items : List α) (moves : List RowMove)
    (hvalid : ∀ m ∈ moves, m.Valid (rows track items).length ∧ m.indexes ≠ []) :
    ∃ (ops : List (PlaylistOp ρ)) (places : List Nat),
      rowMoveOps track items moves = .ok ops ∧
      (∀ resolve : Resolve ρ α,
        applyOps resolve items ops = .ok (places.filterMap (items[·]?))) ∧
      (∀ resolve : Resolve ρ τ, applyOps resolve (rows track items) (moves.map RowMove.op) =
        .ok (rows track (places.filterMap (items[·]?)))) ∧
      places.Perm (List.range items.length) ∧
      (∀ p ∈ takenRows (shown track items) moves, p ∈ shown track items) ∧
      places.filter (· ∉ takenRows (shown track items) moves) =
        (List.range items.length).filter (· ∉ takenRows (shown track items) moves) ∧
      (places.filterMap (items[·]?)).filter (fun item => (track item).isNone) =
        items.filter fun item => (track item).isNone := by
  have hget : Defined (items[·]?) (List.range items.length) := by
    intro i hi
    show (items[i]?).isSome
    rw [List.getElem?_eq_getElem (List.mem_range.mp hi)]
    rfl
  have hrows : rows (fun i => (items[i]?).bind track) (List.range items.length) =
      rows track items := by
    rw [rows, rows, ← List.filterMap_filterMap, filterMap_range_get]
  obtain ⟨ops, places, hmoved⟩ := @exists_rowsMoved _ _ ρ (fun i => (items[i]?).bind track)
    (List.range items.length) moves (by rw [hrows]; exact hvalid)
  have hshown : (List.range items.length).filter (fun i => ((items[i]?).bind track).isSome) =
      shown track items := (shown_eq track items).symm
  have hops := hmoved.ops_eq (items[·]?) track (fun _ => rfl) hget
  have happlies := fun resolve : Resolve ρ α => hmoved.applies (items[·]?) resolve hget
  have halone := hmoved.rows_apply
  have htaken := hmoved.taken
  have horder := hmoved.order
  rw [filterMap_range_get] at hops
  simp only [filterMap_range_get] at happlies
  simp only [hrows] at halone
  rw [hshown] at htaken horder
  refine ⟨ops, places, hops, happlies, fun resolve => ?_, hmoved.perm, fun p hp => ?_, ?_, ?_⟩
  · rw [halone, rows, rows, List.filterMap_filterMap]
  · rw [shown_eq, List.mem_filter, List.mem_range]
    have hsome := htaken p hp
    obtain ⟨item, hread, -⟩ := Option.bind_eq_some_iff.mp (Option.eq_some_of_isSome hsome)
    exact ⟨(List.getElem?_eq_some_iff.mp hread).1, hsome⟩
  · refine horder _ fun p hp => ?_
    rw [decide_eq_false_iff_not, not_not]
    exact hp
  · have hexternal := horder (fun i => (items[i]?).all fun item => (track item).isNone) (by
      intro p hp
      obtain ⟨item, hread, ht⟩ := Option.bind_eq_some_iff.mp
        (Option.eq_some_of_isSome (htaken p hp))
      rw [hread, Option.all_some, ht]
      rfl)
    have hread := congrArg (List.filterMap (items[·]?)) hexternal
    rw [filterMap_filter_read, filterMap_filter_read, filterMap_range_get] at hread
    exact hread

/-- Two rows each step up past the one before, an external item between them. -/
theorem rowMoveOps_moves_step_up :
    ∃ (ops : List (PlaylistOp Unit)) (places : List Nat),
      rowMoveOps id [some 1, none, some 2, some 3, some 4] [⟨[1], 0⟩, ⟨[3], 2⟩] = .ok ops ∧
      ∀ resolve : Resolve Unit (Option Nat),
        applyOps resolve [some 1, none, some 2, some 3, some 4] ops =
          .ok (places.filterMap ([some 1, none, some 2, some 3, some 4][·]?)) := by
  obtain ⟨ops, places, hops, happly, -⟩ := @rowMoveOps_moves (Option Nat) Nat Unit id
    [some 1, none, some 2, some 3, some 4] [⟨[1], 0⟩, ⟨[3], 2⟩] (by decide)
  exact ⟨ops, places, hops, happly⟩

/-- A move of no rows is refused, as the op it becomes names no position. -/
theorem no_rows_refused :
    (RowMove.mk [] 0).Valid (rows id [some 1]).length ∧
      (rowMoveOps id [some 1] [⟨[], 0⟩] : Except RowThrown (List (PlaylistOp Unit))) =
        .error (.op .noPositions) := by
  decide

end JewelCase.Playlist.Web
