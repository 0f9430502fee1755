import JewelCase.Playlist.WebOps

/-!
# A playlist cut at a selection

Ascending positions fall into runs of consecutive ones. Cut at the runs, a playlist is pieces, each
the items up to a run and the run itself, and what is left after the last. The items selected are
the runs, and the others are the gaps and the rest.
-/
namespace JewelCase.Playlist

set_option autoImplicit false

open Library.Picks

variable {α ρ : Type}

/-! ### Pieces -/

/-- The items up to a run, and the run. -/
structure Piece (α : Type) where
  gap : List α
  run : List α

def weave (ws : List (Piece α)) : List α := ws.flatMap fun w => w.gap ++ w.run

def gaps (ws : List (Piece α)) : List α := ws.flatMap (·.gap)

def blocks (ws : List (Piece α)) : List α := ws.flatMap (·.run)

@[simp] theorem weave_nil : weave ([] : List (Piece α)) = [] := rfl
@[simp] theorem gaps_nil : gaps ([] : List (Piece α)) = [] := rfl
@[simp] theorem blocks_nil : blocks ([] : List (Piece α)) = [] := rfl
@[simp] theorem weave_cons (w : Piece α) (ws : List (Piece α)) :
    weave (w :: ws) = w.gap ++ (w.run ++ weave ws) := by simp [weave]
@[simp] theorem gaps_cons (w : Piece α) (ws : List (Piece α)) :
    gaps (w :: ws) = w.gap ++ gaps ws := by simp [gaps]
@[simp] theorem blocks_cons (w : Piece α) (ws : List (Piece α)) :
    blocks (w :: ws) = w.run ++ blocks ws := by simp [blocks]

/-- Where the runs start and how long they are, the first piece starting at `o`. -/
def starts (o : Nat) : List (Piece α) → List (Nat × Nat)
  | [] => []
  | w :: ws => (o + w.gap.length, w.run.length) :: starts (o + w.gap.length + w.run.length) ws

theorem starts_ge {o : Nat} {ws : List (Piece α)} : ∀ b ∈ starts o ws, o ≤ b.1 := by
  induction ws generalizing o with
  | nil => simp [starts]
  | cons w ws ih =>
    intro b hb
    rcases List.mem_cons.mp hb with rfl | hb
    · exact Nat.le_add_right _ _
    · have := ih b hb
      omega

/-- Whether `i` is in one of the runs. -/
def InRun (bs : List (Nat × Nat)) (i : Nat) : Prop := ∃ b ∈ bs, b.1 ≤ i ∧ i < b.1 + b.2

/-- The runs are what is picked, and the gaps and the rest what is not. -/
theorem filterIdx_pieces {p : Nat → Bool} {o : Nat} {ws : List (Piece α)} (rest : List α)
    (hp : ∀ i, o ≤ i → (p i = true ↔ InRun (starts o ws) i)) :
    filterIdx (fun i => p (o + i)) (weave ws ++ rest) = blocks ws ∧
      filterIdx (fun i => !p (o + i)) (weave ws ++ rest) = gaps ws ++ rest := by
  induction ws generalizing o with
  | nil =>
    have hno : ∀ i, p (o + i) = false := by
      intro i
      rw [Bool.eq_false_iff]
      intro hi
      obtain ⟨b, hb, -⟩ := (hp (o + i) (by omega)).mp hi
      cases hb
    exact ⟨filterIdx_none fun i _ => hno i, filterIdx_all fun i _ => by rw [hno i, Bool.not_false]⟩
  | cons w ws ih =>
    have hgap : ∀ i < w.gap.length, p (o + i) = false := by
      intro i hi
      rw [Bool.eq_false_iff]
      intro ht
      obtain ⟨b, hb, hlo, -⟩ := (hp (o + i) (by omega)).mp ht
      rcases List.mem_cons.mp hb with rfl | hb
      · simp only at hlo
        omega
      · have := starts_ge b hb
        omega
    have hrun : ∀ i < w.run.length, p (o + (w.gap.length + i)) = true := by
      intro i hi
      exact (hp _ (by omega)).mpr ⟨_, List.mem_cons_self, by simp only; omega, by simp only; omega⟩
    have hnext : ∀ i, o + w.gap.length + w.run.length ≤ i →
        (p i = true ↔ InRun (starts (o + w.gap.length + w.run.length) ws) i) := by
      intro i hi
      rw [hp i (by omega)]
      constructor
      · rintro ⟨b, hb, hlo, hhi⟩
        rcases List.mem_cons.mp hb with rfl | hb
        · simp only at hhi
          omega
        · exact ⟨b, hb, hlo, hhi⟩
      · rintro ⟨b, hb, h⟩
        exact ⟨b, List.mem_cons_of_mem _ hb, h⟩
    obtain ⟨ih₁, ih₂⟩ := ih hnext
    simp only [Nat.add_assoc] at ih₁ ih₂
    have hsplit : weave (w :: ws) ++ rest = w.gap ++ (w.run ++ (weave ws ++ rest)) := by simp
    rw [hsplit]
    constructor
    · rw [filterIdx_append, filterIdx_append, ih₁, filterIdx_none hgap, filterIdx_all hrun,
        blocks_cons, List.nil_append]
    · rw [filterIdx_append, filterIdx_append, ih₂, filterIdx_all fun i hi => by rw [hgap i hi]; rfl,
        filterIdx_none fun i hi => by rw [hrun i hi]; rfl, gaps_cons, List.nil_append,
        List.append_assoc]

/-! ### Runs of consecutive positions -/

/-- Runs that are not empty and do not touch. -/
def Apart (bs : List (Nat × Nat)) : Prop :=
  (∀ b ∈ bs, 0 < b.2) ∧ bs.Pairwise fun a b => a.1 + a.2 < b.1

def positionsOf (bs : List (Nat × Nat)) : List Nat := bs.flatMap fun b => List.range' b.1 b.2

theorem mem_positionsOf {bs : List (Nat × Nat)} {i : Nat} :
    i ∈ positionsOf bs ↔ InRun bs i := by
  simp only [positionsOf, InRun, List.mem_flatMap, List.mem_range'_1]

/-- A playlist cut at runs that lie in it. -/
theorem exists_pieces {bs : List (Nat × Nat)} (hb : Apart bs) {o : Nat} {items : List α}
    (hlo : ∀ b ∈ bs, o ≤ b.1) (hhi : ∀ b ∈ bs, b.1 + b.2 ≤ o + items.length) :
    ∃ ws rest, items = weave ws ++ rest ∧ starts o ws = bs ∧ (∀ w ∈ ws, w.run ≠ []) ∧
      ∀ w ∈ ws.tail, w.gap ≠ [] := by
  induction bs generalizing o items with
  | nil => exact ⟨[], items, rfl, rfl, by simp, by simp⟩
  | cons b bs ih =>
    obtain ⟨hpos, hpw⟩ := hb
    obtain ⟨hnext, hpw⟩ := List.pairwise_cons.mp hpw
    have hb₀ := hlo b (by simp)
    have hb₁ := hhi b (by simp)
    have hb₂ := hpos b (by simp)
    obtain ⟨ws, rest, hitems, hstarts, hruns, hgaps⟩ := @ih
      ⟨fun c hc => hpos c (List.mem_cons_of_mem _ hc), hpw⟩ (b.1 + b.2)
      (items.drop (b.1 - o + b.2)) (fun c hc => Nat.le_of_lt (hnext c hc)) (by
        intro c hc
        have := hhi c (List.mem_cons_of_mem _ hc)
        rw [List.length_drop]
        omega)
    have hgap : (items.take (b.1 - o)).length = b.1 - o := by
      rw [List.length_take]
      omega
    have hrun : ((items.drop (b.1 - o)).take b.2).length = b.2 := by
      rw [List.length_take, List.length_drop]
      omega
    refine ⟨⟨items.take (b.1 - o), (items.drop (b.1 - o)).take b.2⟩ :: ws, rest, ?_, ?_, ?_, ?_⟩
    · rw [weave_cons, List.append_assoc, List.append_assoc, ← hitems, ← List.drop_drop,
        List.take_append_drop, List.take_append_drop]
    · simp only [starts, hgap, hrun]
      rw [show o + (b.1 - o) = b.1 by omega, hstarts]
    · intro w hw
      rcases List.mem_cons.mp hw with rfl | hw
      · intro he
        simp only at he
        rw [he] at hrun
        simp only [List.length_nil] at hrun
        omega
      · exact hruns w hw
    · intro w hw
      cases ws with
      | nil => cases hw
      | cons w' ws =>
        rcases List.mem_cons.mp hw with rfl | hw
        · intro he
          have hhead : (b.1 + b.2 + w.gap.length, w.run.length) ∈ bs :=
            hstarts ▸ List.mem_cons_self
          have := hnext _ hhead
          simp only [he, List.length_nil] at this
          omega
        · exact hgaps w hw

namespace Web

theorem range_whole (start len : Nat) : range start (start + len) = whole (List.range' start len) := by
  rw [range, whole, List.range'_eq_map_range, List.map_map]
  have : (((start : Int) + len) - start).toNat = len := by omega
  rw [this]
  apply List.map_congr_left
  intro i _
  simp

/-- The runs of ascending positions. -/
theorem runs_whole {ps : List Nat} (h : ps.Pairwise (· < ·)) :
    ∃ bs, runs (whole ps) = bs.map (fun b => whole (List.range' b.1 b.2)) ∧ Apart bs ∧
      positionsOf bs = ps := by
  induction ps using List.reverseRecOn with
  | nil => exact ⟨[], rfl, ⟨by simp, .nil⟩, rfl⟩
  | append_singleton ps p ih =>
    obtain ⟨hps, -, hlt⟩ := List.pairwise_append.mp h
    obtain ⟨bs, hbs, ⟨hpos, hpw⟩, rfl⟩ := ih hps
    have hsnoc : runs (whole (positionsOf bs ++ [p])) =
        pushRun (bs.map fun b => whole (List.range' b.1 b.2)) p := by
      rw [← hbs, whole, List.map_append, runs, List.foldl_append]
      rfl
    have hend : ∀ b ∈ bs, b.1 + b.2 ≤ p := by
      intro b hb
      have hb₂ := hpos b hb
      have := hlt (b.1 + b.2 - 1) (mem_positionsOf.2 ⟨b, hb, by omega, by omega⟩) p (by simp)
      omega
    rw [hsnoc]
    rcases List.eq_nil_or_concat bs with rfl | ⟨front, b, hcat⟩
    · exact ⟨[(p, 1)], rfl, ⟨by simp, by simp⟩, rfl⟩
    · rw [List.concat_eq_append] at hcat
      subst hcat
      have hb₂ := hpos b (by simp)
      have hbp := hend b (by simp)
      have hlast : (whole (List.range' b.1 b.2)).getLast? = some ((b.1 + b.2 - 1 : Nat) : Int) := by
        rw [whole, List.getLast?_map, List.getLast?_range', if_neg (by omega)]
        rfl
      obtain ⟨hpw, -, hbefore⟩ := List.pairwise_append.mp hpw
      rw [pushRun, List.map_append, List.map_singleton, List.getLast?_concat]
      simp only [hlast, Option.some.injEq]
      by_cases hadj : b.1 + b.2 = p
      · -- the position lengthens the last run
        rw [if_pos (by omega), List.dropLast_concat]
        refine ⟨front ++ [(b.1, b.2 + 1)], ?_, ⟨?_, ?_⟩, ?_⟩
        · rw [List.map_append, List.map_singleton, List.range'_1_concat, whole, whole,
            List.map_append, hadj]
          rfl
        · intro c hc
          rcases List.mem_append.mp hc with hc | hc
          · exact hpos c (List.mem_append_left _ hc)
          · obtain rfl := List.mem_singleton.mp hc
            exact Nat.succ_pos _
        · refine List.pairwise_append.mpr ⟨hpw, by simp, ?_⟩
          intro c hc d hd
          obtain rfl := List.mem_singleton.mp hd
          exact hbefore c hc b (by simp)
        · simp only [positionsOf, List.flatMap_append, List.flatMap_singleton,
            List.range'_1_concat, hadj, List.append_assoc]
      · rw [if_neg (by omega)]
        refine ⟨front ++ [b] ++ [(p, 1)], by simp [whole], ⟨?_, ?_⟩, by simp [positionsOf]⟩
        · intro c hc
          rcases List.mem_append.mp hc with hc | hc
          · exact hpos c hc
          · obtain rfl := List.mem_singleton.mp hc
            exact Nat.one_pos
        · refine List.pairwise_append.mpr
            ⟨List.pairwise_append.mpr ⟨hpw, by simp, hbefore⟩, by simp, ?_⟩
          intro c hc d hd
          obtain rfl := List.mem_singleton.mp hd
          rcases List.mem_append.mp hc with hc' | hc'
          · have h₁ := hbefore c hc' b (by simp)
            have h₂ := hend b (by simp)
            simp only
            omega
          · obtain rfl := List.mem_singleton.mp hc'
            simp only
            omega

/-- A playlist cut at a selection. -/
theorem exists_cut {ps : List Nat} {items : List α} (h : Selects ps items.length) :
    ∃ ws rest, items = weave ws ++ rest ∧
      runs (whole (sorted ps)) = (starts 0 ws).map (fun b => whole (List.range' b.1 b.2)) ∧
      picked ps items = blocks ws ∧ kept ps items = gaps ws ++ rest ∧ (∀ w ∈ ws, w.run ≠ []) ∧
      ∀ w ∈ ws.tail, w.gap ≠ [] := by
  obtain ⟨bs, hruns, hapart, hps⟩ := runs_whole h.sorted_lt
  have hhi : ∀ b ∈ bs, b.1 + b.2 ≤ 0 + items.length := by
    intro b hb
    have hb₂ := hapart.1 b hb
    have hmem : b.1 + b.2 - 1 ∈ sorted ps :=
      hps ▸ mem_positionsOf.2 ⟨b, hb, by omega, by omega⟩
    have := h.sorted_in_range _ hmem
    omega
  obtain ⟨ws, rest, hitems, rfl, hrun, hgap⟩ := exists_pieces hapart (fun b _ => Nat.zero_le _) hhi
  have hp : ∀ i, 0 ≤ i → (decide (i ∈ ps) = true ↔ InRun (starts 0 ws) i) := by
    intro i _
    rw [decide_eq_true_eq, ← mem_positionsOf, hps, mem_sorted]
  obtain ⟨h₁, h₂⟩ := filterIdx_pieces rest hp
  simp only [Nat.zero_add, ← hitems] at h₁ h₂
  exact ⟨ws, rest, hitems, hruns, h₁, h₂, hrun, hgap⟩

end Web

end JewelCase.Playlist

/-!
## One meaning of an edit

The device's edit and the server's are judged side by side: what each op does to the list the ops
before it left, when it is refused, and that the two sides never differ.
-/
namespace JewelCase.Playlist

set_option autoImplicit false

open Library.Picks

variable {α ρ : Type}

/-! ### The plain list edits -/

/-- What an op is for: an add puts its items in as one block, a remove drops the named positions,
and a move puts the items it names together at `place`, no item lost or doubled and neither the
named nor the others reordered. -/
def Op.Edits (before after : List α) : Op α → Prop
  | .add place new =>
    after = before.take (place.getD before.length) ++ new ++
      before.drop (place.getD before.length)
  | .remove positions => after = kept positions before
  | .move positions place =>
    after.Perm before ∧ (after.drop place).take positions.length = picked positions before ∧
      after.take place ++ after.drop (place + positions.length) = kept positions before

theorem splice_parts {rest block : List α} {place : Nat} (h : place ≤ rest.length) :
    ((splice rest place block).drop place).take block.length = block ∧
      (splice rest place block).take place ++
        (splice rest place block).drop (place + block.length) = rest := by
  have hlen : (rest.take place).length = place := by
    rw [List.length_take]
    exact Nat.min_eq_left h
  have hdrop : (splice rest place block).drop place = block ++ rest.drop place := by
    rw [splice, List.append_assoc, List.drop_left' hlen]
  have htake : (splice rest place block).take place = rest.take place := by
    rw [splice, List.append_assoc, List.take_left' hlen]
  rw [htake, ← List.drop_drop, hdrop, List.take_left, List.drop_left, List.take_append_drop]
  exact ⟨rfl, rfl⟩

theorem Op.edits_result {before : List α} {op : Op α} (h : ¬ op.Refused before.length) :
    op.Edits before (op.result before) := by
  cases op with
  | add place new => rfl
  | remove positions => rfl
  | move positions place =>
    rw [Op.Refused, not_or, not_not, Nat.not_lt] at h
    obtain ⟨hsel, hplace⟩ := h
    have hlen := hsel.length_kept
    obtain ⟨hblock, hrest⟩ := @splice_parts _ (kept positions before) (picked positions before)
      place (by omega)
    rw [hsel.length_picked] at hblock hrest
    exact ⟨(insert_perm place _ _).trans (picked_perm_kept positions before), hblock, hrest⟩

/-! ### Both sides -/

namespace Web

/-- An op as the server receives it, its adds expanded. -/
def PlaylistOp.expanded (expand : Named ρ → List α) : PlaylistOp ρ → Op α
  | .add items place => .add (place.map Int.toNat) (expand items)
  | .remove positions => .remove (positions.map Int.toNat)
  | .move positions place => .move (positions.map Int.toNat) place.toNat

/-- Positions are whole numbers from zero, and an add names at least one item. -/
def PlaylistOp.WellFormed : PlaylistOp ρ → Prop
  | .add items place => items.playables ≠ [] ∧ ∀ p ∈ place, 0 ≤ p
  | .remove positions => ∀ p ∈ positions, 0 ≤ p
  | .move positions place => (∀ p ∈ positions, 0 ≤ p) ∧ 0 ≤ place

theorem PlaylistOp.WellFormed.means {op : PlaylistOp ρ} (h : op.WellFormed)
    (expand : Named ρ → List α) :
    Means (fun items => .ok (expand items)) op (op.expanded expand) := by
  cases op with
  | add items place =>
    have hp : place = (place.map Int.toNat).map Nat.cast := by
      cases place with
      | none => rfl
      | some p =>
        rw [Option.map_some, Option.map_some, Int.toNat_of_nonneg (h.2 p rfl)]
    conv_lhs => rw [hp]
    exact .add _ h.1 rfl
  | remove positions =>
    conv_lhs => rw [whole_of_nonneg h]
    exact .remove _
  | move positions place =>
    conv_lhs => rw [whole_of_nonneg h.1, ← Int.toNat_of_nonneg h.2]
    exact .move _ _

theorem means_all {ops : List (PlaylistOp ρ)} (h : ∀ op ∈ ops, op.WellFormed)
    (expand : Named ρ → List α) :
    List.Forall₂ (Means fun items => .ok (expand items)) ops
      (ops.map (PlaylistOp.expanded expand)) := by
  rw [List.forall₂_map_right_iff, List.forall₂_same]
  exact fun op hop => (h op hop).means expand

/-- **The device and the server agree on every edit, and an edit is the plain one.** Both give the
same list or both refuse; the server refuses exactly where some op is bad on the list the ops
before it left; and each op that is done makes its plain edit of that list. -/
theorem edits_agree (expand : Named ρ → List α) (items : List α) (ops : List (PlaylistOp ρ))
    (h : ∀ op ∈ ops, op.WellFormed) :
    let server := ops.map (PlaylistOp.expanded expand)
    (∀ after, applyOps (fun named => .ok (expand named)) items ops = .ok after ↔
      Playlist.applyOps items server = .ok after) ∧
    ((∃ e, Playlist.applyOps items server = .error e) ↔
      ∃ done op rest before, server = done ++ op :: rest ∧
        Playlist.applyOps items done = .ok before ∧ op.Refused before.length) ∧
    ∀ after, Playlist.applyOps items server = .ok after →
      ∀ done op rest, server = done ++ op :: rest →
        ∃ before next, Playlist.applyOps items done = .ok before ∧
          Playlist.applyOps items (done ++ [op]) = .ok next ∧ op.Edits before next := by
  refine ⟨fun after => applyOps_means (means_all h expand), ?_, ?_⟩
  · rw [applyOps_error]
    simp only [applyOps_eq_ok]
  · intro after hafter done op rest he
    rw [he, applyOps_eq_ok] at hafter
    obtain ⟨before, hb, hok, -⟩ := hafter.split
    exact ⟨before, _, applyOps_eq_ok.2 hb, applyOps_eq_ok.2 (hb.snoc hok),
      Op.edits_result hok⟩

/-- A remove, an add and a move, told to the device and the server. -/
theorem edits_agree_on_three :
    let ops : List (PlaylistOp Nat) :=
      [.remove [0], .add ⟨.given 0, [7]⟩ (some 0), .move [0] 2]
    let expand : Named Nat → List Nat := fun named => named.playables
    (∀ op ∈ ops, op.WellFormed) ∧
      (applyOps (fun named => .ok (expand named)) [1, 2, 3] ops = .ok [2, 3, 7] ↔
        Playlist.applyOps [1, 2, 3] (ops.map (PlaylistOp.expanded expand)) = .ok [2, 3, 7]) := by
  have h : ∀ op ∈ ([.remove [0], .add ⟨.given 0, [7]⟩ (some 0), .move [0] 2] :
      List (PlaylistOp Nat)), op.WellFormed := by
    simp [PlaylistOp.WellFormed]
  exact ⟨h, (edits_agree (fun named => named.playables) [1, 2, 3] _ h).1 _⟩

end Web

end JewelCase.Playlist
