import JewelCase.Playlist.Pieces

/-!
# Undoing an edit

The undo of an op, applied to the list the op made, gives back the list it was applied to. An add is
undone by removing its block, a remove by adding each run back where it was, and a move by moving
each run back: the runs that go left from the front, then those that go right from the back. The
undo of a sequence is the undos of its ops, last first.
-/
namespace JewelCase.Playlist.Web

set_option autoImplicit false

open Library.Picks

variable {α ρ : Type} {resolve : Resolve ρ α}

theorem applyOps_cons {items next : List α} {op : PlaylistOp ρ} {ops : List (PlaylistOp ρ)}
    (h : applyOp items resolve op = .ok next) :
    applyOps resolve items (op :: ops) = applyOps resolve next ops := by
  rw [applyOps, h]

theorem applyOps_append {items next : List α} {ops more : List (PlaylistOp ρ)}
    (h : applyOps resolve items ops = .ok next) :
    applyOps resolve items (ops ++ more) = applyOps resolve next more := by
  induction ops generalizing items with
  | nil =>
    rw [applyOps, Except.ok.injEq] at h
    rw [List.nil_append, h]
  | cons op ops ih =>
    rw [applyOps] at h
    cases ha : applyOp items resolve op with
    | error e =>
      rw [ha] at h
      cases h
    | ok items' =>
      rw [ha] at h
      rw [List.cons_append, applyOps_cons ha]
      exact ih h

/-! ### Blocks -/

section Block

variable (xs block ys : List α)

theorem selects_block (h : block ≠ []) :
    Selects (List.range' xs.length block.length) (xs ++ block ++ ys).length := by
  have hpos := List.length_pos_iff.mpr h
  refine ⟨?_, List.nodup_range', ?_⟩
  · intro he
    have := congrArg List.length he
    rw [List.length_range', List.length_nil] at this
    omega
  · intro p hp
    rw [List.mem_range'_1] at hp
    rw [List.length_append, List.length_append]
    omega

theorem cut_block :
    picked (List.range' xs.length block.length) (xs ++ block ++ ys) = block ∧
      kept (List.range' xs.length block.length) (xs ++ block ++ ys) = xs ++ ys := by
  have hp : ∀ i, 0 ≤ i → (decide (i ∈ List.range' xs.length block.length) = true ↔
      InRun (starts 0 [Piece.mk xs block]) i) := by
    intro i _
    rw [decide_eq_true_eq, List.mem_range'_1]
    simp [InRun, starts]
  obtain ⟨h₁, h₂⟩ := filterIdx_pieces ys hp
  simp only [Nat.zero_add, weave_cons, weave_nil, List.append_nil, blocks_cons, blocks_nil,
    gaps_cons, gaps_nil] at h₁ h₂
  exact ⟨h₁, h₂⟩

/-- Removing a block. -/
theorem applyOp_remove_block (h : block ≠ []) :
    applyOp (xs ++ block ++ ys) resolve
      (.remove (range xs.length ((xs.length : Int) + block.length))) = .ok (xs ++ ys) := by
  rw [range_whole, applyOp_means (.remove _), Op.Refused, not_not, Op.result,
    (cut_block xs block ys).2]
  exact ⟨selects_block xs block ys h, rfl⟩

/-- Moving a block. -/
theorem applyOp_move_block {place : Nat} (h : block ≠ []) (hp : place ≤ (xs ++ ys).length) :
    applyOp (xs ++ block ++ ys) resolve
      (.move (range xs.length ((xs.length : Int) + block.length)) place) =
        .ok (splice (xs ++ ys) place block) := by
  obtain ⟨h₁, h₂⟩ := cut_block xs block ys
  rw [range_whole, applyOp_means (.move _ _), Op.Refused, not_or, not_not, Op.result, h₁, h₂]
  refine ⟨⟨selects_block xs block ys h, ?_⟩, rfl⟩
  rw [List.length_range', List.length_append, List.length_append]
  rw [List.length_append] at hp
  omega

end Block

theorem splice_left {xs block ys : List α} : splice (xs ++ ys) xs.length block =
    xs ++ block ++ ys := by
  rw [splice, List.take_left' rfl, List.drop_left' rfl]

/-! ### Undoing a remove -/

/-- A resolve that finds what was removed. -/
def Restores (resolve : Resolve ρ α) (removed : Removed α) : Prop :=
  ∀ (n : Nat) (back : List α) (named : List ρ), removed[n]? = some back →
    resolve ⟨.restored n, named⟩ = .ok back

theorem Restores.of_append {removed more : Removed α} (h : Restores resolve (removed ++ more)) :
    Restores resolve removed := by
  intro n back named hn
  obtain ⟨hlt, -⟩ := List.getElem?_eq_some_iff.mp hn
  exact h n back named (by rw [List.getElem?_append_left hlt, hn])

theorem restores_resolveRemoved (removed more : Removed α) :
    Restores (resolveRemoved (ρ := ρ) (removed ++ more)) removed := by
  intro n back named hn
  obtain ⟨hlt, -⟩ := List.getElem?_eq_some_iff.mp hn
  simp only [resolveRemoved]
  rw [List.getElem?_append_left hlt, hn]

/-- The adds of one run after another put the runs back in. -/
theorem addBack_restores {toPlayable : α → ρ} {before : List α} (ws : List (Piece α))
    (hruns : ∀ w ∈ ws, w.run ≠ []) (xs rest : List α)
    (hbefore : before = xs ++ weave ws ++ rest) (s : List (PlaylistOp ρ) × Removed α) :
    ∃ ops more, ((starts xs.length ws).map fun b => whole (List.range' b.1 b.2)).foldl
        (addBack toPlayable before) s = (s.1 ++ ops, s.2 ++ more) ∧
      (Restores resolve (s.2 ++ more) →
        applyOps resolve (xs ++ gaps ws ++ rest) ops = .ok (xs ++ weave ws ++ rest)) := by
  induction ws generalizing xs s with
  | nil => exact ⟨[], [], by simp [starts], fun _ => rfl⟩
  | cons w ws ih =>
    have hw := hruns w (by simp)
    have hread : (whole (List.range' (xs.length + w.gap.length) w.run.length)).filterMap
        (fun i => before[i.toNat]?) = w.run := by
      have hcut := (cut_block (xs ++ w.gap) w.run (weave ws ++ rest)).1
      have hsel := selects_block (xs ++ w.gap) w.run (weave ws ++ rest) hw
      have he : xs ++ w.gap ++ w.run ++ (weave ws ++ rest) = before := by simp [hbefore]
      rw [he, List.length_append] at hcut hsel
      rw [picked, ← filterMap_getElem? (List.pairwise_lt_range' 1 Nat.one_pos) hsel.in_range] at hcut
      rw [whole, List.filterMap_map]
      exact hcut
    have hhead : (whole (List.range' (xs.length + w.gap.length) w.run.length)).headD 0 =
        ((xs.length + w.gap.length : Nat) : Int) := by
      obtain ⟨r, run, hr⟩ := List.exists_cons_of_ne_nil hw
      rw [hr, List.length_cons, List.range'_succ]
      rfl
    have hstep : addBack toPlayable before s
        (whole (List.range' (xs.length + w.gap.length) w.run.length)) =
        (s.1 ++ [.add ⟨.restored s.2.length, w.run.map toPlayable⟩
          (some ((xs.length + w.gap.length : Nat) : Int))], s.2 ++ [w.run]) := by
      simp only [addBack, restore, hread, hhead]
    obtain ⟨ops, more, hfold, happly⟩ := ih (fun v hv => hruns v (List.mem_cons_of_mem _ hv))
      (xs ++ w.gap ++ w.run) (by simp [hbefore])
      (s.1 ++ [.add ⟨.restored s.2.length, w.run.map toPlayable⟩
        (some ((xs.length + w.gap.length : Nat) : Int))], s.2 ++ [w.run])
    refine ⟨.add ⟨.restored s.2.length, w.run.map toPlayable⟩
      (some ((xs.length + w.gap.length : Nat) : Int)) :: ops, w.run :: more, ?_, ?_⟩
    · rw [starts, List.map_cons, List.foldl_cons, hstep]
      rw [List.length_append, List.length_append] at hfold
      rw [hfold, List.append_assoc, List.append_assoc]
      rfl
    · intro hres
      have hres' : Restores resolve (s.2 ++ [w.run] ++ more) := by
        rwa [List.append_assoc]
      have hback : resolve ⟨.restored s.2.length, w.run.map toPlayable⟩ = .ok w.run := by
        apply hres'.of_append
        rw [List.getElem?_append_right (Nat.le_refl _), Nat.sub_self]
        rfl
      have hadd : applyOp (xs ++ gaps (w :: ws) ++ rest) resolve
          (.add ⟨.restored s.2.length, w.run.map toPlayable⟩
            (some ((xs.length + w.gap.length : Nat) : Int))) =
          .ok (xs ++ w.gap ++ w.run ++ gaps ws ++ rest) := by
        have hm := @Means.add _ _ resolve _ _ (some (xs.length + w.gap.length))
          (by simpa using hw) hback
        refine (applyOp_means hm).mpr ⟨?_, ?_⟩
        · rw [Op.Refused, Option.getD_some]
          simp only [gaps_cons, List.length_append]
          omega
        · rw [Op.result, Option.getD_some]
          have hl : xs ++ gaps (w :: ws) ++ rest = (xs ++ w.gap) ++ (gaps ws ++ rest) := by simp
          rw [hl, ← List.length_append, splice_left]
          simp
      rw [applyOps_cons hadd, happly hres']
      simp

/-! ### Undoing a move -/

/-- The moves that take the runs back, in playlist order. -/
def movesBack (place ahead : Nat) : List (Nat × Nat) → List (PlaylistOp ρ)
  | [] => []
  | b :: bs =>
    .move (range (place + ahead : Nat) ((place + ahead : Nat) + (b.2 : Int))) (b.1 : Nat) ::
      movesBack place (ahead + b.2) bs

theorem moveBack_whole {place : Nat} {s : MovesBack ρ} {b : Nat × Nat} (hb : 0 < b.2) :
    moveBack place s (whole (List.range' b.1 b.2)) =
      let back : PlaylistOp ρ :=
        .move (range (place + s.ahead : Nat) ((place + s.ahead : Nat) + (b.2 : Int))) (b.1 : Nat)
      { left := if b.1 < place + s.ahead then s.left ++ [back] else s.left
        right := if b.1 > place + s.ahead then s.right ++ [back] else s.right
        ahead := s.ahead + b.2 } := by
  have hhead : (whole (List.range' b.1 b.2)).headD 0 = (b.1 : Int) := by
    obtain ⟨n, hn⟩ : ∃ n, b.2 = n + 1 := ⟨b.2 - 1, by omega⟩
    rw [hn, List.range'_succ]
    rfl
  have hlen : (whole (List.range' b.1 b.2)).length = b.2 := by simp [whole]
  have hlt : ((b.1 : Int) < (place : Int) + (s.ahead : Int)) ↔ b.1 < place + s.ahead := by omega
  have hgt : ((b.1 : Int) > (place : Int) + (s.ahead : Int)) ↔ b.1 > place + s.ahead := by omega
  simp only [moveBack, hhead, hlen, Int.natCast_add, hlt, hgt]
  by_cases h : b.1 < place + s.ahead
  · have h' : ¬ b.1 > place + s.ahead := by omega
    simp only [h, h', if_true, if_false]
  · simp only [h, if_false]

/-- Runs behind gaps all go right. -/
theorem foldl_right {place o : Nat} {ws : List (Piece α)} (hruns : ∀ w ∈ ws, w.run ≠ [])
    (hgaps : ∀ w ∈ ws, w.gap ≠ []) (s : MovesBack ρ) (ho : place + s.ahead ≤ o) :
    ∃ ahead, ((starts o ws).map fun b => whole (List.range' b.1 b.2)).foldl
      (moveBack (place : Int)) s =
        ⟨s.left, s.right ++ movesBack place s.ahead (starts o ws), ahead⟩ := by
  induction ws generalizing o s with
  | nil => exact ⟨s.ahead, by simp [starts, movesBack]⟩
  | cons w ws ih =>
    have hrun := List.length_pos_iff.mpr (hruns w (by simp))
    have hgap := List.length_pos_iff.mpr (hgaps w (by simp))
    have h₁ : ¬ o + w.gap.length < place + s.ahead := by omega
    have h₂ : o + w.gap.length > place + s.ahead := by omega
    rw [starts, List.map_cons, List.foldl_cons,
      @moveBack_whole _ _ _ (o + w.gap.length, w.run.length) hrun]
    simp only [if_neg h₁, if_pos h₂]
    obtain ⟨ahead, he⟩ := ih (fun v hv => hruns v (List.mem_cons_of_mem _ hv))
      (fun v hv => hgaps v (List.mem_cons_of_mem _ hv))
      (o := o + w.gap.length + w.run.length)
      ⟨s.left, s.right ++ [.move (range (place + s.ahead : Nat)
        ((place + s.ahead : Nat) + (w.run.length : Int))) (o + w.gap.length : Nat)],
        s.ahead + w.run.length⟩ (by simp only; omega)
    refine ⟨ahead, ?_⟩
    rw [he, movesBack, List.append_assoc]
    rfl

/-- The runs that go right, moved back from the last. -/
theorem movesBack_restores {place ahead : Nat} (ws : List (Piece α))
    (hruns : ∀ w ∈ ws, w.run ≠ []) (xs ys rest : List α) (hx : xs.length = place + ahead) :
    applyOps resolve (xs ++ blocks ws ++ ys ++ gaps ws ++ rest)
        (movesBack place ahead (starts (xs.length + ys.length) ws)).reverse =
      .ok (xs ++ ys ++ weave ws ++ rest) := by
  induction ws generalizing ahead xs ys with
  | nil => simp [starts, movesBack, applyOps]
  | cons w ws ih =>
    have hw := hruns w (by simp)
    rw [starts, movesBack, List.reverse_cons]
    have hlast := @ih (ahead + w.run.length) (fun v hv => hruns v (List.mem_cons_of_mem _ hv))
      (xs ++ w.run) (ys ++ w.gap) (by rw [List.length_append]; omega)
    have hstarts : (xs ++ w.run).length + (ys ++ w.gap).length =
        xs.length + ys.length + w.gap.length + w.run.length := by
      rw [List.length_append, List.length_append]
      omega
    have hlist : xs ++ w.run ++ blocks ws ++ (ys ++ w.gap) ++ gaps ws ++ rest =
        xs ++ blocks (w :: ws) ++ ys ++ gaps (w :: ws) ++ rest := by simp
    rw [hstarts, hlist] at hlast
    rw [applyOps_append hlast]
    have hmove := @applyOp_move_block _ _ resolve xs w.run (ys ++ w.gap ++ weave ws ++ rest)
      (xs.length + ys.length + w.gap.length) hw (by simp only [List.length_append]; omega)
    have hto : splice (xs ++ (ys ++ w.gap ++ weave ws ++ rest))
        (xs.length + ys.length + w.gap.length) w.run =
        xs ++ ys ++ weave (w :: ws) ++ rest := by
      have hs : xs ++ (ys ++ w.gap ++ weave ws ++ rest) =
        (xs ++ ys ++ w.gap) ++ (weave ws ++ rest) := by simp
      have hl : xs.length + ys.length + w.gap.length = (xs ++ ys ++ w.gap).length := by
        simp only [List.length_append]
      rw [hs, hl, splice_left]
      simp
    have hfrom : xs ++ w.run ++ (ys ++ w.gap) ++ weave ws ++ rest =
        xs ++ w.run ++ (ys ++ w.gap ++ weave ws ++ rest) := by simp
    rw [hto] at hmove
    rw [hfrom, ← hx, applyOps_cons hmove]
    rfl

/-- **Every run goes back where it was.** The runs so far are back, those ahead are together at
the place they were moved to, and what is between is in order. -/
theorem moveBack_restores {place : Nat} (ws : List (Piece α)) (hruns : ∀ w ∈ ws, w.run ≠ [])
    (hgaps : ∀ w ∈ ws.tail, w.gap ≠ []) (xs rest : List α) (s : MovesBack ρ) {k : Nat}
    (hk : xs.length + k = place + s.ahead) (hrest : k ≤ (gaps ws ++ rest).length) :
    ∃ left right ahead, ((starts xs.length ws).map fun b => whole (List.range' b.1 b.2)).foldl
        (moveBack (place : Int)) s = ⟨s.left ++ left, s.right ++ right, ahead⟩ ∧
      applyOps resolve (xs ++ splice (gaps ws ++ rest) k (blocks ws)) (left ++ right.reverse) =
        .ok (xs ++ weave ws ++ rest) := by
  induction ws generalizing xs s k with
  | nil =>
    refine ⟨[], [], s.ahead, by simp [starts], ?_⟩
    simp [applyOps, splice]
  | cons w ws ih =>
    have hw := hruns w (by simp)
    have hpos := List.length_pos_iff.mpr hw
    have hruns' : ∀ v ∈ ws, v.run ≠ [] := fun v hv => hruns v (List.mem_cons_of_mem _ hv)
    have hlen : (gaps (w :: ws) ++ rest).length = w.gap.length + (gaps ws ++ rest).length := by
      simp only [gaps_cons, List.length_append]
      omega
    rw [hlen] at hrest
    rw [starts, List.map_cons, List.foldl_cons,
      @moveBack_whole _ _ _ (xs.length + w.gap.length, w.run.length) hpos]
    by_cases hleft : xs.length + w.gap.length < place + s.ahead
    · -- the run goes left, over the gap's items that were not moved past
      have hnot : ¬ xs.length + w.gap.length > place + s.ahead := by omega
      simp only [if_pos hleft, if_neg hnot]
      have hgap : k = w.gap.length + (k - w.gap.length) := by omega
      obtain ⟨left, right, ahead, hfold, happly⟩ := ih hruns'
        (fun v hv => hgaps v (List.mem_of_mem_tail hv)) (xs ++ w.gap ++ w.run)
        ⟨s.left ++ [.move (range (place + s.ahead : Nat)
            ((place + s.ahead : Nat) + (w.run.length : Int))) (xs.length + w.gap.length : Nat)],
          s.right, s.ahead + w.run.length⟩ (k := k - w.gap.length)
        (by simp only [List.length_append]; omega) (by omega)
      have hstart : (xs ++ w.gap ++ w.run).length = xs.length + w.gap.length + w.run.length := by
        rw [List.length_append, List.length_append]
      rw [hstart] at hfold
      refine ⟨.move (range (place + s.ahead : Nat)
        ((place + s.ahead : Nat) + (w.run.length : Int))) (xs.length + w.gap.length : Nat) :: left,
        right, ahead, ?_, ?_⟩
      · rw [hfold, List.append_assoc]
        rfl
      · have hfront : (xs ++ w.gap ++ (gaps ws ++ rest).take (k - w.gap.length)).length =
            place + s.ahead := by
          rw [List.length_append, List.length_append, List.length_take, Nat.min_eq_left (by omega)]
          omega
        have hmove := @applyOp_move_block _ _ resolve
          (xs ++ w.gap ++ (gaps ws ++ rest).take (k - w.gap.length)) w.run
          (blocks ws ++ (gaps ws ++ rest).drop (k - w.gap.length))
          (xs.length + w.gap.length) hw (by
            rw [List.length_append, hfront]
            omega)
        rw [hfront] at hmove
        have hto : splice (xs ++ w.gap ++ (gaps ws ++ rest).take (k - w.gap.length) ++
            (blocks ws ++ (gaps ws ++ rest).drop (k - w.gap.length)))
              (xs.length + w.gap.length) w.run =
            xs ++ w.gap ++ w.run ++ splice (gaps ws ++ rest) (k - w.gap.length) (blocks ws) := by
          rw [← List.length_append, List.append_assoc (xs ++ w.gap), splice_left, splice]
          simp
        have hfrom : xs ++ splice (gaps (w :: ws) ++ rest) k (blocks (w :: ws)) =
            xs ++ w.gap ++ (gaps ws ++ rest).take (k - w.gap.length) ++ w.run ++
              (blocks ws ++ (gaps ws ++ rest).drop (k - w.gap.length)) := by
          rw [splice, gaps_cons, List.append_assoc w.gap, hgap, List.take_length_add_append,
            List.drop_length_add_append, blocks_cons, ← hgap]
          simp
        rw [hto] at hmove
        rw [hfrom, List.cons_append, applyOps_cons hmove, happly]
        simp
    · -- the moved items start in this gap or at its end, so every later run goes right
      simp only [if_neg hleft]
      have hk' : k ≤ w.gap.length := by omega
      have hfrom : xs ++ splice (gaps (w :: ws) ++ rest) k (blocks (w :: ws)) =
          xs ++ w.gap.take k ++ w.run ++ blocks ws ++ w.gap.drop k ++ gaps ws ++ rest := by
        rw [splice, gaps_cons, List.append_assoc w.gap, List.take_append_of_le_length hk',
          List.drop_append_of_le_length hk', blocks_cons]
        simp
      have hx : (xs ++ w.gap.take k).length = place + s.ahead := by
        rw [List.length_append, List.length_take, Nat.min_eq_left hk', hk]
      obtain ⟨ahead, hfold⟩ := @foldl_right α ρ place (xs.length + w.gap.length + w.run.length)
        ws hruns' hgaps
        ⟨s.left, if xs.length + w.gap.length > place + s.ahead then
            s.right ++ [.move (range (place + s.ahead : Nat)
              ((place + s.ahead : Nat) + (w.run.length : Int))) (xs.length + w.gap.length : Nat)]
          else s.right, s.ahead + w.run.length⟩ (by simp only; omega)
      by_cases hright : xs.length + w.gap.length > place + s.ahead
      · simp only [if_pos hright] at hfold ⊢
        refine ⟨[], movesBack place s.ahead (starts xs.length (w :: ws)), ahead, ?_, ?_⟩
        · rw [hfold, List.append_nil, starts, movesBack, List.append_assoc]
          rfl
        · have hback := @movesBack_restores _ _ resolve place s.ahead
            (⟨w.gap.drop k, w.run⟩ :: ws) (by
              intro v hv
              rcases List.mem_cons.mp hv with rfl | hv
              · exact hw
              · exact hruns' v hv) (xs ++ w.gap.take k) [] rest hx
          have hstarts : starts ((xs ++ w.gap.take k).length + ([] : List α).length)
              (⟨w.gap.drop k, w.run⟩ :: ws) = starts xs.length (w :: ws) := by
            have he : place + s.ahead + (w.gap.length - k) = xs.length + w.gap.length := by omega
            simp only [starts, hx, List.length_nil, Nat.add_zero, List.length_drop, he]
          rw [hstarts] at hback
          rw [hfrom, List.nil_append]
          simp only [blocks_cons, gaps_cons, weave_cons, List.append_nil, List.append_assoc] at hback ⊢
          rw [hback, ← List.append_assoc (w.gap.take k), List.take_append_drop]
      · simp only [if_neg hright] at hfold ⊢
        have hkeq : k = w.gap.length := by omega
        refine ⟨[], movesBack place (s.ahead + w.run.length)
          (starts (xs.length + w.gap.length + w.run.length) ws), ahead, ?_, ?_⟩
        · rw [hfold, List.append_nil]
        · have hback := @movesBack_restores _ _ resolve place (s.ahead + w.run.length) ws hruns'
            (xs ++ w.gap ++ w.run) [] rest (by simp only [List.length_append]; omega)
          simp only [List.length_append, List.length_nil, Nat.add_zero] at hback
          rw [hfrom, hkeq, List.take_length, List.drop_length, List.nil_append]
          simp only [weave_cons, List.append_nil, List.append_assoc] at hback ⊢
          exact hback

/-! ### Undoing an op, and a sequence of them -/

/-- The undo of an op takes the list it made back to the list it was applied to. -/
theorem invertOp_restores (toPlayable : α → ρ) {before after : List α} {op : PlaylistOp ρ}
    (removed : Removed α) (h : applyOp before resolve op = .ok after) :
    ∃ back more, invertOp toPlayable before after removed op = .ok (back, removed ++ more) ∧
      ∀ restore : Resolve ρ α, Restores restore (removed ++ more) →
        applyOps restore after back = .ok before := by
  obtain ⟨op', hm, hok, rfl⟩ := applyOp_eq_ok.1 h
  cases hm with
  | @add items added place named resolved =>
    rw [Op.Refused, Nat.not_lt] at hok
    have hlen : (splice before (place.getD before.length) added).length - before.length =
        added.length := by
      rw [splice, List.length_append, List.length_append, List.length_take, List.length_drop]
      omega
    simp only [invertOp, Op.result, getD_cast, hlen]
    by_cases hnil : added = []
    · subst hnil
      refine ⟨[], [], by simp, fun _ _ => ?_⟩
      simp [applyOps, splice]
    · have hpos := List.length_pos_iff.mpr hnil
      rw [if_pos (by omega)]
      refine ⟨_, [], by rw [List.append_nil], fun restore _ => ?_⟩
      have htake : (before.take (place.getD before.length)).length = place.getD before.length := by
        rw [List.length_take, Nat.min_eq_left hok]
      have hremove := @applyOp_remove_block _ _ restore (before.take (place.getD before.length))
        added (before.drop (place.getD before.length)) hnil
      rw [htake, List.take_append_drop] at hremove
      rw [splice, applyOps_cons hremove]
      rfl
  | remove ps =>
    rw [Op.Refused, not_not] at hok
    obtain ⟨ws, rest, hitems, hcut, -, hkept, hruns, -⟩ := exists_cut hok
    simp only [invertOp, selection_whole.2 ⟨hok, rfl⟩, hcut, Op.result, hkept]
    obtain ⟨ops, more, hfold, -⟩ := @addBack_restores _ _ resolve toPlayable before ws hruns [] rest
      (by simpa using hitems) ([], removed)
    refine ⟨ops, more, ?_, ?_⟩
    · rw [List.length_nil] at hfold
      rw [hfold, List.nil_append]
    intro restore hres
    obtain ⟨ops', more', hfold', happly⟩ := @addBack_restores _ _ restore toPlayable before ws hruns
      [] rest (by simpa using hitems) ([], removed)
    obtain ⟨hops, hmore⟩ := Prod.mk.inj (hfold.symm.trans hfold')
    obtain rfl : ops = ops' := hops
    rw [hmore] at hres
    rw [hitems]
    exact happly hres
  | move ps place =>
    rw [Op.Refused, not_or, not_not, Nat.not_lt] at hok
    obtain ⟨ws, rest, hitems, hcut, hpicked, hkept, hruns, hgaps⟩ := exists_cut hok.1
    have hlen := hok.1.length_kept
    simp only [invertOp, selection_whole.2 ⟨hok.1, rfl⟩, hcut, Op.result, hpicked]
    rw [hkept] at hlen ⊢
    obtain ⟨left, right, ahead, hfold, -⟩ := @moveBack_restores α ρ resolve place ws hruns hgaps []
      rest {} place (Nat.add_comm _ _) (by omega)
    refine ⟨left ++ right.reverse, [], ?_, ?_⟩
    · rw [List.length_nil] at hfold
      rw [hfold, List.append_nil, List.nil_append, List.nil_append]
    · intro restore _
      obtain ⟨left', right', ahead', hfold', happly⟩ := @moveBack_restores α ρ restore place ws
        hruns hgaps [] rest {} place (Nat.add_comm _ _) (by omega)
      obtain ⟨hl, hr, -⟩ := MovesBack.mk.inj (hfold.symm.trans hfold')
      obtain rfl : left = left' := hl
      obtain rfl : right = right' := hr
      rw [hitems]
      exact happly

/-- The loop of `invertOps`: what it has, and the undos of the ops to come. -/
theorem invertEach_restores (toPlayable : α → ρ) {list last : List α} {ops : List (PlaylistOp ρ)}
    (h : applyOps resolve list ops = .ok last) (removed : Removed α)
    (undo : List (List (PlaylistOp ρ))) :
    ∃ backs more, invertEach resolve toPlayable list ops removed undo =
        .ok (undo ++ backs, removed ++ more) ∧
      ∀ restore : Resolve ρ α, Restores restore (removed ++ more) →
        applyOps restore last backs.reverse.flatten = .ok list := by
  induction ops generalizing list removed undo with
  | nil =>
    rw [applyOps, Except.ok.injEq] at h
    subst h
    exact ⟨[], [], by simp [invertEach], fun _ _ => rfl⟩
  | cons op ops ih =>
    rw [applyOps] at h
    cases ha : applyOp list resolve op with
    | error e =>
      rw [ha] at h
      cases h
    | ok next =>
      rw [ha] at h
      obtain ⟨back, more, hinvert, hback⟩ := invertOp_restores toPlayable removed ha
      obtain ⟨backs, more', heach, hbacks⟩ := ih h (removed ++ more) (undo ++ [back])
      refine ⟨back :: backs, more ++ more', ?_, ?_⟩
      · simp only [invertEach, ha, hinvert, heach, List.append_assoc, List.singleton_append]
      · intro restore hres
        rw [← List.append_assoc] at hres
        rw [List.reverse_cons, List.flatten_append, List.flatten_singleton,
          applyOps_append (hbacks restore hres)]
        exact hback restore hres.of_append

/-- **Undoing an edit gives back the playlist.** Every edit the device accepts has an undo, and the
undo, with the resolve returned beside it, is accepted and gives back the very items. -/
theorem undo_restores (items after : List α) (ops : List (PlaylistOp ρ)) (resolve : Resolve ρ α)
    (toPlayable : α → ρ) (h : applyOps resolve items ops = .ok after) :
    ∃ inverse, invertOps items ops resolve toPlayable = .ok inverse ∧
      applyOps inverse.resolve after inverse.ops = .ok items := by
  obtain ⟨backs, more, heach, hbacks⟩ := invertEach_restores toPlayable h [] []
  refine ⟨⟨backs.reverse.flatten, resolveRemoved more⟩, ?_, ?_⟩
  · rw [invertOps, heach]
    rfl
  · have hres := restores_resolveRemoved (ρ := ρ) more []
    rw [List.append_nil] at hres
    exact hbacks _ hres

/-- A remove, an add and a move undone. -/
theorem undo_restores_three :
    let resolve : Resolve Nat Nat := fun named => .ok named.playables
    let ops : List (PlaylistOp Nat) :=
      [.remove [0, 2], .add ⟨.given 0, [7, 8]⟩ (some 0), .move [0, 2] 1]
    applyOps resolve [1, 2, 3] ops = .ok [8, 7, 2] ∧
      ∃ inverse, invertOps [1, 2, 3] ops resolve id = .ok inverse ∧
        applyOps inverse.resolve [8, 7, 2] inverse.ops = .ok [1, 2, 3] :=
  ⟨by decide, undo_restores _ _ _ _ _ (by decide)⟩

end JewelCase.Playlist.Web
