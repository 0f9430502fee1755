import JewelCase.Queue.NextRuns

/-!
# Repeat All

When the context is spent, Next starts it over. A lap plays every item of the context once, in
the context's own order, or, when a shuffle was turned on with nothing left to play, in the
seeded order of the whole context; and further laps play the same order.
-/
namespace JewelCase.Queue

set_option autoImplicit false

open Library (Stretch)
open Library.Lists
open Library.Runs

theorem Shuffle.Ok.lap_get {s : Shuffle} (h : s.Ok) {i : Nat} (hi : i < s.base.len) :
    s.lap[i]? = s.baseItems[permute s.seed s.base.len i]? := by
  have hdef : Defined s.item (List.range' 0 s.base.len) := by
    intro p hp
    rw [List.mem_range'_1] at hp
    obtain ⟨item, hitem, -⟩ := h.item_isSome (p := p) (by omega)
    rw [hitem]
    rfl
  rw [Shuffle.lap, hdef.getElem?, List.getElem?_range' (by omega)]
  simp only [Nat.zero_add, Nat.one_mul, Option.bind_some, Shuffle.item, if_pos hi]

namespace QueueState

variable {q : QueueState}

/-- The items the next lap plays, in its order. -/
def nextLap (q : QueueState) : List ItemId :=
  match q.shuffle with
  | none => q.lists.order
  | some s => if s.base.isEmpty then (⟨s.seed, q.order⟩ : Shuffle).lap else q.lists.order

/-- A queue whose context is spent and starts over. -/
structure Spent (q : QueueState) : Prop where
  repeatAll : q.repeatMode = .all
  manual : q.manual.isEmpty = true
  cursor : q.cursor = q.order.len
  order : q.order.len ≠ 0

theorem Spent.restart_eq (h : q.Spent) : q.restart = shuffleNextLap { q with cursor := 0 } := by
  rw [restart, if_pos ⟨h.manual, h.cursor.ge, h.repeatAll⟩]

theorem Spent.manual_rows (h : q.Spent) : q.manual.rows = [] :=
  (SpanList.isEmpty_iff _).mp h.manual

/-- What a lap starts from: the whole context ahead, in the lap's order. -/
structure LapStart (q r : QueueState) : Prop where
  manual : r.manual = q.manual
  cursor : r.cursor = 0
  len : r.order.len = q.order.len
  order : r.lists.order = q.nextLap
  again : r.nextLap = q.nextLap
  repeatMode : r.repeatMode = q.repeatMode

theorem order_atFront (q : QueueState) :
    ({ q with cursor := 0 } : QueueState).lists.order = q.lists.order := by
  rw [← order_items, ← order_items]

/-- Going back to the front changes no lap, where the restart does nothing else. -/
theorem lapStart_atFront (hlap : q.nextLap = q.lists.order) :
    LapStart q { q with cursor := 0 } := by
  refine ⟨rfl, rfl, rfl, (order_atFront q).trans hlap.symm, ?_, rfl⟩
  simp only [nextLap, order_atFront]

theorem Placed.lap_start (h : q.Placed) (hs : q.Spent) : LapStart q q.restart := by
  cases hsh : q.shuffle with
  | none =>
    have he : shuffleNextLap { q with cursor := 0 } = { q with cursor := 0 } := by
      simp only [shuffleNextLap, hsh]
    rw [hs.restart_eq, he]
    exact lapStart_atFront (by simp only [nextLap, hsh])
  | some s =>
    by_cases hb : s.base.isEmpty = true
    · have hkeys := h.keys_of_empty hsh hb
      have hok : (⟨s.seed, q.order⟩ : Shuffle).Ok := shuffle_order_ok h hkeys s.seed
      have hne : q.order.isEmpty = false := by
        have := hs.order
        rw [SpanList.len_eq] at this
        rw [← Bool.not_eq_true, SpanList.isEmpty_iff_len]
        exact this
      have he : shuffleNextLap { q with cursor := 0 } = { q with
          cursor := 0
          shuffle := some ⟨s.seed, q.order⟩
          order := .fromSpans [⟨.shuffle, 0, q.order.len⟩] } := by
        simp only [shuffleNextLap, hsh, hb, if_true]
      have hlap : q.nextLap = (⟨s.seed, q.order⟩ : Shuffle).lap := by
        simp only [nextLap, hsh, hb, if_true]
      have hord : ({ q with
          cursor := 0
          shuffle := some ⟨s.seed, q.order⟩
          order := .fromSpans [⟨.shuffle, 0, q.order.len⟩] } : QueueState).lists.order =
          (⟨s.seed, q.order⟩ : Shuffle).lap := by
        rw [← order_items]
        simp only [rows_lap]
        exact itemsOf_lap ⟨s.seed, q.order⟩
      rw [hs.restart_eq, he]
      refine ⟨rfl, rfl, ?_, hord.trans hlap.symm, ?_, rfl⟩
      · rw [SpanList.len_eq]
        simp only [rows_lap, List.length_map, List.length_range']
      · rw [hlap, ← hord]
        simp only [nextLap, hne, Bool.false_eq_true, if_false]
    · have he : shuffleNextLap { q with cursor := 0 } = { q with cursor := 0 } := by
        simp only [shuffleNextLap, hsh, hb, Bool.false_eq_true, if_false]
      rw [hs.restart_eq, he]
      exact lapStart_atFront (by simp only [nextLap, hsh, hb, Bool.false_eq_true, if_false])

theorem Placed.nextLap_perm (h : q.Placed) : q.nextLap.Perm q.lists.order := by
  rw [nextLap]
  cases hsh : q.shuffle with
  | none => exact List.Perm.refl _
  | some s =>
    by_cases hb : s.base.isEmpty = true
    · have hkeys := h.keys_of_empty hsh hb
      simp only [hb, if_true]
      refine (shuffle_order_ok h hkeys s.seed).lap_perm.trans ?_
      rw [← order_items, itemsOf, hkeys.items, Shuffle.baseItems]
    · simp only [hb, Bool.false_eq_true, if_false]
      exact List.Perm.refl _

/-! ### What recording leaves alone -/

/-- States alike but for sources, copies and plays: those of the second are among those of the
first. -/
structure Alike (q q' : QueueState) : Prop where
  frame : q' = { q with
    sources := q'.sources, copies := q'.copies, history := q'.history, nextPlay := q'.nextPlay }
  sources : q'.sources.Sublist q.sources
  copies : q'.copies.Sublist q.copies

theorem alike_record (q : QueueState) (spans : List Span) : Alike q (q.recordAndClean spans) := by
  have hrec : ∃ h n, (q.recordPlays spans).2 = { q with history := h, nextPlay := n } := by
    simp only [recordPlays, foldl_recordSpan, trimHistory]
    exact ⟨_, _, rfl⟩
  obtain ⟨h, n, he⟩ := hrec
  unfold recordAndClean
  cases hr : q.recordPlays spans with
  | mk trimmed q' =>
    rw [hr] at he
    simp only at he
    subst he
    cases trimmed with
    | true => exact ⟨rfl, List.filter_sublist, List.filter_sublist⟩
    | false => exact ⟨rfl, List.Sublist.refl _, List.Sublist.refl _⟩

theorem alike_restart (q : QueueState) :
    q.restart.sources = q.sources ∧ q.restart.copies = q.copies := by
  unfold restart shuffleNextLap
  repeat' split
  all_goals exact ⟨rfl, rfl⟩

theorem next_sublists (q : QueueState) :
    q.next.sources.Sublist q.sources ∧ q.next.copies.Sublist q.copies := by
  have ha := alike_record q.restart.advance (q.current.map playSpan).toList
  have hadv : q.restart.advance.sources = q.restart.sources ∧
      q.restart.advance.copies = q.restart.copies := by
    unfold advance
    repeat' split
    all_goals exact ⟨rfl, rfl⟩
  obtain ⟨hs, hc⟩ := alike_restart q
  rw [← hs, ← hc, ← hadv.1, ← hadv.2]
  exact ⟨ha.sources, ha.copies⟩

theorem iterate_sublists (q : QueueState) (k : Nat) :
    (QueueState.next^[k] q).sources.Sublist q.sources ∧ (QueueState.next^[k] q).copies.Sublist q.copies := by
  induction k with
  | zero => exact ⟨List.Sublist.refl _, List.Sublist.refl _⟩
  | succ k ih =>
    rw [Function.iterate_succ_apply']
    have := next_sublists (QueueState.next^[k] q)
    exact ⟨this.1.trans ih.1, this.2.trans ih.2⟩

/-! ### A lap -/

theorem Placed.next_alike (h : q.Placed) (hne : q.restart.lists.upNext ≠ []) :
    Alike (q.restart.playOn 1) q.next := by
  rw [QueueState.next, h.restart.playable.advance_eq, if_neg hne]
  exact alike_record _ _

/-- A queue that plays row `k` of the context of `r`, with nothing queued. -/
structure Plays (r : QueueState) (k : Nat) (q : QueueState) : Prop where
  order : q.order = r.order
  shuffle : q.shuffle = r.shuffle
  manual : q.manual.rows = []
  cursor : q.cursor = k + 1
  current : q.current = r.lists.order[k]?
  repeatMode : q.repeatMode = r.repeatMode

theorem upNext_spent_manual (hm : q.manual.rows = []) :
    q.lists.upNext = itemsOf q.shuffle (q.order.rows.drop q.cursor) := by
  rw [Lists.upNext, lists, hm]
  rfl

/-- Playing one row on, where the Manual Queue is empty. -/
theorem plays_next {r q' : QueueState} (hr : q.Readable) (hm : q.manual.rows = []) {k : Nat}
    (hc : q.cursor = k) (ho : q.order = r.order) (hs : q.shuffle = r.shuffle)
    (hrep : q.repeatMode = r.repeatMode) (ha : Alike (q.playOn 1) q') : Plays r k q' := by
  have hlen : q.manual.len = 0 := by rw [SpanList.len_eq, hm]; rfl
  have hman : (q.manual.remove 0 1).2.rows = [] := by rw [rows_remove_front, hm]; rfl
  have hcur : q.lists.upNext[1 - 1]? = r.lists.order[k]? := by
    rw [upNext_spent_manual hm, itemsOf_drop hr.order_reads, List.getElem?_drop, ← order_items,
      hc, ho, hs]
    rfl
  obtain ⟨hf, -, -⟩ := ha
  rw [hf]
  exact ⟨ho, hs, hman, by simp only [playOn, hlen, hc], hcur, hrep⟩

/-- Row `k` of a lap. -/
theorem Valid.lap_plays (h : q.Valid) (hs : q.Spent) {k : Nat} (hk : k < q.order.len) :
    (QueueState.next^[k + 1] q).Valid ∧ Plays q.restart k (QueueState.next^[k + 1] q) := by
  have hstart := h.placed.lap_start hs
  have hman : q.restart.manual.rows = [] := by rw [hstart.manual, hs.manual_rows]
  have hread := h.placed.restart.playable.toReadable
  have hlen : q.restart.lists.order.length = q.order.len := by
    rw [hread.length_order, hstart.len]
  induction k with
  | zero =>
    have hne : q.restart.lists.upNext ≠ [] := by
      rw [upNext_spent_manual hman, hstart.cursor, List.drop_zero, order_items]
      intro he
      rw [he] at hlen
      exact hs.order hlen.symm
    refine ⟨h.next.valid, ?_⟩
    exact plays_next hread hman hstart.cursor rfl rfl rfl (h.placed.next_alike hne)
  | succ k ih =>
    obtain ⟨hv, hp⟩ := ih (by omega)
    rw [Function.iterate_succ_apply']
    generalize QueueState.next^[k + 1] q = t at hv hp
    have hne : t.lists.upNext ≠ [] := by
      rw [upNext_spent_manual hp.manual, itemsOf_drop hv.placed.order_reads, hp.order, hp.shuffle,
        order_items, hp.cursor]
      intro he
      have := List.drop_eq_nil_iff.mp he
      omega
    have hre : t.restart = t := restart_of_upNext hv.placed.toReadable hne
    refine ⟨hv.next.valid, plays_next hv.placed.toReadable hp.manual hp.cursor hp.order
      hp.shuffle hp.repeatMode ?_⟩
    have := hv.placed.next_alike (hre.symm ▸ hne)
    rwa [hre] at this

/-- A whole lap ends where it began, with the same order to come. -/
theorem Valid.lap_end (h : q.Valid) (hs : q.Spent) :
    (QueueState.next^[q.order.len] q).Valid ∧ (QueueState.next^[q.order.len] q).Spent ∧
      (QueueState.next^[q.order.len] q).order.len = q.order.len ∧
      (QueueState.next^[q.order.len] q).nextLap = q.nextLap := by
  have hstart := h.placed.lap_start hs
  have hpos := hs.order
  obtain ⟨hv, hp⟩ := h.lap_plays hs (k := q.order.len - 1) (by omega)
  rw [show q.order.len - 1 + 1 = q.order.len by omega] at hv hp
  have hlen : (QueueState.next^[q.order.len] q).order.len = q.order.len := by rw [hp.order, hstart.len]
  refine ⟨hv, ⟨?_, ?_, ?_, ?_⟩, hlen, ?_⟩
  · rw [hp.repeatMode, hstart.repeatMode, hs.repeatAll]
  · exact (SpanList.isEmpty_iff _).mpr hp.manual
  · rw [hp.cursor, hlen]
    omega
  · rw [hlen]
    exact hpos
  · have hord : (QueueState.next^[q.order.len] q).lists.order = q.restart.lists.order := by
      rw [← order_items, ← order_items, hp.order, hp.shuffle]
    rw [← hstart.again]
    simp only [nextLap, hp.shuffle, hp.order, hord]

theorem Valid.lap_current (h : q.Valid) (hs : q.Spent) {k : Nat} (hk : k < q.order.len) :
    (QueueState.next^[k + 1] q).current = q.nextLap[k]? := by
  rw [(h.lap_plays hs hk).2.current, (h.placed.lap_start hs).order]

/-- **A Repeat All lap plays every row of the context once**, in every queue whose context is
spent: in the context's order, or in the seeded order of the whole context where a shuffle is
set with an empty base. A further lap plays the same, and nothing is copied or added. -/
theorem repeat_all_lap (calls : List Call) (hs : (run calls).Spent) :
    let q := run calls
    let n := q.order.len
    (∀ k < n, (QueueState.next^[k + 1] q).current = q.nextLap[k]?) ∧
      q.nextLap.Perm q.lists.order ∧ q.nextLap.Nodup ∧ q.nextLap.length = n ∧
      (QueueState.next^[n] q).cursor = (QueueState.next^[n] q).order.len ∧
      (∀ k < n, (QueueState.next^[n + (k + 1)] q).current = q.nextLap[k]?) ∧
      ((∀ s, q.shuffle = some s → s.base.isEmpty = false) → q.nextLap = q.lists.order) ∧
      (∀ s, q.shuffle = some s → s.base.isEmpty = true →
        ∀ k < n, q.nextLap[k]? = q.lists.order[permute s.seed n k]?) ∧
      ∀ k, (QueueState.next^[k] q).sources.Sublist q.sources ∧ (QueueState.next^[k] q).copies.Sublist q.copies := by
  intro q n
  have hv : q.Valid := run_valid calls
  obtain ⟨hv', hs', hn', hlap'⟩ := hv.lap_end hs
  have hperm := hv.placed.nextLap_perm
  refine ⟨fun k hk => hv.lap_current hs hk, hperm,
    hperm.nodup_iff.mpr hv.placed.sound.order_nodup, ?_, hs'.cursor, ?_, ?_, ?_,
    iterate_sublists q⟩
  · rw [hperm.length_eq, hv.placed.length_order]
  · intro k hk
    rw [Nat.add_comm, Function.iterate_add_apply, ← hlap']
    exact hv'.lap_current hs' (hn'.symm ▸ hk)
  · intro hb
    cases hsh : q.shuffle with
    | none => simp only [nextLap, hsh]
    | some s => simp only [nextLap, hsh, hb s hsh, Bool.false_eq_true, if_false]
  · intro s hsh hb k hk
    have hkeys := hv.placed.keys_of_empty hsh hb
    simp only [nextLap, hsh, hb, if_true]
    rw [(shuffle_order_ok hv.placed hkeys s.seed).lap_get hk]
    have hitems : (⟨s.seed, q.order⟩ : Shuffle).baseItems = q.lists.order := by
      rw [← order_items, itemsOf, hkeys.items, Shuffle.baseItems]
    rw [hitems]

theorem repeat_all_lap_of_two :
    let q := run [.start ⟨"a", "", none, 2, none⟩ 1, .apply (.repeatMode .all)]
    q.order.len = 2 ∧ (QueueState.next^[1] q).current = q.nextLap[0]? ∧
      (QueueState.next^[2] q).current = q.nextLap[1]? := by
  have hlen : (run [.start ⟨"a", "", none, 2, none⟩ 1, .apply (.repeatMode .all)]).order.len = 2 := by
    decide +kernel
  have hlap := (repeat_all_lap [.start ⟨"a", "", none, 2, none⟩ 1, .apply (.repeatMode .all)]
    ⟨by decide +kernel, by decide +kernel, by decide +kernel, by decide +kernel⟩).1
  exact ⟨hlen, hlap 0 (hlen ▸ Nat.two_pos), hlap 1 (hlen ▸ Nat.one_lt_two)⟩

end QueueState

end JewelCase.Queue
