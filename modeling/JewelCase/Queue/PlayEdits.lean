import JewelCase.Queue.Valid

/-!
# Playing on, and shuffling

Jump, next, the Repeat All restart and turning shuffle on: each keeps the queue valid. Jump and
next take items off the front of Up Next and record them as plays.
-/
namespace JewelCase.Queue

set_option autoImplicit false

open Library (Stretch)
open Library.Lists

namespace QueueState

variable {q : QueueState}

/-- **Recording what was passed.** The queue `q₁` has let go of some rows of `q`, and what it
records gives them back to History. -/
theorem keeps_record {q₁ : QueueState} {spans : List Span} (h : q.Valid) (hp : q₁.Placed)
    (hsrc : q₁.sources = q.sources) (hcop : q₁.copies = q.copies)
    (hh : q₁.history = q.history) (hn : q₁.nextPlay = q.nextPlay)
    (hread : Defined (rowItem q₁.shuffle) (rowsOf spans)) (hpos : ∀ s ∈ spans, 0 < s.len)
    (hm : ∀ key pos, (View.key key, pos) ∈ q₁.mentioned ∨
      (View.key key, pos) ∈ listRows q₁.shuffle (rowsOf spans) → (View.key key, pos) ∈ q.mentioned)
    (hr : ∀ key, q.Refers key → q₁.Refers key ∨
      ∃ pos, (View.key key, pos) ∈ listRows q₁.shuffle (rowsOf spans)) :
    Keeps q (q₁.recordAndClean spans) := by
  have hnum := h.numbered.of_eq hh hn
  have hrec := hnum.recorded hp.shuffle_ok hread hpos
  have hkept := (PlaysKept.of_eq hh hn : PlaysKept q q₁).trans hrec.kept
  generalize hres : q₁.recordPlays spans = res at hrec hkept
  obtain ⟨trimmed, q₂⟩ := res
  simp only at hrec hkept
  have hframe := hrec.frame
  have hplaced : q₂.Placed := by
    rw [hframe]
    exact hp.of_eq rfl rfl rfl rfl rfl
  -- the rows played are those played before and those recorded
  have hplayRows : ∀ r ∈ q₂.playRows, r ∈ q₁.playRows ∨
      r ∈ listRows q₁.shuffle (rowsOf spans) := by
    intro r hr'
    obtain ⟨x, hx, rfl⟩ := List.mem_map.mp hr'
    rcases List.mem_append.mp (hrec.suffix.subset hx) with hx | hx
    · exact Or.inl (List.mem_map.mpr ⟨x, hx, rfl⟩)
    · exact Or.inr (mem_numbered hx).2.2
  have hother : ∀ r, r ∈ q₂.mentioned → r ∈ q₁.mentioned ∨
      r ∈ listRows q₁.shuffle (rowsOf spans) := by
    intro r hr'
    rw [mem_mentioned] at hr'
    rw [hframe] at hr'
    rcases hr' with hr' | hr' | hr' | hr' | hr'
    · exact Or.inl (mem_mentioned.2 (Or.inl hr'))
    · exact Or.inl (mem_mentioned.2 (Or.inr (Or.inl hr')))
    · exact Or.inl (mem_mentioned.2 (Or.inr (Or.inr (Or.inl hr'))))
    · exact Or.inl (mem_mentioned.2 (Or.inr (Or.inr (Or.inr (Or.inl hr')))))
    · rcases hplayRows r (by rw [hframe]; exact hr') with hr' | hr'
      · exact Or.inl (mem_mentioned.2 (Or.inr (Or.inr (Or.inr (Or.inr hr')))))
      · exact Or.inr hr'
  have hsrc₂ : q₂.sources = q.sources := by rw [hframe]; exact hsrc
  have hcop₂ : q₂.copies = q.copies := by rw [hframe]; exact hcop
  have hground : q₂.Grounded :=
    h.grounded.mono hsrc₂ hcop₂ fun key pos hmem => hm key pos (hother _ hmem)
  simp only [recordAndClean, hres]
  cases trimmed with
  | true => exact keeps_cleanUp hplaced hrec.numbered hground hkept
  | false =>
    refine ⟨⟨hplaced, hrec.numbered, hground, ?_⟩, hkept⟩
    refine h.tidy.mono hsrc₂ hcop₂ fun key hkey => ?_
    have hwhole := hrec.whole rfl
    have hrows : q₂.playRows = q₁.playRows ++ listRows q₁.shuffle (rowsOf spans) := by
      rw [playRows, hwhole, List.map_append, map_snd_numbered]
      rfl
    have hkeep : ∀ r, r ∈ q₁.mentioned ∨ r ∈ listRows q₁.shuffle (rowsOf spans) →
        r ∈ q₂.mentioned := by
      intro r hr'
      rw [mem_mentioned, hrows, List.mem_append]
      rw [mem_mentioned] at hr'
      rw [hframe]
      simp only [baseRows] at hr' ⊢
      grind
    rcases hr key hkey with ⟨pos, hpos'⟩ | ⟨pos, hpos'⟩
    · exact ⟨pos, hkeep _ (Or.inl hpos')⟩
    · exact ⟨pos, hkeep _ (Or.inr hpos')⟩

/-! ### Next -/

/-- Rows and items that may be played on from: all of `Placed` but where the playing item is. -/
structure Playable (q : QueueState) : Prop extends Readable q where
  order_nodup : q.lists.order.Nodup
  upNext_nodup : q.lists.upNext.Nodup

theorem Placed.playable (h : q.Placed) : q.Playable :=
  ⟨h.toReadable, h.sound.order_nodup, h.sound.upNext_nodup⟩

theorem Defined.keys_of_none {rows : List Row} (h : Defined (rowItem none) rows) :
    KeyRows rows := by
  rintro ⟨v, p⟩ hr
  cases v with
  | key k => simp
  | shuffle => simpa [rowItem] using h _ hr

/-- A context that reads an empty base reads no shuffle row. -/
theorem Readable.keys_of_empty (h : q.Readable) {s : Shuffle} (hs : q.shuffle = some s)
    (he : s.base.isEmpty = true) : KeyRows q.order.rows := by
  rintro ⟨v, p⟩ hr
  cases v with
  | key k => simp
  | shuffle =>
    have hread := h.order_reads _ hr
    rw [SpanList.isEmpty_iff_len] at he
    simp [rowItem, hs, Shuffle.item, he] at hread

theorem shuffle_order_ok (h : q.Placed) (hk : KeyRows q.order.rows) (seed : UInt32) :
    (⟨seed, q.order⟩ : Shuffle).Ok := ⟨hk, h.order_rows_nodup⟩

/-- **What a restart does**: nothing, or the cursor goes back to the first row of the context,
or the whole context becomes the base of a shuffle that is then played. -/
theorem Placed.restart_cases (h : q.Placed) :
    q.restart = q ∨
      (q.manual.rows = [] ∧ q.cursor = q.order.rows.length ∧
        q.restart = { q with cursor := 0 }) ∨
      ∃ s, q.manual.rows = [] ∧ q.cursor = q.order.rows.length ∧ q.shuffle = some s ∧
        KeyRows q.order.rows ∧ s.base.rows = [] ∧
        q.restart = { q with
          cursor := 0
          shuffle := some ⟨s.seed, q.order⟩
          order := .fromSpans [⟨.shuffle, 0, q.order.len⟩] } := by
  unfold restart
  by_cases hcond : q.manual.isEmpty ∧ q.cursor ≥ q.order.len ∧ q.repeatMode = .all
  · rw [if_pos hcond]
    obtain ⟨hm, hc, -⟩ := hcond
    rw [SpanList.isEmpty_iff] at hm
    rw [SpanList.len_eq] at hc
    have hc' : q.cursor = q.order.rows.length := Nat.le_antisymm h.cursor_le hc
    cases hs : q.shuffle with
    | none => exact Or.inr (Or.inl ⟨hm, hc', by simp [shuffleNextLap]⟩)
    | some s =>
      by_cases he : s.base.isEmpty = true
      · refine Or.inr (Or.inr ⟨s, hm, hc', rfl, h.keys_of_empty hs he, ?_, ?_⟩)
        · exact (SpanList.isEmpty_iff _).mp he
        · simp only [shuffleNextLap, he, if_true]
      · exact Or.inr (Or.inl ⟨hm, hc', by simp only [shuffleNextLap, he, Bool.false_eq_true,
          if_false]⟩)
  · rw [if_neg hcond]
    exact Or.inl rfl

/-- A queue about to be played on from another: it refers to the same, and Up Next can be read
and holds each item once. -/
structure Restarted (q r : QueueState) : Prop where
  playable : r.Playable
  mentioned : ∀ key pos, (View.key key, pos) ∈ r.mentioned ↔ (View.key key, pos) ∈ q.mentioned
  sources : r.sources = q.sources
  copies : r.copies = q.copies
  history : r.history = q.history
  nextPlay : r.nextPlay = q.nextPlay
  current : r.current = q.current

theorem Placed.restarted_self (h : q.Placed) : Restarted q q :=
  ⟨h.playable, fun _ _ => Iff.rfl, rfl, rfl, rfl, rfl, rfl⟩

/-- A restart leaves a queue to play on from. -/
theorem Placed.restart (h : q.Placed) : Restarted q q.restart := by
  have hord := h.sound.order_nodup
  rw [← order_items] at hord
  rcases h.restart_cases with he | ⟨hm, hc, he⟩ | ⟨s, hm, hc, hs, hk, hb, he⟩
  · rw [he]
    exact h.restarted_self
  · rw [he]
    refine ⟨⟨⟨Nat.zero_le _, h.manual_keys, h.shuffle_ok, h.order_reads⟩, ?_, ?_⟩,
      fun _ _ => Iff.rfl, rfl, rfl, rfl, rfl, rfl⟩
    · rw [← order_items]
      exact hord
    · simp only [Lists.upNext, lists, hm, itemsOf_nil, List.nil_append, List.drop_zero]
      exact hord
  · have hok : (⟨s.seed, q.order⟩ : Shuffle).Ok := shuffle_order_ok h hk s.seed
    have hnodup := (hok.lap_perm).nodup_iff.mpr hok.items_nodup
    rw [he]
    refine ⟨⟨⟨Nat.zero_le _, h.manual_keys, ?_, ?_⟩, ?_, ?_⟩, ?_, rfl, rfl, rfl, rfl, rfl⟩
    · intro s' hs'
      obtain rfl : _ = s' := by simpa using hs'
      exact hok
    · simp only [rows_lap]
      exact hok.lap_defined
    · rw [← order_items]
      simp only [rows_lap]
      rw [show q.order.len = (⟨s.seed, q.order⟩ : Shuffle).base.len from rfl, itemsOf_lap]
      exact hnodup
    · simp only [Lists.upNext, lists, hm, itemsOf_nil, List.nil_append, List.drop_zero, rows_lap]
      rw [show q.order.len = (⟨s.seed, q.order⟩ : Shuffle).base.len from rfl, itemsOf_lap]
      exact hnodup
    · intro key pos
      simp only [mem_mentioned, rows_lap, baseRows, hs, Option.elim_some, hb, playRows, plays]
      have : (View.key key, pos) ∉ (List.range' 0 q.order.len).map fun p => (View.shuffle, p) := by
        simp
      grind

/-! ### Playing on -/

/-- The rows of Up Next. -/
def upNextRows (q : QueueState) : List Row := q.manual.rows ++ q.order.rows.drop q.cursor

theorem upNextRows_items (q : QueueState) :
    itemsOf q.shuffle q.upNextRows = q.lists.upNext := itemsOf_append ..

theorem Readable.upNextRows_defined (h : q.Readable) :
    Defined (rowItem q.shuffle) q.upNextRows :=
  h.manual_total.append (h.order_reads.sub fun _ hr => List.mem_of_mem_drop hr)

/-- The row of the item playing. -/
def currentRows (q : QueueState) : List Row := (q.current.map ItemId.row).toList

theorem rowsOf_current (q : QueueState) :
    rowsOf (q.current.map playSpan).toList = q.currentRows := by
  cases hc : q.current with
  | none => simp [currentRows, hc]
  | some item => simp [currentRows, hc, rows_playSpan]

theorem current_pos (q : QueueState) : ∀ s ∈ (q.current.map playSpan).toList, 0 < s.len := by
  intro s hs
  obtain ⟨item, -, rfl⟩ := by simpa using hs
  exact Nat.one_pos

/-- The queue once the first `n` rows of Up Next are let go and the last of them plays. -/
def playOn (q : QueueState) (n : Nat) : QueueState :=
  { q with
    manual := (q.manual.remove 0 n).2
    cursor := q.cursor + (n - q.manual.len)
    current := q.lists.upNext[n - 1]? }

theorem rows_remove_front (l : SpanList) (n : Nat) : (l.remove 0 n).2.rows = l.rows.drop n := by
  rw [(SpanList.rows_remove l 0 n).2, List.take_zero, List.nil_append, Nat.zero_max]

theorem upNextRows_playOn (q : QueueState) (n : Nat) :
    (q.playOn n).upNextRows = q.upNextRows.drop n := by
  rw [upNextRows, upNextRows, List.drop_append]
  simp only [playOn, rows_remove_front, List.drop_drop, SpanList.len_eq]

theorem upNext_playOn (h : q.Readable) (n : Nat) :
    (q.playOn n).lists.upNext = q.lists.upNext.drop n := by
  rw [← upNextRows_items, upNextRows_playOn, ← upNextRows_items]
  exact h.upNextRows_defined.drop n

theorem upNext_get {n : Nat} (hn : 0 < n) (hle : n ≤ q.lists.upNext.length) :
    ∃ item, q.lists.upNext[n - 1]? = some item :=
  ⟨_, List.getElem?_eq_getElem (by omega)⟩

theorem Playable.playOn (h : q.Playable) {n : Nat} (hn : 0 < n)
    (hle : n ≤ q.lists.upNext.length) : (q.playOn n).Placed := by
  have hlen : (q.playOn n).cursor ≤ q.order.rows.length := by
    have hcur := h.cursor_le
    rw [← SpanList.len_eq] at hcur ⊢
    rw [Lists.upNext, List.length_append, h.length_manual, h.length_ahead] at hle
    simp only [QueueState.playOn]
    omega
  obtain ⟨item, hitem⟩ := upNext_get hn hle
  refine ⟨⟨hlen, ?_, h.shuffle_ok, h.order_reads⟩, ?_⟩
  · simp only [QueueState.playOn, rows_remove_front]
    exact h.manual_keys.sub fun _ hr => List.mem_of_mem_drop hr
  · refine Lists.Sound.advance (i := n - 1) h.order_nodup h.upNext_nodup hitem ?_ ?_ hitem
    · rw [← order_items, ← order_items]
      rfl
    · rw [upNext_playOn h.toReadable]
      congr 1
      omega

/-- The queue with nothing left to play. -/
theorem Playable.stop (h : q.Playable) : Placed { q with current := none } :=
  ⟨⟨h.cursor_le, h.manual_keys, h.shuffle_ok, h.order_reads⟩, h.order_nodup, h.upNext_nodup,
    fun _ hi => by cases hi⟩

/-- Playing on to row `n` of Up Next and recording what was playing and what is passed. -/
theorem Valid.playOn (h : q.Valid) {r : QueueState} (hr : Restarted q r) {n : Nat} (hn : 0 < n)
    (hle : n ≤ r.lists.upNext.length) {spans : List Span}
    (hrows : rowsOf spans = q.currentRows ++ r.upNextRows.take (n - 1))
    (hpos : ∀ s ∈ spans, 0 < s.len) : Keeps q ((r.playOn n).recordAndClean spans) := by
  have hp := hr.playable
  have hread : Defined (rowItem r.shuffle) (rowsOf spans) := by
    rw [hrows]
    refine Defined.append ?_ (hp.upNextRows_defined.sub fun _ hx => List.mem_of_mem_take hx)
    intro x hx
    obtain ⟨item, -, rfl⟩ : ∃ item, q.current = some item ∧ item.row = x := by
      simpa [currentRows] using hx
    rfl
  obtain ⟨item, hitem⟩ := upNext_get hn hle
  have hup : ∀ {it : ItemId}, it ∈ r.lists.upNext → it.row ∈ r.mentioned :=
    fun hi => hp.upNext_mentioned hi
  refine keeps_record h (hp.playOn hn hle) hr.sources hr.copies hr.history hr.nextPlay hread hpos
    ?_ ?_
  · intro key pos hm
    rw [← hr.mentioned]
    rcases hm with hm | hm
    · rw [mem_mentioned] at hm ⊢
      rcases hm with ⟨it, hit, hrow⟩ | hm | hm
      · rw [← mem_mentioned, hrow]
        exact hup (List.mem_of_getElem? hit)
      · refine Or.inr (Or.inl ?_)
        simp only [QueueState.playOn, rows_remove_front] at hm
        exact List.mem_of_mem_drop hm
      · exact Or.inr (Or.inr hm)
    · obtain ⟨it, hit, hrow⟩ := List.mem_map.mp hm
      rw [← hrow]
      simp only [hrows, itemsOf_append, List.mem_append] at hit
      rcases hit with hit | hit
      · have hcur : q.current = some it := by
          cases hc : q.current with
          | none => simp [currentRows, hc] at hit
          | some c =>
            obtain rfl : it = c := by simpa [currentRows, hc, itemsOf, rowItem_row] using hit
            rfl
        exact current_mentioned (hr.current.trans hcur)
      · have hsub : it ∈ itemsOf r.shuffle r.upNextRows :=
          ((List.take_sublist _ _).filterMap _).subset hit
        rw [upNextRows_items] at hsub
        exact hup hsub
  · rintro key ⟨pos, hm⟩
    rw [← hr.mentioned, mem_mentioned] at hm
    have hkeep : ∀ {x : Row}, x ∈ rowsOf spans → x.1 ≠ .shuffle →
        x ∈ listRows (r.playOn n).shuffle (rowsOf spans) := by
      intro x hx hk
      obtain ⟨it, hit⟩ := Option.isSome_iff_exists.mp (keyItem_isSome hk)
      obtain rfl := keyItem_eq_some.1 hit
      exact List.mem_map.mpr ⟨it, List.mem_filterMap.mpr ⟨_, hx, rowItem_row _ it⟩, rfl⟩
    rcases hm with ⟨it, hit, hrow⟩ | hm | hm
    · refine Or.inr ⟨pos, hkeep ?_ (by simp)⟩
      rw [hr.current] at hit
      simp [hrows, currentRows, hit, hrow]
    · obtain ⟨j, hj⟩ := List.mem_iff_getElem?.mp hm
      have hj' : r.upNextRows[j]? = some (.key key, pos) := by
        rw [upNextRows, List.getElem?_append_left (List.getElem?_eq_some_iff.mp hj).1]
        exact hj
      rcases Nat.lt_trichotomy j (n - 1) with hlt | heq | hgt
      · refine Or.inr ⟨pos, hkeep ?_ (by simp)⟩
        rw [hrows]
        refine List.mem_append_right _ (List.mem_of_getElem? (i := j) ?_)
        rw [List.getElem?_take_of_lt hlt, hj']
      · refine Or.inl ⟨pos, mem_mentioned.2 (Or.inl ⟨⟨key, pos⟩, ?_, rfl⟩)⟩
        simp only [QueueState.playOn]
        rw [← heq, ← upNextRows_items]
        refine (hp.upNextRows_defined.getElem? j).trans ?_
        rw [hj']
        rfl
      · refine Or.inl ⟨pos, mem_mentioned.2 (Or.inr (Or.inl ?_))⟩
        simp only [QueueState.playOn, rows_remove_front]
        refine List.mem_of_getElem? (i := j - n) ?_
        rw [List.getElem?_drop, show n + (j - n) = j by omega, hj]
    · exact Or.inl ⟨pos, mem_mentioned.2 (Or.inr (Or.inr hm))⟩

/-- Recording the item that was playing when nothing is left. -/
theorem Valid.stop (h : q.Valid) {r : QueueState} (hr : Restarted q r) :
    Keeps q (recordAndClean { r with current := none } (q.current.map playSpan).toList) := by
  have hrows := rowsOf_current q
  have hlist : ∀ shuffle, listRows shuffle q.currentRows = q.currentRows := by
    intro shuffle
    refine listRows_of_keys ?_ shuffle
    intro x hx
    obtain ⟨item, -, rfl⟩ : ∃ item, q.current = some item ∧ item.row = x := by
      simpa [currentRows] using hx
    simp [ItemId.row, ItemId.view]
  refine keeps_record h hr.playable.stop hr.sources hr.copies hr.history hr.nextPlay ?_
    (current_pos q) ?_ ?_
  · rw [hrows]
    intro x hx
    obtain ⟨item, -, rfl⟩ : ∃ item, q.current = some item ∧ item.row = x := by
      simpa [currentRows] using hx
    rfl
  · intro key pos hm
    rw [← hr.mentioned]
    rcases hm with hm | hm
    · rw [mem_mentioned] at hm ⊢
      rcases hm with ⟨it, hit, -⟩ | hm
      · cases hit
      · exact Or.inr hm
    · rw [hrows, hlist] at hm
      obtain ⟨item, hc, hrow⟩ : ∃ item, q.current = some item ∧ item.row = (.key key, pos) := by
        simpa [currentRows] using hm
      rw [← hrow]
      exact current_mentioned (hr.current.trans hc)
  · rintro key ⟨pos, hm⟩
    rw [← hr.mentioned, mem_mentioned] at hm
    rcases hm with ⟨it, hit, hrow⟩ | hm
    · refine Or.inr ⟨pos, ?_⟩
      rw [hrows, hlist]
      rw [hr.current] at hit
      simp [currentRows, hit, hrow]
    · exact Or.inl ⟨pos, mem_mentioned.2 (Or.inr hm)⟩

/-- **A jump plays on to the item's index.** -/
theorem Placed.jump_eq (h : q.Placed) {item : ItemId} {i : Nat} (hi : q.findItem item = some i) :
    ∃ spans, rowsOf spans = q.currentRows ++ q.upNextRows.take i ∧ (∀ s ∈ spans, 0 < s.len) ∧
      q.jump item = (q.playOn (i + 1)).recordAndClean spans := by
  have hget := h.findItem_iff.mp hi
  have hpos := current_pos q
  unfold jump
  simp only [hi]
  by_cases hm : i < q.manual.len
  · refine ⟨(q.current.map playSpan).toList ++ (q.manual.remove 0 i).1, ?_, ?_, ?_⟩
    · rw [rowsOf_append, rowsOf_current, (SpanList.rows_remove q.manual 0 i).1, List.drop_zero,
        upNextRows, List.take_append_of_le_length]
      rw [← SpanList.len_eq]
      omega
    · intro s hs
      rcases List.mem_append.mp hs with hs | hs
      · exact hpos s hs
      · exact SpanList.remove_pos _ _ _ s hs
    · rw [if_pos hm]
      simp only [QueueState.playOn, Nat.add_sub_cancel, hget]
      rw [show i + 1 - q.manual.len = 0 by omega, Nat.add_zero]
      congr 2
      apply SpanList.ext_rows
      rw [rows_remove_front, rows_remove_front, rows_remove_front, List.drop_drop]
  · refine ⟨(q.current.map playSpan).toList ++ (q.manual.remove 0 q.manual.len).1 ++
      q.order.slice q.cursor (q.cursor + (i - q.manual.len)), ?_, ?_, ?_⟩
    · have hlen := SpanList.len_eq q.manual
      rw [rowsOf_append, rowsOf_append, rowsOf_current,
        (SpanList.rows_remove q.manual 0 q.manual.len).1, SpanList.rows_slice, List.drop_zero,
        upNextRows, List.take_append, List.take_of_length_le (by omega),
        List.take_of_length_le (i := i) (by omega), List.drop_take, hlen,
        show q.cursor + (i - q.manual.rows.length) - q.cursor = i - q.manual.rows.length by omega,
        List.append_assoc]
    · intro s hs
      rcases List.mem_append.mp hs with hs | hs
      · rcases List.mem_append.mp hs with hs | hs
        · exact hpos s hs
        · exact SpanList.remove_pos _ _ _ s hs
      · exact SpanList.slice_pos _ _ _ s hs
    · rw [if_neg hm]
      simp only [QueueState.playOn, Nat.add_sub_cancel, hget]
      rw [show i - q.manual.len + 1 = i + 1 - q.manual.len by omega]
      congr 2
      apply SpanList.ext_rows
      have hlen := SpanList.len_eq q.manual
      rw [rows_remove_front, rows_remove_front, List.drop_of_length_le (by omega),
        List.drop_of_length_le (by omega)]

/-- **Next plays on to the front of Up Next**, or stops where nothing is left. -/
theorem Readable.advance_eq (h : q.Readable) :
    q.advance = if q.lists.upNext = [] then { q with current := none } else q.playOn 1 := by
  have hlm := h.length_manual
  have hla := h.length_ahead
  unfold advance
  by_cases hm : q.manual.isEmpty = true
  · have hrows := (SpanList.isEmpty_iff _).mp hm
    have hnil : q.lists.manual = [] := by simp [lists, hrows]
    have hlen : q.manual.len = 0 := by rw [SpanList.len_eq, hrows]; rfl
    rw [if_neg (by simp [hm])]
    by_cases hc : q.cursor < q.order.len
    · have hne : q.lists.upNext ≠ [] := by
        intro he
        have := (List.append_eq_nil_iff.mp he).2
        rw [this, List.length_nil] at hla
        omega
      rw [if_pos hc, if_neg hne, QueueState.playOn, hlen]
      have hget : q.lists.upNext[1 - 1]? = q.itemAt q.order q.cursor := by
        rw [Lists.upNext, hnil, List.nil_append, h.getElem?_ahead]
        rfl
      have hman : (q.manual.remove 0 1).2 = q.manual := by
        apply SpanList.ext_rows
        rw [rows_remove_front, hrows]
        rfl
      rw [hget, hman]
    · have hnil' : q.lists.upNext = [] := by
        rw [Lists.upNext, hnil, List.nil_append]
        apply List.eq_nil_of_length_eq_zero
        omega
      rw [if_neg hc, if_pos hnil']
  · have hpos : 0 < q.manual.len := by
      rw [SpanList.isEmpty_iff_len, ← SpanList.len_eq] at hm
      omega
    have hne : q.lists.upNext ≠ [] := by
      intro he
      have := (List.append_eq_nil_iff.mp he).1
      rw [this, List.length_nil] at hlm
      omega
    rw [if_pos (by simpa using hm), if_neg hne, QueueState.playOn]
    have hget : q.lists.upNext[1 - 1]? = q.itemAt q.manual 0 := by
      rw [Lists.upNext, List.getElem?_append_left (by omega), h.getElem?_manual]
    rw [hget, show 1 - q.manual.len = 0 by omega, Nat.add_zero]

theorem Valid.jump (h : q.Valid) (item : ItemId) : Keeps q (q.jump item) := by
  cases hi : q.findItem item with
  | none =>
    rw [QueueState.jump, hi]
    exact h.keeps
  | some i =>
    obtain ⟨spans, hrows, hpos, he⟩ := h.placed.jump_eq hi
    have hlt := (List.getElem?_eq_some_iff.mp (h.placed.findItem_iff.mp hi)).1
    rw [he]
    exact h.playOn h.placed.restarted_self (Nat.succ_pos i) hlt (by simpa using hrows) hpos

theorem Valid.next (h : q.Valid) : Keeps q q.next := by
  have hr := h.placed.restart
  rw [QueueState.next, hr.playable.advance_eq]
  by_cases hup : q.restart.lists.upNext = []
  · rw [if_pos hup]
    exact h.stop hr
  · rw [if_neg hup]
    refine h.playOn hr Nat.one_pos (List.length_pos_iff.mpr hup) ?_ (current_pos q)
    simpa using rowsOf_current q

/-! ### Turning shuffle on -/

/-- What turning shuffle on does: the unplayed context is the base, and the context is what was
passed followed by the whole shuffle. -/
theorem setShuffle_on (q : QueueState) (hs : q.shuffle = none) (seed : UInt32) :
    ∃ s order, q.setShuffle true seed = { q with order := order, shuffle := some s } ∧
      s.seed = seed ∧ s.base.rows = q.order.rows.drop q.cursor ∧
      order.rows = q.order.rows.take q.cursor ++
        (List.range' 0 s.base.len).map fun p => (View.shuffle, p) := by
  have hrem := SpanList.rows_remove q.order q.cursor q.order.len
  have hall : q.order.rows.drop (max q.cursor q.order.len) = [] := by
    rw [List.drop_of_length_le]
    rw [SpanList.len_eq]
    exact Nat.le_max_right _ _
  have he : q.setShuffle true seed = { q with
      order := (q.order.remove q.cursor q.order.len).2.splice
        (q.order.remove q.cursor q.order.len).2.len
        [⟨.shuffle, 0, (SpanList.fromSpans (q.order.remove q.cursor q.order.len).1).len⟩]
      shuffle := some ⟨seed, .fromSpans (q.order.remove q.cursor q.order.len).1⟩ } := by
    simp only [setShuffle, hs]
  refine ⟨_, _, he, rfl, ?_, ?_⟩
  · simp only [SpanList.rows_fromSpans]
    rw [hrem.1, SpanList.len_eq, List.take_length]
  · rw [SpanList.rows_splice, SpanList.len_eq, List.take_length, List.drop_length, List.append_nil,
      hrem.2, hall, List.append_nil, rowsOf_cons, rowsOf_nil, List.append_nil, Span.rows_eq]

theorem Valid.shuffleOn (h : q.Valid) (hs : q.shuffle = none) (seed : UInt32) :
    Keeps q (q.setShuffle true seed) := by
  obtain ⟨s, order, he, -, hb, ho⟩ := q.setShuffle_on hs seed
  have hkeys : KeyRows q.order.rows := by
    have := h.placed.order_reads
    rw [hs] at this
    exact Defined.keys_of_none this
  have hok : s.Ok := by
    refine ⟨hb ▸ hkeys.sub fun _ hr => List.mem_of_mem_drop hr, ?_⟩
    rw [hb]
    exact h.placed.order_rows_nodup.sublist (List.drop_sublist _ _)
  have hpassed : (q.order.rows.take q.cursor).length = q.cursor := by
    rw [List.length_take]
    exact Nat.min_eq_left h.placed.cursor_le
  have hkp : KeyRows (q.order.rows.take q.cursor) :=
    hkeys.sub fun _ hr => List.mem_of_mem_take hr
  have hitems : ∀ {rows}, KeyRows rows → itemsOf (some s) rows = itemsOf q.shuffle rows :=
    fun hk => (hk.items _).trans (hk.items _).symm
  rw [he]
  have hplaced : Placed { q with order := order, shuffle := some s } := by
    refine ⟨⟨?_, h.placed.manual_keys, ?_, ?_⟩, ?_⟩
    · simp only [ho, List.length_append, hpassed]
      omega
    · intro s' hs'
      obtain rfl : s = s' := by simpa using hs'
      exact hok
    · simp only [ho]
      exact (hkp.total_rowItem _).append hok.lap_defined
    · refine h.placed.sound.perm ?_ ?_ ?_ rfl
      · simp only [lists, hitems h.placed.manual_keys]
      · simp only [lists, ho, List.take_left' hpassed, hitems hkp]
      · simp only [lists, ho, List.drop_left' hpassed, itemsOf_lap]
        refine hok.lap_perm.trans ?_
        rw [Shuffle.baseItems, hb, itemsOf,
          (hkeys.sub fun _ hr => List.mem_of_mem_drop hr : KeyRows (q.order.rows.drop _)).items]
  have hment : ∀ key pos,
      (View.key key, pos) ∈ mentioned { q with order := order, shuffle := some s } ↔
        (View.key key, pos) ∈ q.mentioned := by
    intro key pos
    have hsplit : (View.key key, pos) ∈ q.order.rows ↔
        (View.key key, pos) ∈ q.order.rows.take q.cursor ∨
          (View.key key, pos) ∈ q.order.rows.drop q.cursor := by
      rw [← List.mem_append, List.take_append_drop]
    have hlap : (View.key key, pos) ∉ (List.range' 0 s.base.len).map fun p => (View.shuffle, p) := by
      simp
    simp only [mem_mentioned, baseRows, ho, hs, hb, hsplit, List.mem_append, hlap,
      Option.elim_some, Option.elim_none, List.not_mem_nil, or_false, playRows, plays]
    grind
  exact ⟨⟨hplaced, h.numbered.of_eq rfl rfl, h.grounded.mono rfl rfl fun key pos => (hment key pos).mp,
    h.tidy.mono rfl rfl fun key hr => hr.imp fun pos hm => (hment key pos).mpr hm⟩, .of_eq rfl rfl⟩

end QueueState

end JewelCase.Queue
