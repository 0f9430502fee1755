import Mathlib.Algebra.Order.BigOperators.Group.List
import JewelCase.Queue.Rewinding

/-!
# Going back to a play

A rewind to a play is that many steps back over the lists, with at most one copy, and keeps the
queue valid.
-/
namespace JewelCase.Queue

set_option autoImplicit false

open Library (Stretch)
open Library.Lists

/-! ### The plays heard -/

theorem items_eq_rows (p : Piece) :
    p.items = (rowsOf [⟨.key p.key, p.start, p.len⟩]).filterMap keyItem := by
  rw [rows_piece_span p.key p.start p.len p.copy, List.filterMap_map]
  exact (List.filterMap_some ..).symm

theorem newestFirst_reverse (pieces : List Piece) :
    newestFirst pieces.reverse = (pieces.flatMap Piece.items).reverse := by
  induction pieces with
  | nil => rfl
  | cons p pieces ih =>
    rw [newestFirst, List.reverse_cons, List.flatMap_append, ← newestFirst, ih]
    simp

namespace QueueState

variable {q : QueueState}

/-- Runs of list plays are heard as the pieces of their rows. -/
theorem heardFrom_zero {runs : List Run} (hk : KeyRows (rowsOf (runs.map (·.span))))
    (hpos : ∀ run ∈ runs, 0 < run.span.len) :
    ∃ pieces, heardFrom 0 runs = some pieces ∧
      pieces.flatMap Piece.items = (rowsOf (runs.map (·.span))).filterMap keyItem := by
  induction runs with
  | nil => exact ⟨[], rfl, rfl⟩
  | cons run runs ih =>
    rw [List.map_cons, rowsOf_cons] at hk
    obtain ⟨pieces, hp, hitems⟩ := ih (hk.sub fun r hr => List.mem_append_right _ hr)
      fun run hr => hpos run (List.mem_cons_of_mem _ hr)
    have hlen := hpos run (by simp)
    obtain ⟨key, hkey : run.span.view = .key key⟩ := (hk.sub fun r hr => List.mem_append_left _ hr).of_mem
      (r := (run.span.view, run.span.start)) (Span.mem_rows.2 ⟨rfl, Nat.le_refl _, by omega⟩)
    refine ⟨⟨key, run.span.start, run.span.len, false⟩ :: pieces, ?_, ?_⟩
    · rw [heardFrom, hkey, hp]
      rfl
    · rw [List.flatMap_cons, hitems, List.map_cons, rowsOf_cons, List.filterMap_append,
        items_eq_rows, rowsOf_cons, rowsOf_nil, List.append_nil, ← hkey]

/-- The plays from one on: the target, and the pieces of those heard after it. -/
structure Heard (q : QueueState) (play : PlayRef) (i offset : Nat) (first : Piece)
    (heard : List Piece) : Prop where
  from_eq : heardFrom offset (q.history.drop i) = some (first :: heard)
  key : first.key = play.item.key
  start : first.start = play.item.pos
  pos : 0 < first.len
  plays : ∃ later, q.plays = Stretch.flat (q.truncated i offset) ++ later ∧
    later.head? = some (play.play, play.item.row) ∧
    later.map Prod.snd = ((first :: heard).flatMap Piece.items).map ItemId.row

theorem Numbered.heard (h : q.Numbered) {play : PlayRef} {i offset : Nat} {run : Run}
    (hat : PlayAt q play i offset run) : ∃ first heard, Heard q play i offset first heard := by
  obtain ⟨-, -, hplays⟩ := h.truncated hat.get hat.offset_lt
  obtain ⟨hi, hrun⟩ := List.getElem?_eq_some_iff.mp hat.get
  have hlt := hat.offset_lt
  have hrows : rowsOf ((q.history.drop (i + 1)).map (·.span)) =
      (Stretch.flat (q.history.drop (i + 1))).map Prod.snd :=
    (playRows_eq { q with history := q.history.drop (i + 1) }).symm
  have hkeys : KeyRows (rowsOf ((q.history.drop (i + 1)).map (·.span))) := by
    refine h.keys.sub fun r hr => ?_
    rw [hrows] at hr
    rw [playRows, hplays, List.map_append, List.map_append]
    exact List.mem_append_right _ (List.mem_append_right _ hr)
  obtain ⟨pieces, hp, hitems⟩ := heardFrom_zero hkeys fun run hr =>
    h.canonical.1 run (List.mem_of_mem_drop hr)
  have hcut := Span.rows_cut run.span (Nat.le_of_lt hlt)
  have hdrop : (Stretch.rows run.span).drop offset =
      Stretch.rows (⟨.key play.item.key, play.item.pos, run.span.len - offset⟩ : Span) := by
    rw [hcut, List.drop_left' (by simp), hat.view, hat.pos]
  refine ⟨⟨play.item.key, play.item.pos, run.span.len - offset, false⟩, pieces,
    ⟨?_, rfl, rfl, by simp only; omega, _, hplays, ?_, ?_⟩⟩
  · rw [List.drop_eq_getElem_cons hi, hrun, heardFrom, hat.view, hp, hat.pos]
    rfl
  · rw [hdrop, Span.rows_eq, show run.span.len - offset = run.span.len - offset - 1 + 1 by omega,
      List.range'_succ, List.map_cons, hat.number]
    rfl
  · rw [List.map_append, map_snd_numbered, hdrop, List.flatMap_cons, hitems, List.map_append,
      hkeys.rows_eq, ← hrows, ← rows_piece_span _ _ _ false, rowsOf_cons, rowsOf_nil,
      List.append_nil]

/-! ### What the parts are -/

/-- The marks of the plays, newest first: none for those walked over, then those of the parts. -/
theorem Placed.parts_spec (h : q.Placed) (target : Piece) (ht : target.len = 1)
    (heard : List Piece) :
    let ws := newestFirst heard.reverse ++ target.items
    let walked := ws.take (q.walked (q.current.toList ++ ws.dropLast) - q.current.toList.length)
    let r := q.phaseOne heard
    let held := q.heldAt r.1 (positionsOf target r.2.2) r.2.1
    let parts := (splitPieces held (target :: r.2.2).reverse).reverse.flatten
    markBack q.lists.holds ws = walked.map (·, false) ++ (parts.flatMap Piece.marks).reverse ∧
      ∀ part ∈ parts, 0 < part.len := by
  intro ws walked r held parts
  obtain ⟨hrow, hold, hleft, hpos⟩ := h.phaseOne_spec heard
  have hitems : target.items = [⟨target.key, target.start⟩] := by
    rw [Piece.items, ht]
    rfl
  have hdropLast : ws.dropLast = newestFirst heard.reverse := by
    simp only [ws, hitems, List.dropLast_concat]
  rw [← hdropLast] at hrow hold hleft
  set k := q.walked (q.current.toList ++ ws.dropLast) with hk
  have hwalked : k = q.lists.walked (q.lists.current.toList ++ ws.dropLast) := rfl
  have hle := q.lists.walked_le (q.lists.current.toList ++ ws.dropLast)
  rw [← hwalked, List.length_append] at hle
  have hlen : ws.length = ws.dropLast.length + 1 := by
    simp only [ws, hitems, List.dropLast_concat, List.length_append, List.length_singleton]
  have hcur : q.lists.current = q.current := rfl
  rw [hcur] at hwalked hle
  have htake : walked = ws.dropLast.take (k - q.current.toList.length) := by
    rw [List.dropLast_eq_take, List.take_take, Nat.min_eq_left (by omega)]
  -- what is left once the cursor is walked back, and what is held then
  have hsplit := q.lists.walked_split ws.dropLast
  have hnodup := h.sound.walked_nodup (q.lists.current.toList ++ ws.dropLast)
  obtain ⟨hwn, hwh⟩ := h.sound.walked_rows ws.dropLast
  simp only [hcur, ← hwalked, h.length_passed, ← htake, ← hold, ← hrow] at hsplit hnodup hwn hwh
  obtain ⟨hap, hranges⟩ := positionsOf_spec target r.2.2
  obtain ⟨hok, hheld⟩ := @Placed.heldAt_spec q h r.1 _ r.2.1 hap hnodup
  have hnewest : newestFirst (target :: r.2.2).reverse =
      ws.drop (k - q.current.toList.length) := by
    have hcons : newestFirst (target :: r.2.2).reverse = newestFirst r.2.2.reverse ++ target.items := by
      rw [newestFirst_reverse, newestFirst_reverse, List.flatMap_cons, List.reverse_append, hitems,
        List.reverse_singleton]
    rw [hcons, hleft, hdropLast, ← List.drop_append_of_le_length (by rw [← hdropLast]; omega)]
  obtain ⟨hmarks, hparts⟩ := splitPieces_spec (target :: r.2.2).reverse hok (by
    intro p hp
    rcases List.mem_cons.mp (List.mem_reverse.mp hp) with rfl | hp
    · omega
    · exact hpos p hp)
  refine ⟨?_, hparts⟩
  rw [hmarks, hnewest, ← markBack_nodup (fun _ => false) hwn]
  conv_lhs => rw [← List.take_append_drop (k - q.current.toList.length) ws, markBack_append]
  congr 1
  · exact markBack_congr fun w hw => hwh w hw
  · refine markBack_congr fun w hw => ?_
    have hmem : ∃ range ∈ positionsOf target r.2.2, range.Holds w := by
      rw [← hnewest, newestFirst_reverse, List.mem_reverse] at hw
      obtain ⟨p, hp, hwp⟩ := List.mem_flatMap.mp hw
      exact (hranges w).mpr ⟨p, hp, Piece.mem_items.mp hwp⟩
    have hiff : w ∈ r.2.1.toList ++ q.lists.manual ++ q.lists.order.drop r.1 ↔
        w ∈ walked ∨ w ∈ q.current.toList ++ q.lists.upNext := by
      rw [List.append_assoc, hsplit, List.mem_append, List.mem_reverse]
    rw [Bool.eq_iff_iff, Bool.or_eq_true, decide_eq_true_eq, decide_eq_true_eq, hheld w hmem, hiff,
      or_comm, Lists.holds, decide_eq_true_eq]
    rfl

/-! ### What the lists become -/

theorem keyRows_items (items : List ItemId) : KeyRows (items.map ItemId.row) := by
  intro r hr
  obtain ⟨it, -, rfl⟩ := List.mem_map.mp hr
  simp [ItemId.row, ItemId.view]

theorem items_rows (items : List ItemId) : (items.map ItemId.row).filterMap keyItem = items := by
  rw [List.filterMap_map]
  exact List.filterMap_some ..

/-- **What a rewind makes of the lists**: one step back for each play, under any names that
play the part of the copy's. -/
theorem Placed.rewound_lists (h : q.Placed) {q' : QueueState} {ws walked : List ItemId}
    {pm : List (ItemId × Bool)} {key : String}
    (hms : markBack q.lists.holds ws = walked.map (·, false) ++ pm.reverse) (hpm : pm ≠ [])
    (hwalked : walked =
      ws.take (q.walked (q.current.toList ++ ws.dropLast) - q.current.toList.length))
    (ho : q'.order = q.order) (hs : q'.shuffle = q.shuffle)
    (hc : q'.cursor = q.cursor - q.walked (q.current.toList ++ ws.dropLast))
    (hm : q'.manual.rows = ((namedFrom key 0 pm).tail ++
      q.current.toList.drop (q.walked (q.current.toList ++ ws.dropLast))).map ItemId.row ++
        q.manual.rows)
    (hcur : q'.current = (namedFrom key 0 pm).head?) :
    q'.Readable ∧ ∀ fs : List ItemId, fs.length = ws.length →
      (∀ f ∈ fs, f ∉ ws ∧ f ∉ q.lists.passed) →
      named (markBack q.lists.holds ws) fs =
        (namedFrom key 0 (markBack q.lists.holds ws).reverse).reverse →
      q'.lists = q.lists.stepsBack (ws.zip fs) := by
  have hkeys : KeyRows q'.manual.rows := by
    rw [hm]
    exact (keyRows_items _).append h.manual_keys
  have hread : q'.Readable :=
    ⟨by rw [ho, hc]; exact (Nat.sub_le _ _).trans h.cursor_le, hkeys, hs ▸ h.shuffle_ok,
      by rw [ho, hs]; exact h.order_reads⟩
  refine ⟨hread, fun fs hlen hfs hnamed => ?_⟩
  have hws : ws ≠ [] := by
    rintro rfl
    rw [markBack, eq_comm, List.append_eq_nil_iff] at hms
    exact hpm (List.reverse_eq_nil_iff.mp hms.2)
  obtain ⟨hcur', hup', ho', hp'⟩ := h.sound.stepsBack_eq hws hlen hfs
  have hnm : named (markBack q.lists.holds ws) fs = walked ++ (namedFrom key 0 pm).reverse := by
    rw [hnamed, hms, List.reverse_append, List.reverse_reverse, namedFrom_append,
      ← List.map_reverse, namedFrom_uncopied, List.reverse_append, List.reverse_reverse]
  have hne : namedFrom key 0 pm ≠ [] := by
    rw [ne_eq, ← List.length_eq_zero_iff, length_namedFrom, List.length_eq_zero_iff]
    exact hpm
  have hnr : (namedFrom key 0 pm).reverse ≠ [] := by simpa using hne
  rw [hnm] at hcur' hup'
  rw [List.getLast?_append_of_ne_nil _ hnr, List.getLast?_reverse] at hcur'
  rw [List.dropLast_append_of_ne_nil hnr, List.dropLast_reverse] at hup'
  have horder : q'.lists.order = q.lists.order := by
    rw [← order_items, ← order_items, ho, hs]
  refine Lists.ext_parts (horder.trans ho'.symm) ?_ ?_ (hcur.trans hcur'.symm)
  · rw [hp', h.length_passed, hread.passed_eq, horder, hc, h.passed_eq, List.take_take,
      Nat.min_eq_left (Nat.sub_le _ _)]
    rfl
  · have hman : q'.lists.manual = (namedFrom key 0 pm).tail ++
        q.current.toList.drop (q.walked (q.current.toList ++ ws.dropLast)) ++ q.lists.manual := by
      rw [hread.manual_items, hm, List.filterMap_append, items_rows, h.manual_items]
    have hsplit := q.lists.walked_split ws.dropLast
    rw [show q.lists.current = q.current from rfl, h.length_passed] at hsplit
    have hwalk : walked = ws.dropLast.take
        (q.walked (q.current.toList ++ ws.dropLast) - q.current.toList.length) := by
      have hle := q.lists.walked_le (q.current.toList ++ ws.dropLast)
      have hq : q.lists.walked (q.current.toList ++ ws.dropLast) =
        q.walked (q.current.toList ++ ws.dropLast) := rfl
      rw [hq, List.length_append] at hle
      have hl : ws.dropLast.length = ws.length - 1 := List.length_dropLast
      have hpos := List.length_pos_iff.mpr hws
      rw [hwalked, List.dropLast_eq_take, List.take_take, ← List.dropLast_eq_take,
        Nat.min_eq_left (by omega)]
    rw [hup', Lists.upNext, hman, hread.ahead_eq, horder, hc, List.append_assoc, List.append_assoc]
    have hrev : q.current.toList.reverse = q.current.toList := by cases q.current <;> rfl
    rw [show q.lists.current = q.current from rfl, List.reverse_append, List.reverse_append,
      List.reverse_reverse, hrev, List.append_assoc, List.append_assoc, hwalk]
    congr 1

/-! ### What the queue becomes -/

/-- The plays `ws` that are copied when they are taken back, in the order heard. -/
def backCopied (q : QueueState) (ws : List ItemId) : List ItemId :=
  copied (markBack q.lists.holds ws).reverse

/-- The copy made of some items, if there are any. -/
def copyOf (q : QueueState) (key : String) (items : List ItemId) : List QueueCopy :=
  if items = [] then [] else [⟨key, .fromSpans (items.flatMap q.sourceSpans)⟩]

/-- Names under which a rewind is steps back. -/
structure BackNames (q : QueueState) (ws : List ItemId) (key : String) (fs : List ItemId) :
    Prop where
  length : fs.length = ws.length
  nodup : fs.Nodup
  fresh : ∀ f ∈ fs, f ∉ ws ∧ f ∉ q.lists.passed ∧ q.lists.holds f = false
  named : named (markBack q.lists.holds ws) fs =
    (namedFrom key 0 (markBack q.lists.holds ws).reverse).reverse

/-- What a rewind over the plays `ws`, newest first, made of the queue. -/
structure Rewound (q q' : QueueState) (ws : List ItemId) (key : String) : Prop where
  went : WentBack q q' (q.copyOf key (q.backCopied ws))
  lists : ∀ fs, BackNames q ws key fs → q'.lists = q.lists.stepsBack (ws.zip fs)
  plays : ∃ later, q.plays = q'.plays ++ later ∧ later.map Prod.snd = (ws.map ItemId.row).reverse
  nextPlay : q'.nextPlay = q.nextPlay
  repeatMode : q'.repeatMode = q.repeatMode
  adjusted : q'.adjusted = q.adjusted

/-- Names no list of items has. -/
theorem exists_names (items : List ItemId) (n : Nat) :
    ∃ fs : List ItemId, fs.length = n ∧ fs.Nodup ∧ ∀ f ∈ fs, f ∉ items := by
  let past := (items.map (·.pos)).sum + 1
  refine ⟨(List.range' past n).map (⟨"", ·⟩), by simp, ?_, ?_⟩
  · exact List.Nodup.map (fun a b hab => (ItemId.mk.inj hab).2) (List.nodup_range' ..)
  · intro f hf hm
    obtain ⟨p, hp, rfl⟩ := List.mem_map.mp hf
    have hle := List.le_sum_of_mem (List.mem_map.mpr ⟨_, hm, rfl⟩ : p ∈ items.map (·.pos))
    rw [List.mem_range'_1] at hp
    omega

theorem backCopied_nil {ws : List ItemId} (h : q.backCopied ws = []) :
    markBack q.lists.holds ws = ws.map (·, false) := by
  rw [backCopied, copied, List.map_eq_nil_iff, List.filter_eq_nil_iff] at h
  conv_rhs => rw [← markBack_fst q.lists.holds ws, List.map_map]
  refine (List.map_id _).symm.trans (List.map_congr_left fun m hm => ?_)
  have := h m (List.mem_reverse.mpr hm)
  obtain ⟨w, copy⟩ := m
  simp only [Bool.not_eq_true] at this
  simp [this]

/-- A play taken back is a row the queue refers to. -/
theorem play_mentioned {ws : List ItemId}
    (hws : ∀ w ∈ ws, w.row ∈ q.playRows) {w : ItemId} (hw : w ∈ ws) : w.row ∈ q.mentioned :=
  mem_mentioned.2 (Or.inr (Or.inr (Or.inr (Or.inr (hws w hw)))))

/-- The positions of a copy under a new key are such names. -/
theorem Valid.copyNames_ok (h : q.Valid) {ws : List ItemId} {key : String}
    (hws : ∀ w ∈ ws, w.row ∈ q.playRows) (hk : q.hasKey key = false) :
    BackNames q ws key (copyNames key ws.length (markBack q.lists.holds ws)) := by
  refine ⟨by simp, copyNames_nodup (by simp), fun f hf => ?_, named_copyNames ..⟩
  obtain ⟨hkey, -⟩ := mem_copyNames hf
  have hf' : f = ⟨key, f.pos⟩ := by rw [← hkey]
  have hnot : f.row ∉ q.mentioned := by
    rw [hf']
    exact h.grounded.fresh hk
  refine ⟨fun hm => hnot (play_mentioned hws hm),
    fun hm => hnot (order_mentioned (List.mem_append_left _ hm)), ?_⟩
  exact Lists.holds_eq_false.mpr ⟨fun hc => hnot (current_mentioned hc),
    fun hm => hnot (h.placed.upNext_mentioned hm)⟩

/-- There always are such names, as long as a copy would have a new key. -/
theorem Valid.exists_backNames (h : q.Valid) {ws : List ItemId} {key : String}
    (hws : ∀ w ∈ ws, w.row ∈ q.playRows) (hk : q.backCopied ws ≠ [] → q.hasKey key = false) :
    ∃ fs, BackNames q ws key fs := by
  by_cases hc : q.backCopied ws = []
  · obtain ⟨fs, hlen, hnodup, hfresh⟩ :=
      exists_names (ws ++ q.lists.passed ++ (q.lists.current.toList ++ q.lists.upNext)) ws.length
    refine ⟨fs, hlen, hnodup, fun f hf => ?_, ?_⟩
    · have := hfresh f hf
      rw [List.mem_append, List.mem_append, not_or, not_or] at this
      exact ⟨this.1.1, this.1.2, decide_eq_false this.2⟩
    · rw [backCopied_nil hc, named_uncopied hlen, ← List.map_reverse, namedFrom_uncopied,
        List.reverse_reverse]
  · exact ⟨_, h.copyNames_ok hws (hk hc)⟩

/-- A copy of named items reads sources only, a row for each. -/
theorem Valid.copyRows_ok (h : q.Valid) {items : List ItemId}
    (hn : ∀ it ∈ items, q.Names it.key it.pos) :
    (∀ r ∈ q.copyRows items, q.NamesSource r) ∧ (q.copyRows items).length = items.length := by
  induction items with
  | nil => exact ⟨by simp [copyRows], rfl⟩
  | cons it items ih =>
    obtain ⟨ih1, ih2⟩ := ih fun it hit => hn it (List.mem_cons_of_mem _ hit)
    obtain ⟨hrow, hlen⟩ := h.copy_row (hn it (by simp))
    rw [SpanList.rows_fromSpans] at hrow
    rw [SpanList.len_eq, SpanList.rows_fromSpans] at hlen
    rw [copyRows, List.flatMap_cons, ← copyRows]
    refine ⟨fun r hr => ?_, ?_⟩
    · rcases List.mem_append.mp hr with hr | hr
      · exact hrow r hr
      · exact ih1 r hr
    · rw [List.length_append, hlen, ih2, List.length_cons, Nat.add_comm]

theorem rows_copyOf (items : List ItemId) :
    (SpanList.fromSpans (items.flatMap q.sourceSpans)).rows = q.copyRows items := by
  rw [SpanList.rows_fromSpans, copyRows]
  induction items with
  | nil => rfl
  | cons it items ih => rw [List.flatMap_cons, rowsOf_append, ih, List.flatMap_cons]

/-- **Going back over plays** keeps the queue's places and references in order. -/
theorem Valid.rewound (h : q.Valid) {q' : QueueState} {ws : List ItemId} {key : String}
    (hne : ws ≠ []) (hk : q.backCopied ws ≠ [] → q.hasKey key = false)
    (hframe : q' = { q with
      history := q'.history, cursor := q'.cursor, manual := q'.manual, current := q'.current,
      copies := q.copies ++ q.copyOf key (q.backCopied ws) })
    (hread : q'.Readable) (hnum : q'.Numbered) (hkept : PlaysKept q q')
    (hlists : ∀ fs, BackNames q ws key fs → q'.lists = q.lists.stepsBack (ws.zip fs))
    (hplays : ∃ later, q.plays = q'.plays ++ later ∧
      later.map Prod.snd = (ws.map ItemId.row).reverse) : Rewound q q' ws key := by
  have hsrc : q'.sources = q.sources := by rw [hframe]
  have hcop : q'.copies = q.copies ++ q.copyOf key (q.backCopied ws) := by rw [hframe]
  have hord : q'.order = q.order := by rw [hframe]
  have hshu : q'.shuffle = q.shuffle := by rw [hframe]
  have hnext : q'.nextPlay = q.nextPlay := by rw [hframe]
  have hrep : q'.repeatMode = q.repeatMode := by rw [hframe]
  have hadj : q'.adjusted = q.adjusted := by rw [hframe]
  have hrows : q.playRows = q'.playRows ++ (ws.map ItemId.row).reverse := by
    obtain ⟨later, hp, hr⟩ := hplays
    rw [playRows, hp, List.map_append, hr, playRows]
  have hws : ∀ w ∈ ws, w.row ∈ q.playRows := by
    intro w hw
    rw [hrows]
    exact List.mem_append_right _ (List.mem_reverse.mpr (List.mem_map.mpr ⟨w, hw, rfl⟩))
  obtain ⟨fs, hfs⟩ := h.exists_backNames hws hk
  have hl := hlists fs hfs
  obtain ⟨hcur, hup, -, -⟩ := h.placed.sound.stepsBack_eq hne hfs.length fun f hf =>
    ⟨(hfs.fresh f hf).1, (hfs.fresh f hf).2.1⟩
  have hplaced : q'.Placed := by
    refine ⟨hread, hl ▸ ?_⟩
    exact h.placed.sound.stepsBack hfs.length hfs.nodup fun f hf =>
      ⟨(hfs.fresh f hf).1, (hfs.fresh f hf).2.2⟩
  rw [← hl, hfs.named] at hcur hup
  set ms := markBack q.lists.holds ws with hms
  set cs := namedFrom key 0 ms.reverse with hcs
  -- what the plays become is what plays and what is queued before the old Up Next
  have hmem : ∀ it, it ∈ q'.current.toList ++ q'.lists.upNext ↔
      it ∈ cs ∨ it ∈ q.current.toList ++ q.lists.upNext := by
    intro it
    have hc : it ∈ cs.reverse ↔ it ∈ cs.reverse.getLast?.toList ∨ it ∈ cs.reverse.dropLast := by
      cases hn : cs.reverse using List.reverseRecOn with
      | nil => simp
      | append_singleton xs x => simp [or_comm]
    rw [hup, show q'.current = q'.lists.current from rfl, hcur]
    rw [List.mem_reverse] at hc
    simp only [List.mem_append, List.mem_reverse, hc]
    rw [show q.lists.current = q.current from rfl]
    tauto
  have hment : ∀ it, it ∈ q'.current.toList ++ q'.lists.upNext → it.row ∈ q'.mentioned := by
    intro it hit
    rcases List.mem_append.mp hit with hit | hit
    · exact current_mentioned (Option.mem_toList.mp hit)
    · exact hplaced.upNext_mentioned hit
  have hold : ∀ it, it ∈ q.current.toList ++ q.lists.upNext → it.row ∈ q'.mentioned :=
    fun it hit => hment it ((hmem it).mpr (Or.inr hit))
  have hnamed : ∀ it ∈ q.backCopied ws, q.Names it.key it.pos := by
    intro it hit
    have : it ∈ ws := by
      rw [← markBack_fst q.lists.holds ws]
      obtain ⟨m, hm, rfl⟩ := List.mem_map.mp hit
      exact List.mem_map.mpr ⟨m, List.mem_reverse.mp (List.mem_of_mem_filter hm), rfl⟩
    exact h.grounded.named it.key it.pos (play_mentioned hws this)
  obtain ⟨hsource, hlen⟩ := h.copyRows_ok hnamed
  refine ⟨⟨hplaced, hnum, hkept, hsrc, hcop, hord, hshu, ?_, ?_, ?_, ?_, ?_⟩, hlists, hplays,
    hnext, hrep, hadj⟩
  · unfold copyOf
    split <;> simp
  · intro c hc
    unfold copyOf at hc
    split at hc
    · cases hc
    · rename_i hcopied
      obtain rfl := List.mem_singleton.mp hc
      refine ⟨hk hcopied, ?_, 0, ?_⟩
      · simp only [rows_copyOf]
        exact hsource
      · refine hment ⟨key, 0⟩ ((hmem _).mpr (Or.inl ?_))
        have := (@namedFrom_mem key 0 ms.reverse).2 0
          (List.length_pos_iff.mpr hcopied)
        exact this
  · intro it hit
    have hin : it ∈ cs ∨ it ∈ q.current.toList ++ q.lists.upNext := by
      refine (hmem it).mp ?_
      rcases hit with hit | hit
      · exact List.mem_append_left _ (Option.mem_toList.mpr hit)
      · exact List.mem_append_right _ (List.mem_append_left _ hit)
    rcases hin with hin | hin
    · rcases mem_namedFrom hin with hin | ⟨hkey, -, hlt⟩
      · left
        refine play_mentioned hws ?_
        rw [← markBack_fst q.lists.holds ws]
        exact List.mem_map.mpr ⟨_, List.mem_reverse.mp hin, rfl⟩
      · right
        have hcopied : q.backCopied ws ≠ [] := by
          rintro hn
          have hz : (copied ms.reverse).length = 0 := by rw [hms, ← backCopied, hn]; rfl
          omega
        refine ⟨_, by rw [copyOf, if_neg hcopied]; exact List.mem_singleton.mpr rfl, hkey.symm, ?_⟩
        rw [SpanList.len_eq, rows_copyOf, hlen]
        rwa [Nat.zero_add] at hlt
    · left
      rcases List.mem_append.mp hin with hin | hin
      · exact current_mentioned (Option.mem_toList.mp hin)
      · exact h.placed.upNext_mentioned hin
  · intro r hr
    rw [hrows]
    exact List.mem_append_left _ hr
  · intro it hit
    rcases hit with hit | hit | hit
    · exact hold it (List.mem_append_left _ (Option.mem_toList.mpr hit))
    · exact hold it (List.mem_append_right _ (List.mem_append_left _ hit))
    · rw [hrows, List.mem_append, List.mem_reverse] at hit
      rcases hit with hit | hit
      · exact mem_mentioned.2 (Or.inr (Or.inr (Or.inr (Or.inr hit))))
      · obtain ⟨w, hw, he⟩ := List.mem_map.mp hit
        obtain rfl := ItemId.row_inj he
        rcases @mem_markBack q.lists.holds ws w hw with hh | hh
        · exact hold w (of_decide_eq_true hh)
        · refine hment w ((hmem w).mpr (Or.inl ?_))
          exact namedFrom_mem.1 w (List.mem_reverse.mpr hh)

theorem any_copy {parts : List Piece} (hpos : ∀ part ∈ parts, 0 < part.len) :
    parts.any (·.copy) = true ↔ copied (parts.flatMap Piece.marks) ≠ [] := by
  rw [List.any_eq_true, ne_eq, copied, List.map_eq_nil_iff, List.filter_eq_nil_iff]
  constructor
  · rintro ⟨part, hpart, hcopy⟩ hno
    have hlen := hpos part hpart
    refine hno (⟨part.key, part.start⟩, part.copy) (List.mem_flatMap.mpr ⟨part, hpart, ?_⟩) hcopy
    refine List.mem_map.mpr ⟨_, List.mem_map.mpr ⟨part.start, ?_, rfl⟩, rfl⟩
    rw [List.mem_range'_1]
    omega
  · intro hno
    by_contra hall
    refine hno fun m hm hcopy => hall ?_
    obtain ⟨part, hpart, hm⟩ := List.mem_flatMap.mp hm
    obtain ⟨it, -, rfl⟩ := List.mem_map.mp hm
    exact ⟨part, hpart, hcopy⟩

/-- The plays `ws`, newest first, end with the play named. -/
structure BackTo (q : QueueState) (play : PlayRef) (ws : List ItemId) : Prop where
  plays : ∃ older later, q.plays = older ++ later ∧
    later.head? = some (play.play, play.item.row) ∧
    later.map Prod.snd = (ws.map ItemId.row).reverse

/-- The state a rewind leaves, from what it makes of the plays. -/
theorem Valid.rewound_state (h : q.Valid) {play : PlayRef} {i offset row : Nat} {run : Run}
    (hat : PlayAt q play i offset run) {ws walked : List ItemId} {pm : List (ItemId × Bool)}
    {key : String} {manual : SpanList}
    (hplays : ∃ later, q.plays = Stretch.flat (q.truncated i offset) ++ later ∧
      later.map Prod.snd = (ws.map ItemId.row).reverse)
    (hne : ws ≠ []) (hk : q.backCopied ws ≠ [] → q.hasKey key = false)
    (hms : markBack q.lists.holds ws = walked.map (·, false) ++ pm.reverse) (hpm : pm ≠ [])
    (hwalked : walked =
      ws.take (q.walked (q.current.toList ++ ws.dropLast) - q.current.toList.length))
    (hrow : row = q.cursor - q.walked (q.current.toList ++ ws.dropLast))
    (hm : manual.rows = ((namedFrom key 0 pm).tail ++
      q.current.toList.drop (q.walked (q.current.toList ++ ws.dropLast))).map ItemId.row ++
        q.manual.rows) :
    Rewound q { q with
      history := q.truncated i offset
      cursor := row
      manual := manual
      current := (namedFrom key 0 pm).head?
      copies := q.copies ++ q.copyOf key (q.backCopied ws) } ws key := by
  let q' : QueueState := { q with
    history := q.truncated i offset
    cursor := row
    manual := manual
    current := (namedFrom key 0 pm).head?
    copies := q.copies ++ q.copyOf key (q.backCopied ws) }
  obtain ⟨hread, hlists⟩ := @Placed.rewound_lists q h.placed q' ws walked pm key hms hpm hwalked
    rfl rfl hrow hm rfl
  have hnum := @Numbered.truncate q h.numbered q' i offset run hat.get hat.offset_lt rfl rfl
  refine h.rewound hne hk rfl hread hnum.1 hnum.2 (fun fs hfs => ?_) hplays
  exact hlists fs hfs.length (fun f hf => ⟨(hfs.fresh f hf).1, (hfs.fresh f hf).2.1⟩) hfs.named

/-- **What a rewind does**: it is refused where the play is gone, or where a copy is needed and
the key is taken; else it goes back over the plays from the newest to the one named. -/
theorem Valid.rewind_cases (h : q.Valid) (play : PlayRef) (key : String) :
    ((play.play, play.item.row) ∉ q.plays ∧ q.rewind play key = (.error .playGone, q)) ∨
      ∃ ws, BackTo q play ws ∧
        ((q.backCopied ws ≠ [] ∧ q.hasKey key = true ∧
            q.rewind play key = (.error .duplicateKey, q)) ∨
          ((q.backCopied ws ≠ [] → q.hasKey key = false) ∧
            ∃ q', q.rewind play key = (.ok (), q') ∧ Rewound q q' ws key)) := by
  cases hmatch : q.matchPlay play with
  | none =>
    refine Or.inl ⟨h.numbered.matchPlay_none.mp hmatch, ?_⟩
    rw [QueueState.rewind, hmatch]
  | some at_ =>
    right
    obtain ⟨i, offset⟩ := at_
    obtain ⟨run, hat⟩ := h.numbered.matchPlay_iff.mp hmatch
    obtain ⟨first, heard, hh⟩ := h.numbered.heard hat
    obtain ⟨later, hplays, hhead, hlater⟩ := hh.plays
    -- the target, and the pieces heard after it
    let target : Piece := ⟨first.key, first.start, 1, false⟩
    let rest : List Piece := { first with start := first.start + 1, len := first.len - 1 } :: heard
    have hfirst : first.items = target.items ++
        Piece.items { first with start := first.start + 1, len := first.len - 1 } := by
      have hp := hh.pos
      simp only [target, Piece.items]
      rw [← List.map_append]
      congr 1
      rw [show first.len = first.len - 1 + 1 by omega, List.range'_succ, Nat.add_sub_cancel]
      rfl
    have hitems : target.items ++ rest.flatMap Piece.items = (first :: heard).flatMap Piece.items := by
      simp only [rest]
      rw [List.flatMap_cons, List.flatMap_cons, hfirst, List.append_assoc]
    let ws := newestFirst rest.reverse ++ target.items
    have hwsr : ws.reverse = (first :: heard).flatMap Piece.items := by
      rw [← hitems]
      simp only [ws, newestFirst_reverse, List.reverse_append, List.reverse_reverse]
      rfl
    have hrows : later.map Prod.snd = (ws.map ItemId.row).reverse := by
      rw [hlater, ← hwsr, List.map_reverse]
    obtain ⟨hms, hparts⟩ := h.placed.parts_spec target rfl rest
    obtain ⟨hrow, hold, -, -⟩ := h.placed.phaseOne_spec rest
    have hdropLast : ws.dropLast = newestFirst rest.reverse := by
      have ht : target.items = [⟨target.key, target.start⟩] := rfl
      simp only [ws, ht, List.dropLast_concat]
    rw [← hdropLast] at hrow hold
    set r := q.phaseOne rest with hr
    set parts := (splitPieces (q.heldAt r.1 (positionsOf target r.2.2) r.2.1)
      (target :: r.2.2).reverse).reverse.flatten with hpt
    have hcop : q.backCopied ws = copied (parts.flatMap Piece.marks) := by
      rw [backCopied, hms, List.reverse_append, List.reverse_reverse, copied_append,
        ← List.map_reverse, copied_uncopied, List.append_nil]
    have hany := any_copy hparts
    rw [← hcop] at hany
    refine ⟨ws, ⟨⟨_, later, hplays, hhead, hrows⟩⟩, ?_⟩
    unfold QueueState.rewind
    simp only [hmatch, hh.from_eq]
    by_cases hdup : parts.any (·.copy) = true ∧ q.hasKey key = true
    · exact Or.inl ⟨hany.mp hdup.1, hdup.2, if_pos hdup⟩
    · right
      have hk : q.backCopied ws ≠ [] → q.hasKey key = false := by
        intro hne
        simpa using fun hk => hdup ⟨hany.mpr hne, hk⟩
      refine ⟨hk, _, if_neg hdup, ?_⟩
      obtain ⟨hof, hqueued, hplaying⟩ := q.built_spec key hparts
      have hne : ws ≠ [] := by simp [ws, target, Piece.items]
      have hpm : parts.flatMap Piece.marks ≠ [] := by
        intro hnil
        have hlen := congrArg List.length hms
        have hle := q.lists.walked_le (q.current.toList ++ ws.dropLast)
        have hpos := List.length_pos_iff.mpr hne
        have hd : ws.dropLast.length = ws.length - 1 := List.length_dropLast
        have hq : q.lists.walked (q.current.toList ++ ws.dropLast) =
          q.walked (q.current.toList ++ ws.dropLast) := rfl
        rw [hnil, length_markBack, List.reverse_nil, List.append_nil, List.length_map,
          List.length_take] at hlen
        rw [hq, List.length_append] at hle
        simp only [ws] at hlen hle hpos hd
        omega
      have hspans : rowsOf (r.2.1.map playSpan).toList = r.2.1.toList.map ItemId.row := by
        cases r.2.1 with
        | none => rfl
        | some old => exact rows_playSpan old
      rw [← builtOf]
      generalize q.builtOf key parts = built at hof hqueued hplaying ⊢
      have hcopies : (if parts.any (·.copy) then q.copies ++ [⟨key, .fromSpans built.of⟩]
          else q.copies) = q.copies ++ q.copyOf key (q.backCopied ws) := by
        unfold copyOf
        by_cases hc : q.backCopied ws = []
        · rw [if_pos hc, if_neg (fun ha => hany.mp ha hc), List.append_nil]
        · rw [if_neg hc, if_pos (hany.mpr hc)]
          congr 3
          apply SpanList.ext_rows
          rw [rows_copyOf, SpanList.rows_fromSpans, hof, hcop]
      rw [hcopies, hplaying]
      refine h.rewound_state hat ⟨later, hplays, hrows⟩ hne hk hms hpm rfl hrow ?_
      rw [SpanList.rows_splice_front, rowsOf_append, hqueued, hspans, hold, List.map_append]

theorem Valid.rewind (h : q.Valid) (play : PlayRef) (key : String) :
    Keeps q (q.rewind play key).2 := by
  rcases h.rewind_cases play key with ⟨-, he⟩ | ⟨ws, -, ⟨-, -, he⟩ | ⟨-, q', he, hr⟩⟩
  · rw [he]
    exact h.keeps
  · rw [he]
    exact h.keeps
  · rw [he]
    exact h.wentBack hr.went

end QueueState

end JewelCase.Queue
