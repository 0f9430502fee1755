import JewelCase.Queue.Invariants

/-!
# Rewind as Previous repeated

Two queues read the same when each row reads the same source position: a rewind leaves one copy
where Previous repeated leaves several, and nothing a listener hears tells them apart.
-/
namespace JewelCase.Queue

set_option autoImplicit false

open Library (Stretch)
open Library.Lists
open Library.Runs

/-- Where a row reads: its source and source position. -/
def ReadRow.at (r : ReadRow) : String × Nat := (r.source, r.position)

/-- What a queue plays, by what each row reads. -/
structure Reading where
  playing : Option (String × Nat)
  upNext : List (Option (String × Nat) × Bool)
  manualLen : Nat
  passed : List (Option (String × Nat))
  cursor : Nat
  plays : List (Nat × Row)
  nextPlay : Nat
  repeatMode : Repeat
  adjusted : Bool
deriving DecidableEq, Repr

namespace QueueState

variable {q : QueueState}

/-- The queue as it reads: the row playing, Up Next with each Manual Queue row's second, passed
place, the Manual Queue's length, the passed context, the cursor, and what History keeps. -/
def reads (q : QueueState) : Reading where
  playing := q.currentRow.map ReadRow.at
  upNext := (List.range q.upNextLen).map fun i =>
    ((q.upNextRow i).map ReadRow.at, decide (i < q.manual.len) &&
      (List.range q.cursor).any fun j => decide (q.itemAt q.order j = q.upNextItem i))
  manualLen := q.manual.len
  passed := (List.range q.cursor).map fun j => (q.contextRow j).map ReadRow.at
  cursor := q.cursor
  plays := q.plays
  nextPlay := q.nextPlay
  repeatMode := q.repeatMode
  adjusted := q.adjusted

/-- Where an item reads. -/
def readItem (q : QueueState) (item : ItemId) : Option (String × Nat) :=
  (q.rowOf item.key item.pos).map ReadRow.at

/-- Where a row of a source reads. -/
def readRow (q : QueueState) : Row → Option (String × Nat)
  | (.key key, pos) =>
    (q.source key).bind fun s => if pos ≥ s.length then none else some (s.key, pos)
  | (.shuffle, _) => none

/-! ### What items read -/

theorem Grounded.copy_of_source (h : q.Grounded) {key : String} {s : Source}
    (hs : q.source key = some s) : q.copy key = none := by
  cases hc : q.copy key with
  | none => rfl
  | some c =>
    have hskey : s.key = key := by simpa using List.find?_some hs
    have hckey : c.key = key := by simpa using List.find?_some hc
    have hne := (List.nodup_append.mp h.keys_nodup).2.2 s.key
      (List.mem_map.mpr ⟨s, List.mem_of_find?_eq_some hs, rfl⟩) c.key
      (List.mem_map.mpr ⟨c, List.mem_of_find?_eq_some hc, rfl⟩)
    exact absurd (hskey.trans hckey.symm) hne

/-- A key that a copy has is no source's. -/
theorem Grounded.source_of_copy (h : q.Grounded) {key : String} {c : QueueCopy}
    (hc : q.copy key = some c) : q.source key = none := by
  cases hs : q.source key with
  | none => rfl
  | some s =>
    rw [h.copy_of_source hs] at hc
    cases hc

theorem readItem_copy {key : String} {pos : Nat} {c : QueueCopy} (hs : q.source key = none)
    (hc : q.copy key = some c) : q.readItem ⟨key, pos⟩ = c.of.rows[pos]?.bind q.readRow := by
  rw [readItem, rowOf]
  simp only [hs, hc, SpanList.get_eq]
  cases c.of.rows[pos]? with
  | none => rfl
  | some r =>
    obtain ⟨v, p⟩ := r
    cases v with
    | shuffle => rfl
    | key k =>
      simp only [Option.bind_some, readRow]
      cases q.source k with
      | none => rfl
      | some s =>
        simp only [Option.bind_some]
        split <;> rfl

theorem readItem_source {key : String} {pos : Nat} {s : Source} (hs : q.source key = some s) :
    q.readItem ⟨key, pos⟩ = q.readRow (.key key, pos) := by
  have hkey : s.key = key := by simpa using List.find?_some hs
  rw [readItem, rowOf, readRow]
  simp only [hs, Option.bind_some]
  split
  · rfl
  · rfl

/-- An item reads the source row that a copy of it would name. -/
theorem Grounded.readItem_eq (h : q.Grounded) (item : ItemId) :
    q.readItem item = (rowsOf (q.sourceSpans item)).head?.bind q.readRow := by
  obtain ⟨key, pos⟩ := item
  have hsingle : rowsOf [(⟨.key key, pos, 1⟩ : Span)] = [(View.key key, pos)] := rfl
  cases hs : q.source key with
  | some s =>
    rw [readItem_source hs, sourceSpans, QueueState.sourceRange, h.copy_of_source hs]
    simp only [hsingle, List.head?_cons, Option.bind_some]
  | none =>
    cases hc : q.copy key with
    | some c =>
      rw [readItem_copy hs hc, sourceSpans, QueueState.sourceRange, hc]
      simp only [SpanList.rows_slice]
      rw [List.head?_eq_getElem?, List.getElem?_drop, List.getElem?_take_of_lt (by omega)]
      rfl
    | none =>
      rw [sourceSpans, QueueState.sourceRange, hc]
      simp only [hsingle, List.head?_cons, Option.bind_some, readRow, hs, Option.bind_none]
      rw [readItem, rowOf]
      simp only [hs, hc, Option.map_none]

/-- States with the same sources, the second with more copies. -/
structure MoreCopies (q q' : QueueState) (extra : List QueueCopy) : Prop where
  sources : q'.sources = q.sources
  copies : q'.copies = q.copies ++ extra
  grounded : q.Grounded
  grounded' : q'.Grounded

section More

variable {q' : QueueState} {extra : List QueueCopy} (h : MoreCopies q q' extra)

include h

theorem MoreCopies.source (key : String) : q'.source key = q.source key := by
  rw [QueueState.source, QueueState.source, h.sources]

theorem MoreCopies.readRow (r : Row) : q'.readRow r = q.readRow r := by
  obtain ⟨v, p⟩ := r
  cases v with
  | key k => rw [QueueState.readRow, QueueState.readRow, h.source]
  | shuffle => rfl

/-- A named key is copied as it was. -/
theorem MoreCopies.copy {key : String} {pos : Nat} (hn : q.Names key pos) :
    q'.copy key = q.copy key := by
  rw [QueueState.copy, QueueState.copy, h.copies, List.find?_append]
  cases hc : q.copies.find? (·.key = key) with
  | some c => rfl
  | none =>
    rcases hn with ⟨s, hs, hk, -⟩ | ⟨c, hcm, hk, -⟩
    · have hs' : s ∈ q'.sources := h.sources ▸ hs
      rw [Option.none_or, List.find?_eq_none]
      intro c hcm hck
      have hc' : c ∈ q'.copies := by
        rw [h.copies]
        exact List.mem_append_right _ hcm
      have hne := (List.nodup_append.mp h.grounded'.keys_nodup).2.2 s.key
        (List.mem_map.mpr ⟨s, hs', rfl⟩) c.key (List.mem_map.mpr ⟨c, hc', rfl⟩)
      exact hne (hk.trans (of_decide_eq_true hck).symm)
    · exact absurd (decide_eq_true hk) (List.find?_eq_none.mp hc c hcm)

theorem MoreCopies.sourceSpans {item : ItemId} (hn : q.Names item.key item.pos) :
    q'.sourceSpans item = q.sourceSpans item := by
  rw [QueueState.sourceSpans, QueueState.sourceSpans, sourceRange, sourceRange, h.copy hn]

/-- A named item reads as it did. -/
theorem MoreCopies.readItem {item : ItemId} (hn : q.Names item.key item.pos) :
    q'.readItem item = q.readItem item := by
  rw [h.grounded'.readItem_eq, h.grounded.readItem_eq, h.sourceSpans hn]
  congr 1
  exact funext h.readRow

/-- A position of a new copy reads the source row it names. -/
theorem MoreCopies.readItem_extra {c : QueueCopy} (hc : c ∈ extra) (pos : Nat) :
    q'.readItem ⟨c.key, pos⟩ = c.of.rows[pos]?.bind q.readRow := by
  have hcm : c ∈ q'.copies := by
    rw [h.copies]
    exact List.mem_append_right _ hc
  have hcopy : q'.copy c.key = some c := h.grounded'.copy_eq hcm
  rw [readItem_copy (h.grounded'.source_of_copy hcopy) hcopy]
  congr 1
  exact funext h.readRow

end More

end QueueState

/-! ### What steps back read -/

theorem named_eq (ms : List (ItemId × Bool)) (fs : List ItemId) :
    named ms fs = (ms.zip fs).map fun x => if x.1.2 then x.2 else x.1.1 := by
  induction ms generalizing fs with
  | nil => rfl
  | cons m ms ih =>
    obtain ⟨w, copied⟩ := m
    cases fs with
    | nil => rfl
    | cons f fs => rw [named, List.zip_cons_cons, List.map_cons, ih]

/-- Names that read, under `ρ'`, what the copied plays read under `ρ`. -/
def NamesRead {α : Type} (ρ ρ' : ItemId → α) (ms : List (ItemId × Bool)) (fs : List ItemId) :
    Prop :=
  ∀ m f, (m, f) ∈ ms.zip fs → m.2 = true → ρ' f = ρ m.1

/-- Plays read the same whatever the copies among them are called. -/
theorem named_reads {α : Type} {ρ ρ' : ItemId → α} {ms : List (ItemId × Bool)} {fs : List ItemId}
    (hlen : fs.length = ms.length) (hread : NamesRead ρ ρ' ms fs)
    (hold : ∀ w ∈ ms.map Prod.fst, ρ' w = ρ w) (passed : List ItemId) (hfs : ∀ f ∈ fs, f ∉ passed) :
    (named ms fs).map (fun it => (ρ' it, decide (it ∈ passed))) =
      ms.map fun m => (ρ m.1, !m.2 && decide (m.1 ∈ passed)) := by
  have hfst : ms = (ms.zip fs).map Prod.fst := (List.map_fst_zip (by omega)).symm
  conv_rhs => rw [hfst]
  rw [named_eq, List.map_map, List.map_map]
  refine List.map_congr_left fun x hx => ?_
  obtain ⟨⟨w, copied⟩, f⟩ := x
  have hw := hold w (List.mem_map.mpr ⟨_, (List.of_mem_zip hx).1, rfl⟩)
  have hf := hfs f (List.of_mem_zip hx).2
  cases copied with
  | true =>
    have hr : ρ' f = ρ w := hread _ _ hx rfl
    simp [hr, hf]
  | false => simp [hw]

namespace Lists

/-- Lists as they read: what plays, Up Next with the passed places of its items, and the passed
part. -/
def readAs {α : Type} (l : Lists) (ρ : ItemId → α) :
    Option α × List (α × Bool) × List α :=
  (l.current.map ρ, l.upNext.map (fun it => (ρ it, decide (it ∈ l.passed))), l.passed.map ρ)

/-- **Steps back read the same whatever the copies are called.** -/
theorem Sound.stepsBack_reads {α : Type} {l : Lists} (h : l.Sound) {ws fs : List ItemId}
    (hws : ws ≠ []) (hlen : fs.length = ws.length) (hfs : ∀ f ∈ fs, f ∉ ws ∧ f ∉ l.passed)
    {ρ ρ' : ItemId → α} (hread : NamesRead ρ ρ' (markBack l.holds ws) fs)
    (hold : ∀ it, it ∈ ws ∨ it ∈ l.current.toList ∨ it ∈ l.upNext ∨ it ∈ l.passed →
      ρ' it = ρ it) :
    let passed := l.passed.take
      (l.passed.length - l.walked (l.current.toList ++ ws.dropLast))
    let played := (markBack l.holds ws).map fun m => (ρ m.1, !m.2 && decide (m.1 ∈ passed))
    let flagged := fun it => (ρ it, decide (it ∈ passed))
    (l.stepsBack (ws.zip fs)).readAs ρ' =
      (played.getLast?.map Prod.fst,
        (l.current.toList.map flagged ++ played.dropLast).reverse ++ l.upNext.map flagged,
        passed.map ρ) := by
  intro passed played flagged
  obtain ⟨hcur, hup, -, hpassed⟩ := h.stepsBack_eq hws hlen hfs
  have hms : (markBack l.holds ws).length = ws.length := by
    rw [← List.length_map (f := Prod.fst), markBack_fst]
  have hsub : ∀ it ∈ passed, it ∈ l.passed := fun it hit => List.mem_of_mem_take hit
  have hnamed := named_reads (hlen.trans hms.symm) hread
    (fun w hw => hold w (Or.inl (markBack_fst l.holds ws ▸ hw))) passed
    (fun f hf hp => (hfs f hf).2 (hsub f hp))
  have hflag : ∀ xs : List ItemId,
      (∀ it ∈ xs, it ∈ l.current.toList ∨ it ∈ l.upNext) →
      xs.map (fun it => (ρ' it, decide (it ∈ passed))) = xs.map flagged := by
    intro xs hxs
    refine List.map_congr_left fun it hit => ?_
    rw [hold it (Or.inr ((hxs it hit).imp_right Or.inl))]
  rw [readAs, hcur, hup, hpassed]
  refine Prod.ext ?_ (Prod.ext ?_ ?_)
  · have := congrArg List.getLast? hnamed
    rw [List.getLast?_map] at this
    rw [← this, Option.map_map]
    rfl
  · simp only [List.map_append, List.map_reverse, List.map_dropLast]
    rw [hnamed, hflag _ fun it hit => Or.inl hit, hflag _ fun it hit => Or.inr hit]
  · exact List.map_congr_left fun it hit => hold it (Or.inr (Or.inr (Or.inr (hsub it hit))))

end Lists

namespace QueueState

variable {q : QueueState}

/-! ### The queue's own reading -/

theorem map_range_length {α β : Type} {xs : List α} {f : α → β} {g : Nat → β}
    (h : ∀ i x, xs[i]? = some x → g i = f x) : (List.range xs.length).map g = xs.map f := by
  apply List.ext_getElem?
  intro i
  rw [List.getElem?_map, List.getElem?_map]
  by_cases hi : i < xs.length
  · rw [List.getElem?_range hi, List.getElem?_eq_getElem hi]
    simp only [Option.map_some, Option.some.injEq]
    exact h i _ (List.getElem?_eq_getElem hi)
  · rw [List.getElem?_eq_none (by simpa using hi), List.getElem?_eq_none (by simpa using hi)]
    rfl

theorem upNextRow_eq (q : QueueState) (i : Nat) :
    q.upNextRow i = (q.upNextItem i).bind fun item => q.rowOf item.key item.pos := by
  unfold upNextRow upNextItem rowIn
  split <;> rfl

theorem Readable.passes_iff (h : q.Readable) (item : ItemId) :
    ((List.range q.cursor).any fun j => decide (q.itemAt q.order j = some item)) =
      decide (item ∈ q.lists.passed) := by
  rw [Bool.eq_iff_iff, List.any_eq_true, decide_eq_true_eq, h.passed_eq]
  constructor
  · rintro ⟨j, hj, he⟩
    rw [List.mem_range] at hj
    rw [decide_eq_true_eq, ← h.getElem?_order] at he
    rw [List.mem_take_iff_getElem]
    obtain ⟨hlt, hget⟩ := List.getElem?_eq_some_iff.mp he
    exact ⟨j, by omega, hget⟩
  · intro hm
    obtain ⟨j, hj, he⟩ := List.mem_take_iff_getElem.mp hm
    refine ⟨j, List.mem_range.mpr (by omega), ?_⟩
    rw [decide_eq_true_eq, ← h.getElem?_order]
    exact List.getElem?_eq_some_iff.mpr ⟨_, he⟩

/-- A queue reads as its lists do. -/
theorem Valid.reads_eq (h : q.Valid) :
    q.reads =
      let r := q.lists.readAs q.readItem
      ⟨r.1.join, r.2.1, q.lists.manual.length, r.2.2, q.lists.passed.length, q.plays, q.nextPlay,
        q.repeatMode, q.adjusted⟩ := by
  have hr := h.placed.toReadable
  have hplaying : q.currentRow.map ReadRow.at = (q.current.map q.readItem).join := by
    rw [currentRow]
    cases q.current <;> rfl
  have hup : ((List.range q.upNextLen).map fun i =>
      ((q.upNextRow i).map ReadRow.at, decide (i < q.manual.len) &&
        (List.range q.cursor).any fun j => decide (q.itemAt q.order j = q.upNextItem i))) =
      q.lists.upNext.map fun it => (q.readItem it, decide (it ∈ q.lists.passed)) := by
    rw [← hr.length_upNext]
    refine map_range_length fun i item hi => ?_
    have hitem := (hr.upNextItem_eq i).trans hi
    rw [upNextRow_eq, hitem, hr.passes_iff]
    refine Prod.ext rfl ?_
    by_cases hm : i < q.manual.len
    · simp only [hm, decide_true, Bool.true_and]
    · -- an item ahead has no passed place, for the context holds it once
      have hahead : item ∈ q.lists.ahead := by
        rw [Lists.upNext, List.getElem?_append_right (by rw [hr.length_manual]; omega)] at hi
        exact List.mem_of_getElem? hi
      have hnot : item ∉ q.lists.passed := fun hp =>
        (List.nodup_append.mp h.placed.sound.order_nodup).2.2 item hp item hahead rfl
      simp only [hm, hnot, decide_false, Bool.false_and]
  have hpassed : ((List.range q.cursor).map fun j => (q.contextRow j).map ReadRow.at) =
      q.lists.passed.map q.readItem := by
    rw [← hr.length_passed]
    refine map_range_length fun i item hi => ?_
    have hitem : q.itemAt q.order i = some item := by
      rw [hr.passed_eq] at hi
      rw [← hr.getElem?_order]
      exact List.getElem?_eq_some_iff.mpr (by
        obtain ⟨hlt, he⟩ := List.getElem?_eq_some_iff.mp hi
        rw [List.getElem_take] at he
        rw [List.length_take] at hlt
        exact ⟨by omega, he⟩)
    rw [contextRow, rowIn, hitem]
    rfl
  rw [reads, hplaying, hup, hpassed, ← hr.length_manual, hr.length_passed]
  rfl

/-! ### Previous, repeated -/

/-- What Previous repeated over the plays `ws`, newest first, made of the queue. -/
structure SteppedOver (q q' : QueueState) (ws : List ItemId) (keys : List String) : Prop where
  valid : q'.Valid
  lists : q'.lists = q.lists.stepsBack (ws.zip (keys.map (⟨·, 0⟩)))
  more : ∃ extra, MoreCopies q q' extra ∧ ∀ c ∈ extra, ∃ w, (w, c.key) ∈ ws.zip keys ∧
    c.of.rows = rowsOf (q.sourceSpans w)
  plays : ∃ later, q.plays = q'.plays ++ later ∧ later.map Prod.snd = (ws.map ItemId.row).reverse
  nextPlay : q'.nextPlay = q.nextPlay
  repeatMode : q'.repeatMode = q.repeatMode
  adjusted : q'.adjusted = q.adjusted

theorem WentBack.more (h : q.Valid) {q' : QueueState} {cs : List QueueCopy}
    (hw : WentBack q q' cs) : MoreCopies q q' cs :=
  ⟨hw.sources, hw.copies, h.grounded, (h.wentBack hw).valid.grounded⟩

/-- One step of Previous, over the newest play. -/
theorem Valid.previous_step (h : q.Valid) {x : ItemId} {older : List (Nat × Row)} {n : Nat}
    (hplays : q.plays = older ++ [(n, x.row)]) {key : String} (hk : q.hasKey key = false) :
    SteppedBack q (q.edited (.previous key)) x key := by
  rcases h.previous_cases key with ⟨hnil, -⟩ | ⟨run, y, hl, -, hy, ⟨-, hk', -⟩ | ⟨hk', he⟩⟩
  · rw [QueueState.plays, hnil] at hplays
    cases older <;> cases hplays
  · rw [hk] at hk'
    cases hk'
  · have hst := h.steppedBack hl hy hk'
    obtain ⟨m, hm⟩ := hst.plays
    have hxy : y = x := by
      rw [hplays] at hm
      have hlast := (List.append_inj' hm rfl).2
      simp only [List.cons.injEq, Prod.mk.injEq, and_true] at hlast
      exact (ItemId.row_inj hlast.2).symm
    subst hxy
    rw [edited, apply, he]
    exact hst

/-- **Previous, repeated** with fresh keys, is steps back over the newest plays. -/
theorem Valid.previous_run (h : q.Valid) {ws : List ItemId} {keys : List String}
    (hlen : keys.length = ws.length) (hn : keys.Nodup) (hk : ∀ key ∈ keys, q.hasKey key = false)
    {older later : List (Nat × Row)} (hplays : q.plays = older ++ later)
    (hlater : later.map Prod.snd = (ws.map ItemId.row).reverse) :
    SteppedOver q (after edited q (keys.map Edit.previous)) ws keys := by
  induction ws generalizing q keys later with
  | nil =>
    obtain rfl : keys = [] := List.eq_nil_of_length_eq_zero hlen
    refine ⟨h, rfl, ⟨[], ⟨rfl, (List.append_nil _).symm, h.grounded, h.grounded⟩,
        fun c hc => by cases hc⟩,
      ⟨[], (List.append_nil _).symm, rfl⟩, rfl, rfl, rfl⟩
  | cons x ws ih =>
    obtain ⟨key, keys, rfl⟩ := List.exists_cons_of_length_eq_add_one hlen
    rw [List.map_cons, List.reverse_cons] at hlater
    obtain ⟨front, last, rfl, hfront, hlast⟩ := List.map_eq_append_iff.mp hlater
    obtain ⟨⟨n, r⟩, rfl, hr⟩ := List.map_eq_singleton_iff.mp hlast
    obtain rfl : r = x.row := hr
    rw [← List.append_assoc] at hplays
    have hst := h.previous_step hplays (hk key List.mem_cons_self)
    rw [List.map_cons, after_cons]
    generalize q.edited (.previous key) = q₁ at hst
    have hv₁ : q₁.Valid := (h.wentBack hst.went).valid
    obtain ⟨cs, hmore, hcs⟩ : ∃ cs, MoreCopies q q₁ cs ∧
        ∀ c ∈ cs, c.key = key ∧ c.of.rows = rowsOf (q.sourceSpans x) := by
      refine ⟨_, hst.went.more h, fun c hc => ?_⟩
      split at hc
      · rw [List.mem_singleton.mp hc]
        exact ⟨rfl, SpanList.rows_fromSpans _⟩
      · cases hc
    have hplays₁ : q₁.plays = older ++ front := by
      obtain ⟨m, hm⟩ := hst.plays
      rw [hm] at hplays
      exact (List.append_inj' hplays rfl).1
    have hfresh : ∀ k ∈ keys, q₁.hasKey k = false := by
      intro k hkm
      have hne : k ≠ key := fun he => (List.nodup_cons.mp hn).1 (he ▸ hkm)
      have hold := hk k (List.mem_cons_of_mem _ hkm)
      rw [← Bool.not_eq_true, hasKey_iff] at hold ⊢
      rw [hmore.sources, hmore.copies, List.map_append, ← List.append_assoc, List.mem_append]
      rintro (hin | hin)
      · exact hold hin
      · obtain ⟨c, hc, rfl⟩ := List.mem_map.mp hin
        exact hne (hcs c hc).1
    have hrest := ih hv₁ (by simpa using hlen) (List.nodup_cons.mp hn).2 hfresh hplays₁ hfront
    obtain ⟨extra, hextra, hcopied⟩ := hrest.more
    refine ⟨hrest.valid, ?_, ⟨cs ++ extra, ⟨?_, ?_, h.grounded, hrest.valid.grounded⟩, ?_⟩, ?_,
      hrest.nextPlay.trans hst.nextPlay, hrest.repeatMode.trans hst.repeatMode,
      hrest.adjusted.trans hst.adjusted⟩
    · rw [hrest.lists, hst.lists]
      rfl
    · rw [hextra.sources, hmore.sources]
    · rw [hextra.copies, hmore.copies, List.append_assoc]
    · intro c hc
      rcases List.mem_append.mp hc with hc | hc
      · obtain ⟨hkey, hrows⟩ := hcs c hc
        exact ⟨x, by rw [hkey]; exact List.mem_cons_self, hrows⟩
      · obtain ⟨w, hw, hrows⟩ := hcopied c hc
        have hwplay : w.row ∈ q.playRows := by
          rw [playRows, hplays, List.map_append, List.map_append, hfront, List.mem_append,
            List.mem_append, List.mem_reverse]
          exact Or.inl (Or.inr (List.mem_map.mpr ⟨w, (List.of_mem_zip hw).1, rfl⟩))
        obtain ⟨⟨m, r⟩, hm, hr⟩ := List.mem_map.mp hwplay
        obtain rfl : r = w.row := hr
        rw [hmore.sourceSpans (h.play_named hm)] at hrows
        exact ⟨w, List.mem_cons_of_mem _ hw, hrows⟩
    · obtain ⟨later', hp, hl⟩ := hrest.plays
      obtain ⟨m, hm⟩ := hst.plays
      refine ⟨later' ++ [(m, x.row)], by rw [hm, hp, List.append_assoc], ?_⟩
      rw [List.map_append, hl]
      simp

/-! ### Both read alike -/

/-- The plays gone back over, the item playing and those queued or passed all read as before. -/
theorem Valid.old_reads (h : q.Valid) {q' : QueueState} {extra : List QueueCopy}
    (hmore : MoreCopies q q' extra) {ws : List ItemId} (hws : ∀ w ∈ ws, w.row ∈ q.playRows) :
    ∀ it, it ∈ ws ∨ it ∈ q.lists.current.toList ∨ it ∈ q.lists.upNext ∨ it ∈ q.lists.passed →
      q'.readItem it = q.readItem it := by
  intro it hit
  refine hmore.readItem (h.grounded.named it.key it.pos ?_)
  rcases hit with hit | hit | hit | hit
  · exact play_mentioned hws hit
  · exact current_mentioned (Option.mem_toList.mp hit)
  · exact h.placed.upNext_mentioned hit
  · exact order_mentioned (List.mem_append_left _ hit)

theorem mem_getLast_or_dropLast {α : Type} {xs : List α} {x : α} (hx : x ∈ xs) :
    xs.getLast? = some x ∨ x ∈ xs.dropLast := by
  cases xs using List.reverseRecOn with
  | nil => cases hx
  | append_singleton xs y =>
    rw [List.getLast?_concat, List.dropLast_concat]
    rcases List.mem_append.mp hx with hx | hx
    · exact Or.inr hx
    · exact Or.inl (congrArg some (List.mem_singleton.mp hx).symm)

/-- The copies Previous makes read what it went back over. -/
theorem SteppedOver.names_read (h : q.Valid) {q' : QueueState} {ws : List ItemId}
    {keys : List String} (hs : SteppedOver q q' ws keys) (hlen : keys.length = ws.length)
    (hn : keys.Nodup) (hk : ∀ key ∈ keys, q.hasKey key = false)
    (hfs : ∀ f ∈ keys.map (fun key => (⟨key, 0⟩ : ItemId)), f ∉ ws ∧ f ∉ q.lists.passed) :
    NamesRead q.readItem q'.readItem (markBack q.lists.holds ws) (keys.map (⟨·, 0⟩)) := by
  obtain ⟨extra, hmore, hextra⟩ := hs.more
  intro m f hmf hcopied
  have hf : f ∈ named (markBack q.lists.holds ws) (keys.map (⟨·, 0⟩)) := by
    rw [named_eq]
    exact List.mem_map.mpr ⟨_, hmf, by rw [if_pos hcopied]⟩
  rw [List.zip_map_right] at hmf
  obtain ⟨⟨m', key⟩, hmk, he⟩ := List.mem_map.mp hmf
  obtain ⟨rfl, rfl⟩ := Prod.mk.inj he
  have hwk : (m'.1, key) ∈ ws.zip keys := by
    rw [← markBack_fst q.lists.holds ws, List.zip_map_left]
    exact List.mem_map.mpr ⟨_, hmk, rfl⟩
  have hkey := hk key (List.of_mem_zip hwk).2
  -- the copy plays or is queued, so it is a copy the queue has
  have hne : ws ≠ [] := List.ne_nil_of_mem (List.of_mem_zip hwk).1
  obtain ⟨hcur, hup, -, -⟩ := h.placed.sound.stepsBack_eq hne (by simpa using hlen) hfs
  rw [← hs.lists] at hcur hup
  have hment : (⟨key, 0⟩ : ItemId).row ∈ q'.mentioned := by
    rcases mem_getLast_or_dropLast hf with hf | hf
    · exact current_mentioned (hcur.trans hf)
    · refine hs.valid.placed.upNext_mentioned ?_
      rw [hup, List.mem_append, List.mem_reverse, List.mem_append]
      exact Or.inl (Or.inr hf)
  rw [← Bool.not_eq_true, hasKey_iff, List.mem_append, not_or] at hkey
  rcases hs.valid.grounded.named key 0 hment with ⟨s, hsm, rfl, -⟩ | ⟨c, hcm, rfl, -⟩
  · rw [hmore.sources] at hsm
    exact absurd (List.mem_map.mpr ⟨s, hsm, rfl⟩) hkey.1
  · rw [hmore.copies] at hcm
    rcases List.mem_append.mp hcm with hcm | hcm
    · exact absurd (List.mem_map.mpr ⟨c, hcm, rfl⟩) hkey.2
    · obtain ⟨w, hw, hrows⟩ := hextra c hcm
      obtain ⟨i, hi⟩ := List.mem_iff_getElem?.mp hwk
      obtain ⟨j, hj⟩ := List.mem_iff_getElem?.mp hw
      rw [List.getElem?_zip_eq_some] at hi hj
      obtain rfl : i = j := index_unique hn hi.2 hj.2
      obtain rfl : m'.1 = w := Option.some.inj (hi.1.symm.trans hj.1)
      rw [hmore.readItem_extra hcm, hrows, h.grounded.readItem_eq, List.head?_eq_getElem?]
      rfl

theorem flatMap_single {α β : Type} {f : α → List β} {xs : List α}
    (h : ∀ x ∈ xs, (f x).length = 1) (j : Nat) :
    (xs.flatMap f)[j]? = xs[j]?.bind fun x => (f x).head? := by
  induction xs generalizing j with
  | nil => rfl
  | cons x xs ih =>
    obtain ⟨y, hy⟩ := List.length_eq_one_iff.mp (h x List.mem_cons_self)
    rw [List.flatMap_cons, hy]
    cases j with
    | zero => simp [hy]
    | succ j => simpa using ih (fun x hx => h x (List.mem_cons_of_mem _ hx)) j

/-- A copied play's name is its position among those copied, in the order heard. -/
theorem copyNames_position {key : String} {past : Nat} {ms : List (ItemId × Bool)}
    {m : ItemId × Bool} {f : ItemId} (h : (m, f) ∈ ms.zip (copyNames key past ms))
    (hm : m.2 = true) : ∃ j, f = ⟨key, j⟩ ∧ (copied ms.reverse)[j]? = some m.1 := by
  induction ms with
  | nil => cases h
  | cons m' ms ih =>
    obtain ⟨w, copy⟩ := m'
    rw [copyNames, List.zip_cons_cons, List.mem_cons] at h
    rw [List.reverse_cons, copied_append]
    have hlen : (copied ms.reverse).length = (copied ms).length := by
      simp only [copied, List.length_map, List.filter_reverse, List.length_reverse]
    rcases h with h | h
    · obtain ⟨rfl, rfl⟩ := Prod.mk.inj h
      obtain rfl : copy = true := hm
      refine ⟨(copied ms).length, rfl, ?_⟩
      rw [List.getElem?_append_right (Nat.le_of_eq hlen), hlen, Nat.sub_self]
      rfl
    · obtain ⟨j, hj, hget⟩ := ih h
      refine ⟨j, hj, ?_⟩
      rw [List.getElem?_append_left (List.getElem?_eq_some_iff.mp hget).1, hget]

/-- The one copy a rewind makes reads what it went back over. -/
theorem Rewound.names_read (h : q.Valid) {q' : QueueState} {ws : List ItemId} {key : String}
    (hr : Rewound q q' ws key) (hws : ∀ w ∈ ws, w.row ∈ q.playRows) :
    NamesRead q.readItem q'.readItem (markBack q.lists.holds ws)
      (copyNames key ws.length (markBack q.lists.holds ws)) := by
  intro m f hmf hcopied
  obtain ⟨j, rfl, hj⟩ := copyNames_position hmf hcopied
  have hmore := hr.went.more h
  have hitem : (q.backCopied ws)[j]? = some m.1 := hj
  have hne : q.backCopied ws ≠ [] := by
    intro hnil
    rw [hnil] at hitem
    cases hitem
  have hcopy : (⟨key, .fromSpans ((q.backCopied ws).flatMap q.sourceSpans)⟩ : QueueCopy) ∈
      q.copyOf key (q.backCopied ws) := by
    rw [copyOf, if_neg hne]
    exact List.mem_singleton.mpr rfl
  have hlen : ∀ it ∈ q.backCopied ws, (rowsOf (q.sourceSpans it)).length = 1 := by
    intro it hit
    have hit' : it ∈ ws := by
      rw [← markBack_fst q.lists.holds ws]
      obtain ⟨m, hm, rfl⟩ := List.mem_map.mp hit
      exact List.mem_map.mpr ⟨m, List.mem_reverse.mp (List.mem_of_mem_filter hm), rfl⟩
    have := (h.copy_row (h.grounded.named it.key it.pos (play_mentioned hws hit'))).2
    rwa [SpanList.len_eq, SpanList.rows_fromSpans] at this
  rw [hmore.readItem_extra hcopy]
  simp only [rows_copyOf]
  rw [copyRows, flatMap_single hlen, hitem, h.grounded.readItem_eq]
  rfl

/-- Valid queues that went back over the same plays, under fresh names that read the same, read
the same. -/
theorem Valid.reads_of_lists (h : q.Valid) {q' : QueueState} (h' : q'.Valid)
    {ws fs : List ItemId} (hws : ws ≠ []) (hlen : fs.length = ws.length)
    (hfs : ∀ f ∈ fs, f ∉ ws ∧ f ∉ q.lists.passed)
    (hlists : q'.lists = q.lists.stepsBack (ws.zip fs)) {extra : List QueueCopy}
    (hmore : MoreCopies q q' extra) (hplayed : ∀ w ∈ ws, w.row ∈ q.playRows)
    (hread : NamesRead q.readItem q'.readItem (markBack q.lists.holds ws) fs) :
    let passed := q.lists.passed.take
      (q.lists.passed.length - q.lists.walked (q.lists.current.toList ++ ws.dropLast))
    let played := (markBack q.lists.holds ws).map fun m =>
      (q.readItem m.1, !m.2 && decide (m.1 ∈ passed))
    let flagged := fun it => (q.readItem it, decide (it ∈ passed))
    let upNext := (q.lists.current.toList.map flagged ++ played.dropLast).reverse ++
      q.lists.upNext.map flagged
    q'.reads = ⟨(played.getLast?.map Prod.fst).join, upNext,
      upNext.length - (q.lists.order.length - passed.length), passed.map q.readItem, passed.length,
      q'.plays, q'.nextPlay, q'.repeatMode, q'.adjusted⟩ := by
  intro passed played flagged upNext
  have hsteps := h.placed.sound.stepsBack_reads hws hlen hfs hread (h.old_reads hmore hplayed)
  obtain ⟨-, -, horder, hpassed⟩ := h.placed.sound.stepsBack_eq hws hlen hfs
  rw [← hlists] at hsteps horder hpassed
  have hman : q'.lists.manual.length =
      upNext.length - (q.lists.order.length - passed.length) := by
    have hl : q'.lists.upNext.length = upNext.length := by
      have := congrArg (fun r => r.2.1.length) hsteps
      simpa only [Lists.readAs, List.length_map] using this
    have ho : q'.lists.order.length = passed.length + q'.lists.ahead.length := by
      rw [Lists.order, List.length_append, hpassed]
    rw [horder] at ho
    rw [← hl, Lists.upNext, List.length_append]
    omega
  rw [h'.reads_eq]
  simp only [hsteps, hman]
  rw [hpassed]

/-- The plays numbered from the one named on are those gone back over. -/
theorem BackTo.count (h : q.Numbered) {play : PlayRef} {ws : List ItemId} (hb : BackTo q play ws) :
    (q.plays.filter fun p => play.play ≤ p.1).length = ws.length := by
  obtain ⟨older, later, hplays, hhead, hlater⟩ := hb.plays
  have hlen : later.length = ws.length := by
    rw [← List.length_map (f := Prod.snd), hlater, List.length_reverse, List.length_map]
  obtain ⟨rest, rfl⟩ := List.head?_eq_some_iff.mp hhead
  have hasc := h.ascending
  rw [hplays, List.pairwise_append, List.pairwise_cons] at hasc
  obtain ⟨-, ⟨hrest, -⟩, holder⟩ := hasc
  rw [hplays, List.filter_append, List.filter_eq_nil_iff.mpr, List.filter_eq_self.mpr,
    List.nil_append, hlen]
  · intro p hp
    rw [decide_eq_true_eq]
    rcases List.mem_cons.mp hp with rfl | hp
    · exact Nat.le_refl _
    · exact Nat.le_of_lt (hrest p hp)
  · intro p hp
    have := holder p hp _ List.mem_cons_self
    rw [decide_eq_true_eq]
    omega

theorem fresh_names (h : q.Valid) {ws : List ItemId} (hws : ∀ w ∈ ws, w.row ∈ q.playRows)
    {keys : List String} (hk : ∀ key ∈ keys, q.hasKey key = false) :
    ∀ f ∈ keys.map (fun key => (⟨key, 0⟩ : ItemId)), f ∉ ws ∧ f ∉ q.lists.passed := by
  intro f hf
  obtain ⟨key, hkey, rfl⟩ := List.mem_map.mp hf
  have hnot : (⟨key, 0⟩ : ItemId).row ∉ q.mentioned := h.grounded.fresh (hk key hkey)
  exact ⟨fun hm => hnot (play_mentioned hws hm),
    fun hm => hnot (order_mentioned (List.mem_append_left _ hm))⟩

/-- **Rewind is Previous repeated**, in every queue, for every play of History and any fresh
keys: the queue reads the same, and a rewind makes one copy at most. -/
theorem rewind_reads (calls : List Call) (play : PlayRef) (key : String) (keys : List String)
    (hplay : (run calls).Played play.play play.item)
    (hkey : (run calls).hasKey key = false)
    (hkeys : keys.Nodup ∧ ∀ k ∈ keys, (run calls).hasKey k = false)
    (hlen : keys.length = ((run calls).plays.filter fun p => play.play ≤ p.1).length) :
    let q := run calls
    (q.apply (.rewind play key)).1 = .ok () ∧
      (q.edited (.rewind play key)).reads = (after edited q (keys.map Edit.previous)).reads ∧
      (q.edited (.rewind play key)).copies.length ≤ q.copies.length + 1 := by
  intro q
  have hv : q.Valid := run_valid calls
  rcases hv.rewind_cases play key with ⟨hgone, -⟩ | ⟨ws, hback, ⟨-, hused, -⟩ | ⟨-, q', he, hr⟩⟩
  · exact absurd (played_iff.1 hplay) hgone
  · rw [show q.hasKey key = false from hkey] at hused
    cases hused
  obtain ⟨older, later, hplays, hhead, hlater⟩ := hback.plays
  have hcount : keys.length = ws.length := hlen.trans (hback.count hv.numbered)
  have hne : ws ≠ [] := by
    rintro rfl
    rw [List.map_nil, List.reverse_nil, List.map_eq_nil_iff] at hlater
    rw [hlater] at hhead
    cases hhead
  have hws : ∀ w ∈ ws, w.row ∈ q.playRows := by
    intro w hw
    rw [playRows, hplays, List.map_append, hlater, List.mem_append, List.mem_reverse]
    exact Or.inr (List.mem_map.mpr ⟨w, hw, rfl⟩)
  -- both go back over the same plays
  have hrun := hv.previous_run hcount hkeys.1 hkeys.2 hplays hlater
  obtain ⟨extra, hmore, -⟩ := hrun.more
  have hnames := fresh_names hv hws hkeys.2
  have hprev := hv.reads_of_lists hrun.valid hne (by simpa using hcount) hnames hrun.lists hmore hws
    (hrun.names_read hv hcount hkeys.1 hkeys.2 hnames)
  have hback' := hv.copyNames_ok hws hkey
  have hrew := hv.reads_of_lists (hv.wentBack hr.went).valid hne hback'.length
    (fun f hf => ⟨(hback'.fresh f hf).1, (hback'.fresh f hf).2.1⟩) (hr.lists _ hback')
    (hr.went.more hv) hws (hr.names_read hv hws)
  have hsame : q'.plays = (after edited q (keys.map Edit.previous)).plays := by
    obtain ⟨l₁, h₁, hl₁⟩ := hr.plays
    obtain ⟨l₂, h₂, hl₂⟩ := hrun.plays
    have hlength : l₁.length = l₂.length := by
      rw [← List.length_map (f := Prod.snd), hl₁, ← hl₂, List.length_map]
    exact (List.append_inj' (h₁.symm.trans h₂) hlength).1
  have hstate : q.edited (.rewind play key) = q' := by rw [edited, apply, he]
  refine ⟨by rw [apply, he], ?_, ?_⟩
  · rw [hstate, hrew, hprev, hsame, hr.nextPlay, hrun.nextPlay, hr.repeatMode, hrun.repeatMode,
      hr.adjusted, hrun.adjusted]
  · rw [hstate, hr.went.copies, List.length_append]
    exact Nat.add_le_add_left hr.went.one_copy _

theorem rewind_reads_a_lap_back :
    let q := run [.start ⟨"a", "", none, 2, none⟩ 0, .apply (.repeatMode .all), .apply .next,
      .apply .next]
    (q.edited (.rewind ⟨0, ⟨"a", 0⟩⟩ "r")).reads =
      (after edited q (["x", "y"].map Edit.previous)).reads := by
  refine (rewind_reads [.start ⟨"a", "", none, 2, none⟩ 0, .apply (.repeatMode .all),
    .apply .next, .apply .next] ⟨0, ⟨"a", 0⟩⟩ "r" ["x", "y"] ?_ ?_ ⟨?_, ?_⟩ ?_).2.1
  · exact played_iff.2 (by decide +kernel)
  · decide +kernel
  · decide
  · decide +kernel
  · decide +kernel

end QueueState

end JewelCase.Queue
