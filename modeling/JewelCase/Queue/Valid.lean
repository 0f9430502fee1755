import JewelCase.Queue.Record
import JewelCase.Queue.Numbering

/-!
# References

Which rows the queue refers to, what they name, and what clean-up keeps. A grounded queue names
only rows that exist; a tidy one keeps no source or copy that nothing refers to.
-/
namespace JewelCase.Queue

set_option autoImplicit false

open Library (Stretch)
open Library.Lists

theorem KeyRows.of_mem {rows : List Row} (h : KeyRows rows) {r : Row} (hr : r ∈ rows) :
    ∃ k, r.1 = .key k := by
  cases hv : r.1 with
  | key k => exact ⟨k, rfl⟩
  | shuffle => exact absurd hv (h r hr)

namespace QueueState

/-- The rows of the shuffle's base. -/
def baseRows (q : QueueState) : List Row := q.shuffle.elim [] (·.base.rows)

/-- Every row the queue refers to: what plays, the Manual Queue, the context, the shuffle's base
and History. -/
def mentioned (q : QueueState) : List Row :=
  (q.current.map ItemId.row).toList ++ q.manual.rows ++ q.order.rows ++ q.baseRows ++ q.playRows

/-- Whether a row of the queue reads view `key`. -/
def Refers (q : QueueState) (key : String) : Prop := ∃ pos, (View.key key, pos) ∈ q.mentioned

/-- Whether `pos` is a position of a source or copy keyed `key`. -/
def Names (q : QueueState) (key : String) (pos : Nat) : Prop :=
  (∃ s ∈ q.sources, s.key = key ∧ pos < s.length) ∨ ∃ c ∈ q.copies, c.key = key ∧ pos < c.of.len

/-- Whether a row names a position of a source. -/
def NamesSource (q : QueueState) (r : Row) : Prop :=
  ∃ s ∈ q.sources, r.1 = .key s.key ∧ r.2 < s.length

/-- **Nothing dangles.** Keys are unique, every row the queue refers to is there, and copies
name positions of sources. -/
structure Grounded (q : QueueState) : Prop where
  keys_nodup : (q.sources.map (·.key) ++ q.copies.map (·.key)).Nodup
  named : ∀ key pos, (View.key key, pos) ∈ q.mentioned → q.Names key pos
  copies_ok : ∀ c ∈ q.copies, ∀ r ∈ c.of.rows, q.NamesSource r

/-- **Nothing is left over.** Every copy is referred to, and every source is, directly or by a
copy. -/
structure Tidy (q : QueueState) : Prop where
  copies_used : ∀ c ∈ q.copies, q.Refers c.key
  sources_used : ∀ s ∈ q.sources,
    q.Refers s.key ∨ ∃ c ∈ q.copies, ∃ pos, (View.key s.key, pos) ∈ c.of.rows

theorem mem_mentioned {q : QueueState} {r : Row} :
    r ∈ q.mentioned ↔ (∃ item, q.current = some item ∧ r = item.row) ∨ r ∈ q.manual.rows ∨
      r ∈ q.order.rows ∨ r ∈ q.baseRows ∨ r ∈ q.playRows := by
  have hcur : r ∈ (q.current.map ItemId.row).toList ↔
      ∃ item, q.current = some item ∧ r = item.row := by
    cases q.current <;> simp
  simp only [mentioned, List.mem_append, hcur, or_assoc]

theorem mem_baseRows {q : QueueState} {r : Row} :
    r ∈ q.baseRows ↔ ∃ s, q.shuffle = some s ∧ r ∈ s.base.rows := by
  unfold baseRows
  cases q.shuffle <;> simp

/-! ### Clean-up -/

theorem mem_span_keys {spans : List Span} (hp : ∀ s ∈ spans, 0 < s.len) {key : String} :
    key ∈ spans.filterMap (·.view.key?) ↔ ∃ pos, (View.key key, pos) ∈ rowsOf spans := by
  simp only [rowsOf, Stretch.flat, List.mem_filterMap, List.mem_flatMap, Span.mem_rows]
  constructor
  · rintro ⟨s, hs, hk⟩
    have hv : s.view = .key key := by
      cases hv : s.view with
      | key k => simpa [View.key?, hv] using hk
      | shuffle => simp [View.key?, hv] at hk
    exact ⟨s.start, s, hs, hv.symm, Nat.le_refl _, by have := hp s hs; omega⟩
  · rintro ⟨pos, s, hs, hv, -⟩
    exact ⟨s, hs, by rw [← hv]; rfl⟩

theorem mem_addKeys {list : SpanList} {keys : List String} {key : String} :
    key ∈ addKeys list keys ↔ key ∈ keys ∨ ∃ pos, (View.key key, pos) ∈ list.rows := by
  rw [addKeys, List.mem_append, mem_span_keys list.canonical.1]
  rfl

variable {q : QueueState}

/-- **The keys in use are those a row of the queue reads.** -/
theorem mem_usedKeys (hh : ∀ run ∈ q.history, 0 < run.span.len) {key : String} :
    key ∈ q.usedKeys ↔ q.Refers key := by
  have hhist : key ∈ q.history.filterMap (·.span.view.key?) ↔
      ∃ pos, (View.key key, pos) ∈ q.playRows := by
    rw [playRows_eq, ← mem_span_keys (by simpa using hh), List.filterMap_map]
    rfl
  have hcur : key ∈ (q.current.map (·.key)).toList ↔
      ∃ pos, ∃ item, q.current = some item ∧ (View.key key, pos) = item.row := by
    cases q.current with
    | none => simp
    | some item =>
      obtain ⟨k, p⟩ := item
      simp [ItemId.row, ItemId.view]
  have hbase : ∀ keys : List String,
      key ∈ q.shuffle.elim keys (fun shuffle => addKeys shuffle.base keys) ↔
        key ∈ keys ∨ ∃ pos, (View.key key, pos) ∈ q.baseRows := by
    intro keys
    cases hs : q.shuffle with
    | none => simp [baseRows, hs]
    | some s => simp [baseRows, hs, mem_addKeys]
  simp only [usedKeys, List.mem_append, hhist, hbase, mem_addKeys, hcur, Refers, mem_mentioned]
  simp only [exists_or, or_assoc]

theorem mem_foldl_addKeys {copies : List QueueCopy} {keys : List String} {key : String} :
    key ∈ copies.foldl (fun used copy => addKeys copy.of used) keys ↔
      key ∈ keys ∨ ∃ c ∈ copies, ∃ pos, (View.key key, pos) ∈ c.of.rows := by
  induction copies generalizing keys with
  | nil => simp
  | cons c cs ih => simp [ih, mem_addKeys, or_assoc]

@[simp] theorem mentioned_cleanUp (q : QueueState) : q.cleanUp.mentioned = q.mentioned := rfl

@[simp] theorem lists_cleanUp (q : QueueState) : q.cleanUp.lists = q.lists := rfl

theorem mem_copies_cleanUp (hh : ∀ run ∈ q.history, 0 < run.span.len) {c : QueueCopy} :
    c ∈ q.cleanUp.copies ↔ c ∈ q.copies ∧ q.Refers c.key := by
  simp only [cleanUp, List.mem_filter, decide_eq_true_eq, mem_usedKeys hh]

theorem mem_sources_cleanUp (hh : ∀ run ∈ q.history, 0 < run.span.len) {s : Source} :
    s ∈ q.cleanUp.sources ↔ s ∈ q.sources ∧
      (q.Refers s.key ∨ ∃ c ∈ q.cleanUp.copies, ∃ pos, (View.key s.key, pos) ∈ c.of.rows) := by
  simp only [cleanUp, List.mem_filter, decide_eq_true_eq, mem_foldl_addKeys, mem_usedKeys hh]

/-- **Clean-up drops exactly what nothing refers to.** -/
theorem Grounded.cleanUp (h : q.Grounded) (hh : ∀ run ∈ q.history, 0 < run.span.len) :
    q.cleanUp.Grounded ∧ q.cleanUp.Tidy := by
  have hkey : ∀ {r : Row} {key : String} {pos : Nat}, r = (View.key key, pos) → r.1 = .key key :=
    fun h => by rw [h]
  refine ⟨⟨?_, ?_, ?_⟩, ⟨?_, ?_⟩⟩
  · refine h.keys_nodup.sublist (List.Sublist.append ?_ ?_)
    · exact List.filter_sublist.map _
    · exact List.filter_sublist.map _
  · intro key pos hm
    rcases h.named key pos hm with ⟨s, hs, rfl, hp⟩ | ⟨c, hc, rfl, hp⟩
    · exact Or.inl ⟨s, (mem_sources_cleanUp hh).mpr ⟨hs, Or.inl ⟨pos, hm⟩⟩, rfl, hp⟩
    · exact Or.inr ⟨c, (mem_copies_cleanUp hh).mpr ⟨hc, ⟨pos, hm⟩⟩, rfl, hp⟩
  · intro c hc r hr
    obtain ⟨s, hs, hv, hp⟩ := h.copies_ok c ((mem_copies_cleanUp hh).mp hc).1 r hr
    refine ⟨s, (mem_sources_cleanUp hh).mpr ⟨hs, Or.inr ⟨c, hc, r.2, ?_⟩⟩, hv, hp⟩
    rwa [← hv]
  · exact fun c hc => ((mem_copies_cleanUp hh).mp hc).2
  · exact fun s hs => ((mem_sources_cleanUp hh).mp hs).2

/-- Clean-up leaves a tidy queue as it is. -/
theorem Tidy.cleanUp_eq (h : q.Tidy) (hh : ∀ run ∈ q.history, 0 < run.span.len) :
    q.cleanUp = q := by
  have hc : q.cleanUp.copies = q.copies := by
    refine List.filter_eq_self.mpr fun c hc => ?_
    rw [decide_eq_true_eq, mem_usedKeys hh]
    exact h.copies_used c hc
  have hs : q.cleanUp.sources = q.sources := by
    refine List.filter_eq_self.mpr fun s hs => ?_
    rw [decide_eq_true_eq, mem_foldl_addKeys, mem_usedKeys hh]
    have := h.sources_used s hs
    rwa [← hc] at this
  calc q.cleanUp = { q with copies := q.cleanUp.copies, sources := q.cleanUp.sources } := rfl
    _ = q := by rw [hc, hs]

/-! ### Changing what is referred to -/

/-- A step that refers to nothing new but rows of the sources and copies it adds. -/
theorem Grounded.extend {q' : QueueState} (h : q.Grounded) {ss : List Source}
    {cs : List QueueCopy} (hs : q'.sources = q.sources ++ ss) (hc : q'.copies = q.copies ++ cs)
    (hkeys : (q'.sources.map (·.key) ++ q'.copies.map (·.key)).Nodup)
    (hm : ∀ key pos, (View.key key, pos) ∈ q'.mentioned →
      (View.key key, pos) ∈ q.mentioned ∨ (∃ s ∈ ss, s.key = key ∧ pos < s.length) ∨
        ∃ c ∈ cs, c.key = key ∧ pos < c.of.len)
    (hcs : ∀ c ∈ cs, ∀ r ∈ c.of.rows, q.NamesSource r) : q'.Grounded := by
  have hsource : ∀ {r}, q.NamesSource r → q'.NamesSource r := by
    rintro r ⟨s, hs', hv, hp⟩
    exact ⟨s, hs ▸ List.mem_append_left _ hs', hv, hp⟩
  refine ⟨hkeys, ?_, ?_⟩
  · intro key pos hmem
    rcases hm key pos hmem with hold | ⟨s, hs', hk, hp⟩ | ⟨c, hc', hk, hp⟩
    · rcases h.named key pos hold with ⟨s, hs', hk, hp⟩ | ⟨c, hc', hk, hp⟩
      · exact Or.inl ⟨s, hs ▸ List.mem_append_left _ hs', hk, hp⟩
      · exact Or.inr ⟨c, hc ▸ List.mem_append_left _ hc', hk, hp⟩
    · exact Or.inl ⟨s, hs ▸ List.mem_append_right _ hs', hk, hp⟩
    · exact Or.inr ⟨c, hc ▸ List.mem_append_right _ hc', hk, hp⟩
  · intro c hc' r hr
    rw [hc, List.mem_append] at hc'
    rcases hc' with hc' | hc'
    · exact hsource (h.copies_ok c hc' r hr)
    · exact hsource (hcs c hc' r hr)

/-- A step that refers to nothing new. -/
theorem Grounded.mono {q' : QueueState} (h : q.Grounded) (hs : q'.sources = q.sources)
    (hc : q'.copies = q.copies)
    (hm : ∀ key pos, (View.key key, pos) ∈ q'.mentioned → (View.key key, pos) ∈ q.mentioned) :
    q'.Grounded :=
  h.extend (hs.trans (List.append_nil _).symm) (hc.trans (List.append_nil _).symm)
    (by rw [hs, hc]; exact h.keys_nodup) (fun k p hp => Or.inl (hm k p hp)) (by simp)

/-- A step after which every view referred to before still is, and what it adds is too. -/
theorem Tidy.extend {q' : QueueState} (h : q.Tidy) {ss : List Source} {cs : List QueueCopy}
    (hs : q'.sources = q.sources ++ ss) (hc : q'.copies = q.copies ++ cs)
    (hm : ∀ key, q.Refers key → q'.Refers key) (hss : ∀ s ∈ ss, q'.Refers s.key)
    (hcs : ∀ c ∈ cs, q'.Refers c.key) : q'.Tidy := by
  refine ⟨?_, ?_⟩
  · intro c hc'
    rw [hc, List.mem_append] at hc'
    rcases hc' with hc' | hc'
    · exact hm _ (h.copies_used c hc')
    · exact hcs c hc'
  · intro s hs'
    rw [hs, List.mem_append] at hs'
    rcases hs' with hs' | hs'
    · rcases h.sources_used s hs' with hr | ⟨c, hc', hp⟩
      · exact Or.inl (hm _ hr)
      · exact Or.inr ⟨c, hc ▸ List.mem_append_left _ hc', hp⟩
    · exact Or.inl (hss s hs')

theorem Tidy.mono {q' : QueueState} (h : q.Tidy) (hs : q'.sources = q.sources)
    (hc : q'.copies = q.copies) (hm : ∀ key, q.Refers key → q'.Refers key) : q'.Tidy :=
  h.extend (hs.trans (List.append_nil _).symm) (hc.trans (List.append_nil _).symm) hm
    (by simp) (by simp)

/-! ### Items and keys -/

/-- An item of the queue is a row the queue refers to. -/
theorem order_mentioned {item : ItemId} (hi : item ∈ q.lists.order) :
    item.row ∈ q.mentioned := by
  rw [← q.order_items] at hi
  obtain ⟨⟨v, p⟩, hr, hv⟩ := List.mem_filterMap.mp hi
  rw [mem_mentioned]
  cases v with
  | key k =>
    obtain rfl : (⟨k, p⟩ : ItemId) = item := by simpa using hv
    exact Or.inr (Or.inr (Or.inl hr))
  | shuffle =>
    obtain ⟨s, hs, hp⟩ := Option.bind_eq_some_iff.mp hv
    rw [Shuffle.item] at hp
    split at hp
    · refine Or.inr (Or.inr (Or.inr (Or.inl (mem_baseRows.2 ⟨s, hs, ?_⟩))))
      exact mem_keyItems.1 (List.mem_of_getElem? hp)
    · cases hp

theorem Readable.manual_mentioned (h : q.Readable) {item : ItemId} (hi : item ∈ q.lists.manual) :
    item.row ∈ q.mentioned := by
  rw [h.manual_items] at hi
  exact mem_mentioned.2 (Or.inr (Or.inl (mem_keyItems.1 hi)))

theorem Readable.upNext_mentioned (h : q.Readable) {item : ItemId} (hi : item ∈ q.lists.upNext) :
    item.row ∈ q.mentioned := by
  rcases List.mem_append.mp hi with hm | ha
  · exact h.manual_mentioned hm
  · exact order_mentioned (List.mem_append_right _ ha)

theorem current_mentioned {item : ItemId} (h : q.current = some item) : item.row ∈ q.mentioned :=
  mem_mentioned.2 (Or.inl ⟨item, h, rfl⟩)

theorem hasKey_iff {key : String} :
    q.hasKey key = true ↔ key ∈ q.sources.map (·.key) ++ q.copies.map (·.key) := by
  simp only [hasKey, source, Bool.or_eq_true, List.find?_isSome, List.any_eq_true,
    decide_eq_true_eq, List.mem_append, List.mem_map]

/-- A key in use by no source or copy is read by no row. -/
theorem Grounded.fresh (h : q.Grounded) {key : String} (hk : q.hasKey key = false) {pos : Nat} :
    (View.key key, pos) ∉ q.mentioned := by
  intro hm
  have : q.hasKey key = true := by
    rw [hasKey_iff, List.mem_append, List.mem_map, List.mem_map]
    rcases h.named key pos hm with ⟨s, hs, rfl, -⟩ | ⟨c, hc, rfl, -⟩
    · exact Or.inl ⟨s, hs, rfl⟩
    · exact Or.inr ⟨c, hc, rfl⟩
  rw [hk] at this
  cases this

theorem nodup_snoc_source (h : q.Grounded) {s : Source} (hk : q.hasKey s.key = false) :
    ((q.sources ++ [s]).map (·.key) ++ q.copies.map (·.key)).Nodup := by
  have hnot : s.key ∉ q.sources.map (·.key) ++ q.copies.map (·.key) := by
    rw [← hasKey_iff, hk]
    simp
  have hperm : ((q.sources ++ [s]).map (·.key) ++ q.copies.map (·.key)).Perm
      (s.key :: (q.sources.map (·.key) ++ q.copies.map (·.key))) := by
    simp [List.perm_middle]
  exact hperm.nodup_iff.mpr (List.nodup_cons.mpr ⟨hnot, h.keys_nodup⟩)

theorem nodup_snoc_copy (h : q.Grounded) {c : QueueCopy} (hk : q.hasKey c.key = false) :
    (q.sources.map (·.key) ++ (q.copies ++ [c]).map (·.key)).Nodup := by
  have hnot : c.key ∉ q.sources.map (·.key) ++ q.copies.map (·.key) := by
    rw [← hasKey_iff, hk]
    simp
  rw [List.map_append, ← List.append_assoc]
  refine List.nodup_append.mpr ⟨h.keys_nodup, by simp, ?_⟩
  rintro a ha b hb rfl
  obtain rfl : a = c.key := by simpa using hb
  exact hnot ha

/-- The copy of a key, when there is one. -/
theorem Grounded.copy_eq (h : q.Grounded) {c : QueueCopy} (hc : c ∈ q.copies) :
    q.copy c.key = some c := by
  have hn := (List.nodup_append.mp h.keys_nodup).2.1
  have hf : (q.copies.find? (·.key = c.key)).isSome := by
    rw [List.find?_isSome]
    exact ⟨c, hc, by simp⟩
  obtain ⟨c', hc'⟩ := Option.isSome_iff_exists.mp hf
  have hmem := List.mem_of_find?_eq_some hc'
  have hkey : c'.key = c.key := by simpa using List.find?_some hc'
  rw [copy, hc', List.inj_on_of_nodup_map hn hmem hc hkey]

/-- **A flattened copy of named positions** reads sources only, as many rows as were named. -/
theorem Grounded.sourceRange (h : q.Grounded) {key : String} {start len : Nat}
    (hn : ∀ pos, start ≤ pos → pos < start + len → q.Names key pos) :
    (∀ r ∈ rowsOf (q.sourceRange key start len), q.NamesSource r) ∧
      (rowsOf (q.sourceRange key start len)).length = len := by
  unfold QueueState.sourceRange
  cases hc : q.copy key with
  | some c =>
    have hmem := List.mem_of_find?_eq_some hc
    have hkey : c.key = key := by simpa using List.find?_some hc
    have hbound : ∀ pos, start ≤ pos → pos < start + len → pos < c.of.len := by
      intro pos hlo hhi
      rcases hn pos hlo hhi with ⟨s, hs, hk, -⟩ | ⟨c', hc', hk, hp⟩
      · have hne := (List.nodup_append.mp h.keys_nodup).2.2 s.key
          (List.mem_map.mpr ⟨s, hs, rfl⟩) c.key (List.mem_map.mpr ⟨c, hmem, rfl⟩)
        exact absurd (hk.trans hkey.symm) hne
      · have := h.copy_eq hc'
        rw [hk, hc, Option.some.injEq] at this
        rwa [this]
    simp only [SpanList.rows_slice]
    refine ⟨fun r hr => h.copies_ok c hmem r
      (List.mem_of_mem_take (List.mem_of_mem_drop hr)), ?_⟩
    rw [List.length_drop, List.length_take]
    by_cases hl : len = 0
    · omega
    · have := hbound (start + len - 1) (by omega) (by omega)
      rw [SpanList.len_eq] at this
      omega
  | none =>
    simp only [rowsOf_cons, rowsOf_nil, List.append_nil, Stretch.length_rows, Span.len_eq, and_true]
    rintro ⟨v, p⟩ hr
    rw [Span.mem_rows] at hr
    obtain ⟨rfl, hlo, hhi⟩ := hr
    rcases hn p hlo hhi with ⟨s, hs, rfl, hp⟩ | ⟨c, hc', rfl, -⟩
    · exact ⟨s, hs, rfl, hp⟩
    · rw [h.copy_eq hc'] at hc
      cases hc

end QueueState

end JewelCase.Queue

/-!
## Valid queues

The whole invariant of a queue: rows and items are where they may be, plays are numbered in
order, nothing dangles and nothing is left over. Each edit is shown to keep it, and to keep
play numbers, in the modules that follow.
-/
namespace JewelCase.Queue

set_option autoImplicit false

open Library (Stretch)
open Library.Lists

namespace QueueState

/-- What holds of a queue between edits. -/
structure Valid (q : QueueState) : Prop where
  placed : q.Placed
  numbered : q.Numbered
  grounded : q.Grounded
  tidy : q.Tidy

/-- What an edit keeps: a valid queue, and its play numbers. -/
structure Keeps (q q' : QueueState) : Prop where
  valid : q'.Valid
  plays : PlaysKept q q'

theorem Valid.keeps {q : QueueState} (h : q.Valid) : Keeps q q := ⟨h, PlaysKept.refl q⟩

theorem Valid.runs_pos {q : QueueState} (h : q.Valid) : ∀ run ∈ q.history, 0 < run.span.len :=
  h.numbered.canonical.1

theorem default_valid : default.Valid := by
  refine ⟨⟨⟨Nat.le_refl 0, ?_, ?_, ?_⟩, ⟨List.nodup_nil, List.nodup_nil, ?_⟩⟩,
    ⟨Stretch.canonical_nil, List.Pairwise.nil, ?_, ?_, Nat.zero_le _⟩,
    ⟨List.nodup_nil, ?_, ?_⟩, ⟨?_, ?_⟩⟩ <;>
    simp [default, KeyRows, Defined, plays, playRows, mentioned, baseRows, lists]

/-- A state with the same rows, items and shuffle. -/
theorem Placed.of_eq {q q' : QueueState} (h : q.Placed) (hm : q'.manual = q.manual)
    (ho : q'.order = q.order) (hc : q'.cursor = q.cursor) (hcur : q'.current = q.current)
    (hs : q'.shuffle = q.shuffle) : q'.Placed := by
  obtain ⟨⟨h1, h2, h3, h4⟩, h5⟩ := h
  have hl : q'.lists = q.lists := by rw [lists, lists, hm, ho, hc, hcur, hs]
  exact ⟨⟨by rwa [hc, ho], by rwa [hm], by rwa [hs], by rwa [hs, ho]⟩, hl ▸ h5⟩

/-- An edit that ends with clean-up need only leave the queue grounded. -/
theorem keeps_cleanUp {q q' : QueueState} (hp : q'.Placed) (hn : q'.Numbered)
    (hg : q'.Grounded) (hk : PlaysKept q q') : Keeps q q'.cleanUp := by
  obtain ⟨hg', ht⟩ := hg.cleanUp hn.canonical.1
  exact ⟨⟨hp.of_eq rfl rfl rfl rfl rfl, hn.of_eq rfl rfl, hg', ht⟩, hk.trans (.of_eq rfl rfl)⟩

/-- Setting a field that no part of the invariant reads. -/
theorem Valid.of_eq {q q' : QueueState} (h : q.Valid) (hsrc : q'.sources = q.sources)
    (hcop : q'.copies = q.copies) (hm : q'.manual = q.manual) (ho : q'.order = q.order)
    (hc : q'.cursor = q.cursor) (hcur : q'.current = q.current) (hh : q'.history = q.history)
    (hn : q'.nextPlay = q.nextPlay) (hs : q'.shuffle = q.shuffle) : Keeps q q' := by
  have hment : q'.mentioned = q.mentioned := by
    simp only [mentioned, baseRows, playRows, plays, hm, ho, hcur, hh, hs]
  refine ⟨⟨h.placed.of_eq hm ho hc hcur hs, h.numbered.of_eq hh hn, ?_, ?_⟩, .of_eq hh hn⟩
  · exact h.grounded.mono hsrc hcop fun _ _ hp => hment ▸ hp
  · exact h.tidy.mono hsrc hcop fun _ hr => hr.imp fun _ hp => hment.symm ▸ hp

/-! ### Starting -/

theorem rows_whole (key : String) (length : Nat) :
    (SpanList.fromSpans [⟨.key key, 0, length⟩]).rows =
      (List.range' 0 length).map fun p => (View.key key, p) := by
  rw [SpanList.rows_fromSpans, rowsOf_cons, rowsOf_nil, List.append_nil, Span.rows_eq]

theorem keys_whole (key : String) (ps : List Nat) :
    KeyRows (ps.map fun p => (View.key key, p)) := by
  intro r hr
  obtain ⟨p, -, rfl⟩ := List.mem_map.mp hr
  simp

theorem items_whole (shuffle : Option Shuffle) (key : String) (ps : List Nat) :
    itemsOf shuffle (ps.map fun p => (View.key key, p)) = ps.map fun p => ⟨key, p⟩ := by
  rw [itemsOf, List.filterMap_map, ← List.filterMap_eq_map]
  rfl

/-- A start leaves a valid queue: the old one where it is refused, a new one where it is not. -/
theorem Valid.start {q : QueueState} (h : q.Valid) (source : Source) (position : Nat) :
    (q.start source position).2.Valid := by
  unfold QueueState.start
  by_cases hk : q.hasKey source.key = true
  · rwa [if_pos hk]
  rw [if_neg hk]
  by_cases hp : position ≥ source.length
  · rwa [if_pos hp]
  rw [if_neg hp]
  have hrows := rows_whole source.key source.length
  have hnodup : ((List.range' 0 source.length).map fun p => (⟨source.key, p⟩ : ItemId)).Nodup :=
    List.Nodup.map (fun a b hab => by simpa using hab) (List.nodup_range' ..)
  have hitems := items_whole none source.key (List.range' 0 source.length)
  have hcur : ∀ it ∈ ((List.range' 0 source.length).drop (position + 1)).map
      fun p => (⟨source.key, p⟩ : ItemId), it ≠ ⟨source.key, position⟩ := by
    intro it hit he
    obtain ⟨p, hpm, rfl⟩ := List.mem_map.mp hit
    rw [List.drop_range', List.mem_range'_1] at hpm
    simp only [ItemId.mk.injEq, true_and] at he
    omega
  refine ⟨⟨⟨?_, ?_, ?_, ?_⟩, ⟨?_, ?_, ?_⟩⟩,
    ⟨Stretch.canonical_nil, List.Pairwise.nil, ?_, ?_, Nat.zero_le _⟩,
    ⟨?_, ?_, ?_⟩, ⟨?_, ?_⟩⟩
  · simp only [hrows, List.length_map, List.length_range']
    omega
  · simp [default, KeyRows]
  · simp [default]
  · simp only [hrows]
    exact (keys_whole _ _).total_rowItem _
  · simp only [← order_items, hrows, default]
    rw [hitems]
    exact hnodup
  · simp only [Lists.upNext, lists, default, SpanList.rows_empty, itemsOf_nil, List.nil_append,
      hrows, ← List.map_drop]
    rw [items_whole]
    exact hnodup.sublist ((List.drop_sublist _ _).map _)
  · intro it hit hm
    simp only [Lists.upNext, lists, default, SpanList.rows_empty, itemsOf_nil, List.nil_append,
      hrows, ← List.map_drop] at hit hm
    rw [items_whole] at hm
    exact hcur it hm (by simpa using hit.symm)
  · simp [default, plays]
  · simp [default, playRows, plays, KeyRows]
  · simp [default]
  · intro key pos hm
    left
    rw [mem_mentioned] at hm
    simp only [hrows, default, SpanList.rows_empty, List.not_mem_nil, baseRows, Option.elim_none,
      playRows, plays, Stretch.flat_nil, List.map_nil, or_false, false_or, List.mem_map,
      List.mem_range'_1] at hm
    refine ⟨source, by simp, ?_⟩
    rcases hm with ⟨it, hit, he⟩ | ⟨p, hp', he⟩
    · obtain rfl : _ = it := by simpa using hit
      simp only [ItemId.row, ItemId.view, Prod.mk.injEq, View.key.injEq] at he
      exact ⟨he.1.symm, by omega⟩
    · simp only [Prod.mk.injEq, View.key.injEq] at he
      exact ⟨he.1, by omega⟩
  · simp [default]
  · simp [default]
  · intro s hs
    obtain rfl : s = source := by simpa using hs
    exact Or.inl ⟨position, mem_mentioned.2 (Or.inl ⟨_, rfl, rfl⟩)⟩

end QueueState

end JewelCase.Queue
