import JewelCase.Queue.BackEdits
import JewelCase.Queue.WalkBack

/-!
# Rewinding

Rewind, put together: what phase 1 leaves is cut into copied and uncopied parts, and the queue
built from them is the lists stepped back once for each play, with one copy for all of them.
-/
namespace JewelCase.Queue

set_option autoImplicit false

open Library (Stretch)
open Library.Lists

/-! ### Naming the copies -/

/-- The plays that become copies. -/
def copied (ms : List (ItemId × Bool)) : List ItemId := (ms.filter (·.2)).map (·.1)

@[simp] theorem copied_append (as bs : List (ItemId × Bool)) :
    copied (as ++ bs) = copied as ++ copied bs := by simp [copied]

theorem length_copied_le (ms : List (ItemId × Bool)) : (copied ms).length ≤ ms.length := by
  rw [copied, List.length_map]
  exact List.length_filter_le ..

/-- The items marked plays become, in the order heard, where the copies are positions of `key`
from `n` on. -/
def namedFrom (key : String) : Nat → List (ItemId × Bool) → List ItemId
  | _, [] => []
  | n, (w, copy) :: ms =>
    if copy then ⟨key, n⟩ :: namedFrom key (n + 1) ms else w :: namedFrom key n ms

theorem namedFrom_append (key : String) (n : Nat) (as bs : List (ItemId × Bool)) :
    namedFrom key n (as ++ bs) = namedFrom key n as ++ namedFrom key (n + (copied as).length) bs := by
  induction as generalizing n with
  | nil => simp [namedFrom, copied]
  | cons m as ih =>
    obtain ⟨w, copy⟩ := m
    cases copy with
    | true => simp [namedFrom, copied, ih, Nat.add_assoc, Nat.add_comm 1]
    | false => simp [namedFrom, copied, ih]

@[simp] theorem length_namedFrom (key : String) (n : Nat) (ms : List (ItemId × Bool)) :
    (namedFrom key n ms).length = ms.length := by
  induction ms generalizing n with
  | nil => rfl
  | cons m ms ih =>
    obtain ⟨w, copy⟩ := m
    cases copy <;> simp [namedFrom, ih]

/-- Plays none of which is copied stay as they are. -/
theorem namedFrom_uncopied (key : String) (n : Nat) (ws : List ItemId) :
    namedFrom key n (ws.map (·, false)) = ws := by
  induction ws with
  | nil => rfl
  | cons w ws ih => simp [namedFrom, ih]

theorem copied_uncopied (ws : List ItemId) : copied (ws.map (·, false)) = [] := by
  rw [copied, List.filter_eq_nil_iff.mpr, List.map_nil]
  intro m hm
  obtain ⟨w, -, rfl⟩ := List.mem_map.mp hm
  exact Bool.false_ne_true

/-- What marked plays become: those not marked themselves, and positions of the copy. -/
theorem mem_namedFrom {key : String} {n : Nat} {ms : List (ItemId × Bool)} {it : ItemId}
    (h : it ∈ namedFrom key n ms) : (it, false) ∈ ms ∨
      (it.key = key ∧ n ≤ it.pos ∧ it.pos < n + (copied ms).length) := by
  induction ms generalizing n with
  | nil => cases h
  | cons m ms ih =>
    obtain ⟨w, copy⟩ := m
    have hc : copied ((w, copy) :: ms) = copied [(w, copy)] ++ copied ms := copied_append [_] ms
    rw [hc, List.length_append]
    cases copy with
    | true =>
      rw [namedFrom, if_pos rfl, List.mem_cons] at h
      have hone : (copied [(w, true)]).length = 1 := rfl
      rcases h with rfl | h
      · exact Or.inr ⟨rfl, Nat.le_refl _, by simp only; omega⟩
      · rcases ih h with h | ⟨hk, hlo, hhi⟩
        · exact Or.inl (List.mem_cons_of_mem _ h)
        · exact Or.inr ⟨hk, by omega, by omega⟩
    | false =>
      rw [namedFrom, if_neg Bool.false_ne_true, List.mem_cons] at h
      rcases h with rfl | h
      · exact Or.inl (List.mem_cons_self ..)
      · rcases ih h with h | ⟨hk, hlo, hhi⟩
        · exact Or.inl (List.mem_cons_of_mem _ h)
        · exact Or.inr ⟨hk, hlo, by omega⟩

/-- Every play not marked stays, and the copy's positions are all there. -/
theorem namedFrom_mem {key : String} {n : Nat} {ms : List (ItemId × Bool)} :
    (∀ w, (w, false) ∈ ms → w ∈ namedFrom key n ms) ∧
      ∀ j < (copied ms).length, ⟨key, n + j⟩ ∈ namedFrom key n ms := by
  induction ms generalizing n with
  | nil => simp [copied]
  | cons m ms ih =>
    obtain ⟨w, copy⟩ := m
    have hc : copied ((w, copy) :: ms) = copied [(w, copy)] ++ copied ms := copied_append [_] ms
    rw [hc, List.length_append]
    cases copy with
    | true =>
      have hone : (copied [(w, true)]).length = 1 := rfl
      obtain ⟨ih1, ih2⟩ := ih (n := n + 1)
      rw [namedFrom, if_pos rfl, hone]
      refine ⟨fun v hv => ?_, fun j hj => ?_⟩
      · rcases List.mem_cons.mp hv with he | hv
        · simp at he
        · exact List.mem_cons_of_mem _ (ih1 v hv)
      · cases j with
        | zero => exact List.mem_cons_self ..
        | succ j =>
          refine List.mem_cons_of_mem _ ?_
          rw [show n + (j + 1) = n + 1 + j by omega]
          exact ih2 j (by omega)
    | false =>
      obtain ⟨ih1, ih2⟩ := ih (n := n)
      have hzero : (copied [(w, false)]).length = 0 := rfl
      rw [namedFrom, if_neg Bool.false_ne_true, hzero, Nat.zero_add]
      refine ⟨fun v hv => ?_, fun j hj => List.mem_cons_of_mem _ (ih2 j hj)⟩
      rcases List.mem_cons.mp hv with he | hv
      · obtain ⟨rfl, -⟩ := Prod.mk.inj he
        exact List.mem_cons_self ..
      · exact List.mem_cons_of_mem _ (ih1 v hv)

/-- A name for each play, newest first: its position in the copy if it is copied, and one past
the copy if it is not. -/
def copyNames (key : String) (past : Nat) : List (ItemId × Bool) → List ItemId
  | [] => []
  | (_, copy) :: ms =>
    ⟨key, if copy then (copied ms).length else past + ms.length⟩ :: copyNames key past ms

@[simp] theorem length_copyNames (key : String) (past : Nat) (ms : List (ItemId × Bool)) :
    (copyNames key past ms).length = ms.length := by
  induction ms with
  | nil => rfl
  | cons m ms ih => simp [copyNames, ih]

theorem mem_copyNames {key : String} {past : Nat} {ms : List (ItemId × Bool)} {it : ItemId}
    (h : it ∈ copyNames key past ms) : it.key = key ∧
      (it.pos < (copied ms).length ∨ (past ≤ it.pos ∧ it.pos < past + ms.length)) := by
  induction ms with
  | nil => cases h
  | cons m ms ih =>
    obtain ⟨w, copy⟩ := m
    rcases List.mem_cons.mp h with rfl | h
    · cases copy with
      | true => exact ⟨rfl, Or.inl (by simp [copied])⟩
      | false => exact ⟨rfl, Or.inr (by simp)⟩
    · obtain ⟨hk, hp⟩ := ih h
      refine ⟨hk, hp.imp (fun hp => ?_) fun hp => ⟨hp.1, ?_⟩⟩
      · have : copied ((w, copy) :: ms) = copied [(w, copy)] ++ copied ms := copied_append [_] ms
        rw [this, List.length_append]
        omega
      · rw [List.length_cons]
        omega

theorem copyNames_nodup {key : String} {past : Nat} {ms : List (ItemId × Bool)}
    (h : ms.length ≤ past) : (copyNames key past ms).Nodup := by
  induction ms with
  | nil => exact List.nodup_nil
  | cons m ms ih =>
    obtain ⟨w, copy⟩ := m
    rw [List.length_cons] at h
    refine List.nodup_cons.mpr ⟨fun hm => ?_, ih (by omega)⟩
    have hp := (mem_copyNames hm).2
    have hle := length_copied_le ms
    cases copy with
    | true =>
      simp only [if_true] at hp
      omega
    | false =>
      simp only [Bool.false_eq_true, if_false] at hp
      omega

/-- Naming newest first gives what naming in the order heard gives. -/
theorem named_copyNames (key : String) (past : Nat) (ms : List (ItemId × Bool)) :
    named ms (copyNames key past ms) = (namedFrom key 0 ms.reverse).reverse := by
  induction ms with
  | nil => rfl
  | cons m ms ih =>
    obtain ⟨w, copy⟩ := m
    have hrev : (copied ms.reverse).length = (copied ms).length := by
      simp [copied, List.filter_reverse]
    rw [copyNames, named, ih, List.reverse_cons, namedFrom_append, hrev, Nat.zero_add,
      List.reverse_append]
    cases copy <;> rfl

/-! ### Building the queue -/

theorem namedFrom_marks (key : String) (n : Nat) (part : Piece) :
    namedFrom key n part.marks =
        (Piece.items ⟨if part.copy then key else part.key, if part.copy then n else part.start,
          part.len, part.copy⟩) ∧
      copied part.marks = if part.copy then part.items else [] := by
  obtain ⟨k, start, len, copy⟩ := part
  cases copy with
  | true =>
    simp only [if_true, Piece.marks, Piece.items, List.map_map]
    refine ⟨?_, ?_⟩
    · induction len generalizing n start with
      | zero => rfl
      | succ len ih =>
        rw [List.range'_succ, List.range'_succ, List.map_cons, List.map_cons, ← ih (n + 1)]
        rfl
    · rw [copied, List.filter_eq_self.mpr, List.map_map]
      · rfl
      · intro m hm
        obtain ⟨p, -, rfl⟩ := List.mem_map.mp hm
        rfl
  | false =>
    simp only [Bool.false_eq_true, if_false, Piece.marks, Piece.items, List.map_map]
    refine ⟨?_, ?_⟩
    · induction len generalizing start with
      | zero => rfl
      | succ len ih =>
        rw [List.range'_succ, List.map_cons, List.map_cons, ← ih (start + 1)]
        rfl
    · rw [copied, List.filter_eq_nil_iff.mpr, List.map_nil]
      intro m hm
      obtain ⟨p, -, rfl⟩ := List.mem_map.mp hm
      simp

theorem rows_piece_span (key : String) (start len : Nat) (copy : Bool) :
    rowsOf [⟨.key key, start, len⟩] = (Piece.items ⟨key, start, len, copy⟩).map ItemId.row := by
  rw [rowsOf_cons, rowsOf_nil, List.append_nil, Span.rows_eq, Piece.items, List.map_map]
  rfl

namespace QueueState

variable {q : QueueState}

/-- A flattened copy of a range is the flattened copies of its positions. -/
theorem rows_sourceRange (q : QueueState) (key : String) (start len : Nat) :
    rowsOf (q.sourceRange key start len) =
      (List.range' start len).flatMap fun p => rowsOf (q.sourceRange key p 1) := by
  unfold sourceRange
  cases q.copy key with
  | none =>
    simp only [rowsOf_cons, rowsOf_nil, List.append_nil, Span.rows_eq]
    induction len generalizing start with
    | zero => rfl
    | succ len ih =>
      rw [List.range'_succ, List.map_cons, List.flatMap_cons, ih]
      rfl
  | some c =>
    simp only [SpanList.rows_slice]
    exact slice_flatMap c.of.rows start len

/-- The rows the copy of some plays is made of. -/
def copyRows (q : QueueState) (items : List ItemId) : List Row :=
  items.flatMap fun it => rowsOf (q.sourceSpans it)

theorem rows_piece_source (q : QueueState) (p : Piece) :
    rowsOf (q.sourceRange p.key p.start p.len) = q.copyRows p.items := by
  rw [rows_sourceRange, copyRows, Piece.items, List.flatMap_map]
  rfl

/-- One part of what is built, after the first. -/
theorem buildPart_spec (q : QueueState) (key : String) (built : Built) {part : Piece} {n : Nat}
    (hn : 0 < n) (hpos : 0 < part.len) :
    let r := q.buildPart key built part n
    rowsOf r.of = rowsOf built.of ++ q.copyRows (copied part.marks) ∧
      r.copyLen = built.copyLen + (copied part.marks).length ∧
      rowsOf r.queued = rowsOf built.queued ++
        (namedFrom key built.copyLen part.marks).map ItemId.row ∧
      r.playing = built.playing := by
  obtain ⟨hnamed, hcopied⟩ := namedFrom_marks key built.copyLen part
  have hlen : part.items.length = part.len := by simp [Piece.items]
  have hspan := rows_piece_span (if part.copy then key else part.key)
    (if part.copy then built.copyLen else part.start) part.len part.copy
  simp only [buildPart, if_neg (Nat.ne_of_gt hn), Nat.add_zero, Nat.sub_zero, if_pos hpos, hcopied,
    hnamed, rowsOf_append, hspan]
  cases part.copy with
  | true =>
    simp only [if_true, rowsOf_append, rows_piece_source, hlen]
    exact ⟨trivial, trivial, trivial, trivial⟩
  | false =>
    simp only [Bool.false_eq_true, if_false, copyRows, List.flatMap_nil, List.append_nil,
      List.length_nil, Nat.add_zero]
    exact ⟨trivial, trivial, trivial, trivial⟩

theorem foldl_buildPart (q : QueueState) (key : String) (parts : List Piece)
    (hpos : ∀ p ∈ parts, 0 < p.len) {n : Nat} (hn : 0 < n) (built : Built) :
    let r := (parts.zipIdx n).foldl (fun built (part, n) => q.buildPart key built part n) built
    rowsOf r.of = rowsOf built.of ++ q.copyRows (copied (parts.flatMap Piece.marks)) ∧
      rowsOf r.queued = rowsOf built.queued ++
        (namedFrom key built.copyLen (parts.flatMap Piece.marks)).map ItemId.row ∧
      r.playing = built.playing := by
  induction parts generalizing n built with
  | nil => simp [copied, copyRows, namedFrom]
  | cons part parts ih =>
    obtain ⟨h1, h2, h3, h4⟩ := q.buildPart_spec key built hn (hpos part (by simp))
    obtain ⟨i1, i2, i3⟩ := ih (fun p hp => hpos p (List.mem_cons_of_mem _ hp)) (Nat.succ_pos n)
      (q.buildPart key built part n)
    simp only [List.zipIdx_cons, List.foldl_cons, List.flatMap_cons, namedFrom_append,
      copied_append]
    refine ⟨?_, ?_, i3.trans h4⟩
    · rw [i1, h1, List.append_assoc, copyRows, copyRows, copyRows, List.flatMap_append]
    · rw [i2, h3, h2, List.append_assoc, List.map_append]

/-- The first part: its first item is the one that plays. -/
theorem buildPart_first (q : QueueState) (key : String) {part : Piece} (hpos : 0 < part.len) :
    let r := q.buildPart key ⟨[], 0, [], none⟩ part 0
    rowsOf r.of = q.copyRows (copied part.marks) ∧
      r.copyLen = (copied part.marks).length ∧
      ∃ it its, namedFrom key 0 part.marks = it :: its ∧ r.playing = some it ∧
        rowsOf r.queued = its.map ItemId.row := by
  obtain ⟨hnamed, hcopied⟩ := namedFrom_marks key 0 part
  have hlen : part.items.length = part.len := by simp [Piece.items]
  obtain ⟨len, hl⟩ : ∃ len, part.len = len + 1 := ⟨part.len - 1, by omega⟩
  have hitems : ∀ (k : String) (s : Nat) (c : Bool), Piece.items ⟨k, s, part.len, c⟩ =
      ⟨k, s⟩ :: Piece.items ⟨k, s + 1, len, c⟩ := by
    intro k s c
    rw [Piece.items, Piece.items, hl, List.range'_succ, List.map_cons]
  have hqueued : ∀ (k : String) (s : Nat) (c : Bool),
      rowsOf (if part.len > 1 then [⟨.key k, s + 1, part.len - 1⟩] else []) =
        (Piece.items ⟨k, s + 1, len, c⟩).map ItemId.row := by
    intro k s c
    rw [← rows_piece_span, hl, Nat.add_sub_cancel]
    cases len with
    | zero => rfl
    | succ len => rw [if_pos (by omega)]
  refine ⟨?_, ?_, _, _, hnamed.trans (hitems ..), rfl, ?_⟩
  · rw [hcopied]
    cases hc : part.copy with
    | true => simp [buildPart, hc, rows_piece_source]
    | false => simp [buildPart, hc, copyRows]
  · rw [hcopied]
    cases hc : part.copy with
    | true => simp [buildPart, hc, hlen]
    | false => simp [buildPart, hc]
  · rw [← hqueued]
    simp only [buildPart, if_true, List.nil_append]

/-- What a rewind builds of its parts. -/
def builtOf (q : QueueState) (key : String) (parts : List Piece) : Built :=
  parts.zipIdx.foldl (fun built (part, n) => q.buildPart key built part n) ⟨[], 0, [], none⟩

/-- **What is built**: the first item heard plays, the others are queued in order, and the copy
is made of the rows of those copied. -/
theorem built_spec (q : QueueState) (key : String) {parts : List Piece}
    (hpos : ∀ p ∈ parts, 0 < p.len) :
    let r := q.builtOf key parts
    let ms := parts.flatMap Piece.marks
    rowsOf r.of = q.copyRows (copied ms) ∧
      rowsOf r.queued = (namedFrom key 0 ms).tail.map ItemId.row ∧
      r.playing = (namedFrom key 0 ms).head? := by
  cases parts with
  | nil => exact ⟨rfl, rfl, rfl⟩
  | cons part parts =>
    obtain ⟨f1, f2, it, its, hnamed, f3, f4⟩ := q.buildPart_first key (hpos part (by simp))
    obtain ⟨i1, i2, i3⟩ := q.foldl_buildPart key parts
      (fun p hp => hpos p (List.mem_cons_of_mem _ hp)) Nat.one_pos
      (q.buildPart key ⟨[], 0, [], none⟩ part 0)
    simp only [builtOf, List.zipIdx_cons, List.foldl_cons, List.flatMap_cons, copied_append,
      namedFrom_append, Nat.zero_add]
    refine ⟨?_, ?_, ?_⟩
    · rw [i1, f1, copyRows, copyRows, copyRows, List.flatMap_append]
    · rw [i2, f2, f4, hnamed, List.cons_append, List.tail_cons, List.map_append]
    · rw [i3, f3, hnamed, List.cons_append, List.head?_cons]

end QueueState

end JewelCase.Queue
