import JewelCase.Queue.Model

/-!
# Stepping back, many times

What repeated steps back make of the lists, in closed form: each play is a copy exactly when Up
Next, the item that was playing or a newer play already has its item, and the cursor goes back
over the rows passed for as long as they are what is put back. Going back in bulk is measured
against this.
-/
namespace JewelCase.Queue

set_option autoImplicit false

open Library.Lists

/-! ### Which plays become copies -/

/-- Plays taken newest first, each marked by whether it is held or was taken before. -/
def markBack (held : ItemId → Bool) : List ItemId → List (ItemId × Bool)
  | [] => []
  | w :: ws => (w, held w) :: markBack (fun it => held it || decide (it = w)) ws

theorem markBack_nil (held : ItemId → Bool) : markBack held [] = [] := rfl

theorem markBack_cons (held : ItemId → Bool) (w : ItemId) (ws : List ItemId) :
    markBack held (w :: ws) =
      (w, held w) :: markBack (fun it => held it || decide (it = w)) ws := rfl

theorem markBack_congr {held held' : ItemId → Bool} {ws : List ItemId}
    (h : ∀ w ∈ ws, held w = held' w) : markBack held ws = markBack held' ws := by
  induction ws generalizing held held' with
  | nil => rfl
  | cons w ws ih =>
    rw [markBack_cons, markBack_cons, h w (by simp)]
    congr 1
    refine ih fun v hv => ?_
    rw [h v (List.mem_cons_of_mem _ hv)]

theorem markBack_append (held : ItemId → Bool) (as bs : List ItemId) :
    markBack held (as ++ bs) =
      markBack held as ++ markBack (fun it => held it || decide (it ∈ as)) bs := by
  induction as generalizing held with
  | nil => simp [markBack_nil]
  | cons a as ih =>
    rw [List.cons_append, markBack_cons, markBack_cons, ih, List.cons_append]
    congr 2
    refine markBack_congr fun b _ => ?_
    simp [Bool.or_assoc]

/-- Distinct plays are marked by what is held. -/
theorem markBack_nodup (held : ItemId → Bool) {ws : List ItemId} (h : ws.Nodup) :
    markBack held ws = ws.map fun w => (w, held w) := by
  induction ws generalizing held with
  | nil => rfl
  | cons w ws ih =>
    rw [List.nodup_cons] at h
    rw [markBack_cons, ih _ h.2, List.map_cons]
    congr 1
    refine List.map_congr_left fun v hv => ?_
    have hne : v ≠ w := fun he => h.1 (he ▸ hv)
    simp [hne]

@[simp] theorem length_markBack (held : ItemId → Bool) (ws : List ItemId) :
    (markBack held ws).length = ws.length := by
  induction ws generalizing held with
  | nil => rfl
  | cons w ws ih => rw [markBack_cons, List.length_cons, ih, List.length_cons]

theorem markBack_fst (held : ItemId → Bool) (ws : List ItemId) :
    (markBack held ws).map Prod.fst = ws := by
  induction ws generalizing held with
  | nil => rfl
  | cons w ws ih => rw [markBack_cons, List.map_cons, ih]

/-- A play is held, or marked as not held where it is taken first. -/
theorem mem_markBack {held : ItemId → Bool} {ws : List ItemId} {w : ItemId} (h : w ∈ ws) :
    held w = true ∨ (w, false) ∈ markBack held ws := by
  induction ws generalizing held with
  | nil => cases h
  | cons v vs ih =>
    rw [markBack_cons, List.mem_cons]
    have hhead : w = v → held w = true ∨ (w, false) = (v, held v) ∨
        (w, false) ∈ markBack (fun it => held it || decide (it = v)) vs := by
      rintro rfl
      cases hw : held w with
      | true => exact Or.inl rfl
      | false => exact Or.inr (Or.inl rfl)
    rcases List.mem_cons.mp h with hv | hm
    · exact hhead hv
    · rcases @ih (fun it => held it || decide (it = v)) hm with hh | hh
      · rw [Bool.or_eq_true, decide_eq_true_eq] at hh
        exact hh.elim Or.inl hhead
      · exact Or.inr (Or.inr hh)

/-- The items that marked plays become: those marked become the names given. -/
def named : List (ItemId × Bool) → List ItemId → List ItemId
  | (w, copied) :: ms, f :: fs => (if copied then f else w) :: named ms fs
  | _, _ => []

theorem named_nil (fs : List ItemId) : named [] fs = [] := rfl

theorem named_cons (w : ItemId) (copied : Bool) (ms : List (ItemId × Bool)) (f : ItemId)
    (fs : List ItemId) :
    named ((w, copied) :: ms) (f :: fs) = (if copied then f else w) :: named ms fs := rfl

theorem length_named {ms : List (ItemId × Bool)} {fs : List ItemId} (h : fs.length = ms.length) :
    (named ms fs).length = ms.length := by
  induction ms generalizing fs with
  | nil => simp [named_nil]
  | cons m ms ih =>
    cases fs with
    | nil => cases h
    | cons f fs =>
      rw [named_cons, List.length_cons, ih (by simpa using h), List.length_cons]

/-- Plays none of which is copied stay as they are, whatever the names. -/
theorem named_uncopied {ws fs : List ItemId} (h : fs.length = ws.length) :
    named (ws.map (·, false)) fs = ws := by
  induction ws generalizing fs with
  | nil => simp [named_nil]
  | cons w ws ih =>
    cases fs with
    | nil => cases h
    | cons f fs => simp [named_cons, ih (by simpa using h)]

/-- Names that are not among rows passed, and rows that are not held, do not change how far the
plays follow the rows. -/
theorem commonPrefix_named {held : ItemId → Bool} {ws fs zs : List ItemId} (n : Nat)
    (hlen : fs.length = ws.length) (hfs : ∀ f ∈ fs, f ∉ zs) (hzs : zs.Nodup)
    (hheld : ∀ z ∈ zs, held z = false) :
    commonPrefix ((named (markBack held ws) fs).take n) zs = commonPrefix (ws.take n) zs := by
  induction ws generalizing held fs zs n with
  | nil => simp [markBack_nil, named_nil]
  | cons w ws ih =>
    cases fs with
    | nil => cases hlen
    | cons f fs =>
      cases n with
      | zero => rfl
      | succ n =>
        cases zs with
        | nil => simp
        | cons z zs =>
          rw [markBack_cons, named_cons, List.take_succ_cons, List.take_succ_cons, commonPrefix_cons,
            commonPrefix_cons]
          have hz := hheld z (by simp)
          have hf : f ≠ z := fun he => hfs f (by simp) (he ▸ List.mem_cons_self ..)
          rw [List.nodup_cons] at hzs
          by_cases hw : w = z
          · subst hw
            simp only [hz, Bool.false_eq_true, if_false, if_true]
            congr 1
            refine ih n (by simpa using hlen) (fun g hg => ?_) hzs.2 (fun y hy => ?_)
            · exact fun hm => hfs g (List.mem_cons_of_mem _ hg) (List.mem_cons_of_mem _ hm)
            · have hne : y ≠ w := fun he => hzs.1 (he ▸ hy)
              simp [hheld y (List.mem_cons_of_mem _ hy), hne]
          · have hne : (if held w = true then f else w) ≠ z := by
              split
              · exact hf
              · exact hw
            rw [if_neg hne, if_neg hw]

namespace Lists

/-- The lists are known from the context, where the cursor is, Up Next and what plays. -/
theorem ext_parts {a b : Lists} (ho : a.order = b.order) (hp : a.passed = b.passed)
    (hu : a.upNext = b.upNext) (hc : a.current = b.current) : a = b := by
  have ha : a.ahead = b.ahead := by
    rw [order, order, hp] at ho
    exact List.append_cancel_left ho
  have hm : a.manual = b.manual := by
    rw [upNext, upNext, ha] at hu
    exact List.append_cancel_right hu
  cases a
  cases b
  simp only at *
  rw [hm, hp, ha, hc]

/-- Steps back, each to a play or to the name given for its copy. -/
def stepsBack (l : Lists) : List (ItemId × ItemId) → Lists
  | [] => l
  | (x, fresh) :: rest => (l.stepBack x fresh).stepsBack rest

/-- How many rows passed the items put back follow, newest first. -/
def walked (l : Lists) (back : List ItemId) : Nat :=
  if l.manual = [] then commonPrefix back l.passed.reverse else 0

/-- Walking back takes the rows just passed, if it takes any. -/
theorem walked_cases (l : Lists) (back : List ItemId) :
    l.walked back = 0 ∨ (l.manual = [] ∧ l.walked back ≤ l.passed.length ∧
      back.take (l.walked back) = l.passed.reverse.take (l.walked back)) := by
  unfold walked
  by_cases hm : l.manual = []
  · rw [if_pos hm]
    have hle := commonPrefix_le_right back l.passed.reverse
    rw [List.length_reverse] at hle
    exact Or.inr ⟨hm, hle, take_commonPrefix _ _⟩
  · exact Or.inl (if_neg hm)

theorem walked_le (l : Lists) (back : List ItemId) : l.walked back ≤ back.length := by
  unfold walked
  split
  · exact commonPrefix_le_left _ _
  · exact Nat.zero_le _

/-- Whether an item plays or is in Up Next. -/
def holds (l : Lists) (it : ItemId) : Bool := decide (it ∈ l.current.toList ++ l.upNext)

theorem holds_eq_false {l : Lists} {it : ItemId} :
    l.holds it = false ↔ l.current ≠ some it ∧ it ∉ l.upNext := by
  rw [holds, decide_eq_false_iff_not, List.mem_append, Option.mem_toList, not_or]

/-- Once the cursor is walked back, what is left of the item playing, the Manual Queue and the
context ahead are the plays walked over, the item that was playing and Up Next. -/
theorem walked_split (l : Lists) (ws : List ItemId) :
    let k := l.walked (l.current.toList ++ ws)
    l.current.toList.drop k ++ (l.manual ++ l.order.drop (l.passed.length - k)) =
      (ws.take (k - l.current.toList.length)).reverse ++ (l.current.toList ++ l.upNext) := by
  intro k
  have hone : l.current.toList.length ≤ 1 := by cases l.current <;> simp
  have hrev : l.current.toList.reverse = l.current.toList := by cases l.current <;> rfl
  rcases l.walked_cases (l.current.toList ++ ws) with h0 | ⟨hm, hle, htake⟩
  · simp only [k, h0, List.drop_zero, Nat.zero_sub, List.take_zero, List.reverse_nil,
      List.nil_append, Nat.sub_zero, order, List.drop_left, upNext]
  · by_cases h0 : k = 0
    · simp only [h0, List.drop_zero, Nat.zero_sub, List.take_zero, List.reverse_nil,
        List.nil_append, Nat.sub_zero, order, List.drop_left, upNext]
    have hlast : l.passed.drop (l.passed.length - k) =
        ((l.current.toList ++ ws).take k).reverse := by
      rw [show (l.current.toList ++ ws).take k = l.passed.reverse.take k from htake,
        List.take_reverse, List.reverse_reverse]
    rw [List.drop_of_length_le (by omega), hm, List.nil_append, List.nil_append, order,
      List.drop_append_of_le_length (Nat.sub_le _ _), hlast, List.take_append,
      List.take_of_length_le (by omega), List.reverse_append, hrev, upNext, hm, List.nil_append,
      List.append_assoc]

/-- What some steps back from an item playing make of the lists. -/
structure Back (l r : Lists) (back cs : List ItemId) : Prop where
  current : r.current = (back ++ cs).getLast?
  upNext : r.upNext = (back ++ cs).dropLast.reverse ++ l.upNext
  order : r.order = l.order
  passed : r.passed = l.passed.take (l.passed.length - l.walked (back ++ cs).dropLast)

theorem Back.self {l : Lists} {c : ItemId} (hc : l.current = some c) : Back l l [c] [] := by
  refine ⟨hc, rfl, rfl, ?_⟩
  have : l.walked [] = 0 := by
    unfold walked
    split <;> rfl
  simp [this]

/-- Putting one item back and stepping on. -/
theorem Back.cons {l r : Lists} {c c' : ItemId} {cs : List ItemId}
    (h : Back { l.back c with current := some c' } r [c'] cs) : Back l r [c] (c' :: cs) := by
  have hup := upNext_back l c
  have hord := order_back l c
  have hsplit : ([c] ++ c' :: cs).dropLast = c :: ([c'] ++ cs).dropLast := by
    simp
  refine ⟨?_, ?_, ?_, ?_⟩
  · rw [h.current]
    simp
  · rw [h.upNext, hsplit, List.reverse_cons, List.append_assoc]
    congr 1
  · rw [h.order]
    exact hord
  · rw [h.passed, hsplit]
    by_cases hb : l.manual = [] ∧ l.passed.getLast? = some c
    · obtain ⟨pre, hpre⟩ := List.getLast?_eq_some_iff.mp hb.2
      have hback : l.back c = { l with passed := pre, ahead := c :: l.ahead } := by
        rw [back, if_pos hb, hpre, List.dropLast_concat]
      simp only [hback, walked, hb.1, if_true, hpre, List.reverse_append, List.reverse_singleton,
        List.singleton_append, commonPrefix_cons, List.length_append, List.length_singleton]
      rw [List.take_append_of_le_length (by omega)]
      congr 1
      omega
    · have hback : l.back c = { l with manual := c :: l.manual } := by rw [back, if_neg hb]
      have hzero : l.walked (c :: ([c'] ++ cs).dropLast) = 0 := by
        unfold walked
        split
        · rename_i hm
          cases hr : l.passed.reverse with
          | nil => rfl
          | cons z zs =>
            rw [commonPrefix_cons, if_neg]
            rintro rfl
            refine hb ⟨hm, ?_⟩
            rw [← List.reverse_reverse l.passed, hr]
            simp
        · rfl
      have hnone : walked { l.back c with current := some c' } ([c'] ++ cs).dropLast = 0 := by
        rw [hback]
        exact if_neg (List.cons_ne_nil _ _)
      rw [hnone, hzero, hback]

/-- Steps back from an item playing. -/
theorem stepsBack_some {l : Lists} {c : ItemId} (hc : l.current = some c) {held : ItemId → Bool}
    {ws fs : List ItemId} (hlen : fs.length = ws.length)
    (hheld : ∀ w ∈ ws, held w = decide (w = c ∨ w ∈ l.upNext)) (hfs : ∀ f ∈ fs, f ∉ ws) :
    Back l (l.stepsBack (ws.zip fs)) [c] (named (markBack held ws) fs) := by
  induction ws generalizing l c held fs with
  | nil => exact Back.self hc
  | cons w ws ih =>
    cases fs with
    | nil => cases hlen
    | cons f fs =>
      have hput : l.putBack = l.back c := by rw [putBack, hc]; rfl
      have hup : l.putBack.upNext = c :: l.upNext := by rw [hput, upNext_back]
      have hstep : l.stepBack w f =
          { l.back c with current := some (if held w then f else w) } := by
        rw [Lists.stepBack, hup, hput, hheld w (by simp)]
        simp only [List.mem_cons, decide_eq_true_eq]
      rw [List.zip_cons_cons, stepsBack, markBack_cons, named_cons]
      refine Back.cons ?_
      rw [hstep]
      refine ih (l := { l.back c with current := some (if held w then f else w) }) rfl
        (by simpa using hlen) (fun v hv => ?_) ?_
      · have hupn : Lists.upNext { l.back c with current := some (if held w then f else w) } =
            c :: l.upNext := upNext_back l c
        rw [hupn, hheld v (List.mem_cons_of_mem _ hv), Bool.eq_iff_iff]
        have hvf : v ≠ f := fun he =>
          hfs f (by simp) (he ▸ List.mem_cons_of_mem _ hv)
        have hw := hheld w (by simp)
        simp only [Bool.or_eq_true, decide_eq_true_eq, List.mem_cons]
        cases hh : held w with
        | true =>
          rw [hh, eq_comm, decide_eq_true_eq] at hw
          simp only [if_true, hvf, false_or]
          constructor
          · rintro (h | rfl)
            · exact h
            · exact hw
          · exact Or.inl
        | false =>
          simp only [Bool.false_eq_true, if_false]
          exact or_comm
      · exact fun g hg hm => hfs g (List.mem_cons_of_mem _ hg) (List.mem_cons_of_mem _ hm)

/-- The rows passed are neither playing twice nor in Up Next while the Manual Queue is empty. -/
theorem Sound.passed_notin {l : Lists} (h : l.Sound) (hm : l.manual = []) {z : ItemId}
    (hz : z ∈ l.passed) : z ∉ l.upNext := by
  rw [upNext, hm, List.nil_append]
  exact fun ha => (List.nodup_append.mp h.order_nodup).2.2 z hz z ha rfl

/-- What is walked over: rows passed, each once and none held. -/
theorem Sound.walked_rows {l : Lists} (h : l.Sound) (ws : List ItemId) :
    let k := l.walked (l.current.toList ++ ws)
    (ws.take (k - l.current.toList.length)).Nodup ∧
      ∀ w ∈ ws.take (k - l.current.toList.length), l.holds w = false := by
  intro k
  rcases l.walked_cases (l.current.toList ++ ws) with h0 | ⟨hm, hle, htake⟩
  · simp [k, h0]
  · have hnodup : (l.passed.reverse.take k).Nodup :=
      (List.nodup_reverse.mpr (List.nodup_append.mp h.order_nodup).1).sublist
        (List.take_sublist _ _)
    have hsplit : l.passed.reverse.take k =
        l.current.toList.take k ++ ws.take (k - l.current.toList.length) := by
      rw [← List.take_append]
      exact htake.symm
    rw [hsplit, List.nodup_append] at hnodup
    refine ⟨hnodup.2.1, fun w hw => holds_eq_false.2 ⟨fun hc => ?_, ?_⟩⟩
    · by_cases h0 : k = 0
      · simp [h0] at hw
      · refine hnodup.2.2 w ?_ w hw rfl
        rw [List.take_of_length_le (by cases l.current <;> simp; omega)]
        simp [hc]
    · have hp : w ∈ l.passed.reverse.take k := by
        rw [hsplit]
        exact List.mem_append_right _ hw
      exact h.passed_notin hm (List.mem_reverse.mp (List.mem_of_mem_take hp))

/-- Nothing is twice in what is left of the item playing, the Manual Queue and the context. -/
theorem Sound.walked_nodup {l : Lists} (h : l.Sound) (back : List ItemId) :
    (l.current.toList.drop (l.walked back) ++ l.manual ++
      l.order.drop (l.passed.length - l.walked back)).Nodup := by
  rcases l.walked_cases back with h0 | ⟨hm, hle, -⟩
  · rw [h0, List.drop_zero, Nat.sub_zero, order, List.drop_left, List.append_assoc]
    have hup := h.upNext_nodup
    cases hc : l.current with
    | none => exact hup
    | some c => exact List.nodup_cons.mpr ⟨h.current_notin c hc, hup⟩
  · by_cases h0 : l.walked back = 0
    · rw [h0, List.drop_zero, Nat.sub_zero, order, List.drop_left, List.append_assoc]
      have hup := h.upNext_nodup
      cases hc : l.current with
      | none => exact hup
      | some c => exact List.nodup_cons.mpr ⟨h.current_notin c hc, hup⟩
    · rw [List.drop_of_length_le (by cases l.current <;> simp; omega), hm]
      exact h.order_nodup.sublist (List.drop_sublist _ _)

/-- Copies do not change how far the items put back follow the rows passed. -/
theorem Sound.walked_named {l : Lists} (h : l.Sound) {ws fs : List ItemId}
    (hlen : fs.length = ws.length) (hfs : ∀ f ∈ fs, f ∉ l.passed) (n : Nat) :
    l.walked (l.current.toList ++
        (named (markBack l.holds ws) fs).take n) =
      l.walked (l.current.toList ++ ws.take n) := by
  unfold walked
  split
  · rename_i hm
    have hnodup : l.passed.reverse.Nodup :=
      List.nodup_reverse.mpr (List.nodup_append.mp h.order_nodup).1
    have hup : ∀ z ∈ l.passed.reverse, z ∉ l.upNext := fun z hz =>
      h.passed_notin hm (List.mem_reverse.mp hz)
    have hfs' : ∀ f ∈ fs, f ∉ l.passed.reverse := fun f hf hm' =>
      hfs f hf (List.mem_reverse.mp hm')
    cases hc : l.current with
    | none =>
      refine commonPrefix_named n hlen hfs' hnodup fun z hz => ?_
      exact holds_eq_false.2 ⟨by simp [hc], hup z hz⟩
    | some c =>
      simp only [Option.toList_some]
      cases hr : l.passed.reverse with
      | nil => simp
      | cons z zs =>
        rw [hr] at hnodup hup hfs'
        rw [List.nodup_cons] at hnodup
        rw [List.singleton_append, commonPrefix_cons, List.singleton_append, commonPrefix_cons]
        by_cases hz : c = z
        · rw [if_pos hz, if_pos hz]
          congr 1
          refine commonPrefix_named n hlen
            (fun f hf hm' => hfs' f hf (List.mem_cons_of_mem _ hm')) hnodup.2 fun y hy => ?_
          have hne : y ≠ c := fun he => hnodup.1 (hz ▸ he ▸ hy)
          refine holds_eq_false.2 ⟨?_, hup y (List.mem_cons_of_mem _ hy)⟩
          rw [hc]
          exact fun he => hne (Option.some.inj he).symm
        · rw [if_neg hz, if_neg hz]
  · rfl

/-- **Repeated steps back, in closed form.** -/
theorem Sound.stepsBack_eq {l : Lists} (h : l.Sound) {ws fs : List ItemId} (hws : ws ≠ [])
    (hlen : fs.length = ws.length) (hfs : ∀ f ∈ fs, f ∉ ws ∧ f ∉ l.passed) :
    let cs := named (markBack l.holds ws) fs
    let r := l.stepsBack (ws.zip fs)
    r.current = cs.getLast? ∧ r.upNext = (l.current.toList ++ cs.dropLast).reverse ++ l.upNext ∧
      r.order = l.order ∧
      r.passed = l.passed.take (l.passed.length - l.walked (l.current.toList ++ ws.dropLast)) := by
  intro cs r
  have hcs : cs.length = ws.length := by
    rw [length_named (by simpa using hlen), length_markBack]
  have hne : cs ≠ [] := fun he => hws (List.length_eq_zero_iff.mp (by rw [← hcs, he]; rfl))
  have hwalked : l.walked (l.current.toList ++ cs.dropLast) =
      l.walked (l.current.toList ++ ws.dropLast) := by
    rw [List.dropLast_eq_take, List.dropLast_eq_take, hcs]
    exact h.walked_named hlen (fun f hf => (hfs f hf).2) _
  rw [← hwalked]
  cases hc : l.current with
  | some c =>
    have hb := @stepsBack_some l c hc l.holds ws fs hlen (fun w _ => by simp [holds, hc])
      (fun f hf => (hfs f hf).1)
    have hlast : ([c] ++ cs).dropLast = [c] ++ cs.dropLast := List.dropLast_append_of_ne_nil hne
    refine ⟨?_, ?_, hb.order, ?_⟩
    · rw [hb.current, List.getLast?_append_of_ne_nil _ hne]
    · rw [hb.upNext, hlast]
      rfl
    · rw [hb.passed, hlast]
      rfl
  | none =>
    -- the first step puts nothing back
    obtain ⟨w, ws, rfl⟩ := List.exists_cons_of_ne_nil hws
    obtain ⟨f, fs, rfl⟩ := List.exists_cons_of_ne_nil fun hn : fs = [] => by
      rw [hn] at hlen
      cases hlen
    have hput : l.putBack = l := by rw [putBack, hc]; rfl
    let c := if l.holds w then f else w
    have hstep : l.stepBack w f = { l with current := some c } := by
      rw [Lists.stepBack, hput]
      simp only [c, holds, hc, Option.toList_none, List.nil_append, decide_eq_true_eq]
    have hfw : ∀ v ∈ ws, v ≠ f := fun v hv he =>
      (hfs f (by simp)).1 (he ▸ List.mem_cons_of_mem _ hv)
    have hb : Back { l with current := some c } (l.stepsBack ((w :: ws).zip (f :: fs))) [c]
        (named (markBack (fun it => l.holds it || decide (it = w)) ws) fs) := by
      rw [List.zip_cons_cons, stepsBack, hstep]
      refine stepsBack_some (l := { l with current := some c }) rfl (by simpa using hlen)
        (fun v hv => ?_) fun g hg hm => ?_
      · have hupn : Lists.upNext { l with current := some c } = l.upNext := rfl
        have hvf := hfw v hv
        rw [hupn, Bool.eq_iff_iff]
        simp only [Bool.or_eq_true, decide_eq_true_eq, c]
        cases hh : l.holds w with
        | true =>
          have hw : w ∈ l.upNext := by simpa [holds, hc] using hh
          simp only [holds, hc, Option.toList_none, List.nil_append, decide_eq_true_eq, if_true,
            hvf, false_or]
          constructor
          · rintro (h | rfl)
            · exact h
            · exact hw
          · exact Or.inl
        | false =>
          simp only [holds, hc, Option.toList_none, List.nil_append, decide_eq_true_eq,
            Bool.false_eq_true, if_false]
          exact or_comm
      · exact (hfs g (List.mem_cons_of_mem _ hg)).1 (List.mem_cons_of_mem _ hm)
    have hnamed : cs = [c] ++ named (markBack (fun it => l.holds it || decide (it = w)) ws) fs :=
      rfl
    simp only [Option.toList_none, List.nil_append]
    rw [hc, Option.toList_none, List.nil_append] at hwalked
    refine ⟨?_, ?_, hb.order, ?_⟩
    · rw [hnamed]
      exact hb.current
    · rw [hnamed]
      exact hb.upNext
    · rw [hnamed]
      exact hb.passed

/-- Steps back under new, distinct names keep items where they may be. -/
theorem Sound.stepsBack {l : Lists} (h : l.Sound) {ws fs : List ItemId}
    (hlen : fs.length = ws.length) (hn : fs.Nodup)
    (hfs : ∀ f ∈ fs, f ∉ ws ∧ l.holds f = false) : (l.stepsBack (ws.zip fs)).Sound := by
  induction ws generalizing l fs with
  | nil => exact h
  | cons w ws ih =>
    cases fs with
    | nil => cases hlen
    | cons f fs =>
      rw [List.nodup_cons] at hn
      have hup : ∀ g, l.holds g = false → g ∉ l.putBack.upNext := by
        intro g hg
        rw [upNext_putBack]
        simpa [holds] using hg
      rw [List.zip_cons_cons, Lists.stepsBack]
      refine ih (h.stepBack fun _ => hup f (hfs f (by simp)).2) (by simpa using hlen) hn.2
        fun g hg => ?_
      have hg' := hfs g (List.mem_cons_of_mem _ hg)
      refine ⟨fun hm => hg'.1 (List.mem_cons_of_mem _ hm), ?_⟩
      have hgf : g ≠ f := fun he => hn.1 (he ▸ hg)
      have hgw : g ≠ w := fun he => hg'.1 (he ▸ List.mem_cons_self ..)
      rw [holds_eq_false]
      refine ⟨?_, hup g hg'.2⟩
      simp only [Lists.stepBack, ne_eq, Option.some.injEq]
      split
      · exact fun he => hgf he.symm
      · exact fun he => hgw he.symm

end Lists

end JewelCase.Queue
