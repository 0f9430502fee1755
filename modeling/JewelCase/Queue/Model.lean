import JewelCase.Library.Lists
import JewelCase.Queue.Edit

/-!
# The queue as plain lists

What the queue is for, stated on lists of items: the Manual Queue, the passed context and the
context still ahead. Adding, removing and moving are the plain list edits, and an item is at
most once in the context and at most once in Up Next.
-/
namespace JewelCase.Queue

set_option autoImplicit false

/-- The Manual Queue, the passed context, the context still ahead and the item playing, as
items. -/
structure Lists where
  manual : List ItemId
  passed : List ItemId
  ahead : List ItemId
  current : Option ItemId
deriving DecidableEq, Repr

namespace Lists

/-- Up Next. -/
def upNext (l : Lists) : List ItemId := l.manual ++ l.ahead

/-- The context. -/
def order (l : Lists) : List ItemId := l.passed ++ l.ahead

/-- Where items may be: once in the context, once in Up Next, and not there while playing. -/
structure Sound (l : Lists) : Prop where
  order_nodup : l.order.Nodup
  upNext_nodup : l.upNext.Nodup
  current_notin : ∀ item ∈ l.current, item ∉ l.upNext

/-- An item with a place in both lists has passed its place in the context. -/
theorem Sound.passed_of_manual {l : Lists} (h : l.Sound) {item : ItemId} (hm : item ∈ l.manual)
    (ho : item ∈ l.order) : item ∈ l.passed := by
  rcases List.mem_append.mp ho with hp | ha
  · exact hp
  · exact absurd ha ((List.nodup_append.mp h.upNext_nodup).2.2 item hm item · rfl)

/-! ### The plain list edits -/

/-- `items` put just before `item`, or at the end where it is missing. -/
def insertBefore (item : ItemId) (items list : List ItemId) : List ItemId :=
  list.takeWhile (· ≠ item) ++ items ++ list.dropWhile (· ≠ item)

/-- Whether rows put at an anchor join the Manual Queue. -/
def toManual (l : Lists) : Anchor → Bool
  | .manualStart | .manualEnd => true
  | .contextEnd => false
  | .before item => decide (item ∈ l.manual)

/-- `items` put at an anchor, or `none` where the anchor is not in Up Next. -/
def insert (l : Lists) (items : List ItemId) : Anchor → Option Lists
  | .manualStart => some { l with manual := items ++ l.manual }
  | .manualEnd => some { l with manual := l.manual ++ items }
  | .contextEnd => some { l with ahead := l.ahead ++ items }
  | .before item =>
    if item ∈ l.manual then some { l with manual := insertBefore item items l.manual }
    else if item ∈ l.ahead then some { l with ahead := insertBefore item items l.ahead }
    else none

/-- The lists without the named items of Up Next. A Manual Queue item that also has a passed
place loses it unless `keepPassed`. -/
def without (l : Lists) (items : List ItemId) (keepPassed : Bool) : Lists where
  manual := l.manual.filter (· ∉ items)
  passed := l.passed.filter fun item => keepPassed || decide (¬(item ∈ items ∧ item ∈ l.manual))
  ahead := l.ahead.filter (· ∉ items)
  current := l.current

/-- The named items of Up Next, in queue order, moved as one block to an anchor: those moved to
the Manual Queue keep their passed places, those moved to the context lose them. `none` where
the anchor is not in Up Next or is moved itself. -/
def move (l : Lists) (items : List ItemId) (before : Anchor) : Option Lists :=
  (l.without items (l.toManual before)).insert (l.upNext.filter (· ∈ items)) before

theorem takeWhile_append_insert (item : ItemId) (list : List ItemId) :
    list.takeWhile (· ≠ item) ++ list.dropWhile (· ≠ item) = list :=
  List.takeWhile_append_dropWhile

/-- An insertion splits the Manual Queue or the context ahead, and changes nothing else. -/
theorem insert_cases {l l' : Lists} {items : List ItemId} {a : Anchor}
    (h : l.insert items a = some l') :
    (l.toManual a = true ∧ ∃ pre post, l.manual = pre ++ post ∧
        l' = { l with manual := pre ++ items ++ post }) ∨
      (l.toManual a = false ∧ ∃ pre post, l.ahead = pre ++ post ∧
        l' = { l with ahead := pre ++ items ++ post }) := by
  cases a with
  | manualStart =>
    exact Or.inl ⟨rfl, [], l.manual, rfl, (Option.some.inj h).symm⟩
  | manualEnd =>
    refine Or.inl ⟨rfl, l.manual, [], (List.append_nil _).symm, ?_⟩
    rw [← Option.some.inj h, List.append_nil]
  | contextEnd =>
    refine Or.inr ⟨rfl, l.ahead, [], (List.append_nil _).symm, ?_⟩
    rw [← Option.some.inj h, List.append_nil]
  | before item =>
    rw [insert] at h
    by_cases hm : item ∈ l.manual
    · rw [if_pos hm] at h
      exact Or.inl ⟨by simpa [toManual] using hm, _, _,
        (takeWhile_append_insert item l.manual).symm, (Option.some.inj h).symm⟩
    · rw [if_neg hm] at h
      by_cases ha : item ∈ l.ahead
      · rw [if_pos ha] at h
        exact Or.inr ⟨by simpa [toManual] using hm, _, _,
          (takeWhile_append_insert item l.ahead).symm, (Option.some.inj h).symm⟩
      · rw [if_neg ha] at h
        cases h

/-- Where an anchor points. -/
theorem insert_eq_none {l : Lists} {items : List ItemId} {a : Anchor} :
    l.insert items a = none ↔ ∃ item, a = .before item ∧ item ∉ l.upNext := by
  cases a with
  | manualStart => simp [insert]
  | manualEnd => simp [insert]
  | contextEnd => simp [insert]
  | before item =>
    simp only [insert, Anchor.before.injEq, exists_eq_left', upNext, List.mem_append, not_or]
    split
    · simp_all
    · split <;> simp_all

/-- Putting nothing anywhere. -/
theorem insert_nil {l l' : Lists} {a : Anchor} (h : l.insert [] a = some l') : l' = l := by
  rcases insert_cases h with ⟨-, pre, post, hm, rfl⟩ | ⟨-, pre, post, hm, rfl⟩
  · rw [List.append_nil, ← hm]
  · rw [List.append_nil, ← hm]

/-- Taking out items that are not in Up Next. -/
theorem without_gone {l : Lists} {items : List ItemId} (h : ∀ item ∈ items, item ∉ l.upNext)
    (keepPassed : Bool) : l.without items keepPassed = l := by
  have hnot : ∀ item ∈ l.upNext, item ∉ items := fun item hup hi => h item hi hup
  have hm : l.manual.filter (fun item => decide (item ∉ items)) = l.manual :=
    List.filter_eq_self.mpr fun item hi => by
      simpa using hnot item (List.mem_append_left _ hi)
  have ha : l.ahead.filter (fun item => decide (item ∉ items)) = l.ahead :=
    List.filter_eq_self.mpr fun item hi => by
      simpa using hnot item (List.mem_append_right _ hi)
  have hp : l.passed.filter (fun item => keepPassed || decide
      (¬(item ∈ items ∧ item ∈ l.manual))) = l.passed :=
    List.filter_eq_self.mpr fun item _ => by
      simp only [Bool.or_eq_true, decide_eq_true_eq, not_and]
      exact Or.inr fun hi hm => h item hi (List.mem_append_left _ hm)
  rw [without, hm, ha, hp]

/-- Moving items that are not in Up Next. -/
theorem move_gone {l l' : Lists} {items : List ItemId} {a : Anchor}
    (h : ∀ item ∈ items, item ∉ l.upNext) (hm : l.move items a = some l') : l' = l := by
  have hf : l.upNext.filter (fun item => decide (item ∈ items)) = [] :=
    List.filter_eq_nil_iff.mpr fun item hup => by
      simpa using fun hi => h item hi hup
  rw [move, without_gone h, hf] at hm
  exact insert_nil hm

/-! ### Soundness is kept -/

theorem nodup_insert {α : Type} {pre items post : List α} (h : (pre ++ post).Nodup)
    (hi : items.Nodup) (hd : ∀ x ∈ items, x ∉ pre ++ post) : (pre ++ items ++ post).Nodup := by
  rw [List.append_assoc]
  refine (List.perm_append_comm_assoc pre items post).nodup_iff.mpr ?_
  exact List.nodup_append.mpr ⟨hi, h, fun x hx y hy hxy => hd x hx (hxy ▸ hy)⟩

theorem Sound.insert {l l' : Lists} {items : List ItemId} {a : Anchor} (h : l.Sound)
    (hins : l.insert items a = some l') (hi : items.Nodup) (hup : ∀ x ∈ items, x ∉ l.upNext)
    (hpassed : l.toManual a = false → ∀ x ∈ items, x ∉ l.passed)
    (hcur : ∀ x ∈ l.current, x ∉ items) : l'.Sound := by
  rcases insert_cases hins with ⟨-, pre, post, hm, rfl⟩ | ⟨ha, pre, post, hm, rfl⟩
  · have hun := h.upNext_nodup
    simp only [upNext, hm, List.append_assoc] at hun hup
    refine ⟨h.order_nodup, ?_, ?_⟩
    · simp only [upNext]
      rw [List.append_assoc (pre ++ items)]
      exact nodup_insert hun hi (by simpa using hup)
    · intro x hx
      have h1 := h.current_notin x hx
      have h2 := hcur x hx
      simp only [upNext, hm, List.mem_append, not_or] at h1 ⊢
      tauto
  · have hun := h.upNext_nodup
    have hon := h.order_nodup
    simp only [upNext, order, hm, ← List.append_assoc] at hun hon hup
    refine ⟨?_, ?_, ?_⟩
    · simp only [order, ← List.append_assoc]
      refine nodup_insert hon hi ?_
      intro x hx
      have h1 := hpassed ha x hx
      have h2 := hup x hx
      simp only [List.mem_append, not_or] at h2 ⊢
      tauto
    · simp only [upNext, ← List.append_assoc]
      exact nodup_insert hun hi hup
    · intro x hx
      have h1 := h.current_notin x hx
      have h2 := hcur x hx
      simp only [upNext, hm, List.mem_append, not_or] at h1 ⊢
      tauto

theorem Sound.without {l : Lists} (h : l.Sound) (items : List ItemId) (keepPassed : Bool) :
    (l.without items keepPassed).Sound := by
  refine ⟨?_, ?_, ?_⟩
  · exact h.order_nodup.sublist (List.filter_sublist.append List.filter_sublist)
  · exact h.upNext_nodup.sublist (List.filter_sublist.append List.filter_sublist)
  · intro x hx hm
    refine h.current_notin x hx ?_
    exact (List.filter_sublist.append List.filter_sublist).subset hm

theorem upNext_without (l : Lists) (items : List ItemId) (keepPassed : Bool) :
    (l.without items keepPassed).upNext = l.upNext.filter (· ∉ items) := by
  simp [upNext, Lists.without]

/-- Taking items out does not change which list an anchor left behind points to. -/
theorem toManual_without {l : Lists} {items : List ItemId} {keepPassed : Bool} {a : Anchor}
    (h : ∀ item, a = .before item → item ∉ items) :
    (l.without items keepPassed).toManual a = l.toManual a := by
  cases a with
  | before item =>
    have := h item rfl
    simp [toManual, Lists.without, this]
  | _ => rfl

theorem Sound.move {l l' : Lists} {items : List ItemId} {a : Anchor} (h : l.Sound)
    (hm : l.move items a = some l') : l'.Sound := by
  have hnot : ∀ item, a = .before item → item ∉ items := by
    rintro item rfl hi
    have hnone : l.move items (.before item) = none := by
      rw [Lists.move, insert_eq_none]
      refine ⟨item, rfl, ?_⟩
      rw [upNext_without]
      simp [hi]
    rw [hnone] at hm
    cases hm
  refine (h.without items (l.toManual a)).insert hm (h.upNext_nodup.filter _) ?_ ?_ ?_
  · intro x hx
    rw [upNext_without]
    simp only [List.mem_filter, decide_eq_true_eq] at hx ⊢
    tauto
  · intro ha x hx hp
    rw [toManual_without hnot] at ha
    simp only [List.mem_filter, decide_eq_true_eq, Lists.without, ha, Bool.false_or] at hx hp
    rcases List.mem_append.mp hx.1 with hmx | hax
    · exact hp.2 ⟨hx.2, hmx⟩
    · exact (List.nodup_append.mp h.order_nodup).2.2 x hp.1 x hax rfl
  · intro x hx hxi
    exact h.current_notin x hx (List.mem_filter.mp hxi).1

/-- Playing the item at index `i` of Up Next takes it and everything ahead of it out. -/
theorem Sound.advance {l l' : Lists} {i : Nat} {item : ItemId} (ho : l.order.Nodup)
    (hu : l.upNext.Nodup) (hi : l.upNext[i]? = some item) (horder : l'.order = l.order)
    (hup : l'.upNext = l.upNext.drop (i + 1)) (hcur : l'.current = some item) : l'.Sound := by
  refine ⟨horder ▸ ho, hup ▸ hu.sublist (List.drop_sublist _ _), ?_⟩
  intro x hx hm
  obtain rfl : item = x := by simpa [hcur] using hx
  rw [hup] at hm
  obtain ⟨j, hj⟩ := List.mem_iff_getElem?.mp hm
  rw [List.getElem?_drop] at hj
  have := Library.Lists.index_unique hu hi hj
  omega

/-- Reordering what is ahead. -/
theorem Sound.perm {l l' : Lists} (h : l.Sound) (hm : l'.manual = l.manual)
    (hp : l'.passed = l.passed) (ha : l'.ahead.Perm l.ahead) (hc : l'.current = l.current) :
    l'.Sound := by
  have hup : l'.upNext.Perm l.upNext := by
    rw [upNext, upNext, hm]
    exact ha.append_left _
  have hord : l'.order.Perm l.order := by
    rw [order, order, hp]
    exact ha.append_left _
  refine ⟨hord.nodup_iff.mpr h.order_nodup, hup.nodup_iff.mpr h.upNext_nodup, ?_⟩
  intro item hi hm
  exact h.current_notin item (hc ▸ hi) (hup.mem_iff.mp hm)

/-- The item that was playing, back at the front of Up Next: into the context when it is the
row just passed and the Manual Queue is empty, else into the Manual Queue. -/
def back (l : Lists) (old : ItemId) : Lists :=
  if l.manual = [] ∧ l.passed.getLast? = some old then
    { l with passed := l.passed.dropLast, ahead := old :: l.ahead }
  else { l with manual := old :: l.manual }

theorem upNext_back (l : Lists) (old : ItemId) : (l.back old).upNext = old :: l.upNext := by
  unfold back
  split
  · rename_i h
    simp [upNext, h.1]
  · rfl

theorem order_back (l : Lists) (old : ItemId) : (l.back old).order = l.order := by
  unfold back
  split
  · rename_i h
    obtain ⟨pre, hpre⟩ := List.getLast?_eq_some_iff.mp h.2
    simp [order, hpre]
  · rfl

/-- The lists with the item that was playing, if any, back at the front of Up Next. -/
def putBack (l : Lists) : Lists := l.current.elim l l.back

theorem upNext_putBack (l : Lists) : l.putBack.upNext = l.current.toList ++ l.upNext := by
  unfold putBack
  cases l.current with
  | none => rfl
  | some old => exact upNext_back l old

theorem order_putBack (l : Lists) : l.putBack.order = l.order := by
  unfold putBack
  cases l.current with
  | none => rfl
  | some old => exact order_back l old

/-- One step back: to `x` itself, or to `fresh` where Up Next would hold `x`. -/
def stepBack (l : Lists) (x fresh : ItemId) : Lists :=
  { l.putBack with current := some (if x ∈ l.putBack.upNext then fresh else x) }

theorem Sound.stepBack {l : Lists} (h : l.Sound) {x fresh : ItemId}
    (hf : x ∈ l.putBack.upNext → fresh ∉ l.putBack.upNext) : (l.stepBack x fresh).Sound := by
  have hput : l.putBack.upNext.Nodup := by
    rw [upNext_putBack]
    cases hc : l.current with
    | none => simpa using h.upNext_nodup
    | some old => simpa using ⟨h.current_notin old hc, h.upNext_nodup⟩
  refine ⟨?_, hput, ?_⟩
  · have := order_putBack l
    simp only [order] at this
    simp only [Lists.stepBack, order, this]
    exact h.order_nodup
  · intro item hi hm
    have hi' : (if x ∈ l.putBack.upNext then fresh else x) = item := by
      simpa [Lists.stepBack] using hi
    have hm' : item ∈ l.putBack.upNext := hm
    by_cases hx : x ∈ l.putBack.upNext
    · rw [if_pos hx] at hi'
      exact hf hx (hi' ▸ hm')
    · rw [if_neg hx] at hi'
      exact hx (hi' ▸ hm')

end Lists

end JewelCase.Queue
