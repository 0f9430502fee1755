import Mathlib.Data.List.Nodup
import JewelCase.Library.Keyed

/-!
# A log with one row for each key

Recording a change of a key takes out the key's earlier row and puts the new one last, at the next
position. A log read from a position on then says the net effect of what was recorded since.
-/
namespace JewelCase.Library.Coalesced

set_option autoImplicit false

variable {α κ : Type} [DecidableEq κ] {key : α → κ} {seq : α → Nat} {rows rows' rows'' : List α}
  {last last' last'' : Nat}

/-- The rows once `row` is recorded. -/
def put (key : α → κ) (rows : List α) (row : α) : List α := Keyed.without key rows (key row) ++ [row]

theorem mem_put {row other : α} :
    other ∈ put key rows row ↔ (other ∈ rows ∧ key other ≠ key row) ∨ other = row := by
  unfold put
  rw [List.mem_append, Keyed.mem_without, List.mem_singleton]

/-- One row for each key, in the order of their positions, none past the last one given. -/
structure Kept (key : α → κ) (seq : α → Nat) (rows : List α) (last : Nat) : Prop where
  nodup : (rows.map key).Nodup
  ordered : rows.Pairwise fun a b => seq a < seq b
  le : ∀ row ∈ rows, seq row ≤ last
  pos : ∀ row ∈ rows, 0 < seq row

omit [DecidableEq κ] in
theorem kept_nil (last : Nat) : Kept key seq [] last :=
  ⟨List.nodup_nil, .nil, fun _ h => absurd h List.not_mem_nil, fun _ h => absurd h List.not_mem_nil⟩

omit [DecidableEq κ] in
theorem Kept.mono (h : Kept key seq rows last) (hle : last ≤ last') : Kept key seq rows last' :=
  { h with le := fun row hrow => Nat.le_trans (h.le row hrow) hle }

theorem Kept.put (h : Kept key seq rows last) {row : α} (hseq : seq row = last + 1) :
    Kept key seq (Coalesced.put key rows row) (last + 1) where
  nodup := by
    unfold Coalesced.put
    rw [List.map_append]
    refine List.nodup_append.mpr ⟨Keyed.nodup_without h.nodup _, List.nodup_singleton _, ?_⟩
    intro k hk k' hk' heq
    obtain ⟨other, hother, rfl⟩ := List.mem_map.mp hk
    rw [List.map_singleton, List.mem_singleton] at hk'
    exact (Keyed.mem_without.mp hother).2 (heq.trans hk')
  ordered := by
    unfold Coalesced.put
    refine List.pairwise_append.mpr ⟨h.ordered.filter _, List.pairwise_singleton _ _, ?_⟩
    intro other hother last' hlast'
    rw [List.mem_singleton.mp hlast', hseq]
    exact Nat.lt_succ_of_le (h.le other (Keyed.mem_without.mp hother).1)
  le := fun other hother => by
    rcases mem_put.mp hother with ⟨hother, _⟩ | rfl
    · exact Nat.le_trans (h.le other hother) (Nat.le_succ last)
    · exact Nat.le_of_eq hseq
  pos := fun other hother => by
    rcases mem_put.mp hother with ⟨hother, _⟩ | rfl
    · exact h.pos other hother
    · exact hseq ▸ Nat.succ_pos last

/-- What a log became since it stood at a position: a key that had a row has one still, and a row up
to that position was there. -/
structure Since (key : α → κ) (seq : α → Nat) (rows : List α) (last : Nat) (rows' : List α)
    (last' : Nat) : Prop where
  le : last ≤ last'
  keys : ∀ row ∈ rows, ∃ row' ∈ rows', key row' = key row
  old : ∀ row ∈ rows', seq row ≤ last → row ∈ rows

omit [DecidableEq κ] in
theorem Since.refl (rows : List α) (last : Nat) : Since key seq rows last rows last :=
  ⟨Nat.le_refl last, fun row hrow => ⟨row, hrow, rfl⟩, fun _ hrow _ => hrow⟩

omit [DecidableEq κ] in
theorem Since.trans (h : Since key seq rows last rows' last')
    (h' : Since key seq rows' last' rows'' last'') : Since key seq rows last rows'' last'' where
  le := Nat.le_trans h.le h'.le
  keys := fun row hrow => by
    obtain ⟨mid, hmid, hkey⟩ := h.keys row hrow
    obtain ⟨row', hrow', hkey'⟩ := h'.keys mid hmid
    exact ⟨row', hrow', hkey'.trans hkey⟩
  old := fun row hrow hle => h.old row (h'.old row hrow (Nat.le_trans hle h.le)) hle

theorem since_put (rows : List α) (last : Nat) {row : α} (hseq : seq row = last + 1) :
    Since key seq rows last (put key rows row) (last + 1) where
  le := Nat.le_succ last
  keys := fun other hother => by
    by_cases hkey : key other = key row
    · exact ⟨row, mem_put.mpr (Or.inr rfl), hkey.symm⟩
    · exact ⟨other, mem_put.mpr (Or.inl ⟨hother, hkey⟩), rfl⟩
  old := fun other hother hle => by
    rcases mem_put.mp hother with ⟨hother, _⟩ | rfl
    · exact hother
    · omega

omit [DecidableEq κ] in
theorem since_later (rows : List α) (hle : last ≤ last') : Since key seq rows last rows last' :=
  ⟨hle, fun row hrow => ⟨row, hrow, rfl⟩, fun _ hrow _ => hrow⟩

variable {present : α → Prop} {followed holds holds' view view' : κ → Prop} {position next : Nat}

/-- The keys followed whose row says they hold are those that do. -/
def Tells (key : α → κ) (present : α → Prop) (followed : κ → Prop) (rows : List α) (holds : κ → Prop) :
    Prop := ∀ k, followed k → (holds k ↔ ∃ row ∈ rows, key row = k ∧ present row)

omit [DecidableEq κ] in
/-- Rows past a position are the net effect: what they say of a key is so, and a key they do not name is
as it was at that position. -/
theorem net_effect (h : Kept key seq rows last) (h' : Kept key seq rows' last')
    (hs : Since key seq rows last rows' last') (ht : Tells key present followed rows holds)
    (ht' : Tells key present followed rows' holds') {k : κ} (hfollowed : followed k) :
    holds' k ↔ (∃ row ∈ rows', last < seq row ∧ key row = k ∧ present row) ∨
      (holds k ∧ ∀ row ∈ rows', last < seq row → key row ≠ k) := by
  constructor
  · intro hk
    obtain ⟨row, hrow, hkey, hpresent⟩ := (ht' k hfollowed).mp hk
    by_cases hlt : last < seq row
    · exact Or.inl ⟨row, hrow, hlt, hkey, hpresent⟩
    · have hold := hs.old row hrow (Nat.le_of_not_lt hlt)
      refine Or.inr ⟨(ht k hfollowed).mpr ⟨row, hold, hkey, hpresent⟩, fun other hother hafter hkey' => ?_⟩
      have hsame := List.inj_on_of_nodup_map h'.nodup hother hrow (hkey'.trans hkey.symm)
      exact hlt (hsame ▸ hafter)
  · rintro (⟨row, hrow, _, hkey, hpresent⟩ | ⟨hk, hnone⟩)
    · exact (ht' k hfollowed).mpr ⟨row, hrow, hkey, hpresent⟩
    · obtain ⟨row, hrow, hkey, hpresent⟩ := (ht k hfollowed).mp hk
      obtain ⟨row', hrow', hkey'⟩ := hs.keys row hrow
      have hbefore : ¬ last < seq row' := fun hafter => hnone row' hrow' hafter (hkey'.trans hkey)
      have hold := hs.old row' hrow' (Nat.le_of_not_lt hbefore)
      have hsame := List.inj_on_of_nodup_map h.nodup hold hrow hkey'
      exact (ht' k hfollowed).mpr ⟨row', hrow', hkey'.trans hkey, hsame ▸ hpresent⟩

/-! ### Following a log -/

/-- A view that is right of each key it follows whose row, if it has one, is not past a position. -/
def Follows (key : α → κ) (seq : α → Nat) (followed : κ → Prop) (rows : List α) (holds view : κ → Prop)
    (position : Nat) : Prop :=
  ∀ k, followed k → (∀ row ∈ rows, key row = k → seq row ≤ position) → (view k ↔ holds k)

omit [DecidableEq κ] in
/-- A key with no row past a position that was there already had none then. -/
theorem Since.not_past (h : Kept key seq rows last) (hs : Since key seq rows last rows' last')
    (hle : position ≤ last) {k : κ} (hnone : ∀ row ∈ rows', key row = k → seq row ≤ position) :
    ∀ row ∈ rows, key row = k → row ∈ rows' ∧ seq row ≤ position := by
  intro row hrow hkey
  obtain ⟨row', hrow', hkey'⟩ := hs.keys row hrow
  have hbefore := hnone row' hrow' (hkey'.trans hkey)
  have hold := hs.old row' hrow' (Nat.le_trans hbefore hle)
  have hsame := List.inj_on_of_nodup_map h.nodup hold hrow hkey'
  exact hsame ▸ ⟨hrow', hbefore⟩

omit [DecidableEq κ] in
/-- What is followed is right still once more is recorded. -/
theorem Follows.later (hf : Follows key seq followed rows holds view position)
    (h : Kept key seq rows last) (hs : Since key seq rows last rows' last')
    (ht : Tells key present followed rows holds) (ht' : Tells key present followed rows' holds')
    (hle : position ≤ last) : Follows key seq followed rows' holds' view position := by
  intro k hk hnone
  have hbefore := hs.not_past h hle hnone
  refine (hf k hk fun row hrow hkey => (hbefore row hrow hkey).2).trans ((ht k hk).trans
    (Iff.trans ?_ (ht' k hk).symm))
  constructor
  · rintro ⟨row, hrow, hkey, hpresent⟩
    exact ⟨row, (hbefore row hrow hkey).1, hkey, hpresent⟩
  · rintro ⟨row, hrow, hkey, hpresent⟩
    exact ⟨row, hs.old row hrow (Nat.le_trans (hnone row hrow hkey) hle), hkey, hpresent⟩

omit [DecidableEq κ] in
/-- A view changed only of keys read past the position is as right as it was. -/
theorem Follows.torn (hf : Follows key seq followed rows' holds' view position)
    (h : Kept key seq rows last) (hs : Since key seq rows last rows' last') (hle : position ≤ last)
    (hview : ∀ k, followed k → (∀ row ∈ rows, key row = k → ¬ position < seq row) →
      (view' k ↔ view k)) :
    Follows key seq followed rows' holds' view' position := by
  intro k hk hnone
  have hbefore := hs.not_past h hle hnone
  exact (hview k hk fun row hrow hkey => Nat.not_lt.mpr (hbefore row hrow hkey).2).trans
    (hf k hk hnone)

omit [DecidableEq κ] in
/-- A view that took in what was read up to the next position is right there, whatever was recorded
since. -/
theorem Follows.read (hf : Follows key seq followed rows' holds' view position)
    (h : Kept key seq rows last) (h' : Kept key seq rows' last')
    (hs : Since key seq rows last rows' last') (ht' : Tells key present followed rows' holds')
    (hle : next ≤ last)
    (htaken : ∀ row ∈ rows, followed (key row) → position < seq row → seq row ≤ next →
      (view' (key row) ↔ present row))
    (hkept : ∀ k, followed k → (∀ row ∈ rows, key row = k → position < seq row → ¬ seq row ≤ next) →
      (view' k ↔ view k)) :
    Follows key seq followed rows' holds' view' next := by
  intro k hk hnone
  have hbefore := hs.not_past h hle hnone
  by_cases htook : ∃ row ∈ rows, key row = k ∧ position < seq row
  · obtain ⟨row, hrow, rfl, hpast⟩ := htook
    obtain ⟨hrow', hnext⟩ := hbefore row hrow rfl
    refine (htaken row hrow hk hpast hnext).trans (Iff.trans ?_ (ht' (key row) hk).symm)
    constructor
    · exact fun hpresent => ⟨row, hrow', rfl, hpresent⟩
    · rintro ⟨other, hother, hkey, hpresent⟩
      exact List.inj_on_of_nodup_map h'.nodup hother hrow' hkey ▸ hpresent
  · have hnot : ∀ row ∈ rows, key row = k → ¬ position < seq row := fun row hrow hkey hpast =>
      htook ⟨row, hrow, hkey, hpast⟩
    refine (hkept k hk fun row hrow hkey hpast => absurd hpast (hnot row hrow hkey)).trans
      (hf k hk fun row hrow hkey => ?_)
    have hold := hs.old row hrow (Nat.le_trans (hnone row hrow hkey) hle)
    exact Nat.not_lt.mp (hnot row hold hkey)

/-! ### Reading in batches -/

omit [DecidableEq κ] in
/-- A batch of rows in order is those up to its last, and the rest are past it. -/
theorem take_last (h : rows.Pairwise fun a b => seq a < seq b) {n : Nat} {final : α}
    (hlast : (rows.take n).getLast? = some final) :
    (∀ row ∈ rows.take n, seq row ≤ seq final) ∧ ∀ row ∈ rows.drop n, seq final < seq row := by
  obtain ⟨before, hbefore⟩ := List.getLast?_eq_some_iff.mp hlast
  rw [← List.take_append_drop n rows, hbefore] at h
  obtain ⟨htaken, _, hacross⟩ := List.pairwise_append.mp h
  refine ⟨fun row hrow => ?_, fun row hrow => hacross final (by simp) row hrow⟩
  rw [hbefore] at hrow
  rcases List.mem_append.mp hrow with hrow | hrow
  · exact Nat.le_of_lt ((List.pairwise_append.mp htaken).2.2 row hrow final (List.mem_singleton_self _))
  · exact Nat.le_of_eq (congrArg seq (List.mem_singleton.mp hrow))

omit [DecidableEq κ] in
theorem mem_take_iff (h : rows.Pairwise fun a b => seq a < seq b) {n : Nat} {final row : α}
    (hlast : (rows.take n).getLast? = some final) (hrow : row ∈ rows) :
    row ∈ rows.take n ↔ seq row ≤ seq final := by
  obtain ⟨htaken, hrest⟩ := take_last h hlast
  refine ⟨htaken row, fun hle => ?_⟩
  rw [← List.take_append_drop n rows] at hrow
  exact (List.mem_append.mp hrow).resolve_right fun hmem => Nat.not_lt.mpr hle (hrest row hmem)

omit [DecidableEq κ] in
theorem filter_past (h : rows.Pairwise fun a b => seq a < seq b) {n : Nat} {final : α}
    (hlast : (rows.take n).getLast? = some final) :
    rows.filter (fun row => decide (seq final < seq row)) = rows.drop n := by
  obtain ⟨htaken, hrest⟩ := take_last h hlast
  have hnone : (rows.take n).filter (fun row => decide (seq final < seq row)) = [] :=
    List.filter_eq_nil_iff.mpr fun row hrow hpast =>
      Nat.not_lt.mpr (htaken row hrow) (of_decide_eq_true hpast)
  have hall : (rows.drop n).filter (fun row => decide (seq final < seq row)) = rows.drop n :=
    List.filter_eq_self.mpr fun row hrow => decide_eq_true (hrest row hrow)
  calc rows.filter (fun row => decide (seq final < seq row))
      = (rows.take n ++ rows.drop n).filter (fun row => decide (seq final < seq row)) := by
        rw [List.take_append_drop]
    _ = rows.drop n := by rw [List.filter_append, hnone, hall, List.nil_append]

end JewelCase.Library.Coalesced
