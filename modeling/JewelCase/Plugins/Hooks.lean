import JewelCase.Content.FeedKept

/-!
# Hooks of the change feed

The hooks `tracksChanged`, `albumsChanged` and `artistsChanged` of one plugin in one library, as
`crates/server/src/plugins/hooks.rs` delivers them: when one is due, what a batch of changes is, and how
a delivery moves its position, waits after a failure or disables the plugin.
-/
namespace JewelCase.Plugins.Hooks

set_option autoImplicit false

open Library Content

/-! ### Batches -/

/-- `BATCH`, the changes in one event -/
def BATCH : Nat := 100

/-- An event's changes. -/
structure Changes where
  changed : List Id
  removed : List Id
deriving DecidableEq, Repr

/-- The changes of a kind past a position, in order. -/
def past (c : Catalog) (entity : Entity) (position : Nat) : List Change :=
  (c.feed.filter fun row => decide (row.entity = entity ∧ position < row.seq)).insertionSort
    fun a b => a.seq ≤ b.seq

/-- The next batch of changes past `position`: the position after it, and the IDs it names, if there
are any. -/
def batch (c : Catalog) (entity : Entity) (position : Nat) : Nat × Option Changes :=
  let rows := (past c entity position).take BATCH
  match rows.getLast? with
  | none => (position, none)
  | some last =>
    (last.seq, some
      ⟨(rows.filter fun row => decide (row.op ≠ .delete)).map Change.id,
        (rows.filter fun row => decide (row.op = .delete)).map Change.id⟩)

/-! ### Positions -/

/-- The row of `plugin_cursors` of a plugin, library and hook. -/
structure Cursor where
  position : Nat
  failingSince : Option Int
  retryAt : Option Int
deriving DecidableEq, Repr

/-- A plugin in a library, and its cursor in one hook. -/
structure Pair where
  enabled : Bool
  disabledReason : Option String
  /-- Whether the hook and what it needs are granted. -/
  granted : Bool
  cursor : Option Cursor
deriving DecidableEq, Repr

/-- `coalesce(c.position, 0)` -/
def Pair.position (pair : Pair) : Nat := (pair.cursor.map Cursor.position).getD 0

/-- Enabled and not waiting to retry a failure. -/
def Pair.ready (pair : Pair) (now : Int) : Bool :=
  pair.enabled && (pair.cursor.bind Cursor.retryAt).all fun retryAt => decide (retryAt ≤ now)

/-- Whether the hook is due. -/
def due (c : Catalog) (entity : Entity) (pair : Pair) (now : Int) : Bool :=
  pair.ready now && pair.granted &&
    c.feed.any fun row => decide (row.entity = entity ∧ pair.position < row.seq)

def MAX_FAILING_MS : Int := 72 * 60 * 60000

def BACKOFF_MS : Int := 60000

def MAX_BACKOFF_MS : Int := 60 * 60000

/-- How a delivery went. -/
inductive Ran where
  | handled
  | failed
  | unrun
deriving DecidableEq, Repr

/-- Moves the position on to `next` once a delivery is handled. After a failure it keeps the position
and waits, and disables the plugin once it has been failing for too long. -/
def record (pair : Pair) (next : Nat) (ran : Ran) (summary : String) (now : Int) : Pair :=
  let since := pair.cursor.bind Cursor.failingSince
  let retry := fun failingSince : Option Int =>
    let failingFor := now - failingSince.getD now
    let backoff := max BACKOFF_MS (min failingFor MAX_BACKOFF_MS)
    (failingFor, { pair with cursor := some ⟨pair.position, failingSince, some (now + backoff)⟩ })
  match ran with
  | .handled => { pair with cursor := some ⟨next, none, none⟩ }
  | .unrun => (retry since).2
  | .failed =>
    let (failingFor, waiting) := retry (some (since.getD now))
    if failingFor < MAX_FAILING_MS then waiting
    else
      { waiting with
        enabled := false
        disabledReason := some ("Stopped after 72 hours of failing: " ++ summary) }

/-- `set_enabled`, which clears a plugin's failing as it is enabled. -/
def Pair.setEnabled (pair : Pair) (enabled : Bool) : Pair :=
  { pair with
    enabled
    disabledReason := none
    cursor := if enabled then pair.cursor.map fun cursor =>
        { cursor with failingSince := none, retryAt := none }
      else pair.cursor }

/-! ### Deliveries -/

/-- A delivery under way, which holds the claim of its plugin, library and hook. -/
inductive Delivery where
  /-- Waiting for its turn and a slot, since it was due at a position. -/
  | waiting (position : Nat)
  /-- What it read, which the plugin runs. -/
  | running (next : Nat) (event : Option Changes)
  | ran (next : Nat) (ran : Ran) (summary : String)
deriving DecidableEq, Repr

/-- A library, one hook of a plugin in it, and the IDs that the plugin holds. -/
structure World where
  catalog : Catalog
  pair : Pair
  delivery : Option Delivery
  view : List Id

def Changes.names (changes : Changes) (id : Id) : Prop := id ∈ changes.changed ∨ id ∈ changes.removed

/-- A plugin that keeps the IDs an event changed, and drops those it removed. -/
def Changes.apply (changes : Changes) (view : List Id) : List Id :=
  (view ∪ changes.changed).filter fun id => decide (id ∉ changes.removed)

/-- What a run may leave of the plugin's view: all that the event says, when it is handled, else any
part of it. -/
def Leaves (event : Option Changes) (view view' : List Id) : Ran → Prop
  | .handled => view' = event.elim view fun changes => changes.apply view
  | _ => ∀ id, (∀ changes ∈ event, ¬ changes.names id) → (id ∈ view' ↔ id ∈ view)

/-- A step of the library, the dispatcher, a delivery or the plugin. A crash loses a delivery, and so
does an outcome that cannot be recorded. -/
inductive Step (rules : Rules) (entity : Entity) (world : World) : World → Prop where
  | commit (now : Int) (w : Write) {c' : Catalog} (hw : world.catalog.write rules now w = some c') :
      Step rules entity world { world with catalog := c' }
  | grant (granted : Bool) :
      Step rules entity world { world with pair := { world.pair with granted } }
  | setEnabled (enabled : Bool) :
      Step rules entity world { world with pair := world.pair.setEnabled enabled }
  | claim (now : Int) (hfree : world.delivery = none)
      (hdue : due world.catalog entity world.pair now = true) :
      Step rules entity world { world with delivery := some (.waiting world.pair.position) }
  | read (now : Int) (hwaiting : world.delivery = some (.waiting world.pair.position))
      (hstill : due world.catalog entity world.pair now = true) :
      Step rules entity world { world with
        delivery := some (.running (batch world.catalog entity world.pair.position).1
          (batch world.catalog entity world.pair.position).2) }
  | run {next : Nat} {event : Option Changes} (ran : Ran) (summary : String) (view' : List Id)
      (hrunning : world.delivery = some (.running next event)) (hleaves : Leaves event world.view view' ran)
      (hnone : event = none → ran = .handled) :
      Step rules entity world { world with delivery := some (.ran next ran summary), view := view' }
  | record {next : Nat} {ran : Ran} {summary : String} (now : Int)
      (hran : world.delivery = some (.ran next ran summary)) :
      Step rules entity world { world with
        pair := Hooks.record world.pair next ran summary now, delivery := none }
  | lost : Step rules entity world { world with delivery := none }

inductive Run (rules : Rules) (entity : Entity) (world : World) : World → Prop where
  | refl : Run rules entity world world
  | step {world' world'' : World} :
      Run rules entity world world' → Step rules entity world' world'' → Run rules entity world world''

theorem Run.trans {rules : Rules} {entity : Entity} {world world' world'' : World}
    (h : Run rules entity world world') (h' : Run rules entity world' world'') :
    Run rules entity world world'' := by
  induction h' with
  | refl => exact h
  | step _ hstep ih => exact .step ih hstep

/-! ### What a batch says -/

variable {rules : Rules} {entity : Entity} {c c' : Catalog} {position next : Nat}
  {world world' : World}

/-- The keys of a hook's kind of entity. -/
def Kind (entity : Entity) (k : Entity × Id) : Prop := k.1 = entity

/-- Everything the log keeps of the feed. -/
abbrev Kept (c : Catalog) : Prop := Coalesced.Kept Change.key Change.seq c.feed c.lastSeq

theorem past_eq (h : Kept c) (entity : Entity) (position : Nat) :
    past c entity position =
      c.feed.filter fun row => decide (row.entity = entity ∧ position < row.seq) := by
  unfold past
  refine List.Pairwise.insertionSort_eq ?_
  exact (h.ordered.filter _).imp fun hlt => Nat.le_of_lt hlt

theorem mem_past (h : Kept c) {row : Change} :
    row ∈ past c entity position ↔ row ∈ c.feed ∧ row.entity = entity ∧ position < row.seq := by
  rw [past_eq h, List.mem_filter, decide_eq_true_eq]

theorem past_ordered (h : Kept c) (entity : Entity) (position : Nat) :
    (past c entity position).Pairwise fun a b => a.seq < b.seq := by
  rw [past_eq h]
  exact h.ordered.filter _

/-- A batch is empty only where nothing is past the position. -/
theorem batch_none (h : (batch c entity position).2 = none) :
    (batch c entity position).1 = position ∧ past c entity position = [] := by
  unfold batch at h ⊢
  dsimp only at h ⊢
  cases hlast : ((past c entity position).take BATCH).getLast? with
  | none =>
    refine ⟨rfl, ?_⟩
    have hnil := List.getLast?_eq_none_iff.mp hlast
    exact (List.take_eq_nil_iff.mp hnil).resolve_left (by decide)
  | some last =>
    rw [hlast] at h
    cases h

/-- What a batch holds: each change of its kind past the position and not past the next, by what became
of it. -/
theorem batch_some (h : Kept c) {changes : Changes} (hevent : (batch c entity position).2 = some changes) :
    position < (batch c entity position).1 ∧ (batch c entity position).1 ≤ c.lastSeq ∧
      (past c entity (batch c entity position).1) = (past c entity position).drop BATCH ∧
      ∀ id, (id ∈ changes.changed ↔ ∃ row ∈ c.feed, row.key = (entity, id) ∧ position < row.seq ∧
          row.seq ≤ (batch c entity position).1 ∧ row.op ≠ .delete) ∧
        (id ∈ changes.removed ↔ ∃ row ∈ c.feed, row.key = (entity, id) ∧ position < row.seq ∧
          row.seq ≤ (batch c entity position).1 ∧ row.op = .delete) := by
  have hordered := past_ordered h entity position
  unfold batch at hevent ⊢
  dsimp only at hevent ⊢
  cases hlast : ((past c entity position).take BATCH).getLast? with
  | none =>
    rw [hlast] at hevent
    cases hevent
  | some last =>
    rw [hlast] at hevent
    dsimp only at hevent ⊢
    have hmem : last ∈ past c entity position :=
      (List.take_sublist _ _).subset (List.mem_of_getLast? hlast)
    obtain ⟨hfeed, _, hpast⟩ := (mem_past h).mp hmem
    have hrest : past c entity last.seq = (past c entity position).drop BATCH := by
      rw [← Coalesced.filter_past hordered hlast, past_eq h, past_eq h, List.filter_filter]
      apply List.filter_congr
      intro row _
      rw [← Bool.decide_and]
      exact decide_eq_decide.mpr ⟨fun hrow => ⟨hrow.2, hrow.1, Nat.lt_trans hpast hrow.2⟩,
        fun hrow => ⟨hrow.2.1, hrow.1⟩⟩
    have hids : ∀ (p : Op → Prop) [DecidablePred p] (id : Id),
        id ∈ (((past c entity position).take BATCH).filter fun row => decide (p row.op)).map Change.id ↔
          ∃ row ∈ c.feed, row.key = (entity, id) ∧ position < row.seq ∧ row.seq ≤ last.seq ∧
            p row.op := by
      intro p _ id
      constructor
      · intro hid
        obtain ⟨row, hrow, rfl⟩ := List.mem_map.mp hid
        obtain ⟨htaken, hop⟩ := List.mem_filter.mp hrow
        have hin := (List.take_sublist _ _).subset htaken
        obtain ⟨hheld, rfl, hafter⟩ := (mem_past h).mp hin
        exact ⟨row, hheld, rfl, hafter, (Coalesced.mem_take_iff hordered hlast hin).mp htaken,
          of_decide_eq_true hop⟩
      · rintro ⟨row, hheld, hkey, hafter, hle, hop⟩
        obtain ⟨rfl, rfl⟩ := Prod.mk_inj.mp hkey
        have hin := (mem_past h).mpr ⟨hheld, rfl, hafter⟩
        have htaken := (Coalesced.mem_take_iff hordered hlast hin).mpr hle
        exact List.mem_map_of_mem (List.mem_filter.mpr ⟨htaken, decide_eq_true hop⟩)
    obtain rfl := Option.some.inj hevent
    exact ⟨hpast, h.le last hfeed, hrest, fun id => ⟨hids (· ≠ .delete) id, hids (· = .delete) id⟩⟩

/-! ### Following -/

/-- A view that is right of each entity of the hook's kind with no change past a position. -/
structure Right (entity : Entity) (c : Catalog) (view : List Id) (position : Nat) : Prop where
  le : position ≤ c.lastSeq
  follows : Coalesced.Follows Change.key Change.seq (Kind entity) c.feed (fun k => c.has k.1 k.2)
    (fun k => k.2 ∈ view) position

/-- The view is right up to the position, and a delivery read its batch there, or the plugin took it. -/
structure Following (rules : Rules) (entity : Entity) (world : World) : Prop where
  reachable : Reachable rules world.catalog
  right : Right entity world.catalog world.view world.pair.position
  running : ∀ next event, world.delivery = some (.running next event) →
    ∃ c : Catalog, Reachable rules c ∧ Later rules c world.catalog ∧
      world.pair.position ≤ c.lastSeq ∧ batch c entity world.pair.position = (next, event)
  handled : ∀ next summary, world.delivery = some (.ran next .handled summary) →
    Right entity world.catalog world.view next

theorem tells (hne : entity ≠ .library) (h : Reachable rules c) :
    Coalesced.Tells Change.key (fun row => row.op = .upsert) (Kind entity) c.feed
      (fun k => c.has k.1 k.2) := fun k hk =>
  (Catalog.telling_reachable h).keys k fun heq => hne (Eq.trans (Eq.symm hk) heq)

/-- What later transactions change is past the position. -/
theorem Right.later {view : List Id} (hr : Right entity c view position) (hne : entity ≠ .library)
    (h : Reachable rules c) (hl : Later rules c c') : Right entity c' view position := by
  have hfeeds := Catalog.feeds_later h hl
  exact ⟨Nat.le_trans hr.le hfeeds.le, hr.follows.later (Catalog.telling_reachable h).kept hfeeds
    (tells hne h) (tells hne (Catalog.later_reachable h hl)) hr.le⟩

theorem position_record (pair : Pair) (next : Nat) (ran : Ran) (summary : String) (now : Int) :
    (record pair next ran summary now).position = if ran = .handled then next else pair.position := by
  cases ran with
  | handled => rfl
  | unrun => rfl
  | failed =>
    unfold record
    dsimp only
    split <;> rfl

theorem position_setEnabled (pair : Pair) (enabled : Bool) :
    (pair.setEnabled enabled).position = pair.position := by
  obtain ⟨_, _, _, cursor⟩ := pair
  cases enabled <;> cases cursor <;> rfl

theorem Changes.mem_apply (changes : Changes) {view : List Id} {id : Id} :
    id ∈ changes.apply view ↔ (id ∈ view ∨ id ∈ changes.changed) ∧ id ∉ changes.removed := by
  unfold Changes.apply
  rw [List.mem_filter, List.mem_union_iff, decide_eq_true_eq]

theorem Changes.apply_of_not_names (changes : Changes) {view : List Id} {id : Id}
    (h : ¬ changes.names id) : id ∈ changes.apply view ↔ id ∈ view := by
  obtain ⟨hchanged, hremoved⟩ := not_or.mp h
  rw [changes.mem_apply, or_iff_left hchanged, and_iff_left hremoved]

/-- An event read at an earlier commit, once the plugin handled it. -/
theorem Right.handled {view : List Id} {event : Option Changes} (hr : Right entity c' view position)
    (hne : entity ≠ .library) (h : Reachable rules c) (hl : Later rules c c')
    (hbatch : batch c entity position = (next, event)) :
    Right entity c' (event.elim view fun changes => changes.apply view) next := by
  have hkept := (Catalog.telling_reachable h).kept
  have hfeeds := Catalog.feeds_later h hl
  obtain ⟨hfirst, hsecond⟩ := Prod.ext_iff.mp hbatch
  dsimp only at hfirst hsecond
  cases event with
  | none =>
    obtain ⟨hsame, _⟩ := batch_none hsecond
    rw [← hfirst, hsame]
    exact hr
  | some changes =>
    obtain ⟨_, hnext, _, hids⟩ := batch_some hkept hsecond
    rw [hfirst] at hnext hids
    have hreachable := Catalog.later_reachable h hl
    refine ⟨Nat.le_trans hnext hfeeds.le, ?_⟩
    refine hr.follows.read hkept (Catalog.telling_reachable hreachable).kept hfeeds
      (tells hne hreachable) hnext (fun row hrow hkind hpast hle => ?_) fun k hkind hnone => ?_
    · have hkey : row.key = (entity, row.id) := Prod.ext hkind rfl
      refine changes.mem_apply.trans ?_
      cases hop : row.op with
      | upsert =>
        refine iff_of_true ⟨Or.inr ((hids row.id).1.mpr ⟨row, hrow, hkey, hpast, hle, ?_⟩), fun hgone => ?_⟩ rfl
        · rw [hop]
          decide
        · obtain ⟨other, hother, hsame, _, _, hdelete⟩ := (hids row.id).2.mp hgone
          rw [List.inj_on_of_nodup_map hkept.nodup hother hrow (hsame.trans hkey.symm), hop] at hdelete
          cases hdelete
      | delete =>
        exact iff_of_false (fun hin => hin.2 ((hids row.id).2.mpr ⟨row, hrow, hkey, hpast, hle, hop⟩))
          Catalog.delete_ne_upsert
    · refine changes.apply_of_not_names fun hnames => ?_
      rcases hnames with hin | hin
      · obtain ⟨row, hrow, hkey, hpast, hle, _⟩ := (hids k.2).1.mp hin
        exact hnone row hrow (hkey.trans (Prod.ext (Eq.symm hkind) rfl)) hpast hle
      · obtain ⟨row, hrow, hkey, hpast, hle, _⟩ := (hids k.2).2.mp hin
        exact hnone row hrow (hkey.trans (Prod.ext (Eq.symm hkind) rfl)) hpast hle

/-- A run of an event changes the view only of what it names. -/
theorem Leaves.others {event : Option Changes} {view view' : List Id} {ran : Ran}
    (h : Leaves event view view' ran) {id : Id} (hnot : ∀ changes ∈ event, ¬ changes.names id) :
    id ∈ view' ↔ id ∈ view := by
  cases ran with
  | handled =>
    rw [show view' = _ from h]
    cases event with
    | none => exact Iff.rfl
    | some changes => exact changes.apply_of_not_names (hnot changes rfl)
  | failed => exact h id hnot
  | unrun => exact h id hnot

/-- A batch names only what changed past the position. -/
theorem not_names_of_batch (h : Kept c) {event : Option Changes}
    (hbatch : batch c entity position = (next, event)) {id : Id}
    (hnone : ∀ row ∈ c.feed, row.key = (entity, id) → ¬ position < row.seq) :
    ∀ changes ∈ event, ¬ changes.names id := by
  rintro changes hevent hnames
  have hsecond : (batch c entity position).2 = some changes := (congrArg Prod.snd hbatch).trans hevent
  obtain ⟨_, _, _, hids⟩ := batch_some h hsecond
  rcases hnames with hin | hin
  · obtain ⟨row, hrow, hkey, hpast, _⟩ := (hids id).1.mp hin
    exact hnone row hrow hkey hpast
  · obtain ⟨row, hrow, hkey, hpast, _⟩ := (hids id).2.mp hin
    exact hnone row hrow hkey hpast

/-- Whatever is done next, the view stays right up to the position. -/
theorem Following.step (hne : entity ≠ .library) (h : Following rules entity world)
    (hs : Step rules entity world world') : Following rules entity world' := by
  cases hs with
  | commit now w hw =>
    have hlater : Later rules world.catalog _ := .write now w (.refl _) hw
    refine ⟨Catalog.later_reachable h.reachable hlater, h.right.later hne h.reachable hlater,
      fun next event hrunning => ?_, fun next summary hran => ?_⟩
    · obtain ⟨c, hc, hl, hle, hbatch⟩ := h.running next event hrunning
      exact ⟨c, hc, .write now w hl hw, hle, hbatch⟩
    · exact (h.handled next summary hran).later hne h.reachable hlater
  | grant granted => exact ⟨h.reachable, h.right, h.running, h.handled⟩
  | setEnabled enabled =>
    have hposition := position_setEnabled world.pair enabled
    exact ⟨h.reachable, hposition.symm ▸ h.right, hposition.symm ▸ h.running, h.handled⟩
  | claim now hfree hdue =>
    exact ⟨h.reachable, h.right, fun _ _ hrunning => (by cases hrunning),
      fun _ _ hran => (by cases hran)⟩
  | read now hwaiting hstill =>
    refine ⟨h.reachable, h.right, fun next event hrunning => ?_, fun _ _ hran => by cases hran⟩
    obtain ⟨rfl, rfl⟩ := Delivery.running.inj (Option.some.inj hrunning)
    exact ⟨world.catalog, h.reachable, .refl _, h.right.le, rfl⟩
  | @run next event ran summary view' hrunning hleaves hnone =>
    obtain ⟨c, hc, hl, hle, hbatch⟩ := h.running next event hrunning
    have hkept := (Catalog.telling_reachable hc).kept
    refine ⟨h.reachable, ⟨h.right.le, ?_⟩, fun _ _ hrunning => (by cases hrunning),
      fun next' summary' hran => ?_⟩
    · refine h.right.follows.torn hkept (Catalog.feeds_later hc hl) hle fun k hkind hnot => ?_
      exact hleaves.others (not_names_of_batch hkept hbatch fun row hrow hkey =>
        hnot row hrow (hkey.trans (Prod.ext (Eq.symm hkind) rfl)))
    · obtain ⟨rfl, rfl, rfl⟩ := Delivery.ran.inj (Option.some.inj hran)
      rw [show view' = _ from hleaves]
      exact h.right.handled hne hc hl hbatch
  | @record next ran summary now hran =>
    refine ⟨h.reachable, ?_, fun _ _ hrunning => (by cases hrunning),
      fun _ _ hran => (by cases hran)⟩
    dsimp only
    rw [position_record]
    split
    · rename_i hhandled
      exact h.handled next summary (hhandled ▸ hran)
    · exact h.right
  | lost =>
    exact ⟨h.reachable, h.right, fun _ _ hrunning => (by cases hrunning),
      fun _ _ hran => (by cases hran)⟩

/-! ### Runs -/

/-- A hook new to a library, which starts before every change. -/
def World.new (c : Catalog) (pair : Pair) : World := ⟨c, { pair with cursor := none }, none, []⟩

theorem following_new (hne : entity ≠ .library) (h : Reachable rules c) (pair : Pair) :
    Following rules entity (.new c pair) where
  reachable := h
  right := by
    refine ⟨Nat.zero_le _, fun k hkind hnone => ?_⟩
    refine iff_of_false List.not_mem_nil fun hhas => ?_
    obtain ⟨row, hrow, hkey, _⟩ := (tells hne h k hkind).mp hhas
    exact Nat.not_lt.mpr (hnone row hrow hkey) ((Catalog.telling_reachable h).kept.pos row hrow)
  running := fun _ _ hrunning => by cases hrunning
  handled := fun _ _ hran => by cases hran

theorem following_run (hne : entity ≠ .library) (h : Following rules entity world)
    (hrun : Run rules entity world world') : Following rules entity world' := by
  induction hrun with
  | refl => exact h
  | step _ hstep ih => exact ih.step hne hstep

/-- Whatever the library, the dispatcher, the deliveries and the plugin do, in any order, the plugin's
view is right of each entity whose changes, if any, the hook's position has passed. -/
theorem view_of_run (hne : entity ≠ .library) (h : Reachable rules c) {pair : Pair}
    (hrun : Run rules entity (.new c pair) world) {id : Id}
    (hpassed : ∀ row ∈ world.catalog.feed, row.key = (entity, id) →
      row.seq ≤ world.pair.position) : id ∈ world.view ↔ world.catalog.has entity id :=
  (following_run hne (following_new hne h pair) hrun).right.follows (entity, id) rfl hpassed

/-- A hook granted to an enabled plugin, in a library whose first file was scanned. -/
def onScanned : World := .new Catalog.scanned ⟨true, none, true, none⟩

/-- A delivery that is handled with nothing committed meanwhile. -/
def World.delivered (entity : Entity) (world : World) (now : Int) : World :=
  let (next, event) := batch world.catalog entity world.pair.position
  { world with
    pair := Hooks.record world.pair next .handled "" now
    delivery := none
    view := event.elim world.view fun changes => changes.apply world.view }

/-- A delivery handled is a run of its claim, its read, its run and its record. -/
theorem run_delivered (hfree : world.delivery = none) {now : Int}
    (hdue : due world.catalog entity world.pair now = true) :
    Run rules entity world (world.delivered entity now) := by
  have hclaimed : Run rules entity world { world with delivery := some (.waiting world.pair.position) } :=
    .step .refl (.claim now hfree hdue)
  have hread := Run.step hclaimed (.read now rfl hdue)
  have hran := Run.step hread (.run .handled "" _ rfl rfl fun _ => rfl)
  exact .step hran (.record now rfl)

/-- What is past the position once a delivery is handled. -/
theorem past_delivered (h : Kept world.catalog) (now : Int) :
    past world.catalog entity (world.delivered entity now).pair.position =
      (past world.catalog entity world.pair.position).drop BATCH := by
  change past world.catalog entity (batch world.catalog entity world.pair.position).1 = _
  cases hevent : (batch world.catalog entity world.pair.position).2 with
  | none =>
    obtain ⟨hsame, hnil⟩ := batch_none hevent
    rw [hsame, hnil, List.drop_nil]
  | some changes => exact (batch_some h hevent).2.2.1

theorem due_iff (h : Kept c) (pair : Pair) (now : Int) :
    due c entity pair now = true ↔
      pair.ready now = true ∧ pair.granted = true ∧ past c entity pair.position ≠ [] := by
  unfold due
  rw [Bool.and_eq_true, Bool.and_eq_true, and_assoc]
  refine and_congr_right fun _ => and_congr_right fun _ => ?_
  rw [List.any_eq_true]
  constructor
  · rintro ⟨row, hrow, hpast⟩
    exact List.ne_nil_of_mem ((mem_past h).mpr ⟨hrow, of_decide_eq_true hpast⟩)
  · intro hne
    obtain ⟨row, hmem⟩ := List.exists_mem_of_ne_nil _ hne
    obtain ⟨hrow, hpast⟩ := (mem_past h).mp hmem
    exact ⟨row, hrow, decide_eq_true hpast⟩

theorem Following.caught_up (h : Following rules entity world)
    (hnone : past world.catalog entity world.pair.position = []) (id : Id) :
    id ∈ world.view ↔ world.catalog.has entity id := by
  have hkept := (Catalog.telling_reachable h.reachable).kept
  refine h.right.follows (entity, id) rfl fun row hrow hkey => Nat.not_lt.mp fun hpast => ?_
  have hmem := (mem_past hkept).mpr ⟨hrow, (Prod.ext_iff.mp hkey).1, hpast⟩
  rw [hnone] at hmem
  cases hmem

/-- Deliveries that are handled one after another, with nothing committed meanwhile. -/
def World.deliver (entity : Entity) (now : Int) : Nat → World → World
  | 0, world => world
  | n + 1, world => World.deliver entity now n (world.delivered entity now)

/-- How many deliveries the changes past a hook's position make. -/
def World.deliveries (entity : Entity) (world : World) : Nat :=
  ((past world.catalog entity world.pair.position).length + (BATCH - 1)) / BATCH

/-- A delivery more takes a batch off what is past the position. -/
theorem deliveries_delivered (h : Kept world.catalog) (now : Int)
    (hsome : past world.catalog entity world.pair.position ≠ []) :
    (world.delivered entity now).deliveries entity + 1 = world.deliveries entity := by
  have hpos := List.length_pos_of_ne_nil hsome
  have hrest : (past (world.delivered entity now).catalog entity
      (world.delivered entity now).pair.position).length =
        (past world.catalog entity world.pair.position).length - BATCH :=
    (congrArg List.length (past_delivered h now)).trans List.length_drop
  unfold World.deliveries
  rw [hrest]
  unfold BATCH
  omega

theorem ready_delivered {now : Int} (hready : world.pair.ready now = true) :
    (world.delivered entity now).pair.ready now = true := by
  unfold Pair.ready at hready ⊢
  exact Bool.and_eq_true_iff.mpr ⟨(Bool.and_eq_true_iff.mp hready).1, rfl⟩

theorem past_of_no_deliveries (hnone : world.deliveries entity = 0) :
    past world.catalog entity world.pair.position = [] := by
  unfold World.deliveries BATCH at hnone
  refine List.length_eq_zero_iff.mp ?_
  omega

theorem Following.catches_up (hne : entity ≠ .library) (n : Nat) (h : Following rules entity world)
    (hn : world.deliveries entity = n) (hfree : world.delivery = none)
    (hgranted : world.pair.granted = true) {now : Int} (hready : world.pair.ready now = true) :
    (∀ k < n, due world.catalog entity (world.deliver entity now k).pair now = true) ∧
      Run rules entity world (world.deliver entity now n) ∧
      (world.deliver entity now n).catalog = world.catalog ∧
      due world.catalog entity (world.deliver entity now n).pair now = false ∧
      ∀ id, id ∈ (world.deliver entity now n).view ↔ world.catalog.has entity id := by
  have hkept := (Catalog.telling_reachable h.reachable).kept
  induction n generalizing world with
  | zero =>
    have hnone := past_of_no_deliveries hn
    refine ⟨fun k hk => absurd hk (Nat.not_lt_zero k), .refl, rfl, ?_, h.caught_up hnone⟩
    refine Bool.eq_false_iff.mpr fun hdue => ?_
    exact ((due_iff hkept _ now).mp hdue).2.2 hnone
  | succ n ih =>
    have hsome : past world.catalog entity world.pair.position ≠ [] := by
      intro hnone
      unfold World.deliveries at hn
      rw [hnone] at hn
      cases hn
    have hdue : due world.catalog entity world.pair now = true :=
      (due_iff hkept _ now).mpr ⟨hready, hgranted, hsome⟩
    have hdelivered : Run rules entity world (world.delivered entity now) :=
      run_delivered hfree hdue
    have hrest : (world.delivered entity now).deliveries entity = n := by
      have hmore := deliveries_delivered hkept now hsome
      omega
    obtain ⟨hdues, hrun, hsame, hdone, hview⟩ := ih (following_run hne h hdelivered) hrest rfl hgranted
      (ready_delivered hready) hkept
    refine ⟨fun k hk => ?_, hdelivered.trans hrun, hsame, hdone, hview⟩
    cases k with
    | zero => exact hdue
    | succ k => exact hdues k (Nat.lt_of_succ_lt_succ hk)

/-- A hook that is ready and granted, with no delivery under way, comes by as many deliveries handled as
its changes make batches to where its plugin's view is exactly what there is: each is due as the one
before it is handled, and after them none is. -/
theorem reaches_head (hne : entity ≠ .library) (h : Reachable rules c) {pair : Pair}
    (hrun : Run rules entity (.new c pair) world) (hfree : world.delivery = none)
    (hgranted : world.pair.granted = true) {now : Int} (hready : world.pair.ready now = true) :
    let n := world.deliveries entity
    (∀ k < n, due world.catalog entity (world.deliver entity now k).pair now = true) ∧
      Run rules entity world (world.deliver entity now n) ∧
      (world.deliver entity now n).catalog = world.catalog ∧
      due world.catalog entity (world.deliver entity now n).pair now = false ∧
      ∀ id, id ∈ (world.deliver entity now n).view ↔ world.catalog.has entity id :=
  (following_run hne (following_new hne h pair) hrun).catches_up hne _ rfl hfree hgranted hready

theorem run_onScanned : Run Catalog.plainRules .track onScanned (onScanned.delivered .track 9) :=
  run_delivered rfl (by decide)

theorem view_of_delivered : (onScanned.delivered .track 9).view = [10] ∧
    (10 ∈ (onScanned.delivered .track 9).view ↔
      (onScanned.delivered .track 9).catalog.has .track 10) :=
  ⟨by decide, view_of_run (by decide) Catalog.reachable_scanned run_onScanned (by decide)⟩

theorem ready_onScanned : onScanned.pair.ready 9 = true := rfl

theorem reaches_head_scanned : onScanned.deliveries .track = 1 ∧
    due onScanned.catalog .track (onScanned.deliver .track 9 1).pair 9 = false ∧
    ∀ id, id ∈ (onScanned.deliver .track 9 1).view ↔ onScanned.catalog.has .track id := by
  have hone : onScanned.deliveries .track = 1 := by decide
  have hne : Entity.track ≠ .library := by decide
  have hreaches := reaches_head hne Catalog.reachable_scanned .refl rfl rfl ready_onScanned
  change World.deliveries .track (.new Catalog.scanned _) = 1 at hone
  rw [hone] at hreaches
  exact ⟨hone, hreaches.2.2.2⟩

end JewelCase.Plugins.Hooks
