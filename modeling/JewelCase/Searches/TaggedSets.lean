import Mathlib.Data.Finset.Dedup
import Mathlib.Data.Finset.Insert
import JewelCase.Content.Carried

/-!
# Tagged rows kept for searches

`crates/server/src/api/search/tagged.rs`: the rows that carry a search's tags, kept while the library's
change feed has nothing newer. Searches run beside one another and beside transactions, each on the
snapshot its read began with, and meet at the kept rows.
-/
namespace JewelCase.Searches.Tagged

set_option autoImplicit false

open Library Content JewelCase.Search

/-- How many filters' rows are kept. -/
def KEPT : Nat := 4

/-- For each kind the IDs of its rows that carry a search's tags. -/
abbrev Sets := Kind → Finset Id

/-- What kept rows are found by: the library, the tags as the filter's `tagAll` and `tagAny` name them,
each once, and the kinds searched. -/
structure Key where
  library : Id
  all : Finset (Option Id)
  any : Finset (Option Id)
  kinds : Finset Kind
deriving DecidableEq

/-- A library's content as a read transaction finds it. -/
abbrev Snapshot (rules : Rules) := { c : Catalog // Reachable rules c }

/-- A search of some kinds by tags. -/
structure Request where
  filter : Filters.TagFilter
  kinds : List Kind
  named : filter.isEmpty = false

def Request.key (request : Request) (library : Id) : Key :=
  ⟨library, request.filter.all.toFinset, request.filter.any.toFinset, request.kinds.toFinset⟩

/-- Reads the rows of each of the kinds searched. -/
def read {rules : Rules} (snapshot : Snapshot rules) (request : Request) : Sets := fun kind =>
  if kind ∈ request.kinds then
    ((Catalog.settled_reachable snapshot.2).taggedIds request.filter kind).toFinset
  else ∅

/-- Rows read for searches, with the head of the feed when they were read. -/
structure Entry where
  key : Key
  head : Nat
  sets : Sets

/-- The rows kept for `key` at feed head `head`, moved to most recently used. -/
def used (kept : List Entry) (key : Key) (head : Nat) : Option (Sets × List Entry) :=
  (kept.find? fun entry => decide (entry.key = key ∧ entry.head = head)).map fun entry =>
    (entry.sets, kept.eraseP (fun entry => decide (entry.key = key ∧ entry.head = head)) ++ [entry])

/-- Keeps rows that were read, in place of those of the same key, or of the least recently used. -/
def store (kept : List Entry) (entry : Entry) : List Entry :=
  let others := kept.filter fun other => decide (other.key ≠ entry.key)
  (if others.length = KEPT then others.tail else others) ++ [entry]

/-! ### Runs -/

/-- A search's answer, and the snapshot it read. -/
structure Answer (rules : Rules) where
  request : Request
  snapshot : Snapshot rules
  sets : Sets

/-- A library's commits, the latest first, what is kept, and the searches answered. -/
structure World (rules : Rules) where
  commits : List (Snapshot rules)
  kept : List Entry
  answers : List (Answer rules)

/-- A commit, a step of a search of `library`, or one of another library's. A search looks for rows kept
for its snapshot, and where it finds none reads them, and keeps them at any later moment. -/
inductive Step {rules : Rules} (library : Id) (world : World rules) : World rules → Prop where
  | commit {latest next : Snapshot rules} {earlier : List (Snapshot rules)} (now : Int) (w : Write)
      (hlatest : world.commits = latest :: earlier)
      (hw : latest.1.write rules now w = some next.1) :
      Step library world { world with commits := next :: world.commits }
  | found {snapshot : Snapshot rules} (request : Request) {sets : Sets} {kept : List Entry}
      (hsnapshot : snapshot ∈ world.commits)
      (hused : used world.kept (request.key library) snapshot.1.head = some (sets, kept)) :
      Step library world
        { world with kept, answers := ⟨request, snapshot, sets⟩ :: world.answers }
  | stored {snapshot : Snapshot rules} (request : Request) (hsnapshot : snapshot ∈ world.commits) :
      Step library world { world with
        kept := store world.kept ⟨request.key library, snapshot.1.head, read snapshot request⟩
        answers := ⟨request, snapshot, read snapshot request⟩ :: world.answers }
  | foundElsewhere {key : Key} {head : Nat} {sets : Sets} {kept : List Entry}
      (hused : used world.kept key head = some (sets, kept)) :
      Step library world { world with kept }
  | storedElsewhere {entry : Entry} (helsewhere : entry.key.library ≠ library) :
      Step library world { world with kept := store world.kept entry }

inductive Run {rules : Rules} (library : Id) (world : World rules) : World rules → Prop where
  | refl : Run library world world
  | step {world' world'' : World rules} :
      Run library world world' → Step library world' world'' → Run library world world''

/-- A library as it stands, with nothing kept. -/
def World.new {rules : Rules} (snapshot : Snapshot rules) : World rules := ⟨[snapshot], [], []⟩

variable {rules : Rules} {library : Id} {world world' : World rules}
  {snapshot snapshot' : Snapshot rules} {request request' : Request}

/-! ### Rows read once -/

theorem mem_read {kind : Kind} {id : Id} :
    id ∈ read snapshot request kind ↔
      kind ∈ request.kinds ∧ snapshot.1.Asks request.filter kind id := by
  unfold read
  split
  · rename_i hkind
    rw [List.mem_toFinset, Catalog.mem_taggedIds _ request.named]
    exact (and_iff_right hkind).symm
  · rename_i hkind
    exact iff_of_false (Finset.notMem_empty id) fun h => hkind h.1

/-- Searches by the same key read the same rows while a library's head stays. -/
theorem read_same (hl : Later rules snapshot.1 snapshot'.1 ∨ Later rules snapshot'.1 snapshot.1)
    (hhead : snapshot'.1.head = snapshot.1.head)
    (hkey : request'.key library = request.key library) :
    read snapshot' request' = read snapshot request := by
  obtain ⟨_, hall, hany, hkinds⟩ := Key.mk.inj hkey
  have hquiet : snapshot.1.Quiet snapshot'.1 := by
    rcases hl with hl | hl
    · exact Catalog.quiet_of_head snapshot.2 hl hhead
    · exact (Catalog.quiet_of_head snapshot'.2 hl hhead.symm).symm
  have hallmem : ∀ tag, tag ∈ request'.filter.all ↔ tag ∈ request.filter.all := fun tag => by
    rw [← List.mem_toFinset, hall, List.mem_toFinset]
  have hanymem : ∀ tag, tag ∈ request'.filter.any ↔ tag ∈ request.filter.any := fun tag => by
    rw [← List.mem_toFinset, hany, List.mem_toFinset]
  funext kind
  have hkind : kind ∈ request'.kinds ↔ kind ∈ request.kinds := by
    rw [← List.mem_toFinset, hkinds, List.mem_toFinset]
  apply Finset.ext
  intro id
  rw [mem_read, mem_read, hkind]
  refine and_congr_right fun _ => ⟨fun hasks => ?_, fun hasks => hquiet.asks hallmem hanymem hasks⟩
  exact hquiet.symm.asks (fun tag => (hallmem tag).symm) (fun tag => (hanymem tag).symm) hasks

/-! ### Rows kept -/

/-- Rows are kept as some search of the library read them from a commit. -/
def Entry.Holds (library : Id) (commits : List (Snapshot rules)) (entry : Entry) : Prop :=
  entry.key.library = library → ∃ snapshot ∈ commits, ∃ request : Request,
    entry.key = request.key library ∧ entry.head = snapshot.1.head ∧
      entry.sets = read snapshot request

theorem mem_of_used {kept kept' : List Entry} {key : Key} {head : Nat} {sets : Sets}
    (h : used kept key head = some (sets, kept')) :
    (∃ entry ∈ kept, entry.key = key ∧ entry.head = head ∧ entry.sets = sets) ∧
      (∀ entry ∈ kept', entry ∈ kept) ∧ kept'.length = kept.length := by
  unfold used at h
  obtain ⟨entry, hfind, hused⟩ := Option.map_eq_some_iff.mp h
  obtain ⟨rfl, rfl⟩ := Prod.mk_inj.mp hused
  have hmem := List.mem_of_find?_eq_some hfind
  have hfound := List.find?_some hfind
  obtain ⟨hkey, hhead⟩ := of_decide_eq_true hfound
  refine ⟨⟨entry, hmem, hkey, hhead, rfl⟩, fun other hother => ?_, ?_⟩
  · rcases List.mem_append.mp hother with hother | hother
    · exact List.mem_of_mem_eraseP hother
    · exact List.mem_singleton.mp hother ▸ hmem
  · have hpos := List.length_pos_of_mem hmem
    rw [List.length_append, List.length_eraseP_of_mem hmem hfound, List.length_singleton]
    omega

theorem mem_store {kept : List Entry} {entry other : Entry} (h : other ∈ store kept entry) :
    other ∈ kept ∨ other = entry := by
  unfold store at h
  dsimp only at h
  rcases List.mem_append.mp h with h | h
  · refine Or.inl ?_
    split at h
    · exact (List.mem_filter.mp (List.mem_of_mem_tail h)).1
    · exact (List.mem_filter.mp h).1
  · exact Or.inr (List.mem_singleton.mp h)

theorem length_store {kept : List Entry} (entry : Entry) (h : kept.length ≤ KEPT) :
    (store kept entry).length ≤ KEPT := by
  have hothers := List.length_filter_le (fun other => decide (other.key ≠ entry.key)) kept
  unfold store
  dsimp only
  rw [List.length_append, List.length_singleton]
  split
  · rename_i hfull
    rw [List.length_tail, hfull]
    decide
  · omega

/-- Commits follow one another, what is kept was read from one, and each answer is what its snapshot
reads. -/
structure Sound (library : Id) (world : World rules) : Prop where
  chain : world.commits.Pairwise fun later earlier => Later rules earlier.1 later.1
  kept : ∀ entry ∈ world.kept, entry.Holds library world.commits
  few : world.kept.length ≤ KEPT
  answers : ∀ answer ∈ world.answers, answer.sets = read answer.snapshot answer.request

theorem Sound.related (h : Sound library world) (hs : snapshot ∈ world.commits)
    (hs' : snapshot' ∈ world.commits) :
    Later rules snapshot.1 snapshot'.1 ∨ Later rules snapshot'.1 snapshot.1 := by
  have heither := List.Pairwise.forall_of_forall_of_flip
    (R := fun s s' : Snapshot rules => Later rules s.1 s'.1 ∨ Later rules s'.1 s.1)
    (fun _ _ => Or.inl (.refl _)) (h.chain.imp Or.inr) (h.chain.imp Or.inl)
  exact heither hs hs'

theorem Entry.Holds.more {entry : Entry} {commits more : List (Snapshot rules)}
    (h : entry.Holds library commits) (hmore : ∀ s ∈ commits, s ∈ more) :
    entry.Holds library more := fun hlibrary => by
  obtain ⟨s, hs, hread⟩ := h hlibrary
  exact ⟨s, hmore s hs, hread⟩

theorem Sound.step (h : Sound library world) (hs : Step library world world') :
    Sound library world' := by
  cases hs with
  | @commit latest next earlier now w hlatest hw =>
    refine ⟨List.pairwise_cons.mpr ⟨fun s hs => ?_, h.chain⟩, fun entry hentry => ?_, h.few, h.answers⟩
    · have hlast : Later rules latest.1 next.1 := .write now w (.refl _) hw
      have hchain := h.chain
      rw [hlatest] at hs hchain
      rcases List.mem_cons.mp hs with rfl | hs
      · exact hlast
      · exact ((List.pairwise_cons.mp hchain).1 s hs).trans hlast
    · exact (h.kept entry hentry).more fun s hs => List.mem_cons_of_mem next hs
  | @found snapshot request sets kept hsnapshot hused =>
    obtain ⟨⟨entry, hentry, hkey, hhead, rfl⟩, hkept, hlength⟩ := mem_of_used hused
    refine ⟨h.chain, fun other hother => h.kept other (hkept other hother), hlength ▸ h.few,
      List.forall_mem_cons.mpr ⟨?_, h.answers⟩⟩
    obtain ⟨s, hs, request', hkey', hhead', hread⟩ := h.kept entry hentry (by rw [hkey]; rfl)
    rw [hread]
    exact read_same (h.related hsnapshot hs) (hhead'.symm.trans hhead) (hkey'.symm.trans hkey)
  | @stored snapshot request hsnapshot =>
    refine ⟨h.chain, fun entry hentry => ?_, length_store _ h.few,
      List.forall_mem_cons.mpr ⟨rfl, h.answers⟩⟩
    rcases mem_store hentry with hentry | rfl
    · exact h.kept entry hentry
    · exact fun _ => ⟨snapshot, hsnapshot, request, rfl, rfl, rfl⟩
  | foundElsewhere hused =>
    obtain ⟨_, hkept, hlength⟩ := mem_of_used hused
    exact ⟨h.chain, fun other hother => h.kept other (hkept other hother), hlength ▸ h.few, h.answers⟩
  | @storedElsewhere entry helsewhere =>
    refine ⟨h.chain, fun other hother => ?_, length_store _ h.few, h.answers⟩
    rcases mem_store hother with hother | rfl
    · exact h.kept other hother
    · exact fun hlibrary => absurd hlibrary helsewhere

theorem sound_run (h : Sound library world) (hrun : Run library world world') :
    Sound library world' := by
  induction hrun with
  | refl => exact h
  | step _ hstep ih => exact ih.step hstep

/-- However searches, transactions and other libraries' searches fall, each search is answered what its
own snapshot reads, and few rows are kept. -/
theorem answers_of_run (hrun : Run library (.new snapshot) world) :
    (∀ answer ∈ world.answers, answer.sets = read answer.snapshot answer.request) ∧
      world.kept.length ≤ KEPT := by
  have hsound := sound_run ⟨List.pairwise_singleton _ _, fun _ h => absurd h List.not_mem_nil,
    Nat.zero_le _, fun _ h => absurd h List.not_mem_nil⟩ hrun
  exact ⟨hsound.answers, hsound.few⟩

/-- A search of albums by one genre. -/
def byGenre : Request := ⟨⟨[some 40], []⟩, [.album], rfl⟩

def onScanned : Snapshot Catalog.plainRules := ⟨Catalog.scanned, Catalog.reachable_scanned⟩

def searchedOnce : World Catalog.plainRules where
  commits := [onScanned]
  kept := [⟨byGenre.key 1, onScanned.1.head, read onScanned byGenre⟩]
  answers := [⟨byGenre, onScanned, read onScanned byGenre⟩]

theorem run_searchedOnce : Run 1 (.new onScanned) searchedOnce :=
  .step .refl (.stored byGenre (List.mem_singleton_self _))

theorem answers_of_searchedOnce : read onScanned byGenre .album = {30} ∧
    (∀ answer ∈ searchedOnce.answers, answer.sets = read answer.snapshot answer.request) ∧
      searchedOnce.kept.length ≤ KEPT :=
  ⟨by decide, answers_of_run run_searchedOnce⟩

end JewelCase.Searches.Tagged
