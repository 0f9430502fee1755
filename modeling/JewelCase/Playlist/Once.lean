import Mathlib.Data.List.Dedup
import JewelCase.Playlist.Plan
import JewelCase.Playlist.Written

/-!
# No edit lost, none applied twice

What a request read before its write, it checks again in it: a plan that is still fresh is the plan
that the library as it is now would give, and at the version named the items are those it was made
from. So every commit is an edit of the playlist as it is stored, one version on.
-/
namespace JewelCase.Playlist

set_option autoImplicit false

open Library.Runs

variable {π : Type}

/-! ### Tracks -/

theorem tracksOf_filter (library : List (Int × Int)) (gone : List Int) (track : Int) :
    tracksOf (library.filter fun r => !decide (r.1 ∈ gone)) track =
      if track ∈ gone then none else tracksOf library track := by
  rw [tracksOf, List.find?_filter]
  by_cases hg : track ∈ gone
  · rw [if_pos hg, Option.map_eq_none_iff, List.find?_eq_none]
    intro r _ hr
    simp only [Bool.not_eq_true', decide_eq_false_iff_not, decide_eq_true_eq] at hr
    exact hr.1 (hr.2 ▸ hg)
  · rw [if_neg hg, tracksOf]
    congr 2
    funext r
    by_cases hr : r.1 = track
    · simp [hr, hg]
    · simp [hr]

theorem mem_durations {library : Tracks} {tracks : List Int} {track : Int} :
    track ∈ durations library tracks ↔ track ∈ tracks ∧ (library track).isSome := by
  rw [durations, List.mem_dedup, List.mem_filter]

theorem durations_nodup (library : Tracks) (tracks : List Int) :
    (durations library tracks).Nodup := List.nodup_dedup _

/-- The tracks a plan adds are those of its ops that the library has, each once. -/
theorem plan_added {library : Tracks} {rows : List Row} {ops : List (Op Int)} {now : Int}
    {p : Plan} (hp : plan library rows ops now = .ok p) :
    p.added = durations library (ops.flatMap Op.tracks) := by
  unfold plan at hp
  by_cases hnil : ops = []
  · subst hnil
    obtain rfl := Except.ok.inj hp
    rfl
  · rw [if_neg (by simpa using hnil)] at hp
    simp only at hp
    cases ha : applyOps (itemsOf library rows) (ops.map (Op.toItems library now)) with
    | error e =>
      rw [ha] at hp
      cases hp
    | ok after =>
      rw [ha] at hp
      obtain rfl := Except.ok.inj hp
      rfl

/-- A fresh plan adds only tracks that are there. -/
theorem fresh_iff {library : Tracks} {p : Plan} (hn : p.added.Nodup) :
    fresh library p = true ↔ ∀ track ∈ p.added, (library track).isSome := by
  rw [fresh, decide_eq_true_eq, durations, (hn.filter _).dedup]
  rw [List.length_filter_eq_length_iff]

/-- A plan is made from the tracks of the rows and of the ops, and no others. -/
theorem plan_congr {library library' : Tracks} {rows : List Row} {ops : List (Op Int)} {now : Int}
    (hrows : ∀ row ∈ rows, library row.track = library' row.track)
    (hops : ∀ track ∈ ops.flatMap Op.tracks, library track = library' track) :
    plan library rows ops now = plan library' rows ops now := by
  have hitems : itemsOf library rows = itemsOf library' rows := by
    apply List.filterMap_congr
    intro row hrow
    rw [hrows row ((List.perm_insertionSort _ rows).mem_iff.mp hrow)]
  have hto : ops.map (Op.toItems library now) = ops.map (Op.toItems library' now) := by
    apply List.map_congr_left
    intro op hop
    cases op with
    | add place tracks =>
      simp only [Op.toItems, Op.add.injEq, true_and]
      apply List.filterMap_congr
      intro track ht
      rw [addedItem, hops track (List.mem_flatMap.mpr ⟨_, hop, ht⟩), addedItem]
    | remove positions => rfl
    | move positions place => rfl
  have hadded : durations library (ops.flatMap Op.tracks) =
      durations library' (ops.flatMap Op.tracks) := by
    rw [durations, durations]
    congr 1
    apply List.filter_congr
    intro track ht
    rw [hops track ht]
  rw [plan, plan, hitems, hto, hadded]

/-! ### One step -/

variable {s t : Server π} {e : Event π} {i : Nat} {edit : Edit π} {now : Int}

theorem prepare_planned {lookup : List π → Except String (List Int)} {p : Plan} {now' : Int}
    (h : prepare s edit lookup now = .planned p now') :
    now' = now ∧ s.playlist.version = edit.baseVersion ∧
      ∃ ops, expandAll lookup edit.ops = .ok ops ∧
        plan (tracksOf s.library) s.playlist.rows ops now = .ok p := by
  unfold prepare at h
  cases hf : Answer.find s.answers edit.key with
  | some answer => simp [hf] at h
  | none =>
    by_cases hv : s.playlist.version = edit.baseVersion
    · cases hx : expandAll lookup edit.ops with
      | error problem => simp [hf, atVersion, hv, hx] at h
      | ok ops =>
        cases hp : plan (tracksOf s.library) s.playlist.rows ops now with
        | error problem => simp [hf, atVersion, hv, hx, hp] at h
        | ok p' =>
          simp only [hf, atVersion, hv, hx, hp, ne_eq, not_true_eq_false, if_false,
            Phase.planned.injEq] at h
          obtain ⟨rfl, rfl⟩ := h
          exact ⟨rfl, hv, ops, rfl, hp⟩
    · simp [hf, atVersion, hv] at h

theorem writeEdit_found {p : Plan} {answer : Answer}
    (h : Answer.find s.answers edit.key = some answer) :
    writeEdit s edit p now = .found answer := by
  rw [writeEdit, h]

/-- A write that finds no answer is refused, is to be made again, or applies. -/
theorem writeEdit_cases {p : Plan} (h : Answer.find s.answers edit.key = none) :
    (writeEdit s edit p now = .again ∧ fresh (tracksOf s.library) p = false) ∨
    (fresh (tracksOf s.library) p = true ∧ s.playlist.version ≠ edit.baseVersion ∧
      writeEdit s edit p now = .refused (.versionConflict s.playlist.version)) ∨
    (fresh (tracksOf s.library) p = true ∧ s.playlist.version = edit.baseVersion ∧
      s.playlist.edited p = none ∧ writeEdit s edit p now = .refused .internal) ∨
    (fresh (tracksOf s.library) p = true ∧ s.playlist.version = edit.baseVersion ∧
      ∃ playlist, s.playlist.edited p = some playlist ∧
        writeEdit s edit p now = .applied playlist (s.details.edited edit now)
          ⟨200, s.details.edited edit now, playlist.trackCount, playlist.duration,
            playlist.version⟩) := by
  cases hf : fresh (tracksOf s.library) p with
  | false => exact .inl ⟨by simp [writeEdit, h, hf], rfl⟩
  | true =>
    by_cases hv : s.playlist.version = edit.baseVersion
    · cases he : s.playlist.edited p with
      | none =>
        exact .inr (.inr (.inl ⟨rfl, hv, rfl, by simp [writeEdit, h, hf, atVersion, hv, he]⟩))
      | some playlist =>
        exact .inr (.inr (.inr ⟨rfl, hv, playlist, rfl,
          by simp [writeEdit, h, hf, atVersion, hv, he]⟩))
    · exact .inr (.inl ⟨rfl, hv, by simp [writeEdit, h, hf, atVersion, hv]⟩)

/-- A request to be written, as its write finds it. -/
theorem writes_some {w : Written} (h : s.writes e = some (i, edit, w)) :
    ∃ p now, e = .write i ∧ s.requests[i]? = some ⟨edit, .planned p now⟩ ∧
      w = writeEdit s edit p now ∧ s.step e = s.settled i edit w := by
  cases e with
  | write j =>
    obtain ⟨⟨edit', p, now⟩, hr, he⟩ := Option.map_eq_some_iff.mp h
    simp only [Prod.mk.injEq] at he
    obtain ⟨rfl, rfl, rfl⟩ := he
    refine ⟨p, now, rfl, ?_, rfl, by simp [Server.step, hr]⟩
    unfold Server.toWrite at hr
    split at hr
    · next hreq =>
      simp only [Option.some.injEq, Prod.mk.injEq] at hr
      obtain ⟨rfl, rfl, rfl⟩ := hr
      exact hreq
    · cases hr
  | ask _ => cases h
  | read _ _ _ => cases h
  | purge _ => cases h
  | sweep _ => cases h

theorem commits_iff :
    s.commits e = true ↔ ∃ i edit playlist details answer,
      s.writes e = some (i, edit, .applied playlist details answer) := by
  unfold Server.commits
  split
  · next hw => simp [hw]
  · next hw =>
    refine iff_of_false (by decide) ?_
    rintro ⟨i, edit, playlist, details, answer, h⟩
    exact hw _ _ _ _ _ h

/-- A step that commits nothing leaves the playlist, and the answers unless one is swept. -/
theorem step_unchanged (h : s.commits e = false) :
    (s.step e).playlist = s.playlist ∧ (s.step e).details = s.details ∧
      ((∀ key, e ≠ .sweep key) → (s.step e).answers = s.answers) := by
  cases e with
  | write i =>
    simp only [Server.step]
    cases hr : s.toWrite i with
    | none => exact ⟨rfl, rfl, fun _ => rfl⟩
    | some r =>
      cases hw : writeEdit s r.1 r.2.1 r.2.2 with
      | applied playlist details answer =>
        have hwrites : s.writes (.write i) =
            some (i, r.1, .applied playlist details answer) := by simp [Server.writes, hr, hw]
        rw [commits_iff.2 ⟨_, _, _, _, _, hwrites⟩] at h
        cases h
      | found answer => simp [hw, Server.settled, Server.setPhase]
      | again => simp [hw, Server.settled, Server.setPhase]
      | refused problem => simp [hw, Server.settled, Server.setPhase]
  | ask edit => exact ⟨rfl, rfl, fun _ => rfl⟩
  | read i lookup now =>
    simp only [Server.step]
    cases s.toRead i <;> exact ⟨rfl, rfl, fun _ => rfl⟩
  | purge track =>
    simp only [Server.step]
    split <;> exact ⟨rfl, rfl, fun _ => rfl⟩
  | sweep key => exact ⟨rfl, rfl, fun hno => absurd rfl (hno key)⟩

/-- A commit, as its transaction finds it and leaves it. -/
theorem step_commits {playlist : Stored} {details : Details} {answer : Answer}
    (h : s.writes e = some (i, edit, .applied playlist details answer)) :
    Answer.find s.answers edit.key = none ∧ s.playlist.version = edit.baseVersion ∧
      (∃ p now, s.requests[i]? = some ⟨edit, .planned p now⟩ ∧ e = .write i ∧
        fresh (tracksOf s.library) p = true ∧ s.playlist.edited p = some playlist ∧
        details = s.details.edited edit now) ∧
      answer = ⟨200, details, playlist.trackCount, playlist.duration, playlist.version⟩ ∧
      (s.step e).playlist = playlist ∧ (s.step e).details = details ∧
      (s.step e).library = s.library ∧
      (s.step e).answers = Answer.store s.answers edit.key answer := by
  obtain ⟨p, now, rfl, hreq, hw, hstep⟩ := writes_some h
  have hnone : Answer.find s.answers edit.key = none := by
    cases hf : Answer.find s.answers edit.key with
    | none => rfl
    | some found =>
      rw [writeEdit_found hf] at hw
      cases hw
  rw [hstep]
  obtain ⟨ha, -⟩ | ⟨-, -, ha⟩ | ⟨-, -, -, ha⟩ | ⟨hf, hv, stored, he, ha⟩ :=
    @writeEdit_cases _ s edit now p hnone
  · rw [ha] at hw
    cases hw
  · rw [ha] at hw
    cases hw
  · rw [ha] at hw
    cases hw
  · rw [ha, Written.applied.injEq] at hw
    obtain ⟨rfl, rfl, rfl⟩ := hw
    exact ⟨hnone, hv, ⟨p, now, hreq, rfl, hf, he, rfl⟩, rfl, rfl, rfl, rfl, rfl⟩

theorem edited_version {p : Plan} {stored playlist : Stored} (h : stored.edited p = some playlist) :
    playlist.version = stored.version + 1 := by
  obtain ⟨rows, -, rfl⟩ := Option.map_eq_some_iff.mp h
  rfl

/-- A step leaves the library, but for a track that the playlist does not hold. -/
theorem step_library :
    ∃ gone : List Int, (∀ row ∈ s.playlist.rows, row.track ∉ gone) ∧
      (s.step e).library = s.library.filter fun r => !decide (r.1 ∈ gone) := by
  have hsame : ∃ gone : List Int, (∀ row ∈ s.playlist.rows, row.track ∉ gone) ∧
      s.library = s.library.filter fun r => !decide (r.1 ∈ gone) := ⟨[], by simp, by simp⟩
  cases e with
  | write i =>
    simp only [Server.step]
    cases hr : s.toWrite i with
    | none => exact hsame
    | some r =>
      cases hw : writeEdit s r.1 r.2.1 r.2.2 <;>
        simpa [hw, Server.settled, Server.setPhase] using hsame
  | ask edit => exact hsame
  | read i lookup now =>
    simp only [Server.step]
    cases s.toRead i <;> exact hsame
  | purge track =>
    simp only [Server.step]
    by_cases h : track ∈ s.playlist.rows.map (·.track)
    · rw [if_pos h]
      exact hsame
    · rw [if_neg h]
      refine ⟨[track], ?_, by simp⟩
      intro row hrow hin
      rw [List.mem_singleton] at hin
      exact h (List.mem_map.mpr ⟨row, hrow, hin⟩)
  | sweep key => exact hsame

/-- A request is planned again only when a track it adds is gone. -/
theorem replans_true (h : s.replans i e = true) :
    ∃ edit p now, s.requests[i]? = some ⟨edit, .planned p now⟩ ∧
      fresh (tracksOf s.library) p = false := by
  unfold Server.replans at h
  split at h
  · next j edit hw =>
    rw [decide_eq_true_eq] at h
    subst h
    obtain ⟨p, now, -, hreq, hagain, -⟩ := writes_some hw
    refine ⟨edit, p, now, hreq, ?_⟩
    cases hfind : Answer.find s.answers edit.key with
    | some answer =>
      rw [writeEdit_found hfind] at hagain
      cases hagain
    | none =>
      obtain ⟨-, hf⟩ | ⟨-, -, ha⟩ | ⟨-, -, -, ha⟩ | ⟨-, -, stored, -, ha⟩ :=
        @writeEdit_cases _ s edit now p hfind
      · exact hf
      · rw [ha] at hagain
        cases hagain
      · rw [ha] at hagain
        cases hagain
      · rw [ha] at hagain
        cases hagain
  · cases h

theorem setPhase_requests {j : Nat} {edit' : Edit π} {phase : Phase} {r : Request π}
    (h : (s.setPhase j edit' phase).requests[i]? = some r) :
    j = i ∧ r = ⟨edit', phase⟩ ∨ j ≠ i ∧ s.requests[i]? = some r := by
  rw [Server.setPhase, List.getElem?_set] at h
  by_cases hj : j = i
  · subst hj
    rw [if_pos rfl] at h
    split at h
    · exact .inl ⟨rfl, (Option.some.inj h).symm⟩
    · cases h
  · rw [if_neg hj] at h
    exact .inr ⟨hj, h⟩

/-- A request that a write has settled is no longer planned. -/
theorem settled_planned {j : Nat} {edit' : Edit π} {w : Written} {p : Plan}
    (h : (s.settled j edit' w).requests[i]? = some ⟨edit, .planned p now⟩) :
    j ≠ i ∧ s.requests[i]? = some ⟨edit, .planned p now⟩ := by
  have hset : ∃ phase, (s.settled j edit' w).requests = (s.setPhase j edit' phase).requests ∧
      ∀ p now, phase ≠ .planned p now := by
    cases w <;> exact ⟨_, rfl, by simp⟩
  obtain ⟨phase, hr, hno⟩ := hset
  rw [hr] at h
  obtain ⟨-, he⟩ | hkept := setPhase_requests h
  · rw [Request.mk.injEq] at he
    exact absurd he.2.symm (hno p now)
  · exact hkept

/-- A planned request was planned already, or is planned by the step. -/
theorem step_planned {p : Plan} (h : (s.step e).requests[i]? = some ⟨edit, .planned p now⟩) :
    s.requests[i]? = some ⟨edit, .planned p now⟩ ∧ s.replans i e = false ∨
      ∃ lookup, e = .read i lookup now ∧ prepare s edit lookup now = .planned p now := by
  cases e with
  | ask new =>
    simp only [Server.step, List.getElem?_append] at h
    split at h
    · exact .inl ⟨h, rfl⟩
    · rw [List.getElem?_singleton] at h
      split at h <;> simp at h
  | read j lookup now' =>
    simp only [Server.step] at h
    cases hr : s.toRead j with
    | none =>
      rw [hr] at h
      exact .inl ⟨h, rfl⟩
    | some edit' =>
      rw [hr] at h
      obtain ⟨rfl, he⟩ | ⟨-, hkept⟩ := setPhase_requests h
      · rw [Request.mk.injEq] at he
        obtain ⟨rfl, hp⟩ := he
        obtain ⟨rfl, -⟩ := prepare_planned hp.symm
        exact .inr ⟨lookup, rfl, hp.symm⟩
      · exact .inl ⟨hkept, rfl⟩
  | write j =>
    simp only [Server.step] at h
    cases hr : s.toWrite j with
    | none =>
      rw [hr] at h
      exact .inl ⟨h, by simp [Server.replans, Server.writes, hr]⟩
    | some r =>
      rw [hr] at h
      obtain ⟨hj, hkept⟩ := settled_planned h
      refine .inl ⟨hkept, ?_⟩
      simp only [Server.replans, Server.writes, hr, Option.map_some]
      split
      · next heq =>
        simp only [Option.some.injEq, Prod.mk.injEq] at heq
        simp [← heq.1, hj]
      · rfl
  | purge track =>
    simp only [Server.step] at h
    split at h <;> exact .inl ⟨h, rfl⟩
  | sweep key => exact .inl ⟨h, rfl⟩

/-! ### Later -/

/-- What holds of a server at any later time. -/
structure Later (s t : Server π) : Prop where
  library : ∃ gone : List Int, t.library = s.library.filter fun r => !decide (r.1 ∈ gone)
  version : s.playlist.version ≤ t.playlist.version
  /-- The version moves with every change to the items. -/
  playlist : s.playlist.version = t.playlist.version → s.playlist = t.playlist

theorem Later.refl (s : Server π) : Later s s := ⟨⟨[], by simp⟩, Int.le_refl _, fun _ => rfl⟩

theorem Later.trans {u : Server π} (h : Later s t) (h' : Later t u) : Later s u := by
  obtain ⟨gone, hg⟩ := h.library
  obtain ⟨gone', hg'⟩ := h'.library
  refine ⟨⟨gone ++ gone', ?_⟩, h.version.trans h'.version, ?_⟩
  · rw [hg', hg, List.filter_filter]
    congr 1
    funext r
    simp [Bool.and_comm]
  · intro he
    have hv := h.version
    have hv' := h'.version
    exact (h.playlist (by omega)).trans (h'.playlist (by omega))

theorem later_step (s : Server π) (e : Event π) : Later s (s.step e) := by
  have hlib : ∃ gone : List Int,
      (s.step e).library = s.library.filter fun r => !decide (r.1 ∈ gone) :=
    step_library.imp fun _ h => h.2
  cases hc : s.commits e with
  | false =>
    obtain ⟨hp, -⟩ := step_unchanged hc
    exact ⟨hlib, by rw [hp], fun _ => hp.symm⟩
  | true =>
    obtain ⟨i, edit, playlist, details, answer, hw⟩ := commits_iff.1 hc
    obtain ⟨-, -, ⟨p, now, -, -, -, he, -⟩, -, hp, -⟩ := step_commits hw
    have hv := edited_version he
    rw [← hp] at hv
    exact ⟨hlib, by omega, by omega⟩

theorem later_after (s : Server π) (es : List (Event π)) : Later s (after Server.step s es) :=
  @after_related _ _ Server.step (fun _ => True) Later Later.refl Later.trans
    (fun s e _ => ⟨trivial, later_step s e⟩) s trivial es

theorem Later.tracks (h : Later s t) {track duration : Int}
    (ht : tracksOf t.library track = some duration) : tracksOf s.library track = some duration := by
  obtain ⟨gone, hg⟩ := h.library
  rw [hg, tracksOf_filter] at ht
  split at ht
  · cases ht
  · exact ht

/-- A plan that is still fresh is the plan made now. -/
theorem Later.plan_eq (h : Later s t) {ops : List (Op Int)} {p : Plan} {stored : Stored}
    (hok : stored.Ok (tracksOf t.library))
    (hp : plan (tracksOf s.library) stored.rows ops now = .ok p)
    (hf : fresh (tracksOf t.library) p = true) :
    plan (tracksOf t.library) stored.rows ops now = .ok p := by
  have hsame : ∀ track, (tracksOf t.library track).isSome →
      tracksOf s.library track = tracksOf t.library track := by
    intro track ht
    obtain ⟨duration, hd⟩ := Option.isSome_iff_exists.mp ht
    rw [hd, h.tracks hd]
  rw [← hp]
  symm
  apply plan_congr
  · intro row hrow
    exact hsame _ (hok.tracks row hrow)
  · intro track ht
    have hadded := plan_added hp
    rw [fresh_iff (hadded ▸ durations_nodup _ _), hadded] at hf
    cases hs : tracksOf s.library track with
    | none =>
      cases hl : tracksOf t.library track with
      | none => rfl
      | some duration => rw [h.tracks hl] at hs; cases hs
    | some duration =>
      rw [← hsame track (hf track (mem_durations.2 ⟨ht, by rw [hs]; rfl⟩)), hs]

/-- A plan no longer fresh is one that a track purged since was in. -/
theorem Later.shrunk (h : Later s t) {ops : List (Op Int)} {p : Plan} {rows : List Row}
    (hp : plan (tracksOf s.library) rows ops now = .ok p)
    (hf : fresh (tracksOf t.library) p = false) : t.library.length < s.library.length := by
  have hadded := plan_added hp
  have hno : ¬ ∀ track ∈ p.added, (tracksOf t.library track).isSome := by
    rw [← fresh_iff (hadded ▸ durations_nodup _ _), hf]
    decide
  obtain ⟨gone, hg⟩ := h.library
  rw [hg, List.length_filter_lt_length_iff_exists]
  by_contra hall
  push Not at hall
  apply hno
  intro track ht
  rw [hadded, mem_durations] at ht
  have : t.library = s.library := by
    rw [hg, List.filter_eq_self]
    exact hall
  rw [this]
  exact ht.2

/-! ### Runs -/

variable {s₀ : Server π}

theorem after_concat (s : Server π) (es : List (Event π)) (e : Event π) :
    after Server.step s (es ++ [e]) = (after Server.step s es).step e := by
  rw [after_append]
  rfl

/-- A request to be written was planned when it was last read. -/
theorem planned_read (hnew : s₀.requests = []) (es : List (Event π)) {p : Plan}
    (h : (after Server.step s₀ es).requests[i]? = some ⟨edit, .planned p now⟩) :
    ∃ es₁ lookup es₂, es = es₁ ++ .read i lookup now :: es₂ ∧
      prepare (after Server.step s₀ es₁) edit lookup now = .planned p now := by
  induction es using List.reverseRecOn with
  | nil => simp [hnew] at h
  | append_singleton es e ih =>
    rw [after_concat] at h
    obtain ⟨hkept, -⟩ | ⟨lookup, rfl, hp⟩ := step_planned h
    · obtain ⟨es₁, lookup, es₂, rfl, hp⟩ := ih hkept
      exact ⟨es₁, lookup, es₂ ++ [e], by simp, hp⟩
    · exact ⟨es, lookup, [], rfl, hp⟩

/-- What a commit wrote was planned from the playlist as it then is. -/
theorem commit_planned (hnew : s₀.requests = []) (es : List (Event π))
    (hok : (after Server.step s₀ es).playlist.Ok (tracksOf (after Server.step s₀ es).library))
    {playlist : Stored} {details : Details} {answer : Answer}
    (h : (after Server.step s₀ es).writes e = some (i, edit, .applied playlist details answer)) :
    ∃ es₁ lookup es₂ now ops p, es = es₁ ++ .read i lookup now :: es₂ ∧
      (after Server.step s₀ es₁).playlist = (after Server.step s₀ es).playlist ∧
      expandAll lookup edit.ops = .ok ops ∧
      plan (tracksOf (after Server.step s₀ es).library) (after Server.step s₀ es).playlist.rows ops
        now = .ok p ∧ (after Server.step s₀ es).playlist.edited p = some playlist := by
  obtain ⟨-, hv, ⟨p, now, hreq, -, hf, he, -⟩, -⟩ := step_commits h
  obtain ⟨es₁, lookup, es₂, hes, hp⟩ := planned_read hnew es hreq
  obtain ⟨-, hv', ops, hx, hp⟩ := prepare_planned hp
  have hlater : Later (after Server.step s₀ es₁) (after Server.step s₀ es) := by
    rw [hes, after_append]
    exact later_after _ _
  have hsame := hlater.playlist (hv'.trans hv.symm)
  rw [hsame] at hp
  exact ⟨es₁, lookup, es₂, now, ops, p, hes, hsame, hx, hlater.plan_eq hok hp hf, he⟩

/-- **The playlist stays as a stored one should be.** -/
theorem after_ok (hnew : s₀.requests = []) (hok : s₀.playlist.Ok (tracksOf s₀.library))
    (es : List (Event π)) :
    (after Server.step s₀ es).playlist.Ok (tracksOf (after Server.step s₀ es).library) := by
  induction es using List.reverseRecOn with
  | nil => exact hok
  | append_singleton es e ih =>
    rw [after_concat]
    cases hc : (after Server.step s₀ es).commits e with
    | true =>
      obtain ⟨i, edit, playlist, details, answer, hw⟩ := commits_iff.1 hc
      obtain ⟨es₁, lookup, es₂, now, ops, p, -, -, -, hp, he⟩ := commit_planned hnew es ih hw
      obtain ⟨-, -, -, -, hplaylist, -, hlib, -⟩ := step_commits hw
      obtain ⟨after, stored, -, he', -, hok', -⟩ := (edit_stored _ _ ih ops now).1 p hp
      obtain rfl := Option.some.inj (he.symm.trans he')
      rw [hplaylist, hlib]
      exact hok'
    | false =>
      obtain ⟨hplaylist, -⟩ := step_unchanged hc
      obtain ⟨gone, hgone, hlib⟩ := @step_library _ (after Server.step s₀ es) e
      have hsame : ∀ row ∈ (after Server.step s₀ es).playlist.rows,
          tracksOf ((after Server.step s₀ es).step e).library row.track =
            tracksOf (after Server.step s₀ es).library row.track := by
        intro row hrow
        rw [hlib, tracksOf_filter, if_neg (hgone row hrow)]
      rw [hplaylist]
      refine ⟨ih.keys, ?_, ih.count, ?_⟩
      · intro row hrow
        rw [hsame row hrow]
        exact ih.tracks row hrow
      · rw [ih.duration]
        congr 1
        apply List.map_congr_left
        intro row hrow
        rw [hsame row hrow]

/-- **The version counts the edits applied.** -/
theorem after_version (s : Server π) (es : List (Event π)) :
    (after Server.step s es).playlist.version =
      s.playlist.version + occurrences Server.step Server.commits s es := by
  induction es using List.reverseRecOn with
  | nil => simp [occurrences]
  | append_singleton es e ih =>
    rw [after_concat, occurrences_concat]
    cases hc : (after Server.step s es).commits e with
    | true =>
      obtain ⟨i, edit, playlist, details, answer, hw⟩ := commits_iff.1 hc
      obtain ⟨-, -, ⟨p, now, -, -, -, he, -⟩, -, hp, -⟩ := step_commits hw
      rw [hp, edited_version he, ih, if_pos rfl]
      push_cast
      omega
    | false =>
      rw [(step_unchanged hc).1, ih]
      simp

/-- **Planning again ends.** A request is sent back only after a track it would add was purged since
it was read. -/
theorem replans_le (hnew : s₀.requests = []) (i : Nat) (es : List (Event π)) :
    occurrences Server.step (Server.replans i) s₀ es + (after Server.step s₀ es).library.length ≤
        s₀.library.length ∧
      ∀ edit p now, (after Server.step s₀ es).requests[i]? = some ⟨edit, .planned p now⟩ →
        ∃ s lookup, prepare s edit lookup now = .planned p now ∧
          Later s (after Server.step s₀ es) ∧
          occurrences Server.step (Server.replans i) s₀ es + s.library.length ≤
            s₀.library.length := by
  induction es using List.reverseRecOn with
  | nil => simp [occurrences, hnew]
  | append_singleton es e ih =>
    obtain ⟨hcount, hplanned⟩ := ih
    have hlater := later_step (after Server.step s₀ es) e
    rw [after_concat, occurrences_concat]
    have hle : ((after Server.step s₀ es).step e).library.length ≤
        (after Server.step s₀ es).library.length := by
      obtain ⟨gone, hg⟩ := hlater.library
      rw [hg]
      exact List.length_filter_le _ _
    constructor
    · cases hr : (after Server.step s₀ es).replans i e with
      | false =>
        rw [if_neg (by decide)]
        omega
      | true =>
        obtain ⟨edit, p, now, hreq, hf⟩ := replans_true hr
        obtain ⟨s, lookup, hp, hs, hc⟩ := hplanned edit p now hreq
        obtain ⟨-, -, ops, -, hp⟩ := prepare_planned hp
        have hlt := hs.shrunk hp hf
        rw [if_pos rfl]
        omega
    · intro edit p now hreq
      obtain ⟨hkept, hno⟩ | ⟨lookup, rfl, hp⟩ := step_planned hreq
      · obtain ⟨s, lookup, hp, hs, hc⟩ := hplanned edit p now hkept
        exact ⟨s, lookup, hp, hs.trans hlater, by simpa [hno] using hc⟩
      · exact ⟨_, lookup, hp, hlater, by simpa [Server.replans, Server.writes] using hcount⟩

/-! ### Answers -/

theorem Answer.find_store {answers : List (String × Answer)} {key : String} {answer : Answer}
    (h : Answer.find answers (some key) = none) :
    Answer.find (Answer.store answers (some key) answer) (some key) = some answer := by
  simp only [Answer.find, Option.bind_some, Option.map_eq_none_iff] at h ⊢
  rw [Answer.store, List.find?_append, h]
  simp

theorem Answer.find_kept {answers : List (String × Answer)} {key : String} {answer : Answer}
    (h : Answer.find answers (some key) = some answer) (key' : Option String) (answer' : Answer) :
    Answer.find (Answer.store answers key' answer') (some key) = some answer := by
  cases key' with
  | none => exact h
  | some key' =>
    obtain ⟨r, hr, he⟩ := Option.map_eq_some_iff.mp h
    rw [Answer.find, Option.bind_some, Answer.store, List.find?_append, hr, Option.some_or,
      Option.map_some, he]

theorem Answer.find_swept {answers : List (String × Answer)} {key key' : String}
    (hne : key' ≠ key) :
    Answer.find (answers.filter fun r => !decide (r.1 = key')) (some key) =
      Answer.find answers (some key) := by
  simp only [Answer.find, Option.bind_some, List.find?_filter]
  congr 2
  funext r
  by_cases hr : r.1 = key
  · simp [hr, Ne.symm hne]
  · simp [hr]

/-- An answer stays as it was stored until it is swept. -/
theorem step_answer {key : String} {answer : Answer}
    (h : Answer.find s.answers (some key) = some answer) (hno : e ≠ .sweep key) :
    Answer.find (s.step e).answers (some key) = some answer := by
  cases hc : s.commits e with
  | true =>
    obtain ⟨i, edit, playlist, details, answer', hw⟩ := commits_iff.1 hc
    obtain ⟨-, -, -, -, -, -, -, ha⟩ := step_commits hw
    rw [ha]
    exact Answer.find_kept h _ _
  | false =>
    by_cases hs : ∃ key', e = .sweep key'
    · obtain ⟨key', rfl⟩ := hs
      rw [← h]
      exact Answer.find_swept fun he => hno (he ▸ rfl)
    · rw [(step_unchanged hc).2.2 fun key' he => hs ⟨key', he⟩]
      exact h

theorem after_answer {key : String} {answer : Answer}
    (h : Answer.find s.answers (some key) = some answer) (es : List (Event π))
    (hno : .sweep key ∉ es) :
    Answer.find (after Server.step s es).answers (some key) = some answer := by
  induction es generalizing s with
  | nil => exact h
  | cons e es ih =>
    rw [List.mem_cons, not_or] at hno
    exact ih (step_answer h (Ne.symm hno.1)) hno.2

/-- A stored answer is what a read of its key gives, and a write. -/
theorem answer_found {key : String} {answer : Answer}
    (h : Answer.find s.answers (some key) = some answer) (hkey : edit.key = some key) :
    (∀ lookup now, prepare s edit lookup now = .answered (.ok answer)) ∧
      ∀ e i w, s.writes e = some (i, edit, w) → w = .found answer := by
  rw [← hkey] at h
  constructor
  · intro lookup now
    rw [prepare, h]
  · intro e i w hw
    obtain ⟨p, now, -, -, rfl, -⟩ := writes_some hw
    exact writeEdit_found h

/-- A stale base is a conflict, read or written, once the plan is fresh. -/
theorem stale_conflict (hnone : Answer.find s.answers edit.key = none)
    (hv : edit.baseVersion ≠ s.playlist.version) :
    (∀ lookup now, prepare s edit lookup now =
        .answered (.error (.versionConflict s.playlist.version))) ∧
      ∀ e i w, s.writes e = some (i, edit, w) →
        w = .refused (.versionConflict s.playlist.version) ∨ w = .again := by
  constructor
  · intro lookup now
    simp [prepare, hnone, atVersion, Ne.symm hv]
  · intro e i w hw
    obtain ⟨p, now, -, -, rfl, -⟩ := writes_some hw
    obtain ⟨ha, -⟩ | ⟨-, -, ha⟩ | ⟨-, he, -⟩ | ⟨-, he, -⟩ :=
      @writeEdit_cases _ s edit now p hnone
    · exact .inr ha
    · exact .inl ha
    · exact absurd he.symm hv
    · exact absurd he.symm hv

/-- No write meets a key that is taken. -/
theorem never_internal (hnew : s₀.requests = []) (hok : s₀.playlist.Ok (tracksOf s₀.library))
    (es : List (Event π)) :
    (after Server.step s₀ es).writes e ≠ some (i, edit, .refused .internal) := by
  intro h
  obtain ⟨p, now, -, hreq, hw, -⟩ := writes_some h
  obtain ⟨es₁, lookup, es₂, hes, hp⟩ := planned_read hnew es hreq
  obtain ⟨-, hv', ops, -, hp⟩ := prepare_planned hp
  have hlater : Later (after Server.step s₀ es₁) (after Server.step s₀ es) := by
    rw [hes, after_append]
    exact later_after _ _
  have hok' := after_ok hnew hok es
  cases hfind : Answer.find (after Server.step s₀ es).answers edit.key with
  | some answer =>
    rw [writeEdit_found hfind] at hw
    cases hw
  | none =>
    obtain ⟨ha, -⟩ | ⟨-, -, ha⟩ | ⟨hf, hv, he, -⟩ | ⟨-, -, stored, -, ha⟩ :=
      @writeEdit_cases _ (after Server.step s₀ es) edit now p hfind
    · rw [ha] at hw
      cases hw
    · rw [ha] at hw
      cases hw
    · rw [hlater.playlist (hv'.trans hv.symm)] at hp
      obtain ⟨items, stored, -, hs, -⟩ :=
        (edit_stored _ _ hok' ops now).1 p (hlater.plan_eq hok' hp hf)
      rw [he] at hs
      cases hs
    · rw [ha] at hw
      cases hw

/-- **No playlist edit is lost or applied twice.** Whatever edits are asked for, in whatever order
they are read and written, and whatever tracks and answers go in between: a commit applies its ops
to the items at exactly the version it named, as they were when it was planned, and the version
rises by one; nothing else changes the playlist, so the version counts the edits applied; a stored
answer is given ever after and no request of its key is applied again; a stale base is a conflict;
and a request is planned again no more often than the library has tracks. -/
theorem edits_once (s₀ : Server π) (hnew : s₀.requests = [])
    (hok : s₀.playlist.Ok (tracksOf s₀.library)) (es : List (Event π)) :
    let s := after Server.step s₀ es
    (∀ e i edit playlist details answer,
      s.writes e = some (i, edit, .applied playlist details answer) →
        edit.baseVersion = s.playlist.version ∧ playlist.version = edit.baseVersion + 1 ∧
        (s.step e).playlist = playlist ∧ (s.step e).details = details ∧
        playlist.Ok (tracksOf (s.step e).library) ∧
        (∃ es₁ lookup es₂ now ops, es = es₁ ++ .read i lookup now :: es₂ ∧
          (after Server.step s₀ es₁).playlist = s.playlist ∧
          expandAll lookup edit.ops = .ok ops ∧
          applyOps s.playlist.read (ops.map (Op.toRead (tracksOf s.library) now)) =
            .ok playlist.read) ∧
        answer = ⟨200, details, playlist.trackCount, playlist.duration, playlist.version⟩ ∧
        ∀ key, edit.key = some key → Answer.find s.answers (some key) = none ∧
          Answer.find (s.step e).answers (some key) = some answer) ∧
    (∀ e, s.commits e = false →
      (s.step e).playlist = s.playlist ∧ (s.step e).details = s.details ∧
        ((∀ key, e ≠ .sweep key) → (s.step e).answers = s.answers)) ∧
    s.playlist.version = s₀.playlist.version + occurrences Server.step Server.commits s₀ es ∧
    (∀ key answer es', Answer.find s.answers (some key) = some answer → .sweep key ∉ es' →
      let s' := after Server.step s es'
      Answer.find s'.answers (some key) = some answer ∧
      ∀ edit : Edit π, edit.key = some key →
        (∀ lookup now, prepare s' edit lookup now = .answered (.ok answer)) ∧
        ∀ e i w, s'.writes e = some (i, edit, w) → w = .found answer) ∧
    (∀ edit : Edit π, Answer.find s.answers edit.key = none →
      edit.baseVersion ≠ s.playlist.version →
        (∀ lookup now, prepare s edit lookup now =
          .answered (.error (.versionConflict s.playlist.version))) ∧
        ∀ e i w, s.writes e = some (i, edit, w) →
          w = .refused (.versionConflict s.playlist.version) ∨ w = .again) ∧
    (∀ e i edit, s.writes e ≠ some (i, edit, .refused .internal)) ∧
    ∀ i, occurrences Server.step (Server.replans i) s₀ es ≤ s₀.library.length := by
  refine ⟨?_, fun e he => step_unchanged he, after_version s₀ es, ?_, ?_, ?_, ?_⟩
  · intro e i edit playlist details answer hw
    have hs := after_ok hnew hok es
    obtain ⟨hnone, hv, ⟨_, _, -, -, -, he, -⟩, hanswer, hp, hd, hlib, hanswers⟩ := step_commits hw
    obtain ⟨es₁, lookup, es₂, now, ops, p, hes, hsame, hx, hplan, he'⟩ :=
      commit_planned hnew es hs hw
    obtain ⟨items, stored, -, hstored, hversion, hok', hread, -⟩ :=
      (edit_stored _ _ hs ops now).1 p hplan
    obtain rfl := Option.some.inj (hstored.symm.trans he')
    refine ⟨hv.symm, by omega, hp, hd, by rwa [hlib],
      ⟨es₁, lookup, es₂, now, ops, hes, hsame, hx, hread⟩, hanswer, ?_⟩
    intro key hkey
    rw [hkey] at hnone hanswers
    rw [hanswers]
    exact ⟨hnone, Answer.find_store hnone⟩
  · intro key answer es' hfind hno
    have hkept := after_answer hfind es' hno
    exact ⟨hkept, fun edit hkey => answer_found hkept hkey⟩
  · intro edit hnone hv
    exact stale_conflict hnone hv
  · intro e i edit
    exact never_internal hnew hok es
  · intro i
    exact (Nat.le_add_right _ _).trans (replans_le hnew i es).1

/-- Two devices edit one playlist of two at the same version, the first under a key, which it tries
again: one edit is applied. -/
theorem edits_once_by_two :
    let s₀ : Server Int := ⟨[(1, 100), (2, 50)], ⟨4, 2, 150, [⟨10, 1, 5⟩, ⟨20, 2, 5⟩]⟩,
      ⟨"Mix", none, false, 5⟩, [], []⟩
    let first : Edit Int := ⟨4, none, none, none, [.move [0] 1], some "a"⟩
    let second : Edit Int := ⟨4, none, none, none, [.remove [0]], none⟩
    let es : List (Event Int) := [.ask first, .ask second, .read 0 .ok 7, .read 1 .ok 7, .write 0,
      .write 1, .ask first, .read 2 .ok 8]
    s₀.playlist.Ok (tracksOf s₀.library) ∧ (after Server.step s₀ es).playlist.version = 4 + 1 ∧
      occurrences Server.step (Server.replans 0) s₀ es ≤ 2 := by
  intro s₀ first second es
  have hok : s₀.playlist.Ok (tracksOf s₀.library) := ⟨by decide, by decide, by decide, by decide⟩
  obtain ⟨-, -, hversion, -, -, -, hagain⟩ := edits_once s₀ rfl hok es
  have hone : occurrences Server.step Server.commits s₀ es = 1 := by decide
  rw [hone] at hversion
  exact ⟨hok, hversion, hagain 0⟩

end JewelCase.Playlist
