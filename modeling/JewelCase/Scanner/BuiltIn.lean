import JewelCase.Scanner.Honest

/-!
# Built-in types, and what a generation claims

A built-in type's generation is the one its release raised as it started. While releases only go
forward, a track with that generation was read for it. With it, what a track's generation claims,
over every run.
-/
namespace JewelCase.Scanner

open JewelCase.Plugins (Manifest TagType TagTypes)

set_option autoImplicit false

variable {Contents : Type} {reader : Reader Contents}

/-! ### Releases -/

/-- The releases that the server started as. -/
def starts (labels : List (Label Contents)) : List Release :=
  labels.filterMap fun label => match label with
    | .start release => some release
    | _ => none

/-- A release that does not go back: one that adds to the built-in types has a greater number. -/
def Release.Follows (later first : Release) : Prop :=
  first.number < later.number ∨ (first.number = later.number ∧ first.builtIn = later.builtIn)

instance (later first : Release) : Decidable (later.Follows first) :=
  inferInstanceAs (Decidable (_ ∨ _))

/-- No start goes back to an older release. -/
def Onwards (labels : List (Label Contents)) : Prop :=
  (starts labels).Pairwise fun first later => later.Follows first

instance (labels : List (Label Contents)) : Decidable (Onwards labels) :=
  inferInstanceAs (Decidable (List.Pairwise _ _))

/-- Tags hold what their file gives for a built-in type. -/
def FitsType (reader : Reader Contents) (type : TagTypeField) (tags : TagsReread Contents) : Prop :=
  valuesOf tags.tagValues type.key = reader.values tags.file type

/-- What holds of a built-in type that each running release has, from a generation on. -/
structure ReadsType (reader : Reader Contents) (database : Database Contents)
    (type : TagTypeField) (since : Nat) : Prop where
  reading : ∀ scan reading, database.scan = some scan → scan.stage = .reading reading →
    type ∈ reading.fields
  batch : ∀ scan, database.scan = some scan → ∀ tags ∈ scan.batch.tags, FitsType reader type tags
  tracks : ∀ track ∈ database.tracks, since ≤ track.tagsGeneration →
    FitsType reader type track.tags

/-- What holds of a release's built-in types as it runs. -/
structure RunsWith (reader : Reader Contents) (database : Database Contents) (release : Release) :
    Prop where
  counted : database.builtIn = release.number
  /-- The generation as the release was counted. -/
  types : ∃ since ≤ database.types.generation, ∀ type ∈ release.builtIn,
    ReadsType reader database type since

/-- Before the first start, nothing is read. -/
structure Unread (database : Database Contents) : Prop where
  builtIn : database.builtIn = 0
  tracks : database.tracks = []
  reading : ∀ scan reading, database.scan = some scan → scan.stage ≠ .reading reading
  batch : ∀ scan, database.scan = some scan → scan.batch.tags = []

structure BuiltInKept (reader : Reader Contents) (database : Database Contents) : Prop where
  unread : database.release = none → Unread database
  running : ∀ release, database.release = some release → RunsWith reader database release

theorem builtInKept_empty : BuiltInKept reader (.empty : Database Contents) := by
  constructor
  · refine fun _ => ⟨rfl, rfl, ?_, ?_⟩
    all_goals
      intro scan
      simp [Database.empty]
  · intro release h
    cases h

theorem FitsType.of_read {reading : Reading} {type : TagTypeField}
    (honce : (reading.fields.map TagTypeField.key).Nodup) (htype : type ∈ reading.fields)
    (path : String) (contents : Contents) :
    FitsType reader type ⟨path, reader.read reading contents, reading.generation, contents⟩ :=
  valuesOf_read reading contents honce htype

/-! ### Steps -/

namespace ReadsType

variable {database : Database Contents} {type : TagTypeField} {since : Nat}

theorem withScan (h : ReadsType reader database type since) {scan : Option (Scan Contents)}
    (hreading : ∀ other reading, scan = some other → other.stage = .reading reading →
      type ∈ reading.fields)
    (hbatch : ∀ other, scan = some other →
      ∀ tags ∈ other.batch.tags, FitsType reader type tags) :
    ReadsType reader { database with scan := scan } type since :=
  ⟨hreading, hbatch, h.tracks⟩

/-- A scan that holds no reading and no batch. -/
theorem withIdle (h : ReadsType reader database type since) {scan : Option (Scan Contents)}
    (hidle : ∀ other, scan = some other → other.stage = .idle ∧ other.batch = .empty) :
    ReadsType reader { database with scan := scan } type since := by
  refine h.withScan ?_ ?_
  · intro other reading hother hstage
    rw [(hidle other hother).1] at hstage
    cases hstage
  · intro other hother tags htags
    rw [(hidle other hother).2] at htags
    exact absurd htags (List.not_mem_nil)

theorem add (h : ReadsType reader database type since) {scan : Scan Contents}
    (hscan : database.scan = some scan) (path : String) (outcome : FileOutcome Contents)
    (htags : ∀ tags, outcome.tags = some tags → FitsType reader type tags) :
    ReadsType reader { database with
      scan := some { scan with batch := scan.batch.add path outcome } } type since := by
  refine h.withScan ?_ ?_
  · intro other reading hother hstage
    obtain rfl := Option.some.inj hother
    exact h.reading scan reading hscan hstage
  · intro other hother tags hmem
    obtain rfl := Option.some.inj hother
    obtain hold | hnew := (mem_tags_add _ _ _ _).mp hmem
    · exact h.batch scan hscan tags hold
    · exact htags tags hnew

theorem visit (h : ReadsType reader database type since) (hkept : Kept reader database)
    (path : String) (found : Found Contents) :
    ReadsType reader (Scanner.step reader database (.visit path found)) type since := by
  unfold Scanner.step
  dsimp only
  split
  · next scan hscan =>
    split
    · next reading hstage =>
      have hcovers := ((hkept.scan scan hscan).reading reading hstage).2
      cases found with
      | listed candidate =>
        refine h.add hscan path _ ?_
        intro tags htags
        obtain ⟨contents, rfl⟩ := processFile_tags htags
        exact .of_read hcovers.once (h.reading scan reading hscan hstage) path contents
      | gone =>
        refine h.withScan ?_ ?_
        · intro other reading hother hstage
          obtain rfl := Option.some.inj hother
          exact h.reading scan reading hscan hstage
        · intro other hother
          obtain rfl := Option.some.inj hother
          exact h.batch scan hscan
      | unlisted =>
        refine h.add hscan path _ ?_
        intro tags htags
        cases htags
    · exact h
    · exact h
  · exact h

theorem flush (h : ReadsType reader database type since) :
    ReadsType reader (Scanner.step reader database .flush) type since := by
  unfold Scanner.step
  dsimp only
  split
  · next scan hscan =>
    refine ⟨?_, ?_, ?_⟩
    · intro other reading hother hstage
      obtain rfl := Option.some.inj hother
      exact h.reading scan reading hscan hstage
    · intro other hother tags htags
      obtain rfl := Option.some.inj hother
      exact absurd htags (List.not_mem_nil)
    · intro track htrack hsince
      obtain hwritten | ⟨⟨old, hold, hsame⟩, -⟩ := mem_write htrack
      · exact h.batch scan hscan _ hwritten
      · have hgeneration : old.tagsGeneration = track.tagsGeneration :=
          congrArg TagsReread.tagsGeneration hsame
        rw [← hsame]
        exact h.tracks old hold (by omega)
  · exact h

/-- **While each release that runs has a type**, each step keeps what holds of it. -/
theorem step (h : ReadsType reader database type since) (hkept : Kept reader database)
    (hruns : ∀ release, database.release = some release → type ∈ release.builtIn)
    (label : Label Contents) : ReadsType reader (Scanner.step reader database label) type since := by
  cases label with
  | start later =>
    refine ⟨?_, ?_, ?_⟩
    · intro scan reading hscan hstage
      obtain ⟨old, -, rfl⟩ := Option.map_eq_some_iff.mp hscan
      cases hstage
    · intro scan hscan tags htags
      obtain ⟨old, -, rfl⟩ := Option.map_eq_some_iff.mp hscan
      exact absurd htags (List.not_mem_nil)
    · unfold Scanner.step
      simp only [countBuiltIn_tracks]
      exact h.tracks
  | register manifest => exact ⟨h.reading, h.batch, h.tracks⟩
  | begin =>
    unfold Scanner.step
    dsimp only
    split
    · exact h
    · refine h.withIdle ?_
      intro scan hscan
      obtain rfl := Option.some.inj hscan
      exact ⟨rfl, rfl⟩
  | generation =>
    unfold Scanner.step
    dsimp only
    split
    · next scan hscan =>
      split
      · refine h.withScan ?_ ?_
        · intro other reading hother hstage
          obtain rfl := Option.some.inj hother
          cases hstage
        · intro other hother
          obtain rfl := Option.some.inj hother
          exact h.batch scan hscan
      · exact h
      · exact h
    · exact h
  | types =>
    unfold Scanner.step
    dsimp only
    split
    · next release scan hrelease hscan =>
      split
      · refine h.withScan ?_ ?_
        · intro next reading hnext hstage
          obtain rfl := Option.some.inj hnext
          obtain rfl := Stage.reading.inj hstage
          exact List.mem_append_left _ (hruns release hrelease)
        · intro next hnext
          obtain rfl := Option.some.inj hnext
          exact h.batch scan hscan
      · exact h
      · exact h
    · exact h
  | visit path found => exact h.visit hkept path found
  | flush => exact h.flush
  | stop =>
    refine h.withIdle ?_
    intro scan hscan
    obtain ⟨old, -, rfl⟩ := Option.map_eq_some_iff.mp hscan
    exact ⟨rfl, rfl⟩
  | complete =>
    unfold Scanner.step
    dsimp only
    split
    · split
      · refine h.withIdle ?_
        intro scan hscan
        cases hscan
      · exact h
    · exact h
  | purge path =>
    refine ⟨h.reading, h.batch, ?_⟩
    exact fun track htrack => h.tracks track (List.mem_of_mem_filter htrack)

end ReadsType

theorem builtIn_step (database : Database Contents) {label : Label Contents}
    (hstart : ∀ other, label ≠ .start other) :
    (step reader database label).builtIn = database.builtIn := by
  cases label with
  | start other => exact absurd rfl (hstart other)
  | register | stop | purge => rfl
  | begin | flush =>
    unfold step
    dsimp only
    split <;> rfl
  | generation | types | visit | complete =>
    unfold step
    dsimp only
    split
    · split <;> rfl
    · rfl

theorem generation_step (database : Database Contents) (h : Kept reader database)
    (label : Label Contents) :
    database.types.generation ≤ (step reader database label).types.generation := by
  cases label with
  | start release => exact (countBuiltIn_types database release).2
  | register manifest => exact (register_extends _ manifest h.types).generation
  | stop | purge => exact Nat.le_refl _
  | begin | flush =>
    unfold step
    dsimp only
    split <;> exact Nat.le_refl _
  | generation | types | visit | complete =>
    unfold step
    dsimp only
    split
    · split <;> exact Nat.le_refl _
    · exact Nat.le_refl _

/-- While a release runs, each step keeps what holds of its types. -/
theorem RunsWith.step {database : Database Contents} {release : Release}
    (h : RunsWith reader database release) (hkept : Kept reader database)
    (hruns : database.release = some release) {label : Label Contents}
    (hstart : ∀ other, label ≠ .start other) :
    RunsWith reader (Scanner.step reader database label) release := by
  obtain ⟨since, hle, htypes⟩ := h.types
  refine ⟨(builtIn_step database hstart).trans h.counted, since,
    Nat.le_trans hle (generation_step database hkept label), fun type htype => ?_⟩
  refine (htypes type htype).step hkept (fun other hother => ?_) label
  obtain rfl := Option.some.inj (hother.symm.trans hruns)
  exact htype

/-- Before the first start, each other step keeps that nothing is read. -/
theorem Unread.step {database : Database Contents} (h : Unread database)
    (hruns : database.release = none) {label : Label Contents}
    (hstart : ∀ other, label ≠ .start other) :
    Unread (Scanner.step reader database label) := by
  cases label with
  | start other => exact absurd rfl (hstart other)
  | register manifest => exact ⟨h.builtIn, h.tracks, h.reading, h.batch⟩
  | begin =>
    unfold Scanner.step
    dsimp only
    split
    · exact h
    · refine ⟨h.builtIn, h.tracks, ?_, ?_⟩
      · intro scan reading hscan hstage
        obtain rfl := Option.some.inj hscan
        cases hstage
      · intro scan hscan
        obtain rfl := Option.some.inj hscan
        rfl
  | generation =>
    unfold Scanner.step
    dsimp only
    split
    · next scan hscan =>
      split
      · refine ⟨h.builtIn, h.tracks, ?_, ?_⟩
        · intro other reading hother hstage
          obtain rfl := Option.some.inj hother
          cases hstage
        · intro other hother
          obtain rfl := Option.some.inj hother
          exact h.batch scan hscan
      · exact h
      · exact h
    · exact h
  | types =>
    unfold Scanner.step
    dsimp only
    rw [hruns]
    exact h
  | visit path found =>
    unfold Scanner.step
    dsimp only
    split
    · next scan hscan =>
      split
      · next reading hstage => exact absurd hstage (h.reading scan reading hscan)
      · exact h
      · exact h
    · exact h
  | flush =>
    unfold Scanner.step
    dsimp only
    split
    · next scan hscan =>
      refine ⟨h.builtIn, ?_, ?_, ?_⟩
      · refine List.eq_nil_iff_forall_not_mem.mpr ?_
        intro track htrack
        obtain hwritten | ⟨⟨old, hold, -⟩, -⟩ := mem_write htrack
        · rw [h.batch scan hscan] at hwritten
          exact absurd hwritten (List.not_mem_nil)
        · rw [h.tracks] at hold
          exact absurd hold (List.not_mem_nil)
      · intro other reading hother
        obtain rfl := Option.some.inj hother
        exact h.reading scan reading hscan
      · intro other hother
        obtain rfl := Option.some.inj hother
        rfl
    · exact h
  | stop =>
    refine ⟨h.builtIn, h.tracks, ?_, ?_⟩
    · intro scan reading hscan hstage
      obtain ⟨old, -, rfl⟩ := Option.map_eq_some_iff.mp hscan
      cases hstage
    · intro scan hscan
      obtain ⟨old, -, rfl⟩ := Option.map_eq_some_iff.mp hscan
      rfl
  | complete =>
    unfold Scanner.step
    dsimp only
    split
    · split
      · exact ⟨h.builtIn, h.tracks, fun _ _ hnone => (by cases hnone),
          fun _ hnone => (by cases hnone)⟩
      · exact h
    · exact h
  | purge path =>
    refine ⟨h.builtIn, ?_, h.reading, h.batch⟩
    simp [Scanner.step, h.tracks]

/-! ### Starts -/

theorem Unread.start {database : Database Contents} (h : Unread database) (release : Release) :
    RunsWith reader (Scanner.step reader database (.start release)) release := by
  have htracks : (countBuiltIn database release).tracks = [] :=
    (countBuiltIn_tracks database release).trans h.tracks
  refine ⟨?_, 0, Nat.zero_le _, fun type _ => ⟨?_, ?_, ?_⟩⟩
  · unfold Scanner.step
    simp only [countBuiltIn, h.builtIn]
    split
    · rfl
    · have := h.builtIn
      omega
  · intro scan reading hscan hstage
    obtain ⟨old, -, rfl⟩ := Option.map_eq_some_iff.mp hscan
    cases hstage
  · intro scan hscan tags htags
    obtain ⟨old, -, rfl⟩ := Option.map_eq_some_iff.mp hscan
    exact absurd htags (List.not_mem_nil)
  · intro track htrack
    unfold Scanner.step at htrack
    simp only [htracks] at htrack
    exact absurd htrack (List.not_mem_nil)

/-- A release that adds to the built-in types takes a generation that no track has yet. -/
theorem RunsWith.start {database : Database Contents} {release later : Release}
    (h : RunsWith reader database release) (hkept : Kept reader database)
    (hruns : database.release = some release) (hfollows : later.Follows release) :
    RunsWith reader (Scanner.step reader database (.start later)) later := by
  constructor
  · unfold Scanner.step
    simp only [countBuiltIn, h.counted]
    split
    · rfl
    · have := h.counted
      obtain hless | ⟨heq, -⟩ := hfollows <;> omega
  obtain hless | ⟨heq, htypes⟩ := hfollows
  · refine ⟨database.types.generation + 1, ?_, fun type _ => ⟨?_, ?_, ?_⟩⟩
    · unfold Scanner.step
      simp only [countBuiltIn, h.counted, if_pos hless]
      exact Nat.le_refl _
    · intro scan reading hscan hstage
      obtain ⟨old, -, rfl⟩ := Option.map_eq_some_iff.mp hscan
      cases hstage
    · intro scan hscan tags htags
      obtain ⟨old, -, rfl⟩ := Option.map_eq_some_iff.mp hscan
      exact absurd htags (List.not_mem_nil)
    · intro track htrack hsince
      unfold Scanner.step at htrack
      simp only [countBuiltIn_tracks] at htrack
      have := hkept.generation track htrack
      omega
  · obtain ⟨since, hle, hreads⟩ := h.types
    refine ⟨since, Nat.le_trans hle (generation_step database hkept _), fun type htype => ?_⟩
    rw [← htypes] at htype
    refine (hreads type htype).step hkept (fun other hother => ?_) _
    obtain rfl := Option.some.inj (hother.symm.trans hruns)
    exact htype

theorem release_step (database : Database Contents) {label : Label Contents}
    (hstart : ∀ other, label ≠ .start other) :
    (step reader database label).release = database.release := by
  cases label with
  | start other => exact absurd rfl (hstart other)
  | register | stop | purge => rfl
  | begin | flush =>
    unfold step
    dsimp only
    split <;> rfl
  | generation | types | visit | complete =>
    unfold step
    dsimp only
    split
    · split <;> rfl
    · rfl

/-! ### Runs -/

theorem starts_append (labels more : List (Label Contents)) :
    starts (labels ++ more) = starts labels ++ starts more :=
  List.filterMap_append

theorem release_after (labels : List (Label Contents)) :
    (after reader labels).release = (starts labels).getLast? := by
  induction labels using List.reverseRecOn with
  | nil => rfl
  | append_singleton labels label ih =>
    rw [after_append, starts_append, List.foldl_cons, List.foldl_nil]
    by_cases hstart : ∃ release, label = .start release
    · obtain ⟨release, rfl⟩ := hstart
      simp [step, starts]
    · have hnot : ∀ other, label ≠ .start other := fun other h => hstart ⟨other, h⟩
      have hnone : starts [label] = [] := by
        cases label with
        | start release => exact absurd rfl (hnot release)
        | _ => rfl
      rw [release_step _ hnot, ih, hnone, List.append_nil]

theorem after_builtIn (labels : List (Label Contents)) (honwards : Onwards labels) :
    BuiltInKept reader (after reader labels) := by
  induction labels using List.reverseRecOn with
  | nil => exact builtInKept_empty
  | append_singleton labels label ih =>
    unfold Onwards at honwards
    rw [starts_append, List.pairwise_append] at honwards
    obtain ⟨hbefore, -, hlast⟩ := honwards
    obtain ⟨hunread, hrunning⟩ := ih hbefore
    have hkept : Kept reader (after reader labels) := after_keeps labels
    rw [after_append, List.foldl_cons, List.foldl_nil]
    by_cases hstart : ∃ release, label = .start release
    · obtain ⟨later, rfl⟩ := hstart
      constructor
      · intro hnone
        cases hnone
      · intro release hrelease
        obtain rfl := Option.some.inj hrelease
        cases hfirst : (after reader labels).release with
        | none => exact (hunread hfirst).start later
        | some first =>
          have hmem : first ∈ starts labels := by
            rw [release_after] at hfirst
            exact List.mem_of_getLast? hfirst
          exact (hrunning first hfirst).start hkept hfirst
            (hlast first hmem later (by simp [starts]))
    · have hnot : ∀ other, label ≠ .start other := fun other h => hstart ⟨other, h⟩
      constructor
      · intro hnone
        rw [release_step _ hnot] at hnone
        exact (hunread hnone).step hnone hnot
      · intro release hrelease
        rw [release_step _ hnot] at hrelease
        exact (hrunning release hrelease).step hkept hrelease hnot

theorem generation_after (labels more : List (Label Contents)) :
    (after reader labels).types.generation ≤ (after reader (labels ++ more)).types.generation := by
  induction more using List.reverseRecOn with
  | nil =>
    exact (List.append_nil labels).symm ▸ Nat.le_refl _
  | append_singleton more label ih =>
    rw [← List.append_assoc, after_append (labels ++ more)]
    exact Nat.le_trans ih (generation_step _ (after_keeps _) label)

/-- A scan that came to every file and began in the current generation. -/
theorem Kept.completed {database : Database Contents} (h : Kept reader database)
    {scan : Scan Contents} (hscan : database.scan = some scan)
    (hall : scan.cameToAll database.tracks) (hbegan : scan.began = database.types.generation)
    {track : Track Contents} (htrack : track ∈ database.tracks) (hpresent : ¬ track.missing) :
    (∃ came, (track.path, came) ∈ scan.came) ∧
      ((track.path, .read) ∈ scan.came → track.tagsGeneration = database.types.generation) := by
  constructor
  · simp only [Scan.cameToAll, Bool.and_eq_true, List.all_eq_true] at hall
    have hcame := hall.2 track htrack
    simp only [hpresent, Bool.false_or, List.any_eq_true, decide_eq_true_eq] at hcame
    obtain ⟨entry, hentry, hpath⟩ := hcame
    refine ⟨entry.2, ?_⟩
    rw [← hpath]
    exact hentry
  · intro hread
    have hle := (h.scan scan hscan).came track.path hread track htrack rfl
    have hge := h.generation track htrack
    omega

/-- What holds of a type after steps whose starts all have it. -/
theorem ReadsType.run {database : Database Contents} {type : TagTypeField} {since : Nat}
    (h : ReadsType reader database type since) (hkept : Kept reader database)
    (hruns : ∀ release, database.release = some release → type ∈ release.builtIn)
    (labels : List (Label Contents)) (hstarts : ∀ other ∈ starts labels, type ∈ other.builtIn) :
    ReadsType reader (labels.foldl (Scanner.step reader) database) type since := by
  induction labels generalizing database with
  | nil => exact h
  | cons label labels ih =>
    rw [← List.singleton_append, starts_append] at hstarts
    refine ih (h.step hkept hruns label) (step_keeps hkept label) (fun release hrelease => ?_)
      fun other hother => hstarts other (List.mem_append_right _ hother)
    by_cases hstart : ∃ later, label = .start later
    · obtain ⟨later, rfl⟩ := hstart
      obtain rfl := Option.some.inj hrelease
      exact hstarts later (List.mem_append_left _ (by simp [starts]))
    · rw [release_step _ fun other he => hstart ⟨other, he⟩] at hrelease
      exact hruns release hrelease

/-- **A built-in type is read for** from the generation that a start left it with, for as long as
each release started has it. -/
theorem reads_since {before later : List (Label Contents)} {release : Release}
    (honwards : Onwards (before ++ .start release :: later)) {type : TagTypeField}
    (htype : type ∈ release.builtIn) (hlater : ∀ other ∈ starts later, type ∈ other.builtIn) :
    ReadsType reader (after reader (before ++ .start release :: later)) type
      (after reader (before ++ [.start release])).types.generation := by
  have hsplit : before ++ .start release :: later = (before ++ [.start release]) ++ later := by simp
  have hbefore : Onwards (before ++ [.start release]) := by
    rw [Onwards, hsplit, starts_append, List.pairwise_append] at honwards
    exact honwards.1
  have hrelease : (after reader (before ++ [.start release])).release = some release := by
    rw [release_after, starts_append, List.getLast?_append]
    rfl
  obtain ⟨since, hle, hreads⟩ := ((after_builtIn _ hbefore).running release hrelease).types
  have htypes := hreads type htype
  have hstarted : ReadsType reader (after reader (before ++ [.start release])) type
      (after reader (before ++ [.start release])).types.generation :=
    ⟨htypes.reading, htypes.batch, fun track htrack hsince =>
      htypes.tracks track htrack (Nat.le_trans hle hsince)⟩
  rw [hsplit, after_append]
  refine hstarted.run (after_keeps _) (fun other hother => ?_) later hlater
  obtain rfl := Option.some.inj (hother.symm.trans hrelease)
  exact htype

/-- Over every run in which no start goes back to an older release, a track holds what its file
gives for each type that is as old as its generation: for a plugin's type, which has a generation,
and for a built-in one, whose generation is the one that a start of a release with it left, while
each release started since has it. The generation never falls and is at least every type's. A scan
of the whole library that completes, and that began after the last raise, came to each present track
and leaves it with the current generation, unless its file could not be read or its track was
missing. -/
theorem generations_honest (reader : Reader Contents) (labels : List (Label Contents))
    (honwards : Onwards labels) :
    (∀ track ∈ (after reader labels).tracks, ∀ type ∈ (after reader labels).types.added,
      type.since ≤ track.tagsGeneration →
        valuesOf track.tagValues type.key = reader.custom track.file type.field) ∧
    (∀ before release later, labels = before ++ .start release :: later →
      ∀ type ∈ release.builtIn, (∀ other ∈ starts later, type ∈ other.builtIn) →
        (after reader (before ++ [.start release])).types.generation ≤
            (after reader labels).types.generation ∧
          ∀ track ∈ (after reader labels).tracks,
            (after reader (before ++ [.start release])).types.generation ≤ track.tagsGeneration →
              valuesOf track.tagValues type.key = reader.values track.file type) ∧
    (∀ more, (after reader labels).types.generation ≤
      (after reader (labels ++ more)).types.generation) ∧
    (∀ type ∈ (after reader labels).types.added,
      type.since ≤ (after reader labels).types.generation) ∧
    (∀ scan, (after reader labels).scan = some scan →
      scan.cameToAll (after reader labels).tracks →
      scan.began = (after reader labels).types.generation →
        ∀ track ∈ (after reader labels).tracks, ¬ track.missing →
          (∃ came, (track.path, came) ∈ scan.came) ∧
            ((track.path, .read) ∈ scan.came →
              track.tagsGeneration = (after reader labels).types.generation)) := by
  have hkept : Kept reader (after reader labels) := after_keeps labels
  refine ⟨hkept.fits, ?_, generation_after labels, hkept.types.since, ?_⟩
  · rintro before release later rfl type htype hlater
    constructor
    · have hgrown := @generation_after _ reader (before ++ [.start release]) later
      rw [List.append_assoc] at hgrown
      exact hgrown
    · exact (reads_since honwards htype hlater).tracks
  · intro scan hscan hall hbegan track htrack hpresent
    exact hkept.completed hscan hall hbegan htrack hpresent

/-! ### A release that adds a type -/

/-- A file whose tags are given. -/
def tagged : Reader (List (String × List String)) := ⟨valuesOf, valuesOf⟩

def genreField : TagTypeField := ⟨"genre", some "Genre", none⟩

def moodField : TagTypeField := ⟨"mood", some "Mood", some "MOOD"⟩

def withGenre : Release := ⟨1, [genreField], by decide, by decide⟩

/-- It adds moods to the built-in types. -/
def withMood : Release := ⟨2, [genreField, moodField], by decide, by decide⟩

/-- A scan of a library of one calm file. -/
def scanCalm : List (Label (List (String × List String))) :=
  [.begin, .generation, .types, .visit "calm.mp3" (.listed ⟨1, 1, 0, some [("Mood", ["calm"])]⟩),
    .flush, .complete]

/-- The release that adds moods reads them as it starts. -/
theorem generations_honest_mood :
    let labels := .start withGenre :: scanCalm ++ .start withMood :: scanCalm
    ((after tagged labels).tracks.map fun track => (track.tagsGeneration, track.tagValues)) =
        [(2, [("mood", ["calm"])])] ∧
      ∀ track ∈ (after tagged labels).tracks, 2 ≤ track.tagsGeneration →
        valuesOf track.tagValues "mood" = tagged.values track.file moodField := by
  intro labels
  have honest := generations_honest tagged labels (by decide)
  exact ⟨by decide +kernel, (honest.2.1 (.start withGenre :: scanCalm) withMood scanCalm rfl moodField
    (by decide) (by decide)).2⟩

/-- A server that goes back to the older release reads files without moods under the newer one's
generation, and the newer one, started again, takes them for read. -/
theorem older_release_claims :
    let before := .start withMood :: .start withGenre :: scanCalm
    let labels := before ++ .start withMood :: scanCalm
    (after tagged (before ++ [.start withMood])).types.generation = 1 ∧
      ∃ track ∈ (after tagged labels).tracks, track.missing = false ∧ 1 ≤ track.tagsGeneration ∧
        valuesOf track.tagValues moodField.key ≠ tagged.values track.file moodField := by
  intro before labels
  exact ⟨by decide +kernel, by decide +kernel⟩

end JewelCase.Scanner
