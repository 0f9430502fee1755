import Mathlib.Data.List.Induction
import Mathlib.Data.List.Nodup
import JewelCase.Scanner.Writes

/-!
# No generation claims tags it was not read for

What holds at every moment of the tag types, of each track and of a scan under way, and from it that
a completed scan leaves each track that it read with the current generation.
-/
namespace JewelCase.Scanner

open JewelCase.Plugins (Manifest TagType TagTypes)

set_option autoImplicit false

variable {Contents : Type} {reader : Reader Contents}

/-! ### A scan -/

/-- Tags that a scan read and did not write yet. -/
structure Read (reader : Reader Contents) (types : TagTypes) (began : Nat)
    (tags : TagsReread Contents) : Prop where
  fits : Fits reader types tags
  began : began ≤ tags.tagsGeneration
  generation : tags.tagsGeneration ≤ types.generation

/-- What holds of a scan under way. -/
structure ScanKept (reader : Reader Contents) (types : TagTypes) (tracks : List (Track Contents))
    (scan : Scan Contents) : Prop where
  began : scan.began ≤ types.generation
  counted : ∀ generation, scan.stage = .counted generation →
    scan.began ≤ generation ∧ generation ≤ types.generation
  reading : ∀ reading, scan.stage = .reading reading →
    scan.began ≤ reading.generation ∧ Covers types reading
  tags : ∀ tags ∈ scan.batch.tags, Read reader types scan.began tags
  came : ∀ path, (path, .read) ∈ scan.came →
    ∀ track ∈ tracks, track.path = path → scan.began ≤ track.tagsGeneration
  pending : ∀ path, (path, .read) ∈ scan.batch.came →
    (∃ tags ∈ scan.batch.tags, tags.path = path) ∨
      ∀ track ∈ tracks, track.path = path → scan.began ≤ track.tagsGeneration

theorem ScanKept.extend {before after : TagTypes} {tracks : List (Track Contents)}
    {scan : Scan Contents} (h : ScanKept reader before tracks scan)
    (hextends : Extends before after) : ScanKept reader after tracks scan := by
  have hle := hextends.generation
  refine ⟨Nat.le_trans h.began hle, ?_, ?_, ?_, h.came, h.pending⟩
  · intro generation hstage
    obtain ⟨hbegan, hgeneration⟩ := h.counted generation hstage
    exact ⟨hbegan, Nat.le_trans hgeneration hle⟩
  · intro reading hstage
    obtain ⟨hbegan, hcovers⟩ := h.reading reading hstage
    exact ⟨hbegan, hcovers.extend hextends⟩
  · intro tags htags
    obtain ⟨hfits, hbegan, hgeneration⟩ := h.tags tags htags
    exact ⟨hfits.extend hextends hgeneration, hbegan, Nat.le_trans hgeneration hle⟩

/-- A scan that stops loses its batch and what it read of the types. -/
theorem ScanKept.stop {types : TagTypes} {tracks : List (Track Contents)} {scan : Scan Contents}
    (h : ScanKept reader types tracks scan) :
    ScanKept reader types tracks { scan with stage := .idle, batch := .empty } := by
  refine ⟨h.began, ?_, ?_, ?_, h.came, ?_⟩
  · intro generation hstage
    cases hstage
  · intro reading hstage
    cases hstage
  · intro tags htags
    exact absurd htags (List.not_mem_nil)
  · intro path hpath
    exact absurd hpath (List.not_mem_nil)

theorem ScanKept.fewer {types : TagTypes} {tracks fewer : List (Track Contents)}
    {scan : Scan Contents} (h : ScanKept reader types tracks scan)
    (hfewer : ∀ track ∈ fewer, track ∈ tracks) : ScanKept reader types fewer scan := by
  refine ⟨h.began, h.counted, h.reading, h.tags, ?_, ?_⟩
  · intro path hpath track htrack
    exact h.came path hpath track (hfewer track htrack)
  · intro path hpath
    obtain htags | hkept := h.pending path hpath
    · exact .inl htags
    · exact .inr fun track htrack => hkept track (hfewer track htrack)

/-- What a scan does with a file, added to its batch. -/
theorem ScanKept.add {types : TagTypes} {tracks : List (Track Contents)} {scan : Scan Contents}
    (h : ScanKept reader types tracks scan) (path : String) (outcome : FileOutcome Contents)
    (htags : ∀ tags, outcome.tags = some tags →
      tags.path = path ∧ Read reader types scan.began tags)
    (hread : outcome.came = .read → (∃ tags, outcome.tags = some tags) ∨
      ∀ track ∈ tracks, track.path = path → scan.began ≤ track.tagsGeneration) :
    ScanKept reader types tracks { scan with batch := scan.batch.add path outcome } := by
  refine ⟨h.began, h.counted, h.reading, ?_, h.came, ?_⟩
  · intro tags hmem
    obtain hold | hnew := (mem_tags_add _ _ _ _).mp hmem
    · exact h.tags tags hold
    · exact (htags tags hnew).2
  · intro other hcame
    rw [came_add, List.mem_append, List.mem_singleton] at hcame
    obtain hold | hnew := hcame
    · obtain ⟨tags, hmem, hpath⟩ | hkept := h.pending other hold
      · exact .inl ⟨tags, (mem_tags_add _ _ _ _).mpr (.inl hmem), hpath⟩
      · exact .inr hkept
    · obtain ⟨rfl, hcame⟩ := Prod.mk.inj hnew
      obtain ⟨tags, hnew⟩ | hkept := hread hcame.symm
      · exact .inl ⟨tags, (mem_tags_add _ _ _ _).mpr (.inr hnew), (htags tags hnew).1⟩
      · exact .inr hkept

/-- A listed file. -/
theorem ScanKept.visit {types : TagTypes} {tracks : List (Track Contents)} {scan : Scan Contents}
    {reading : Reading} (h : ScanKept reader types tracks scan)
    (hpaths : (tracks.map Track.path).Nodup) (hstage : scan.stage = .reading reading)
    (path : String) (candidate : Candidate Contents) :
    ScanKept reader types tracks { scan with
      batch := scan.batch.add path (processFile reader reading path candidate
        (tracks.find? fun track => track.path = path)) } := by
  obtain ⟨hbegan, hcovers⟩ := h.reading reading hstage
  refine h.add path _ ?_ ?_
  · intro tags htags
    obtain ⟨contents, rfl⟩ := processFile_tags htags
    exact ⟨rfl, hcovers.fits path contents, hbegan, hcovers.generation⟩
  · intro hcame
    obtain hunchanged | htags := tags_of_came hcame
    · obtain ⟨ix, hix, hle⟩ := processFile_unchanged hunchanged
      right
      intro track htrack hpath
      have hixPath : ix.path = path := by simpa using List.find?_some hix
      have hsame : ix = track :=
        List.inj_on_of_nodup_map hpaths (List.mem_of_find?_eq_some hix) htrack
          (hixPath.trans hpath.symm)
      rw [← hsame]
      exact Nat.le_trans hbegan hle
    · exact .inl htags

theorem ScanKept.flush {types : TagTypes} {tracks : List (Track Contents)} {scan : Scan Contents}
    (h : ScanKept reader types tracks scan) :
    ScanKept reader types (scan.batch.write tracks)
      { scan with came := scan.came ++ scan.batch.came, batch := .empty } := by
  refine ⟨h.began, h.counted, h.reading, ?_, ?_, ?_⟩
  · intro tags htags
    exact absurd htags (List.not_mem_nil)
  · intro path hcame track htrack hpath
    obtain hwritten | ⟨⟨old, hold, hsame⟩, hother⟩ := mem_write htrack
    · exact (h.tags _ hwritten).began
    · have holdPath : old.path = path := (congrArg TagsReread.path hsame).trans hpath
      have hgeneration : old.tagsGeneration = track.tagsGeneration :=
        congrArg TagsReread.tagsGeneration hsame
      rw [← hgeneration]
      obtain hcame | hcame := List.mem_append.mp hcame
      · exact h.came path hcame old hold holdPath
      · obtain ⟨tags, htags, hat⟩ | hkept := h.pending path hcame
        · exact absurd (hat.trans hpath.symm) (hother tags htags)
        · exact hkept old hold holdPath
  · intro path hpath
    exact absurd hpath (List.not_mem_nil)

/-! ### The database -/

/-- What holds at every moment. -/
structure Kept (reader : Reader Contents) (database : Database Contents) : Prop where
  types : TypesKept database.types
  paths : (database.tracks.map Track.path).Nodup
  fits : ∀ track ∈ database.tracks, Fits reader database.types track.tags
  generation : ∀ track ∈ database.tracks, track.tagsGeneration ≤ database.types.generation
  scan : ∀ scan, database.scan = some scan →
    ScanKept reader database.types database.tracks scan

theorem kept_empty : Kept reader (.empty : Database Contents) := by
  refine ⟨⟨by simp [Database.empty], ?_, ?_⟩, by simp [Database.empty], ?_, ?_, ?_⟩
  all_goals
    intro _ h
    simp [Database.empty] at h

theorem Kept.extend {database : Database Contents} {types : TagTypes} (h : Kept reader database)
    (hextends : Extends database.types types) (htypes : TypesKept types) :
    Kept reader { database with types := types } := by
  refine ⟨htypes, h.paths, ?_, ?_, ?_⟩
  · intro track htrack
    exact (h.fits track htrack).extend hextends (h.generation track htrack)
  · intro track htrack
    exact Nat.le_trans (h.generation track htrack) hextends.generation
  · intro scan hscan
    exact (h.scan scan hscan).extend hextends

/-- The rest of a database. -/
theorem Kept.withScan {database : Database Contents} (h : Kept reader database)
    {scan : Option (Scan Contents)}
    (hscan : ∀ other, scan = some other → ScanKept reader database.types database.tracks other) :
    Kept reader { database with scan := scan } :=
  ⟨h.types, h.paths, h.fits, h.generation, hscan⟩

theorem countBuiltIn_types (database : Database Contents) (release : Release) :
    (countBuiltIn database release).types.added = database.types.added ∧
      database.types.generation ≤ (countBuiltIn database release).types.generation := by
  unfold countBuiltIn
  split
  · exact ⟨rfl, Nat.le_succ _⟩
  · exact ⟨rfl, Nat.le_refl _⟩

theorem countBuiltIn_extends (database : Database Contents) (release : Release) :
    Extends database.types (countBuiltIn database release).types := by
  obtain ⟨hadded, hle⟩ := countBuiltIn_types database release
  refine ⟨hle, ?_⟩
  intro type htype _
  rw [hadded] at htype
  exact ⟨type, htype, rfl, rfl, rfl⟩

theorem countBuiltIn_keeps {database : Database Contents} (release : Release)
    (h : TypesKept database.types) : TypesKept (countBuiltIn database release).types := by
  obtain ⟨hadded, hle⟩ := countBuiltIn_types database release
  refine ⟨hadded ▸ h.once, ?_, hadded ▸ h.dotted⟩
  intro type htype
  rw [hadded] at htype
  exact Nat.le_trans (h.since type htype) hle

theorem countBuiltIn_tracks (database : Database Contents) (release : Release) :
    (countBuiltIn database release).tracks = database.tracks := by
  unfold countBuiltIn
  split <;> rfl

theorem stop_keeps {database : Database Contents} (h : Kept reader database) :
    Kept reader { database with
      scan := database.scan.map fun scan => { scan with stage := .idle, batch := .empty } } := by
  refine h.withScan ?_
  intro scan hscan
  obtain ⟨old, hold, rfl⟩ := Option.map_eq_some_iff.mp hscan
  exact (h.scan old hold).stop

theorem start_keeps {database : Database Contents} (h : Kept reader database) (release : Release) :
    Kept reader (step reader database (.start release)) := by
  have hextended := h.extend (countBuiltIn_extends database release)
    (countBuiltIn_keeps release h.types)
  have hstopped := stop_keeps hextended
  unfold step
  simp only [countBuiltIn_tracks]
  exact ⟨hstopped.types, hstopped.paths, hstopped.fits, hstopped.generation, hstopped.scan⟩

theorem generation_keeps {database : Database Contents} (h : Kept reader database) :
    Kept reader (step reader database .generation) := by
  unfold step
  dsimp only
  split
  · next scan hscan =>
    split
    · refine h.withScan ?_
      intro other hother
      obtain rfl := Option.some.inj hother
      have hkept := h.scan scan hscan
      refine ⟨hkept.began, ?_, ?_, hkept.tags, hkept.came, hkept.pending⟩
      · intro generation hstage
        obtain rfl := Stage.counted.inj hstage
        exact ⟨hkept.began, Nat.le_refl _⟩
      · intro reading hstage
        cases hstage
    · exact h
    · exact h
  · exact h

theorem types_keeps {database : Database Contents} (h : Kept reader database) :
    Kept reader (step reader database .types) := by
  unfold step
  dsimp only
  split
  · next release scan _ hscan =>
    split
    · next generation hstage =>
      refine h.withScan ?_
      intro other hother
      obtain rfl := Option.some.inj hother
      have hkept := h.scan scan hscan
      obtain ⟨hbegan, hle⟩ := hkept.counted generation hstage
      refine ⟨hkept.began, ?_, ?_, hkept.tags, hkept.came, hkept.pending⟩
      · intro generation hstage
        cases hstage
      · intro reading hstage
        obtain rfl := Stage.reading.inj hstage
        exact ⟨hbegan, covers_withAdded database.types release generation h.types hle⟩
    · exact h
    · exact h
  · exact h

theorem visit_keeps {database : Database Contents} (h : Kept reader database) (path : String)
    (found : Found Contents) : Kept reader (step reader database (.visit path found)) := by
  unfold step
  dsimp only
  split
  · next scan hscan =>
    split
    · next reading hstage =>
      have hkept := h.scan scan hscan
      refine h.withScan ?_
      intro other hother
      obtain rfl := Option.some.inj hother
      cases found with
      | listed candidate => exact hkept.visit h.paths hstage path candidate
      | gone =>
        exact ⟨hkept.began, hkept.counted, hkept.reading, hkept.tags, hkept.came, hkept.pending⟩
      | unlisted =>
        refine hkept.add path .problem ?_ ?_
        · intro tags htags
          cases htags
        · intro hcame
          cases hcame
    · exact h
    · exact h
  · exact h

theorem flush_keeps {database : Database Contents} (h : Kept reader database) :
    Kept reader (step reader database .flush) := by
  unfold step
  dsimp only
  split
  · next scan hscan =>
    have hkept := h.scan scan hscan
    refine ⟨h.types, map_path_write _ _ h.paths, ?_, ?_, ?_⟩
    · intro track htrack
      obtain hwritten | ⟨⟨old, hold, hsame⟩, -⟩ := mem_write htrack
      · exact (hkept.tags _ hwritten).fits
      · exact hsame ▸ h.fits old hold
    · intro track htrack
      obtain hwritten | ⟨⟨old, hold, hsame⟩, -⟩ := mem_write htrack
      · exact (hkept.tags _ hwritten).generation
      · have hgeneration : old.tagsGeneration = track.tagsGeneration :=
          congrArg TagsReread.tagsGeneration hsame
        exact hgeneration ▸ h.generation old hold
    · intro other hother
      obtain rfl := Option.some.inj hother
      exact hkept.flush
  · exact h

theorem purge_keeps {database : Database Contents} (h : Kept reader database) (path : String) :
    Kept reader (step reader database (.purge path)) := by
  have hfewer : ∀ track ∈ database.tracks.filter (fun track =>
      ¬ (track.path = path ∧ track.missing)), track ∈ database.tracks :=
    fun track htrack => List.mem_of_mem_filter htrack
  refine ⟨h.types, h.paths.sublist (List.filter_sublist.map _), ?_, ?_, ?_⟩
  · exact fun track htrack => h.fits track (hfewer track htrack)
  · exact fun track htrack => h.generation track (hfewer track htrack)
  · exact fun scan hscan => (h.scan scan hscan).fewer hfewer

/-- Each step keeps what holds. -/
theorem step_keeps {database : Database Contents} (h : Kept reader database)
    (label : Label Contents) : Kept reader (step reader database label) := by
  cases label with
  | start release => exact start_keeps h release
  | register manifest =>
    exact h.extend (register_extends _ manifest h.types) (register_keeps _ manifest h.types)
  | begin =>
    unfold step
    dsimp only
    split
    · exact h
    · refine h.withScan ?_
      intro scan hscan
      obtain rfl := Option.some.inj hscan
      refine ⟨Nat.le_refl _, ?_, ?_, ?_, ?_, ?_⟩
      all_goals
        intro _ hnone
        simp [Batch.empty, Batch.tags] at hnone
  | generation => exact generation_keeps h
  | types => exact types_keeps h
  | visit path found => exact visit_keeps h path found
  | flush => exact flush_keeps h
  | stop => exact stop_keeps h
  | complete =>
    unfold step
    dsimp only
    split
    · split
      · exact h.withScan fun _ hnone => by cases hnone
      · exact h
    · exact h
  | purge path => exact purge_keeps h path

theorem after_append (labels more : List (Label Contents)) :
    after reader (labels ++ more) = more.foldl (step reader) (after reader labels) :=
  List.foldl_append

theorem after_keeps (labels : List (Label Contents)) : Kept reader (after reader labels) := by
  induction labels using List.reverseRecOn with
  | nil => exact kept_empty
  | append_singleton labels label ih =>
    rw [after_append]
    exact step_keeps ih label

end JewelCase.Scanner
