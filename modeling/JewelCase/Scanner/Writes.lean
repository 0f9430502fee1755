import JewelCase.Scanner.Registered

/-!
# What a batch writes

Each track after a batch has tags that the batch read, or those that it had before at a path that the
batch reads nothing for.
-/
namespace JewelCase.Scanner

set_option autoImplicit false

variable {Contents : Type}

/-- The tags that a batch writes. -/
def Batch.tags (batch : Batch Contents) : List (TagsReread Contents) :=
  batch.upserts.map Track.tags ++ batch.rereads

theorem mem_upsertTrack {tracks : List (Track Contents)} {record track : Track Contents}
    (h : track ∈ upsertTrack tracks record) :
    track = record ∨ (track ∈ tracks ∧ track.path ≠ record.path) := by
  unfold upsertTrack at h
  split at h
  · obtain ⟨old, hold, rfl⟩ := List.mem_map.mp h
    by_cases hpath : old.path = record.path
    · exact .inl (if_pos hpath)
    · rw [if_neg hpath]
      exact .inr ⟨hold, hpath⟩
  · next hnone =>
    obtain hold | hnew := List.mem_append.mp h
    · refine .inr ⟨hold, ?_⟩
      intro heq
      exact hnone (List.any_eq_true.mpr ⟨track, hold, by simpa using heq⟩)
    · exact .inl (List.mem_singleton.mp hnew)

theorem mem_upserts {records tracks : List (Track Contents)} {track : Track Contents}
    (h : track ∈ records.foldl upsertTrack tracks) :
    track ∈ records ∨ (track ∈ tracks ∧ ∀ record ∈ records, record.path ≠ track.path) := by
  induction records generalizing tracks with
  | nil => exact .inr ⟨h, by simp⟩
  | cons record rest ih =>
    obtain hrest | ⟨hmem, hrest⟩ := ih h
    · exact .inl (List.mem_cons_of_mem _ hrest)
    · obtain rfl | ⟨hold, hne⟩ := mem_upsertTrack hmem
      · exact .inl List.mem_cons_self
      · refine .inr ⟨hold, ?_⟩
        intro other hother
        obtain rfl | hother := List.mem_cons.mp hother
        · exact Ne.symm hne
        · exact hrest other hother

theorem mem_rereads {rereads : List (TagsReread Contents)} {tracks : List (Track Contents)}
    {track : Track Contents} (h : track ∈ rereads.foldl rereadTags tracks) :
    track.tags ∈ rereads ∨
      ((∃ old ∈ tracks, old.tags = track.tags) ∧ ∀ reread ∈ rereads, reread.path ≠ track.path) := by
  induction rereads generalizing tracks with
  | nil => exact .inr ⟨⟨track, h, rfl⟩, by simp⟩
  | cons reread rest ih =>
    obtain hrest | ⟨⟨written, hwritten, htags⟩, hrest⟩ := ih h
    · exact .inl (List.mem_cons_of_mem _ hrest)
    · obtain ⟨old, hold, rfl⟩ := List.mem_map.mp hwritten
      by_cases hpath : old.path = reread.path
      · left
        rw [if_pos hpath] at htags
        rw [← htags, Track.tags]
        dsimp only
        rw [hpath]
        exact List.mem_cons_self
      · rw [if_neg hpath] at htags
        refine .inr ⟨⟨old, hold, htags⟩, ?_⟩
        intro other hother
        obtain rfl | hother := List.mem_cons.mp hother
        · have hsame : old.path = track.path := congrArg TagsReread.path htags
          exact fun heq => hpath (hsame.trans heq.symm)
        · exact hrest other hother

theorem mem_setMissing {missing : Bool} {paths : List String} {tracks : List (Track Contents)}
    {track : Track Contents} (h : track ∈ paths.foldl (setMissing missing) tracks) :
    ∃ old ∈ tracks, old.tags = track.tags := by
  induction paths generalizing tracks with
  | nil => exact ⟨track, h, rfl⟩
  | cons path rest ih =>
    obtain ⟨written, hwritten, htags⟩ := ih h
    obtain ⟨old, hold, rfl⟩ := List.mem_map.mp hwritten
    refine ⟨old, hold, ?_⟩
    rw [← htags]
    split <;> rfl

/-- What a batch leaves of a track. -/
theorem mem_write {batch : Batch Contents} {tracks : List (Track Contents)} {track : Track Contents}
    (h : track ∈ batch.write tracks) :
    track.tags ∈ batch.tags ∨
      ((∃ old ∈ tracks, old.tags = track.tags) ∧
        ∀ tags ∈ batch.tags, tags.path ≠ track.path) := by
  unfold Batch.write at h
  obtain ⟨marked, hmarked, hmarkedTags⟩ := mem_setMissing h
  obtain ⟨reread, hreread, hrereadTags⟩ := mem_setMissing hmarked
  have hreads := mem_rereads hreread
  rw [hrereadTags, hmarkedTags] at hreads
  have hpath : reread.path = track.path :=
    congrArg TagsReread.path (hrereadTags.trans hmarkedTags)
  rw [hpath] at hreads
  obtain hread | ⟨⟨upserted, hupserted, htags⟩, hnone⟩ := hreads
  · exact .inl (List.mem_append_right _ hread)
  · obtain hnew | ⟨hold, hother⟩ := mem_upserts hupserted
    · rw [← htags]
      exact .inl (List.mem_append_left _ (List.mem_map_of_mem hnew))
    · refine .inr ⟨⟨upserted, hold, htags⟩, ?_⟩
      have hsame : upserted.path = track.path := congrArg TagsReread.path htags
      intro tags hmem
      obtain hmem | hmem := List.mem_append.mp hmem
      · obtain ⟨record, hrecord, rfl⟩ := List.mem_map.mp hmem
        exact hsame ▸ hother record hrecord
      · exact hnone tags hmem

/-! ### Paths -/

theorem map_path_upsertTrack (tracks : List (Track Contents)) (record : Track Contents)
    (h : (tracks.map Track.path).Nodup) :
    ((upsertTrack tracks record).map Track.path).Nodup := by
  unfold upsertTrack
  split
  · have hpaths : (tracks.map fun track => if track.path = record.path then record else track).map
        Track.path = tracks.map Track.path := by
      rw [List.map_map]
      refine List.map_congr_left ?_
      intro track _
      simp only [Function.comp_apply]
      split
      · next heq => exact heq.symm
      · rfl
    rw [hpaths]
    exact h
  · next hnone =>
    rw [List.map_append, List.nodup_append]
    refine ⟨h, by simp, ?_⟩
    intro path hpath other hother heq
    obtain ⟨track, htrack, rfl⟩ := List.mem_map.mp hpath
    simp only [List.map_cons, List.map_nil, List.mem_singleton] at hother
    subst hother
    exact hnone (List.any_eq_true.mpr ⟨track, htrack, by simpa using heq⟩)

theorem map_path_upserts (records tracks : List (Track Contents))
    (h : (tracks.map Track.path).Nodup) :
    ((records.foldl upsertTrack tracks).map Track.path).Nodup := by
  induction records generalizing tracks with
  | nil => exact h
  | cons record rest ih => exact ih _ (map_path_upsertTrack tracks record h)

theorem map_path_rereads (rereads : List (TagsReread Contents)) (tracks : List (Track Contents)) :
    (rereads.foldl rereadTags tracks).map Track.path = tracks.map Track.path := by
  induction rereads generalizing tracks with
  | nil => rfl
  | cons reread rest ih =>
    rw [List.foldl_cons, ih, rereadTags, List.map_map]
    refine List.map_congr_left ?_
    intro track _
    simp only [Function.comp_apply]
    split <;> rfl

theorem map_path_setMissing (missing : Bool) (paths : List String)
    (tracks : List (Track Contents)) :
    (paths.foldl (setMissing missing) tracks).map Track.path = tracks.map Track.path := by
  induction paths generalizing tracks with
  | nil => rfl
  | cons path rest ih =>
    rw [List.foldl_cons, ih, setMissing, List.map_map]
    refine List.map_congr_left ?_
    intro track _
    simp only [Function.comp_apply]
    split <;> rfl

theorem map_path_write (batch : Batch Contents) (tracks : List (Track Contents))
    (h : (tracks.map Track.path).Nodup) : ((batch.write tracks).map Track.path).Nodup := by
  unfold Batch.write
  dsimp only
  rw [map_path_setMissing, map_path_setMissing, map_path_rereads]
  exact map_path_upserts _ _ h

/-! ### Files -/

/-- The tags that a scan read of a file. -/
def FileOutcome.tags : FileOutcome Contents → Option (TagsReread Contents)
  | .added record | .updated record => some record.tags
  | .reread anew => some anew
  | .unchanged | .returned | .problem => none

def FileOutcome.came : FileOutcome Contents → Came
  | .added _ | .updated _ | .reread _ | .unchanged => .read
  | .returned => .returned
  | .problem => .unread

theorem came_add (batch : Batch Contents) (path : String) (outcome : FileOutcome Contents) :
    (batch.add path outcome).came = batch.came ++ [(path, outcome.came)] := by
  cases outcome <;> rfl

theorem mem_tags_add (batch : Batch Contents) (path : String) (outcome : FileOutcome Contents)
    (tags : TagsReread Contents) :
    tags ∈ (batch.add path outcome).tags ↔ tags ∈ batch.tags ∨ outcome.tags = some tags := by
  cases outcome with
  | unchanged | returned | problem => simp [Batch.add, Batch.tags, FileOutcome.tags]
  | added record | updated record =>
    simp only [Batch.add, Batch.tags, FileOutcome.tags, List.map_append, List.map_cons,
      List.map_nil, List.mem_append, List.mem_singleton, Option.some.injEq]
    grind
  | reread reread =>
    simp only [Batch.add, Batch.tags, FileOutcome.tags, List.mem_append, List.mem_singleton,
      Option.some.injEq]
    grind

variable {reader : Reader Contents}

/-- Whatever a scan reads of a file, it reads with its reading. -/
theorem processFile_tags {reading : Reading} {path : String} {candidate : Candidate Contents}
    {indexed : Option (Track Contents)} {tags : TagsReread Contents}
    (h : (processFile reader reading path candidate indexed).tags = some tags) :
    ∃ contents, tags = ⟨path, reader.read reading contents, reading.generation, contents⟩ := by
  unfold processFile at h
  dsimp only at h
  split at h
  · split at h
    · split at h
      · simp [FileOutcome.tags] at h
      · split at h
        · split at h
          · next contents _ => exact ⟨contents, (Option.some.inj h).symm⟩
          · simp [FileOutcome.tags] at h
        · simp [FileOutcome.tags] at h
    · split at h
      · next contents _ => exact ⟨contents, (Option.some.inj h).symm⟩
      · simp [FileOutcome.tags] at h
  · split at h
    · next contents _ => exact ⟨contents, (Option.some.inj h).symm⟩
    · simp [FileOutcome.tags] at h

/-- A file is left as it is when the index has it read with types as new. -/
theorem processFile_unchanged {reading : Reading} {path : String} {candidate : Candidate Contents}
    {indexed : Option (Track Contents)}
    (h : processFile reader reading path candidate indexed = .unchanged) :
    ∃ ix, indexed = some ix ∧ reading.generation ≤ ix.tagsGeneration := by
  unfold processFile at h
  dsimp only at h
  split at h
  · next ix =>
    split at h
    · split at h
      · cases h
      · split at h
        · split at h <;> cases h
        · next hold => exact ⟨ix, rfl, by omega⟩
    · split at h <;> cases h
  · split at h <;> cases h

theorem tags_of_came {outcome : FileOutcome Contents} (h : outcome.came = .read) :
    outcome = .unchanged ∨ ∃ tags, outcome.tags = some tags := by
  cases outcome with
  | unchanged => exact .inl rfl
  | returned | problem => cases h
  | added record | updated record => exact .inr ⟨record.tags, rfl⟩
  | reread tags => exact .inr ⟨tags, rfl⟩

end JewelCase.Scanner
