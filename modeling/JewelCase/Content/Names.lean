import JewelCase.Content.WrittenLinks
import JewelCase.Search.Index

/-!
# Names and their version

What search indexes of a library, read with its names version. Each statement that changes a name raises
the version, and none lowers it.
-/
namespace JewelCase.Content

set_option autoImplicit false

open Library

/-- What a library's search index is built from: its tracks' titles, its albums' and its artists'. -/
@[ext]
structure Names where
  tracks : List (Id × Text)
  albums : List (Id × Option Text)
  artists : List (Id × Option Text)
deriving DecidableEq

namespace Catalog

variable {c c' c'' : Catalog} {rules : Rules} {now : Int} {track : Id} {touched : Touched}

def names (c : Catalog) : Names where
  tracks := c.tracks.map fun t => (t.id, t.title)
  albums := c.albums.map fun a => (a.id, a.title)
  artists := c.artists.map fun a => (a.id, a.name)

/-- The library's tracks, albums and artists, as documents. -/
def documents (c : Catalog) : List Search.Document :=
  c.names.tracks.map (fun t => ⟨.track, t.1, String.ofList t.2⟩) ++
    c.names.albums.filterMap (fun a => a.2.map fun title => ⟨.album, a.1, String.ofList title⟩) ++
    c.names.artists.filterMap (fun a => a.2.map fun name => ⟨.artist, a.1, String.ofList name⟩)

/-- The names, and the version they are read with. -/
def stamp (c : Catalog) : Names × Int := (c.names, c.totals.namesVersion)

theorem stamp_bare (c : Catalog) : c.bare.stamp = c.stamp := by
  have hartists : c.bare.artists.map (fun a => (a.id, a.name)) =
      c.artists.map fun a => (a.id, a.name) := List.map_map
  unfold stamp names
  rw [hartists]
  rfl

/-- The version never falls, and where it stays so do the names. -/
structure Versioned (c c' : Catalog) : Prop where
  le : c.totals.namesVersion ≤ c'.totals.namesVersion
  same : c'.totals.namesVersion = c.totals.namesVersion → c'.names = c.names

/-- What leaves every name and the version alone needs no new version. -/
theorem Versioned.of_stamp (h : c'.stamp = c.stamp) : Versioned c c' :=
  ⟨le_of_eq (congrArg Prod.snd h).symm, fun _ => congrArg Prod.fst h⟩

theorem Versioned.refl (c : Catalog) : Versioned c c := .of_stamp rfl

/-- Over two writes the version never falls, and the same version means the same names. -/
theorem Versioned.trans (h : Versioned c c') (h' : Versioned c' c'') : Versioned c c'' where
  le := h.le.trans h'.le
  same := fun heq => by
    have hle := h.le
    have hle' := h'.le
    exact (h'.same (by omega)).trans (h.same (by omega))

theorem Versioned.of_raised (h : c'.totals.namesVersion = c.totals.namesVersion + 1) :
    Versioned c c' :=
  ⟨by omega, fun heq => by omega⟩

/-- What a statement writes of names is read off the catalog without its counts. -/
theorem stamp_of_bare (h : c'.bare = c'') (hstamp : c''.stamp = c.bare.stamp) :
    c'.stamp = c.stamp := by
  rw [← stamp_bare, h, hstamp, stamp_bare]

theorem stamp_foldl {α : Type} {f : Catalog → α → Catalog} (h : ∀ c x, (f c x).stamp = c.stamp)
    (xs : List α) : (xs.foldl f c).stamp = c.stamp := by
  induction xs generalizing c with
  | nil => rfl
  | cons x xs ih => rw [List.foldl_cons, ih, h]

/-! ### Statements that change no name -/

theorem stamp_deleteTrackArtists (track : Id) : (c.deleteTrackArtists track).stamp = c.stamp :=
  stamp_of_bare (bare_deleteTrackArtists track) rfl

theorem stamp_deleteTrackAlbumArtists (track : Id) :
    (c.deleteTrackAlbumArtists track).stamp = c.stamp :=
  stamp_of_bare (bare_deleteTrackAlbumArtists track) rfl

theorem stamp_deleteTrackTags (track : Id) : (c.deleteTrackTags track).stamp = c.stamp :=
  stamp_of_bare (bare_deleteTrackTags track) rfl

theorem stamp_insertTrackArtist (r : Credit) : (c.insertTrackArtist r).stamp = c.stamp := by
  unfold insertTrackArtist
  split
  · rfl
  · exact stamp_of_bare (bare_trackArtistsAdded
      (c := { c with trackArtists := c.trackArtists ++ [r] }) r) rfl

theorem stamp_insertTrackAlbumArtist {r : Credit} (hc' : c.insertTrackAlbumArtist r = some c') :
    c'.stamp = c.stamp := by
  unfold insertTrackAlbumArtist at hc'
  split at hc'
  · cases hc'
  · rw [← Option.some.inj hc']
    rfl

theorem stamp_insertTrackTag (r : TrackTag) : (c.insertTrackTag r).stamp = c.stamp :=
  stamp_of_bare (bare_insertTrackTag r) rfl

theorem stamp_insertAlbumArtist (r : AlbumArtist) : (c.insertAlbumArtist r).stamp = c.stamp := by
  unfold insertAlbumArtist
  split
  · rfl
  · exact stamp_of_bare (bare_countArtistAlbums
      (c := { c with albumArtists := c.albumArtists ++ [r] }) r.artist 1) rfl

theorem stamp_deleteAlbumArtist (r : AlbumArtist) : (c.deleteAlbumArtist r).stamp = c.stamp :=
  stamp_of_bare (bare_deleteAlbumArtist r) rfl

theorem stamp_record (entity : Entity) (id : Id) (op : Op) :
    (c.record entity id op now).stamp = c.stamp := rfl

theorem stamp_of_names (htracks : c'.names.tracks = c.names.tracks)
    (halbums : c'.names.albums = c.names.albums) (hartists : c'.names.artists = c.names.artists)
    (hversion : c'.totals.namesVersion = c.totals.namesVersion) : c'.stamp = c.stamp :=
  Prod.ext (Names.ext htracks halbums hartists) hversion

/-! ### Statements that change names -/

/-- A new artist is a new name, and raises the version. -/
theorem versioned_insertArtist {a : Artist} (hc' : c.insertArtist a = some c') : Versioned c c' := by
  unfold insertArtist at hc'
  split at hc'
  · cases hc'
  · rw [← Option.some.inj hc']
    exact .of_raised rfl

theorem versioned_insertAlbum {a : Album} (hc' : c.insertAlbum a = some c') : Versioned c c' := by
  unfold insertAlbum at hc'
  split at hc'
  · cases hc'
  · rw [← Option.some.inj hc']
    exact .of_raised rfl

theorem versioned_deleteTrack (t : Track) : Versioned c (c.deleteTrack t) :=
  .of_raised (congrArg (fun d : Catalog => d.totals.namesVersion) (bare_deleteTrack (c := c) t))

/-- A track's update raises the version if its title changes, and only its title is a name. -/
theorem versioned_updateTrack (hl : c.Linked) {old new : Track} (hold : old ∈ c.tracks)
    (hid : new.id = old.id) : Versioned c (c.updateTrack old new) := by
  have hbare := bare_updateTrack (c := c) old new
  have hversion : (c.updateTrack old new).totals.namesVersion =
      c.totals.namesVersion + if new.title = old.title then 0 else 1 :=
    congrArg (fun d : Catalog => d.totals.namesVersion) hbare
  by_cases htitle : new.title = old.title
  · rw [if_pos htitle, Int.add_zero] at hversion
    refine .of_stamp (stamp_of_names ?_ ?_ ?_ hversion)
    · change (c.updateTrack old new).tracks.map _ = c.tracks.map _
      rw [tracks_updateTrack]
      exact map_replace_of_mem hl.tracks hold hid (Prod.ext hid htitle)
    · have halbums : (c.updateTrack old new).albums = c.albums := by
        have h := congrArg Catalog.albums hbare
        exact h
      exact congrArg (List.map fun a : Album => (a.id, a.title)) halbums
    · have hartists := congrArg (fun d : Catalog => d.names.artists) hbare
      have hnames := congrArg (fun stamp : Names × Int => stamp.1.artists)
        (stamp_bare (c.updateTrack old new))
      have hnames' := congrArg (fun stamp : Names × Int => stamp.1.artists) (stamp_bare c)
      exact hnames.symm.trans (hartists.trans hnames')
  · rw [if_neg htitle] at hversion
    exact .of_raised hversion

/-- An artist's update raises the version if a name of it changes. -/
theorem versioned_updateArtist (hl : c.Linked) {old new : Artist} (hold : old ∈ c.artists)
    (hid : new.id = old.id) : Versioned c (c.updateArtist old new) := by
  unfold updateArtist
  by_cases hname : new.name = old.name
  · rw [if_pos hname]
    exact .of_stamp (stamp_of_names rfl rfl
      (map_replace_of_mem hl.artists hold hid (Prod.ext hid hname)) rfl)
  · rw [if_neg hname]
    exact .of_raised rfl

theorem versioned_updateAlbum (hl : c.Linked) {old new : Album} (hold : old ∈ c.albums)
    (hid : new.id = old.id) : Versioned c (c.updateAlbum old new) := by
  unfold updateAlbum
  by_cases htitle : new.title = old.title
  · rw [if_pos htitle]
    refine .of_stamp (stamp_of_names ?_
      (map_replace_of_mem hl.albums hold hid (Prod.ext hid htitle)) rfl rfl)
    change List.map _ (if new.sortKey = old.sortKey then c.tracks else _) = c.tracks.map _
    split
    · rfl
    · exact map_map_same fun t => by split <;> rfl
  · rw [if_neg htitle]
    exact .of_raised rfl

/-- Deleting an artist raises the version, unless there is no such row. -/
theorem versioned_deleteArtist (artist : Id) : Versioned c (c.deleteArtist artist) := by
  unfold deleteArtist
  split
  · exact .of_raised rfl
  · exact .refl c

theorem versioned_deleteAlbum {album : Id} (hc' : c.deleteAlbum album = some c') :
    Versioned c c' := by
  unfold deleteAlbum at hc'
  split at hc'
  · split at hc'
    · cases hc'
    · rw [← Option.some.inj hc']
      exact .of_raised rfl
  · rw [← Option.some.inj hc']
    exact .refl c

/-! ### Derived data -/

theorem stamp_relink (changed : List Id) (album : Id) :
    (Catalog.relink (c, changed) album).1.stamp = c.stamp := by
  have hlinked : (c.refreshAlbumLinks album).stamp = c.stamp := by
    unfold refreshAlbumLinks
    exact (stamp_foldl (fun _ r => stamp_insertAlbumArtist r) _).trans
      (stamp_foldl (fun _ r => stamp_deleteAlbumArtist r) _)
  refine Eq.trans ?_ hlinked
  exact stamp_of_names rfl (map_map_same fun a => by split <;> rfl) rfl rfl

/-- A sort key follows its artist without being a name. -/
theorem stamp_followArtistSortKey (artist : Id) (key : SortKey) :
    (c.followArtistSortKey artist key now).stamp = c.stamp := by
  unfold followArtistSortKey
  refine (stamp_foldl (fun _ album => stamp_record .album album .upsert) _).trans ?_
  exact stamp_of_names (map_map_same fun t => by split <;> rfl)
    (map_map_same fun a => by split <;> rfl) rfl rfl

theorem stamp_artArtist (artist : Id) (isNamed : Bool) :
    (c.artArtist artist isNamed).stamp = c.stamp :=
  stamp_of_names rfl rfl (map_map_same fun a => by split <;> rfl) rfl

/-- An artist brought up to date is renamed under a new version, if at all. -/
theorem versioned_refreshArtist (hl : c.Linked) (rules : Rules) (now : Int) (artist : Id) :
    Versioned c (c.refreshArtist rules now artist) := by
  unfold refreshArtist
  cases hfind : Keyed.find Artist.id c.artists artist with
  | none => exact .refl c
  | some old =>
    obtain ⟨hold, _⟩ := find_mem hfind
    dsimp only
    split
    · have hupdated : Versioned c (c.updateArtist old { old with
          name := c.artistName artist, sortKey := c.artistSort rules artist }) :=
        versioned_updateArtist hl hold rfl
      refine hupdated.trans (.of_stamp ?_)
      refine (stamp_record _ _ _).trans ((stamp_artArtist _ _).trans ?_)
      split
      · rfl
      · exact stamp_followArtistSortKey _ _
    · exact (versioned_deleteArtist artist).trans (.of_stamp rfl)

theorem versioned_recomputeAlbum (hl : c.Linked) {album : Id}
    (hc' : c.recomputeAlbum rules now album = some c') : Versioned c c' := by
  unfold recomputeAlbum at hc'
  split at hc'
  · obtain ⟨deleted, hdeleted, hrest⟩ := Option.bind_eq_some_iff.mp hc'
    rw [← Option.some.inj hrest]
    exact (versioned_deleteAlbum hdeleted).trans (.of_stamp rfl)
  · rw [← Option.some.inj hc']
    refine Versioned.trans ?_ (.of_stamp (stamp_record _ _ _))
    cases hfind : Keyed.find Album.id c.albums album with
    | none => exact .refl c
    | some old =>
      obtain ⟨hold, _⟩ := find_mem hfind
      exact versioned_updateAlbum hl hold rfl

/-- A tag's name is not one of the names searched. -/
theorem stamp_refreshTag (rules : Rules) (tag : Id) : (c.refreshTag rules now tag).stamp = c.stamp := by
  unfold refreshTag
  cases Keyed.find Tag.id c.tags tag with
  | none => rfl
  | some old =>
    dsimp only
    split
    · rfl
    · unfold deleteTag
      split <;> rfl

theorem stamp_artPlaylists (moved albums : List Id) : (c.artPlaylists moved albums).stamp = c.stamp :=
  stamp_foldl (f := artPlaylist) (fun _ _ => rfl) _

/-- What each step does to the names, over the steps. -/
theorem versioned_each {α σ : Type} (catalog : σ → Catalog) {f : σ → α → Option σ} {p : σ → Prop}
    (hstep : ∀ {s s' : σ} {x : α}, p s → f s x = some s' →
      p s' ∧ Versioned (catalog s) (catalog s')) {xs : List α} {s s' : σ} (h : p s)
    (hs' : xs.foldlM f s = some s') : p s' ∧ Versioned (catalog s) (catalog s') := by
  induction xs generalizing s with
  | nil =>
    rw [← Option.some.inj hs']
    exact ⟨h, .refl _⟩
  | cons x xs ih =>
    rw [List.foldlM_cons] at hs'
    obtain ⟨mid, hmid, hrest⟩ := Option.bind_eq_some_iff.mp hs'
    obtain ⟨hp, hversioned⟩ := hstep h hmid
    obtain ⟨hp', hversioned'⟩ := ih hp hrest
    exact ⟨hp', hversioned.trans hversioned'⟩

/-- Bringing what was touched up to date changes names under a new version only. -/
theorem Whole.versioned_recompute (h : c.Whole)
    (hc' : c.recompute rules touched now = some c') : Versioned c c' := by
  unfold Catalog.recompute at hc'
  split at hc'
  · rw [← Option.some.inj hc']
    exact .refl c
  obtain ⟨resolved, hresolved, hrest⟩ := Option.bind_eq_some_iff.mp hc'
  obtain ⟨hlinked, hlinks⟩ := versioned_each (fun s : Catalog × List Id => s.1)
    (p := fun s => s.1.Whole) (fun hs hx => by
      rw [← Option.some.inj hx]
      exact ⟨(hs.relink _ _).1, .of_stamp (stamp_relink _ _)⟩) h
    (foldlM_some Catalog.relink touched.albums (c, []))
  obtain ⟨hnamed, hnames⟩ := versioned_each (fun c => c) (p := Whole) (fun hs hx => by
      rw [← Option.some.inj hx]
      exact ⟨(hs.refreshArtist rules now _).1,
        versioned_refreshArtist hs.consistent.linked rules now _⟩) hlinked
    (foldlM_some (fun c artist => c.refreshArtist rules now artist) touched.artists _)
  obtain ⟨_, halbums⟩ := versioned_each (fun c => c) (p := Whole) (fun hs hx =>
      ⟨(hs.recomputeAlbum hx).1, versioned_recomputeAlbum hs.consistent.linked hx⟩) hnamed hresolved
  refine ((hlinks.trans hnames).trans halbums).trans (.of_stamp ?_)
  rw [← Option.some.inj hrest]
  exact (stamp_foldl (fun _ tag => stamp_refreshTag rules tag) _).trans (stamp_artPlaylists _ _)

/-! ### A file's parts -/

/-- Artists that a file names for the first time raise the version. -/
theorem versioned_artistIds {draws : Draws} {names : List (Option Text)} {credits : List Named}
    (hc' : artistIds rules draws c names = some (c', credits)) : Versioned c c' := by
  induction names generalizing c credits with
  | nil =>
    obtain ⟨rfl, _⟩ := Prod.ext_iff.mp (Option.some.inj hc')
    exact .refl c
  | cons name names ih =>
    unfold artistIds at hc'
    obtain ⟨⟨mid, id⟩, hmid, hrest⟩ := Option.bind_eq_some_iff.mp hc'
    obtain ⟨⟨last, rest⟩, hlast, hdone⟩ := Option.bind_eq_some_iff.mp hrest
    obtain ⟨rfl, _⟩ := Prod.ext_iff.mp (Option.some.inj hdone)
    refine Versioned.trans ?_ (ih hlast)
    unfold findOrCreateArtist at hmid
    dsimp only at hmid
    split at hmid
    · obtain ⟨rfl, _⟩ := Prod.ext_iff.mp (Option.some.inj hmid)
      exact .refl c
    · obtain ⟨added, hadded, hfound⟩ := Option.bind_eq_some_iff.mp hmid
      obtain ⟨rfl, _⟩ := Prod.ext_iff.mp (Option.some.inj hfound)
      exact versioned_insertArtist hadded

theorem versioned_credits {draws : Draws} {rec : Record} {credits : Credits}
    (hc' : c.credits rules draws rec = some (c', credits)) : Versioned c c' := by
  unfold Catalog.credits at hc'
  obtain ⟨⟨first, artists⟩, hfirst, hrest⟩ := Option.bind_eq_some_iff.mp hc'
  obtain ⟨⟨second, listed⟩, hsecond, hrest⟩ := Option.bind_eq_some_iff.mp hrest
  obtain ⟨⟨last, album⟩, hlast, hdone⟩ := Option.bind_eq_some_iff.mp hrest
  obtain ⟨rfl, _⟩ := Prod.ext_iff.mp (Option.some.inj hdone)
  refine ((versioned_artistIds hfirst).trans (versioned_artistIds hsecond)).trans ?_
  unfold findOrCreateAlbum at hlast
  dsimp only at hlast
  split at hlast
  · obtain ⟨rfl, _⟩ := Prod.ext_iff.mp (Option.some.inj hlast)
    exact .refl _
  · obtain ⟨added, hadded, hfound⟩ := Option.bind_eq_some_iff.mp hlast
    obtain ⟨rfl, _⟩ := Prod.ext_iff.mp (Option.some.inj hfound)
    exact versioned_insertAlbum hadded

/-- A file's row is written under a new version if it gives the track another title. -/
theorem versioned_writeRow (hl : c.Linked) {rec : Record} {root : Id} {credits : Credits}
    (hc' : c.writeRow rec track root credits = some c') : Versioned c c' := by
  have hside : (c.sidecarRows rec).Linked := hl.fewer (alike_sidecarRows rec).fewer
  have hstamp : Versioned c (c.sidecarRows rec) := .of_stamp rfl
  unfold writeRow at hc'
  dsimp only at hc'
  cases hfind : (c.sidecarRows rec).track? track with
  | some old =>
    rw [hfind] at hc'
    obtain ⟨hold, hid⟩ := find_mem hfind
    rw [← Option.some.inj hc']
    exact hstamp.trans (versioned_updateTrack hside hold hid.symm)
  | none =>
    rw [hfind] at hc'
    dsimp only at hc'
    split at hc'
    · cases hc'
    · rw [← Option.some.inj hc']
      exact hstamp.trans (.of_raised rfl)

theorem stamp_replaceTags {draws : Draws} {tagValues : List (Text × List Text)}
    {s' : Catalog × Touched} (hs' : c.replaceTags rules draws track tagValues touched = some s') :
    s'.1.stamp = c.stamp := by
  unfold replaceTags at hs'
  refine foldlM_keeps (p := fun s : Catalog × Touched => s.1.stamp = c.stamp) (fun hs hx => ?_)
    (stamp_deleteTrackTags track) hs'
  obtain ⟨⟨found, tag⟩, hfound, hlinked⟩ := Option.bind_eq_some_iff.mp hx
  rw [← Option.some.inj hlinked]
  refine (stamp_insertTrackTag _).trans (Eq.trans ?_ hs)
  unfold findOrCreateTag at hfound
  dsimp only at hfound
  split at hfound
  · obtain ⟨rfl, _⟩ := Prod.ext_iff.mp (Option.some.inj hfound)
    rfl
  · obtain ⟨added, hadded, hmade⟩ := Option.bind_eq_some_iff.mp hfound
    obtain ⟨rfl, _⟩ := Prod.ext_iff.mp (Option.some.inj hmade)
    unfold insertTag at hadded
    split at hadded
    · cases hadded
    · rw [← Option.some.inj hadded]
      rfl

/-- A tag keeps its type as a track's tags are replaced. -/
theorem tagTypes_replaceTags {draws : Draws} {tagValues : List (Text × List Text)}
    {s' : Catalog × Touched} (hs' : c.replaceTags rules draws track tagValues touched = some s') :
    ∀ k ∈ c.tagTypes, k ∈ s'.1.tagTypes := by
  unfold replaceTags at hs'
  refine foldlM_keeps (p := fun s : Catalog × Touched => ∀ k ∈ c.tagTypes, k ∈ s.1.tagTypes)
    (fun hs hx => ?_) ?_ hs'
  · obtain ⟨⟨found, tag⟩, hfound, hlinked⟩ := Option.bind_eq_some_iff.mp hx
    rw [← Option.some.inj hlinked]
    intro k hk
    rw [← tagTypes_bare, bare_insertTrackTag]
    change k ∈ found.bare.tagTypes
    rw [tagTypes_bare]
    unfold findOrCreateTag at hfound
    dsimp only at hfound
    split at hfound
    · obtain ⟨rfl, _⟩ := Prod.ext_iff.mp (Option.some.inj hfound)
      exact hs k hk
    · obtain ⟨added, hadded, hmade⟩ := Option.bind_eq_some_iff.mp hfound
      obtain ⟨rfl, _⟩ := Prod.ext_iff.mp (Option.some.inj hmade)
      unfold insertTag at hadded
      split at hadded
      · cases hadded
      · rw [← Option.some.inj hadded]
        unfold tagTypes
        rw [List.map_append]
        exact List.mem_append_left _ (hs k hk)
  · intro k hk
    rw [← tagTypes_bare, bare_deleteTrackTags]
    change k ∈ c.bare.tagTypes
    rw [tagTypes_bare]
    exact hk

theorem stamp_replaceLinks {draws : Draws} {credits : Credits} {tagValues : List (Text × List Text)}
    {s' : Catalog × Touched}
    (hs' : c.replaceLinks rules draws track credits tagValues touched = some s') :
    s'.1.stamp = c.stamp := by
  unfold replaceLinks at hs'
  obtain ⟨listed, hlisted, htagged⟩ := Option.bind_eq_some_iff.mp hs'
  refine (stamp_replaceTags htagged).trans ?_
  refine foldlM_keeps (p := fun d : Catalog => d.stamp = c.stamp)
    (fun hd hx => (stamp_insertTrackAlbumArtist hx).trans hd) ?_ hlisted
  exact (stamp_foldl (fun _ r => stamp_insertTrackArtist r) _).trans
    ((stamp_deleteTrackAlbumArtists track).trans (stamp_deleteTrackArtists track))

end Catalog

end JewelCase.Content
