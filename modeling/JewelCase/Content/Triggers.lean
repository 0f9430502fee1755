import JewelCase.Content.Tables

/-!
# Rows and their triggers

Each statement that inserts, deletes or updates a row of one library's content, with the triggers of
`crates/server/migrations/0007_catalog_counts.sql` that SQLite runs in it and the rows its foreign keys
delete with it.
-/
namespace JewelCase.Content

set_option autoImplicit false

open Library

namespace Catalog

variable (c : Catalog)

/-! ### Counts in a row -/

/-- `UPDATE tags SET track_count = track_count + d WHERE id = tag` -/
def countTagTracks (tag : Id) (d : Int) : Catalog :=
  { c with tags := c.tags.map fun t =>
      if t.id = tag then { t with trackCount := t.trackCount + d } else t }

def countTagAlbums (tag : Id) (d : Int) : Catalog :=
  { c with tags := c.tags.map fun t =>
      if t.id = tag then { t with albumCount := t.albumCount + d } else t }

def countTagArtists (tag : Id) (d : Int) : Catalog :=
  { c with tags := c.tags.map fun t =>
      if t.id = tag then { t with artistCount := t.artistCount + d } else t }

def countArtistTracks (artist : Id) (d available : Int) : Catalog :=
  { c with artists := c.artists.map fun a =>
      if a.id = artist then
        { a with
          trackCount := a.trackCount + d
          availableTrackCount := a.availableTrackCount + available }
      else a }

def countArtistAlbums (artist : Id) (d : Int) : Catalog :=
  { c with artists := c.artists.map fun a =>
      if a.id = artist then { a with albumCount := a.albumCount + d } else a }

/-- The library's `names_version` rises by one. -/
def named : Catalog :=
  { c with totals := { c.totals with namesVersion := c.totals.namesVersion + 1 } }

/-! ### Tags of albums and artists -/

/-- `INSERT INTO album_tags … ON CONFLICT DO UPDATE`, and `album_tags_added` -/
def raiseAlbumTag (k : Id × Id) : Catalog :=
  let raised : Catalog := { c with albumTags := Tally.raise c.albumTags k 1 }
  if Tally.has c.albumTags k then raised else raised.countTagAlbums k.2 1

/-- `UPDATE album_tags SET track_count = track_count - 1`, `album_tags_unused` and
`album_tags_removed` -/
def lowerAlbumTags (p : Id × Id → Bool) : Catalog :=
  (Tally.unused c.albumTags p 1).foldl (fun c k => c.countTagAlbums k.2 (-1))
    { c with albumTags := Tally.lower c.albumTags p 1 }

/-- `INSERT INTO artist_tags … ON CONFLICT DO UPDATE`, and `artist_tags_added` -/
def raiseArtistTag (k : Id × Id) : Catalog :=
  let raised : Catalog := { c with artistTags := Tally.raise c.artistTags k 1 }
  if Tally.has c.artistTags k then raised else raised.countTagArtists k.2 1

/-- `UPDATE artist_tags SET track_count = track_count - 1`, `artist_tags_unused` and
`artist_tags_removed` -/
def lowerArtistTags (p : Id × Id → Bool) : Catalog :=
  (Tally.unused c.artistTags p 1).foldl (fun c k => c.countTagArtists k.2 (-1))
    { c with artistTags := Tally.lower c.artistTags p 1 }

/-! ### Track credits -/

/-- `track_artists_added` -/
def trackArtistsAdded (r : Credit) : Catalog :=
  let track := c.track? r.track
  let counted := c.countArtistTracks r.artist 1 (one (track.any Track.present))
  let linked : Catalog := { counted with
    albumCredits := track.elim c.albumCredits fun t =>
      Tally.raise c.albumCredits (t.albumId, r.artist) 1
    artistSpellings := r.name.elim c.artistSpellings fun name =>
      Tally.raise c.artistSpellings (r.artist, name) 1
    artistSortKeys :=
      if r.position = 0 then
        track.elim c.artistSortKeys fun t =>
          Tally.raise c.artistSortKeys (r.artist, t.fileArtistSortKey) 1
      else c.artistSortKeys }
  (c.tagsOf r.track).foldl (fun c tag => c.raiseArtistTag (r.artist, tag)) linked

/-- `track_artists_removed` -/
def trackArtistsRemoved (r : Credit) : Catalog :=
  let track := c.track? r.track
  let counted := c.countArtistTracks r.artist (-1) (-one (track.any Track.present))
  let linked : Catalog := { counted with
    albumCredits := Tally.lower c.albumCredits
      (fun k => decide (track.map Track.albumId = some k.1 ∧ r.artist = k.2)) 1
    artistSpellings := Tally.lower c.artistSpellings
      (fun k => decide (r.artist = k.1 ∧ r.name = some k.2)) 1
    artistSortKeys := Tally.lower c.artistSortKeys
      (fun k => decide (r.position = 0 ∧ r.artist = k.1 ∧
        track.map Track.fileArtistSortKey = some k.2)) 1 }
  linked.lowerArtistTags fun k => decide (r.artist = k.1 ∧ k.2 ∈ c.tagsOf r.track)

/-- `INSERT INTO track_artists … ON CONFLICT DO NOTHING` -/
def insertTrackArtist (r : Credit) : Catalog :=
  if c.trackArtists.any fun held =>
      decide (held.track = r.track ∧ (held.position = r.position ∨ held.artist = r.artist)) then c
  else { c with trackArtists := c.trackArtists ++ [r] }.trackArtistsAdded r

def deleteTrackArtist (r : Credit) : Catalog :=
  { c with trackArtists := Keyed.without Credit.key c.trackArtists r.key }.trackArtistsRemoved r

/-- `DELETE FROM track_artists WHERE track_id = track` -/
def deleteTrackArtists (track : Id) : Catalog :=
  (c.trackArtists.filter fun r => decide (r.track = track)).foldl deleteTrackArtist c

/-- `track_album_artists_added` -/
def trackAlbumArtistsAdded (r : Credit) : Catalog :=
  { c with
    artistSpellings := r.name.elim c.artistSpellings fun name =>
      Tally.raise c.artistSpellings (r.artist, name) 1
    artistSortKeys :=
      if r.position = 0 then
        (c.track? r.track).elim c.artistSortKeys fun t =>
          if t.fileAlbumArtistSortKey ≠ [] then
            Tally.raise c.artistSortKeys (r.artist, t.fileAlbumArtistSortKey) 1
          else c.artistSortKeys
      else c.artistSortKeys }

/-- `track_album_artists_removed` -/
def trackAlbumArtistsRemoved (r : Credit) : Catalog :=
  { c with
    artistSpellings := Tally.lower c.artistSpellings
      (fun k => decide (r.artist = k.1 ∧ r.name = some k.2)) 1
    artistSortKeys := Tally.lower c.artistSortKeys
      (fun k => decide (r.position = 0 ∧ r.artist = k.1 ∧
        (c.track? r.track).map Track.fileAlbumArtistSortKey = some k.2 ∧ k.2 ≠ [])) 1 }

/-- `INSERT INTO track_album_artists`, which fails where the track has the position or the artist. -/
def insertTrackAlbumArtist (r : Credit) : Option Catalog :=
  if c.trackAlbumArtists.any fun held =>
      decide (held.track = r.track ∧ (held.position = r.position ∨ held.artist = r.artist)) then none
  else some ({ c with
    trackAlbumArtists := c.trackAlbumArtists ++ [r] }.trackAlbumArtistsAdded r)

def deleteTrackAlbumArtist (r : Credit) : Catalog :=
  { c with
    trackAlbumArtists :=
      Keyed.without Credit.key c.trackAlbumArtists r.key }.trackAlbumArtistsRemoved r

/-- `DELETE FROM track_album_artists WHERE track_id = track` -/
def deleteTrackAlbumArtists (track : Id) : Catalog :=
  (c.trackAlbumArtists.filter fun r => decide (r.track = track)).foldl deleteTrackAlbumArtist c

/-! ### Track tags -/

/-- `track_tags_added` -/
def trackTagsAdded (r : TrackTag) : Catalog :=
  let counted : Catalog := { c.countTagTracks r.tag 1 with
    tagSpellings := Tally.raise c.tagSpellings (r.tag, r.name) 1 }
  let carried := (c.albumOf r.track).elim counted fun album => counted.raiseAlbumTag (album, r.tag)
  (c.artistsOf r.track).foldl (fun c artist => c.raiseArtistTag (artist, r.tag)) carried

/-- `track_tags_removed` -/
def trackTagsRemoved (r : TrackTag) : Catalog :=
  let counted : Catalog := { c.countTagTracks r.tag (-1) with
    tagSpellings := Tally.lower c.tagSpellings
      (fun k => decide (r.tag = k.1 ∧ r.name = k.2)) 1 }
  let carried := counted.lowerAlbumTags fun k =>
    decide (c.albumOf r.track = some k.1 ∧ r.tag = k.2)
  carried.lowerArtistTags fun k => decide (k.1 ∈ c.artistsOf r.track ∧ r.tag = k.2)

/-- `INSERT INTO track_tags … ON CONFLICT DO NOTHING` -/
def insertTrackTag (r : TrackTag) : Catalog :=
  if c.trackTags.any fun held => decide (held.key = r.key) then c
  else { c with trackTags := c.trackTags ++ [r] }.trackTagsAdded r

def deleteTrackTag (r : TrackTag) : Catalog :=
  { c with trackTags := Keyed.without TrackTag.key c.trackTags r.key }.trackTagsRemoved r

/-- `DELETE FROM track_tags WHERE track_id = track` -/
def deleteTrackTags (track : Id) : Catalog :=
  (c.trackTags.filter fun r => decide (r.track = track)).foldl deleteTrackTag c

/-! ### Tracks -/

/-- `INSERT INTO tracks`, and `tracks_added` -/
def insertTrack (t : Track) : Catalog :=
  { c with
    tracks := c.tracks ++ [t]
    totals := { c.totals with
      trackCount := c.totals.trackCount + 1
      durationUs := c.totals.durationUs + t.durationUs
      namesVersion := c.totals.namesVersion + 1 }
    albumGroups := Tally.raise c.albumGroups t.group t.amount }

/-- `tracks_removed`, and the row that goes after it -/
def deleteTrack (t : Track) : Catalog :=
  let c := ((c.deleteTrackArtists t.id).deleteTrackAlbumArtists t.id).deleteTrackTags t.id
  { c with
    tracks := Keyed.without Track.id c.tracks t.id
    totals := { c.totals with
      trackCount := c.totals.trackCount - 1
      durationUs := c.totals.durationUs - t.durationUs
      namesVersion := c.totals.namesVersion + 1 }
    albumGroups := Tally.lower c.albumGroups (fun k => decide (t.group = k)) t.amount }

/-- `tracks_availability` -/
def tracksAvailability (old new : Track) : Catalog :=
  if new.present = old.present then c
  else (c.artistsOf new.id).foldl
    (fun c artist => c.countArtistTracks artist 0 (one new.present - one old.present)) c

/-- `tracks_album` -/
def tracksAlbum (old new : Track) : Catalog :=
  if new.albumId = old.albumId then c
  else
    let left := c.lowerAlbumTags fun k => decide (old.albumId = k.1 ∧ k.2 ∈ c.tagsOf new.id)
    let moved := (c.tagsOf new.id).foldl (fun c tag => c.raiseAlbumTag (new.albumId, tag)) left
    { moved with
      albumCredits := (c.artistsOf new.id).foldl
        (fun credits artist => Tally.raise credits (new.albumId, artist) 1)
        (Tally.lower c.albumCredits
          (fun k => decide (old.albumId = k.1 ∧ k.2 ∈ c.artistsOf new.id)) 1) }

/-- `tracks_artist_sort_key` -/
def tracksArtistSortKey (old new : Track) : Catalog :=
  if new.fileArtistSortKey = old.fileArtistSortKey then c
  else
    let left := Tally.lower c.artistSortKeys
      (fun k => decide (c.firstArtist new.id = some k.1 ∧ old.fileArtistSortKey = k.2)) 1
    { c with
      artistSortKeys := (c.firstArtist new.id).elim left fun artist =>
        Tally.raise left (artist, new.fileArtistSortKey) 1 }

/-- `tracks_album_artist_sort_key` -/
def tracksAlbumArtistSortKey (old new : Track) : Catalog :=
  if new.fileAlbumArtistSortKey = old.fileAlbumArtistSortKey then c
  else
    let left := Tally.lower c.artistSortKeys
      (fun k => decide (old.fileAlbumArtistSortKey ≠ [] ∧ c.firstAlbumArtist new.id = some k.1 ∧
        old.fileAlbumArtistSortKey = k.2)) 1
    { c with
      artistSortKeys :=
        if new.fileAlbumArtistSortKey ≠ [] then
          (c.firstAlbumArtist new.id).elim left fun artist =>
            Tally.raise left (artist, new.fileAlbumArtistSortKey) 1
        else left }

/-- `UPDATE tracks`, with `tracks_regrouped`, `tracks_duration`, `tracks_availability`,
`tracks_album`, the triggers of its sort keys and `tracks_renamed` -/
def updateTrack (old new : Track) : Catalog :=
  let regrouped : Catalog := { c with
    tracks := c.tracks.map fun t => if t.id = new.id then new else t
    albumGroups := Tally.raise
      (Tally.lower c.albumGroups (fun k => decide (old.group = k)) old.amount) new.group new.amount
    totals := { c.totals with
      durationUs := c.totals.durationUs + new.durationUs - old.durationUs } }
  let keyed := (((regrouped.tracksAvailability old new).tracksAlbum old new).tracksArtistSortKey
    old new).tracksAlbumArtistSortKey old new
  if new.title = old.title then keyed else keyed.named

/-! ### Artists, albums and tags -/

/-- `INSERT INTO artists`, and `artists_added`; it fails where the ID is taken. -/
def insertArtist (a : Artist) : Option Catalog :=
  if c.artists.any fun held => decide (held.id = a.id) then none
  else some { c with
    artists := c.artists ++ [a]
    totals := { c.totals with
      artistCount := c.totals.artistCount + 1
      namesVersion := c.totals.namesVersion + 1 } }

/-- `INSERT INTO albums`, and `albums_added` -/
def insertAlbum (a : Album) : Option Catalog :=
  if c.albums.any fun held => decide (held.id = a.id) then none
  else some { c with
    albums := c.albums ++ [a]
    totals := { c.totals with
      albumCount := c.totals.albumCount + 1
      namesVersion := c.totals.namesVersion + 1 } }

def insertTag (t : Tag) : Option Catalog :=
  if c.tags.any fun held => decide (held.id = t.id) then none
  else some { c with tags := c.tags ++ [t] }

/-- `INSERT INTO album_artists … ON CONFLICT DO NOTHING`, and `album_artists_added` -/
def insertAlbumArtist (r : AlbumArtist) : Catalog :=
  if c.albumArtists.any fun held =>
      decide (held.album = r.album ∧ (held.position = r.position ∨ held.artist = r.artist)) then c
  else { c with albumArtists := c.albumArtists ++ [r] }.countArtistAlbums r.artist 1

/-- A row of `album_artists` goes, and `album_artists_removed` -/
def deleteAlbumArtist (r : AlbumArtist) : Catalog :=
  { c with
    albumArtists :=
      Keyed.without AlbumArtist.key c.albumArtists r.key }.countArtistAlbums r.artist (-1)

/-- `UPDATE albums`, with `albums_renamed` and `albums_sort_key` -/
def updateAlbum (old new : Album) : Catalog :=
  let updated : Catalog := { c with
    albums := c.albums.map fun a => if a.id = new.id then new else a
    tracks :=
      if new.sortKey = old.sortKey then c.tracks
      else c.tracks.map fun t =>
        if t.albumId = new.id then { t with albumSortKey := new.sortKey } else t }
  if new.title = old.title then updated else updated.named

/-- `UPDATE artists`, with `artists_renamed` -/
def updateArtist (old new : Artist) : Catalog :=
  let updated : Catalog := { c with artists := c.artists.map fun a => if a.id = new.id then new else a }
  if new.name = old.name then updated else updated.named

def updateTag (new : Tag) : Catalog :=
  { c with tags := c.tags.map fun t => if t.id = new.id then new else t }

/-- `DELETE FROM artists WHERE id = artist`, with what its rows cascade to and `artists_removed`.
It is asked for an artist that no track credits, so no credit cascades. -/
def deleteArtist (artist : Id) : Catalog :=
  if c.artists.any fun a => decide (a.id = artist) then
    let unlinked := ((c.artistTags.map Prod.fst).filter fun k => decide (k.1 = artist)).foldl
      (fun c k => c.countTagArtists k.2 (-1)) c
    { unlinked with
      artists := Keyed.without Artist.id c.artists artist
      albumArtists := c.albumArtists.filter fun r => decide (r.artist ≠ artist)
      albumCredits := c.albumCredits.filter fun row => decide (row.1.2 ≠ artist)
      artistTags := c.artistTags.filter fun row => decide (row.1.1 ≠ artist)
      artistSpellings := c.artistSpellings.filter fun row => decide (row.1.1 ≠ artist)
      artistSortKeys := c.artistSortKeys.filter fun row => decide (row.1.1 ≠ artist)
      totals := { c.totals with
        artistCount := c.totals.artistCount - 1
        namesVersion := c.totals.namesVersion + 1 } }
  else c

/-- `DELETE FROM albums WHERE id = album`, with what its rows cascade to and `albums_removed`. It
fails where a track is on the album. -/
def deleteAlbum (album : Id) : Option Catalog :=
  if c.albums.any fun a => decide (a.id = album) then
    if c.tracks.any fun t => decide (t.albumId = album) then none
    else
      let untagged := ((c.albumTags.map Prod.fst).filter fun k => decide (k.1 = album)).foldl
        (fun c k => c.countTagAlbums k.2 (-1)) c
      let unlisted := (c.albumArtists.filter fun r => decide (r.album = album)).foldl
        (fun c r => c.countArtistAlbums r.artist (-1)) untagged
      some { unlisted with
        albums := Keyed.without Album.id c.albums album
        albumArtists := c.albumArtists.filter fun r => decide (r.album ≠ album)
        albumDiscs := c.albumDiscs.filter fun r => decide (r.album ≠ album)
        albumCredits := c.albumCredits.filter fun row => decide (row.1.1 ≠ album)
        albumTags := c.albumTags.filter fun row => decide (row.1.1 ≠ album)
        albumGroups := c.albumGroups.filter fun row => decide (row.1.album ≠ album)
        totals := { c.totals with
          albumCount := c.totals.albumCount - 1
          namesVersion := c.totals.namesVersion + 1 } }
  else some c

/-- `DELETE FROM tags WHERE id = tag`, with what its rows cascade to. It is asked for a tag that no
track carries, so no track's tag cascades. -/
def deleteTag (tag : Id) : Catalog :=
  if c.tags.any fun t => decide (t.id = tag) then
    { c with
      tags := Keyed.without Tag.id c.tags tag
      albumTags := c.albumTags.filter fun row => decide (row.1.2 ≠ tag)
      artistTags := c.artistTags.filter fun row => decide (row.1.2 ≠ tag)
      tagSpellings := c.tagSpellings.filter fun row => decide (row.1.1 ≠ tag) }
  else c

end Catalog

end JewelCase.Content
