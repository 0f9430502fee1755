import Mathlib.Data.List.Lex
import Mathlib.Data.List.MinMax
import Mathlib.Order.Basic
import JewelCase.Library.Keyed
import JewelCase.Library.Tally

/-!
# A library's content

The tables of `crates/server/migrations/0003_catalog.sql`, `0004_feeds.sql` and
`0007_catalog_counts.sql`, as far as they hold one library's rows: every link between two rows stays
within a library, so another library's rows are no part of it. Texts and sort keys are their
characters, which are in the order of their bytes.
-/
namespace JewelCase.Content

set_option autoImplicit false

open Library

abbrev Id := Int

abbrev Text := List Char

abbrev SortKey := List Char

/-! ### Rows -/

/-- A library's row, as far as the triggers keep it. -/
structure Totals where
  trackCount : Int
  albumCount : Int
  artistCount : Int
  durationUs : Int
  namesVersion : Int
deriving DecidableEq, Repr

structure Track where
  id : Id
  albumId : Id
  /-- The album artists' IDs in the order this file lists them. -/
  albumArtistIds : List Id
  albumTitle : Option Text
  rootId : Id
  path : Text
  missingSince : Option Int
  title : Text
  artistSortKey : SortKey
  albumSortKey : SortKey
  fileArtistSortKey : SortKey
  fileAlbumArtistSortKey : SortKey
  fileAlbumSortKey : SortKey
  discNumber : Int
  trackNumber : Option Int
  trackTotal : Option Int
  discTotal : Option Int
  releaseDate : Option Text
  compilation : Bool
  releaseType : Option Text
  /-- A JSON array. -/
  labels : Text
  durationUs : Int
  imageId : Option Id
  imageEmbedded : Bool
  artistImageId : Option Id
  biographyId : Option Id
deriving DecidableEq, Repr

inductive AlbumType where
  | album
  | ep
  | single
  | compilation
deriving DecidableEq, Repr

structure Album where
  id : Id
  title : Option Text
  titleKey : Text
  artistsKey : Text
  sortKey : SortKey
  artistSortKey : SortKey
  type : AlbumType
  labels : Text
  imageId : Option Id
  releaseDate : Option Text
  discTotal : Option Int
  trackTotal : Option Int
  discCount : Int
  trackCount : Int
  availableTrackCount : Int
  durationUs : Int
deriving DecidableEq, Repr

structure Artist where
  id : Id
  name : Option Text
  nameKey : Text
  sortKey : SortKey
  imageId : Option Id
  biography : Option Text
  albumCount : Int
  trackCount : Int
  availableTrackCount : Int
deriving DecidableEq, Repr

structure Tag where
  id : Id
  type : Text
  name : Text
  nameKey : Text
  sortKey : SortKey
  trackCount : Int
  albumCount : Int
  artistCount : Int
deriving DecidableEq, Repr

/-- A row of `track_artists` or of `track_album_artists`. -/
structure Credit where
  track : Id
  position : Nat
  artist : Id
  name : Option Text
deriving DecidableEq, Repr

structure TrackTag where
  track : Id
  tag : Id
  name : Text
deriving DecidableEq, Repr

structure AlbumArtist where
  album : Id
  position : Nat
  artist : Id
deriving DecidableEq, Repr

structure AlbumDisc where
  album : Id
  disc : Int
  trackCount : Int
  trackTotal : Option Int
deriving DecidableEq, Repr

/-- Every value an album resolves from a track; one it lacks is the empty text or -1. -/
structure GroupKey where
  album : Id
  discNumber : Int
  title : Text
  sortKey : SortKey
  releaseDate : Text
  releaseType : Text
  trackTotal : Int
  discTotal : Int
  compilation : Bool
  labels : Text
  albumArtistIds : List Id
deriving DecidableEq, Repr

/-- A row of `playlist_items`. -/
structure Item where
  playlist : Id
  key : Int
  track : Id
deriving DecidableEq, Repr

structure Playlist where
  id : Id
  imageKey : Option Text
deriving DecidableEq, Repr

structure Biography where
  id : Id
  text : Text
deriving DecidableEq, Repr

inductive Entity where
  | library
  | track
  | album
  | artist
  | tag
deriving DecidableEq, Repr

inductive Op where
  | upsert
  | delete
deriving DecidableEq, Repr

/-- A row of `library_changes`. -/
structure Change where
  seq : Nat
  entity : Entity
  id : Id
  op : Op
  changedAt : Int
deriving DecidableEq, Repr

def Credit.key (r : Credit) : Id × Nat := (r.track, r.position)

def TrackTag.key (r : TrackTag) : Id × Id := (r.track, r.tag)

def AlbumArtist.key (r : AlbumArtist) : Id × Nat := (r.album, r.position)

def Track.present (t : Track) : Bool := t.missingSince.isNone

/-- The group a track counts in. -/
def Track.group (t : Track) : GroupKey where
  album := t.albumId
  discNumber := t.discNumber
  title := t.albumTitle.getD []
  sortKey := t.fileAlbumSortKey
  releaseDate := t.releaseDate.getD []
  releaseType := t.releaseType.getD []
  trackTotal := t.trackTotal.getD (-1)
  discTotal := t.discTotal.getD (-1)
  compilation := t.compilation
  labels := if t.labels = ['[', ']'] then [] else t.labels
  albumArtistIds := t.albumArtistIds

def one (b : Bool) : Int := if b then 1 else 0

/-- What a track adds to its group: itself, itself when it is not missing, and its duration. -/
def Track.amount (t : Track) : Int × Int × Int := (1, one t.present, t.durationUs)

/-! ### Tables -/

/-- The rows of one library. -/
structure Catalog where
  library : Id
  totals : Totals
  tracks : List Track
  albums : List Album
  artists : List Artist
  tags : List Tag
  trackArtists : List Credit
  trackAlbumArtists : List Credit
  trackTags : List TrackTag
  albumArtists : List AlbumArtist
  albumDiscs : List AlbumDisc
  albumCredits : Tally.Table (Id × Id) Int
  albumTags : Tally.Table (Id × Id) Int
  artistTags : Tally.Table (Id × Id) Int
  artistSpellings : Tally.Table (Id × Text) Int
  artistSortKeys : Tally.Table (Id × SortKey) Int
  tagSpellings : Tally.Table (Id × Text) Int
  albumGroups : Tally.Table GroupKey (Int × Int × Int)
  images : List Id
  biographies : List Biography
  playlists : List Playlist
  items : List Item
  feed : List Change
  /-- The last position given in any library's feed. -/
  lastSeq : Nat
deriving DecidableEq

def Catalog.empty (library : Id) : Catalog :=
  { library
    totals := ⟨0, 0, 0, 0, 0⟩
    tracks := [], albums := [], artists := [], tags := []
    trackArtists := [], trackAlbumArtists := [], trackTags := []
    albumArtists := [], albumDiscs := []
    albumCredits := [], albumTags := [], artistTags := []
    artistSpellings := [], artistSortKeys := [], tagSpellings := [], albumGroups := []
    images := [], biographies := [], playlists := [], items := []
    feed := [], lastSeq := 0 }

namespace Catalog

variable (c : Catalog)

def track? (id : Id) : Option Track := Keyed.find Track.id c.tracks id

/-- `SELECT album_id FROM tracks WHERE id = track` -/
def albumOf (track : Id) : Option Id := (c.track? track).map Track.albumId

/-- `SELECT artist_id FROM track_artists WHERE track_id = track` -/
def artistsOf (track : Id) : List Id :=
  (c.trackArtists.filter fun r => decide (r.track = track)).map Credit.artist

/-- `SELECT tag_id FROM track_tags WHERE track_id = track` -/
def tagsOf (track : Id) : List Id :=
  (c.trackTags.filter fun r => decide (r.track = track)).map TrackTag.tag

/-- `SELECT artist_id FROM track_artists WHERE track_id = track AND position = 0` -/
def firstArtist (track : Id) : Option Id :=
  (Keyed.find Credit.key c.trackArtists (track, 0)).map Credit.artist

def firstAlbumArtist (track : Id) : Option Id :=
  (Keyed.find Credit.key c.trackAlbumArtists (track, 0)).map Credit.artist

/-- Records that `entity` changed, in place of its earlier row. -/
def record (entity : Entity) (id : Id) (op : Op) (now : Int) : Catalog :=
  { c with
    feed := c.feed.filter (fun row => !(decide (row.entity = entity) && decide (row.id = id))) ++
      [⟨c.lastSeq + 1, entity, id, op, now⟩]
    lastSeq := c.lastSeq + 1 }

/-- Changes recorded one after another leave all but the feed. -/
theorem record_each (entity : Entity) (ids : List Id) (now : Int) :
    ∃ feed lastSeq, ids.foldl (fun c id => c.record entity id .upsert now) c =
      { c with feed, lastSeq } := by
  induction ids generalizing c with
  | nil => exact ⟨c.feed, c.lastSeq, rfl⟩
  | cons id ids ih => exact ih (c := c.record entity id .upsert now)

/-- The position of the library's latest change, 0 when it has none. -/
def head : Nat := c.feed.foldl (fun head row => max head row.seq) 0

end Catalog

end JewelCase.Content
