import Mathlib.Data.Char
import Mathlib.Data.Int.Order.Basic
import Mathlib.Data.List.Sort
import Mathlib.Data.Prod.Lex
import JewelCase.Content.Triggers

/-!
# Derived data

`crates/server/src/db/catalog.rs` and its `album.rs`, `art.rs`, `artist.rs` and `tag.rs`: what a write
brings up to date of the albums, artists and tags it touched. Loudness is left out.
-/
namespace JewelCase.Content

set_option autoImplicit false

open Library

/-- What the core and the scanner say of names. -/
structure Rules where
  nameKey : Text → Text
  tagKey : Text → Text
  artistsKey : List Text → Text
  sortKey : Text → SortKey
  tagSortKey : Text → SortKey
  trim : Text → Text
  /-- The album type a release-type tag names. -/
  releaseKind : Text → Option AlbumType

def decimal : Id → Text
  | .ofNat n => Nat.toDigits 10 n
  | .negSucc n => '-' :: Nat.toDigits 10 (n + 1)

/-- A JSON array of IDs. -/
def json (ids : List Id) : Text :=
  '[' :: (List.intercalate [','] (ids.map decimal) ++ [']'])

/-- Entities whose derived values may be stale after a batch. -/
structure Touched where
  /-- Tracks moved onto another album. -/
  moved : List Id
  albums : List Id
  artists : List Id
  tags : List Id
deriving DecidableEq, Repr

def Touched.none : Touched := ⟨[], [], [], []⟩

namespace Catalog

-- The order that evaluates, where another one of the integers is at hand.
local instance (priority := high) : LinearOrder Int := Int.instLinearOrder
local instance (priority := high) : PartialOrder Int := Int.instLinearOrder.toPartialOrder

variable (rules : Rules) (c : Catalog)

/-- `Touched::track`: everything a track points at. -/
def touch (touched : Touched) (track : Id) : Touched :=
  { touched with
    albums := touched.albums ∪ (c.albumOf track).toList
    artists := touched.artists ∪ (c.artistsOf track ++
      (c.trackAlbumArtists.filter fun r => decide (r.track = track)).map Credit.artist)
    tags := touched.tags ∪ c.tagsOf track }

/-! ### An album's links -/

def groupsOf (album : Id) : Tally.Table GroupKey (Int × Int × Int) :=
  c.albumGroups.filter fun row => decide (row.1.album = album)

/-- How many of an album's tracks carry a value. -/
def uses {α : Type} [DecidableEq α] (column : GroupKey → α) (album : Id) (value : α) : Int :=
  (((c.groupsOf album).filter fun row => decide (column row.1 = value)).map fun row => row.2.1).sum

/-- The value of a column that most of an album's tracks carry, the first by its text of several;
none when no track has one. -/
def mostUsed {α : Type} [DecidableEq α] (text : α → Text) (column : GroupKey → α) (album : Id) :
    Option α :=
  (((c.groupsOf album).map fun row => column row.1).filter
    fun value => decide (text value ≠ [])).argmin
      fun value => toLex (-(c.uses column album value), text value)

/-- The largest of some numbers that are not -1. -/
def largest (numbers : List Int) : Option Int :=
  (numbers.filter fun n => decide (n ≠ -1)).foldl (fun best n => some (best.elim n (max n))) none

/-- `album_discs`, from an album's groups -/
def discsOf (album : Id) : List AlbumDisc :=
  let groups := c.groupsOf album
  (groups.map fun row => row.1.discNumber).dedup.map fun disc =>
    let held := groups.filter fun row => decide (row.1.discNumber = disc)
    ⟨album, disc, (held.map fun row => row.2.1).sum, largest (held.map fun row => row.1.trackTotal)⟩

/-- An album's artists in the order most of its tracks list them. -/
def listed (album : Id) : List AlbumArtist :=
  ((c.mostUsed json GroupKey.albumArtistIds album).getD []).zipIdx.map
    fun artist => ⟨album, artist.2, artist.1⟩

def refreshAlbumLinks (album : Id) : Catalog :=
  let rows := c.listed album
  let gone := c.albumArtists.filter fun r => decide (r.album = album) && !rows.contains r
  let kept := gone.foldl deleteAlbumArtist c
  let linked := rows.foldl insertAlbumArtist kept
  { linked with
    albumDiscs := (c.albumDiscs.filter fun r => decide (r.album ≠ album)) ++ c.discsOf album }

/-! ### Art -/

/-- What orders the tracks offering an album's art. -/
def artOrder (t : Track) : Int ×ₗ Int ×ₗ Int ×ₗ Int ×ₗ Text ×ₗ Id :=
  toLex (one (!t.present), toLex (one (!t.imageEmbedded), toLex (t.discNumber,
    toLex (t.trackNumber.getD (2 ^ 63 - 1), toLex (t.path, t.id)))))

/-- The first art that an album's tracks offer. -/
def albumArt (album : Id) : Option Id :=
  ((c.tracks.filter fun t => decide (t.albumId = album) && t.imageId.isSome).argmin artOrder).bind
    Track.imageId

/-- Sets an album's art. -/
def artAlbum (album : Id) : Catalog :=
  { c with albums := c.albums.map fun a =>
      if a.id = album then { a with imageId := c.albumArt album } else a }

/-- Whether setting an album's art changes it. -/
def artChanges (album : Id) : Bool :=
  (Keyed.find Album.id c.albums album).any fun a => decide (a.imageId ≠ c.albumArt album)

/-- The first of what the present tracks on an artist's albums offer. -/
def artistOffer (offer : Track → Option Id) (artist : Id) : Option Id :=
  ((c.albumArtists.filter fun r => decide (r.artist = artist)).flatMap fun r =>
    (c.tracks.filter fun t => decide (t.albumId = r.album) && t.present).filterMap fun t =>
      (offer t).map fun id => (r.album, id)).argmin (fun pair => toLex pair) |>.map Prod.snd

/-- An artist's image and biography, none for the unknown artist. -/
def artArtist (artist : Id) (isNamed : Bool) : Catalog :=
  let offered := fun offer => if isNamed then c.artistOffer offer artist else none
  { c with artists := c.artists.map fun a =>
      if a.id = artist then
        { a with
          imageId := offered Track.artistImageId
          biography := (offered Track.biographyId).bind fun id =>
            (Keyed.find Biography.id c.biographies id).map Biography.text }
      else a }

/-- The ID of the mosaic of four images. -/
def mosaicId (ids : List Id) : Text := 'm' :: List.intercalate ['-'] (ids.map decimal)

/-- A playlist's items in order. -/
def itemsOf (playlist : Id) : List Item :=
  (c.items.filter fun i => decide (i.playlist = playlist)).insertionSort
    fun a b : Item => a.key ≤ b.key

/-- The image of a track's album. -/
def imageOf (track : Id) : Option Id :=
  (c.albumOf track).bind fun album => (Keyed.find Album.id c.albums album).bind Album.imageId

/-- The first four distinct album images among a playlist's items. -/
def playlistImages (playlist : Id) : List Id :=
  ((c.itemsOf playlist).filterMap fun i => c.imageOf i.track).foldl
    (fun images image =>
      if images.length < 4 && !images.contains image then images ++ [image] else images) []

/-- The artwork key that a playlist's images make. -/
def imageKey (images : List Id) : Option Text :=
  if images.length = 4 then some (mosaicId images) else images.head?.map decimal

/-- Sets a playlist's `image_key` from its items as they are now. -/
def artPlaylist (playlist : Id) : Catalog :=
  { c with playlists := c.playlists.map fun p =>
      if p.id = playlist then { p with imageKey := imageKey (c.playlistImages playlist) } else p }

/-- The artwork of every playlist that holds one of `moved`, or a track of one of `albums`. -/
def artPlaylists (moved albums : List Id) : Catalog :=
  ((c.items.filter fun i =>
    moved.contains i.track || (c.albumOf i.track).any albums.contains).map Item.playlist).dedup.foldl
      artPlaylist c

/-! ### Artists, albums and tags -/

/-- The name that most credits of an artist write. -/
def artistName (artist : Id) : Option Text :=
  ((c.artistSpellings.filter fun row => decide (row.1.1 = artist)).argmin
    fun row => toLex (-row.2, row.1.2)).map fun row => row.1.2

/-- The sort key that most files crediting an artist first give it. -/
def taggedSort (artist : Id) : Option SortKey :=
  ((c.artistSortKeys.filter fun row => decide (row.1.1 = artist)).argmin
    fun row => toLex (-row.2, row.1.2)).map fun row => row.1.2

def artistSort (artist : Id) : SortKey :=
  ((c.taggedSort artist).filter fun key => decide (key ≠ [])).getD
    (rules.sortKey ((c.artistName artist).getD []))

def credited (artist : Id) : Bool :=
  (c.trackArtists.any fun r => decide (r.artist = artist)) ||
    c.trackAlbumArtists.any fun r => decide (r.artist = artist)

/-- Gives every album that an artist heads, and every track crediting it first, its sort key. -/
def followArtistSortKey (artist : Id) (key : SortKey) (now : Int) : Catalog :=
  let heads := (c.albumArtists.filter fun r =>
    decide (r.artist = artist ∧ r.position = 0)).map AlbumArtist.album
  let firsts := (c.trackArtists.filter fun r =>
    decide (r.artist = artist ∧ r.position = 0)).map Credit.track
  heads.foldl (fun c album => c.record .album album .upsert now)
    { c with
      albums := c.albums.map fun a =>
        if heads.contains a.id then { a with artistSortKey := key } else a
      tracks := c.tracks.map fun t =>
        if firsts.contains t.id then { t with artistSortKey := key } else t }

def refreshArtist (now : Int) (artist : Id) : Catalog :=
  match Keyed.find Artist.id c.artists artist with
  | none => c
  | some old =>
    if c.credited artist then
      let name := c.artistName artist
      let key := c.artistSort rules artist
      let updated := c.updateArtist old { old with name, sortKey := key }
      let followed :=
        if key = old.sortKey then updated else updated.followArtistSortKey artist key now
      (followed.artArtist artist name.isSome).record .artist artist .upsert now
    else (c.deleteArtist artist).record .artist artist .delete now

/-- The type that more than half of an album's tracks name, if any. -/
def albumKind (album : Id) (count : Int) : Option AlbumType :=
  let kinds := (c.groupsOf album).filterMap fun row =>
    (rules.releaseKind row.1.releaseType).map fun kind => (kind, row.2.1)
  let named := kinds.filter fun kind => decide
    (count < 2 * ((kinds.filter fun other => decide (other.1 = kind.1)).map Prod.snd).sum)
  named.head?.map Prod.fst

def albumType (kind : Option AlbumType) (compilation : Bool) (trackTotal : Option Int) : AlbumType :=
  match kind with
  | some kind => kind
  | none =>
    if compilation then .compilation
    else
      match trackTotal with
      | some n => if 1 ≤ n ∧ n ≤ 3 then .single else if 4 ≤ n ∧ n ≤ 6 then .ep else .album
      | none => .album

/-- The sum of the totals of an album's discs, where one with no number counts as the first. -/
def discTotals (album : Id) : Option Int :=
  let discs := c.albumDiscs.filter fun r => decide (r.album = album)
  let totals := (discs.map fun r => max r.disc 1).dedup.filterMap fun disc =>
    largest ((discs.filter fun r => decide (max r.disc 1 = disc)).filterMap AlbumDisc.trackTotal)
  if totals = [] then none else some totals.sum

/-- The sort key of the artist an album lists first. -/
def headSortKey (album : Id) : Option SortKey :=
  ((c.albumArtists.filter fun r => decide (r.album = album)).argmin AlbumArtist.position).bind
    fun r => (Keyed.find Artist.id c.artists r.artist).map Artist.sortKey

/-- The album's row with its fields resolved from its groups. -/
def resolvedAlbum (old : Album) : Album :=
  let groups := c.groupsOf old.id
  let count := (groups.map fun row => row.2.1).sum
  let title := c.mostUsed id GroupKey.title old.id
  let trackTotal := c.discTotals old.id
  { old with
    title
    sortKey := ((groups.filter fun row => decide (row.1.title = title.getD [])).map
      fun row => row.1.sortKey).min?.getD old.sortKey
    artistSortKey := (c.headSortKey old.id).getD old.artistSortKey
    type := albumType (c.albumKind rules old.id count) (groups.any fun row => row.1.compilation)
      trackTotal
    releaseDate := c.mostUsed id GroupKey.releaseDate old.id
    discTotal := largest (groups.map fun row => row.1.discTotal)
    trackTotal
    discCount := (groups.map fun row => max row.1.discNumber 1).dedup.length
    trackCount := count
    availableTrackCount := (groups.map fun row => row.2.2.1).sum
    durationUs := (groups.map fun row => row.2.2.2).sum
    labels := (c.mostUsed id GroupKey.labels old.id).getD ['[', ']'] }

def recomputeAlbum (now : Int) (album : Id) : Option Catalog :=
  if ((c.groupsOf album).map fun row => row.2.1).sum = 0 then do
    let c ← c.deleteAlbum album
    some (c.record .album album .delete now)
  else
    let updated := (Keyed.find Album.id c.albums album).elim c fun old =>
      c.updateAlbum old (c.resolvedAlbum rules old)
    some (updated.record .album album .upsert now)

/-- The name that most tracks carrying a tag write. -/
def tagName (tag : Id) : Option Text :=
  ((c.tagSpellings.filter fun row => decide (row.1.1 = tag)).argmin
    fun row => toLex (-row.2, row.1.2)).map fun row => row.1.2

def carried (tag : Id) : Bool := c.trackTags.any fun r => decide (r.tag = tag)

def refreshTag (now : Int) (tag : Id) : Catalog :=
  match Keyed.find Tag.id c.tags tag with
  | none => c
  | some old =>
    if c.carried tag then
      let name := (c.tagName tag).getD []
      (c.updateTag { old with name, sortKey := rules.tagSortKey name }).record .tag tag .upsert now
    else (c.deleteTag tag).record .tag tag .delete now

/-- The album's links and art, and whether its art changed. -/
def relink (s : Catalog × List Id) (album : Id) : Catalog × List Id :=
  let linked := s.1.refreshAlbumLinks album
  (linked.artAlbum album, if linked.artChanges album then s.2 ++ [album] else s.2)

/-- Brings what `touched` names up to date and records each change, and the library's, in the feed. -/
def recompute (touched : Touched) (now : Int) : Option Catalog :=
  if touched.albums = [] ∧ touched.artists = [] ∧ touched.tags = [] then some c
  else do
    let linked := touched.albums.foldl relink (c, [])
    let named := touched.artists.foldl (fun c artist => c.refreshArtist rules now artist) linked.1
    let resolved ← touched.albums.foldlM (fun c album => c.recomputeAlbum rules now album) named
    let arted := resolved.artPlaylists touched.moved linked.2
    let tagged := touched.tags.foldl (fun c tag => c.refreshTag rules now tag) arted
    some (tagged.record .library c.library .upsert now)

end Catalog

end JewelCase.Content
