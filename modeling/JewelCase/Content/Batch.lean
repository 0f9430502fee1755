import JewelCase.Content.Derived

/-!
# Writes of a library's content

`crates/server/src/db/store/upsert.rs`, `upsert/row.rs`, `entities.rs` and `tracks.rs`, which write
what a scan found, `store_analysis` and `store_placeholder` of `jobs.rs`, and the purge of
`retention/catalog.rs`. Each is one transaction, which an insert of an ID that is taken fails.
-/
namespace JewelCase.Content

set_option autoImplicit false

open Library

/-- The IDs a file's write draws: its track's, and one for each new artist, album and tag by its
key. -/
structure Draws where
  track : Id
  artist : Text → Id
  album : Id
  tag : Text → Text → Id

/-- A scanned file, and the rows of its art and biography. -/
structure Record where
  /-- The track it is, if it has a row. -/
  id : Option Id
  /-- Whether that ID is of another library's track. -/
  elsewhere : Bool
  /-- The root it is under, if the library has it. -/
  rootId : Option Id
  path : Text
  artists : List Text
  /-- The album artists it gives its album, or its first artist. -/
  albumArtists : List Text
  album : Option Text
  /-- Its tags' values by type. -/
  tagValues : List (Text × List Text)
  title : Text
  artistSort : SortKey
  albumArtistSort : SortKey
  albumSort : SortKey
  discNumber : Option Int
  trackNumber : Option Int
  trackTotal : Option Int
  discTotal : Option Int
  releaseDate : Option Text
  compilation : Bool
  releaseType : Option Text
  labels : Text
  durationUs : Int
  imageId : Option Id
  imageEmbedded : Bool
  artistImageId : Option Id
  biography : Option Biography

namespace Catalog

variable (rules : Rules) (c : Catalog)

/-! ### Finding or creating -/

/-- The artist whose name key `name` folds to, added if new. `none` is the unknown artist. -/
def findOrCreateArtist (draws : Draws) (name : Option Text) : Option (Catalog × Id) :=
  let key := (name.map rules.nameKey).getD []
  match Keyed.find Artist.nameKey c.artists key with
  | some artist => some (c, artist.id)
  | none => do
    let c ← c.insertArtist
      ⟨draws.artist key, name.map rules.trim, key, rules.sortKey (name.getD []), none, none, 0, 0, 0⟩
    some (c, draws.artist key)

/-- The album with `title`'s key and `artistsKey`, added if new. `none` is the unknown album. -/
def findOrCreateAlbum (draws : Draws) (title : Option Text) (artistsKey : Text) (sortKey : SortKey) :
    Option (Catalog × Id) :=
  let titleKey := (title.map rules.nameKey).getD []
  match Keyed.find (fun a : Album => (a.titleKey, a.artistsKey)) c.albums (titleKey, artistsKey) with
  | some album => some (c, album.id)
  | none => do
    let c ← c.insertAlbum
      { id := draws.album, title := title.map rules.trim, titleKey, artistsKey, sortKey
        artistSortKey := [], type := .album, labels := ['[', ']'], imageId := none
        releaseDate := none, discTotal := none, trackTotal := none, discCount := 0
        trackCount := 0, availableTrackCount := 0, durationUs := 0 }
    some (c, draws.album)

/-- The tag of a type whose key `name` folds to, added if new. -/
def findOrCreateTag (draws : Draws) (type name : Text) : Option (Catalog × Id) :=
  let key := rules.tagKey name
  match Keyed.find (fun t : Tag => (t.type, t.nameKey)) c.tags (type, key) with
  | some tag => some (c, tag.id)
  | none => do
    let c ← c.insertTag ⟨draws.tag type key, type, rules.trim name, key, [], 0, 0, 0⟩
    some (c, draws.tag type key)

/-! ### A file's credits -/

/-- An artist's ID and its name as tagged. -/
abbrev Named := Id × Option Text

def artistIds (draws : Draws) : Catalog → List (Option Text) → Option (Catalog × List Named)
  | c, [] => some (c, [])
  | c, name :: rest => do
    let (c, id) ← c.findOrCreateArtist rules draws name
    let (c, credits) ← artistIds draws c rest
    some (c, (id, name) :: credits)

/-- The credited names, or the unknown artist alone when there are none. -/
def namesOf (names : List Text) : List (Option Text) :=
  if names = [] then [none] else names.map some

/-- `retain`, which keeps the first credit of each artist. -/
def listedOnce (held : List Id) : List Named → List Named
  | [] => []
  | credit :: rest =>
    if held.contains credit.1 then listedOnce held rest
    else credit :: listedOnce (credit.1 :: held) rest

/-- A track's credits, and the album they place it on. -/
structure Credits where
  artists : List Named
  albumArtists : List Named
  albumId : Id

/-- Finds or makes the artists a file credits, then its album artists, each once, then the album they
place it on. -/
def credits (draws : Draws) (rec : Record) : Option (Catalog × Credits) := do
  let (c, artists) ← artistIds rules draws c (namesOf rec.artists)
  let (c, listed) ← artistIds rules draws c (namesOf rec.albumArtists)
  let albumArtists := listedOnce [] listed
  let key := rules.artistsKey (albumArtists.map fun credit => credit.2.getD [])
  let (c, albumId) ← c.findOrCreateAlbum rules draws rec.album key rec.albumSort
  some (c, ⟨artists, albumArtists, albumId⟩)

/-! ### A file's row -/

/-- The rows of a file's art and biography, added if new. -/
def sidecarRows (rec : Record) : Catalog :=
  { c with
    images := c.images ∪ (rec.imageId.toList ++ rec.artistImageId.toList)
    biographies := rec.biography.elim c.biographies fun biography =>
      if c.biographies.any fun held => decide (held.id = biography.id) then c.biographies
      else c.biographies ++ [biography] }

/-- The columns a scan sets, and the copies of the sort keys of the track's album and first
artist. -/
def trackRow (rec : Record) (id root : Id) (credits : Credits) : Track where
  id
  albumId := credits.albumId
  albumArtistIds := credits.albumArtists.map Prod.fst
  albumTitle := rec.album
  rootId := root
  path := rec.path
  missingSince := none
  title := rec.title
  artistSortKey := (credits.artists.head?.bind fun credit =>
    (Keyed.find Artist.id c.artists credit.1).map Artist.sortKey).getD []
  albumSortKey := ((Keyed.find Album.id c.albums credits.albumId).map Album.sortKey).getD []
  fileArtistSortKey := rec.artistSort
  fileAlbumArtistSortKey := rec.albumArtistSort
  fileAlbumSortKey := rec.albumSort
  discNumber := rec.discNumber.getD 0
  trackNumber := rec.trackNumber
  trackTotal := rec.trackTotal
  discTotal := rec.discTotal
  releaseDate := rec.releaseDate
  compilation := rec.compilation
  releaseType := rec.releaseType
  labels := rec.labels
  durationUs := rec.durationUs
  imageId := rec.imageId
  imageEmbedded := rec.imageEmbedded
  artistImageId := rec.artistImageId
  biographyId := rec.biography.map Biography.id

/-- Inserts the track, or updates it; nothing for another library's. -/
def writeRow (rec : Record) (id root : Id) (credits : Credits) : Option Catalog :=
  let c := c.sidecarRows rec
  let row := c.trackRow rec id root credits
  match c.track? id with
  | some old => some (c.updateTrack old row)
  | none => if rec.id.isSome && rec.elsewhere then none else some (c.insertTrack row)

/-! ### A file's links -/

/-- Replaces a track's tags with `tagValues`. -/
def replaceTags (draws : Draws) (id : Id) (tagValues : List (Text × List Text)) (touched : Touched) :
    Option (Catalog × Touched) :=
  (tagValues.flatMap fun values => values.2.map fun value => (values.1, value)).foldlM
    (fun s named => do
      let (c, tag) ← s.1.findOrCreateTag rules draws named.1 named.2
      some (c.insertTrackTag ⟨id, tag, rules.trim named.2⟩, { s.2 with tags := s.2.tags ∪ [tag] }))
    (c.deleteTrackTags id, touched)

/-- A track's credits as rows. -/
def creditRows (id : Id) (credits : List Named) : List Credit :=
  credits.zipIdx.map fun credit => ⟨id, credit.2, credit.1.1, credit.1.2.map rules.trim⟩

/-- Replaces a track's artist, album-artist and tag links. -/
def replaceLinks (draws : Draws) (id : Id) (credits : Credits) (tagValues : List (Text × List Text))
    (touched : Touched) : Option (Catalog × Touched) := do
  let c := (c.deleteTrackArtists id).deleteTrackAlbumArtists id
  let c := (creditRows rules id credits.artists).foldl insertTrackArtist c
  let c ← (creditRows rules id credits.albumArtists).foldlM insertTrackAlbumArtist c
  c.replaceTags rules draws id tagValues touched

/-- Writes a scanned file as a track, with its credits and tags, records it in the feed, and adds what
it pointed at before and after to `touched`. A file under no root of the library, or of another
library's track, is skipped. A drawn ID that a track has fails here, where the `UPSERT` would
overwrite that track: IDs are drawn at random and taken to be new. -/
def upsertTrack (draws : Draws) (rec : Record) (now : Int) (touched : Touched) :
    Option (Catalog × Touched) :=
  match rec.rootId with
  | none => some (c, touched)
  | some root => do
    let before := rec.id.bind c.albumOf
    let touched := rec.id.elim touched (c.touch touched)
    let (c, credits) ← c.credits rules draws rec
    let touched := { touched with
      moved := touched.moved ∪ rec.id.toList.filter fun _ => before ≠ some credits.albumId
      albums := touched.albums ∪ [credits.albumId]
      artists := touched.artists ∪ (credits.artists ++ credits.albumArtists).map Prod.fst }
    let id := rec.id.getD draws.track
    if rec.id.isNone && (c.track? id).isSome then none
    else
      match c.writeRow rec id root credits with
      | none => some (c.sidecarRows rec, touched)
      | some c => do
        let (c, touched) ← c.replaceLinks rules draws id credits rec.tagValues touched
        some (c.record .track id .upsert now, touched)

/-- `SELECT tag_id, tag_name FROM track_tags WHERE track_id = track ORDER BY tag_id, tag_name` -/
def tagLinks (track : Id) : List (Id × Text) :=
  ((c.trackTags.filter fun r => decide (r.track = track)).map fun r =>
    (r.tag, r.name)).insertionSort fun a b => toLex a ≤ toLex b

/-- Writes the tags read again from a track's file. Only when they changed is the track recorded in
the feed, and what it points at added to `touched`. -/
def rereadTags (draws : Draws) (id : Id) (tagValues : List (Text × List Text)) (now : Int)
    (touched : Touched) : Option (Catalog × Touched) :=
  if (c.track? id).isNone then some (c, touched)
  else do
    let before := c.tagLinks id
    let (c, reached) ← c.replaceTags rules draws id tagValues (c.touch Touched.none id)
    if c.tagLinks id = before then some (c, touched)
    else
      some (c.record .track id .upsert now,
        { touched with
          albums := touched.albums ∪ reached.albums
          artists := touched.artists ∪ reached.artists
          tags := touched.tags ∪ reached.tags })

/-! ### Transactions -/

/-- A track gone or returned, if it was not so before. -/
def markTrack (missingSince : Option Int) (now : Int) (s : Catalog × Touched) (id : Id) :
    Catalog × Touched :=
  match s.1.track? id with
  | none => s
  | some old =>
    if old.missingSince.isSome = missingSince.isSome then s
    else
      let c := s.1.updateTrack old { old with missingSince }
      (c.record .track id .upsert now, c.touch s.2 id)

/-- What a scan writes at once. -/
structure Batch where
  upserts : List (Draws × Record)
  rereads : List (Draws × Id × List (Text × List Text))
  missing : List Id
  returned : List Id

/-- The order a set is gone through in. -/
structure Order where
  run : List Id → List Id
  perm : ∀ ids, (run ids).Perm ids

def Order.touched (order : Order) (touched : Touched) : Touched :=
  ⟨order.run touched.moved, order.run touched.albums, order.run touched.artists,
    order.run touched.tags⟩

/-- Writes a batch in one transaction. -/
def applyBatch (order : Order) (batch : Batch) (now : Int) : Option Catalog := do
  let s ← batch.upserts.foldlM
    (fun s upsert => s.1.upsertTrack rules upsert.1 upsert.2 now s.2) (c, Touched.none)
  let s ← batch.rereads.foldlM
    (fun s reread => s.1.rereadTags rules reread.1 reread.2.1 reread.2.2 now s.2) s
  let s := batch.missing.foldl (markTrack (some now) now) s
  let s := batch.returned.foldl (markTrack none now) s
  s.1.recompute rules (order.touched s.2) now

/-- Records a track's analysis, and its album's loudness, in the feed. -/
def storeAnalysis (id : Id) (now : Int) : Catalog :=
  (c.albumOf id).elim c fun album => (c.record .album album .upsert now).record .track id .upsert now

/-- Stores the placeholder of an image the library has, and records the albums and artists showing it
in the feed. One that could not be made leaves them as they were. -/
def storePlaceholder (image : Id) (made : Bool) (now : Int) : Catalog :=
  if image ∈ c.images ∧ made then
    let albums := (c.albums.filter fun a => decide (a.imageId = some image)).map Album.id
    let artists := (c.artists.filter fun a => decide (a.imageId = some image)).map Artist.id
    let recorded := albums.foldl (fun c id => c.record .album id .upsert now) c
    artists.foldl (fun c id => c.record .artist id .upsert now) recorded
  else c

theorem storePlaceholder_eq (image : Id) (made : Bool) (now : Int) :
    ∃ feed lastSeq, c.storePlaceholder image made now = { c with feed, lastSeq } := by
  unfold storePlaceholder
  split
  · dsimp only
    obtain ⟨feed, lastSeq, he⟩ := c.record_each .album
      ((c.albums.filter fun (a : Album) => decide (a.imageId = some image)).map Album.id) now
    rw [he]
    exact record_each _ .artist _ now
  · exact ⟨c.feed, c.lastSeq, rfl⟩

/-- A track goes, if no playlist holds it. -/
def purgeTrack (now : Int) (s : Catalog × Touched) (id : Id) : Option (Catalog × Touched) :=
  if s.1.items.any fun i => decide (i.track = id) then none
  else
    some (((s.1.track? id).elim s.1 s.1.deleteTrack).record .track id .delete now, s.1.touch s.2 id)

/-- Tracks go, with the albums, artists and tags they were the last of. -/
def purge (order : Order) (ids : List Id) (now : Int) : Option Catalog := do
  let s ← ids.foldlM (purgeTrack now) (c, Touched.none)
  s.1.recompute rules (order.touched s.2) now

/-- A playlist is made. -/
def createPlaylist (playlist : Id) : Option Catalog :=
  if c.playlists.any fun p => decide (p.id = playlist) then none
  else some { c with playlists := c.playlists ++ [⟨playlist, none⟩] }

/-- A playlist's items become `tracks`, at keys in order, and its artwork follows. A track that is
gone fails it. -/
def setItems (playlist : Id) (tracks : List Id) : Option Catalog :=
  if (c.playlists.any fun p => decide (p.id = playlist)) &&
      tracks.all fun track => (c.track? track).isSome then
    let c : Catalog := { c with
      items := (c.items.filter fun i => decide (i.playlist ≠ playlist)) ++
        tracks.zipIdx.map fun track => ⟨playlist, track.2, track.1⟩ }
    some (c.artPlaylist playlist)
  else none

def deletePlaylist (playlist : Id) : Catalog :=
  { c with
    playlists := c.playlists.filter fun p => decide (p.id ≠ playlist)
    items := c.items.filter fun i => decide (i.playlist ≠ playlist) }

end Catalog

/-- A transaction of one library's content, or of others' that takes places in the feed. -/
inductive Write where
  | batch (order : Catalog.Order) (batch : Catalog.Batch)
  | purge (order : Catalog.Order) (ids : List Id)
  | analysis (id : Id)
  | placeholder (image : Id) (made : Bool)
  | createPlaylist (playlist : Id)
  | setItems (playlist : Id) (tracks : List Id)
  | deletePlaylist (playlist : Id)
  | elsewhere (changes : Nat)

/-- A transaction committed at a time, unless it failed. -/
def Catalog.write (rules : Rules) (c : Catalog) (now : Int) : Write → Option Catalog
  | .batch order batch => c.applyBatch rules order batch now
  | .purge order ids => c.purge rules order ids now
  | .analysis id => some (c.storeAnalysis id now)
  | .placeholder image made => some (c.storePlaceholder image made now)
  | .createPlaylist playlist => c.createPlaylist playlist
  | .setItems playlist tracks => c.setItems playlist tracks
  | .deletePlaylist playlist => some (c.deletePlaylist playlist)
  | .elsewhere changes => some { c with lastSeq := c.lastSeq + changes }

/-- A library's content after transactions committed on a library that was made. -/
inductive Reachable (rules : Rules) : Catalog → Prop where
  | made (library : Id) : Reachable rules (Catalog.empty library)
  | write {c c' : Catalog} (now : Int) (w : Write) :
      Reachable rules c → c.write rules now w = some c' → Reachable rules c'

/-! ### A run -/

namespace Catalog

/-- Names as they are. -/
def plainRules : Rules where
  nameKey := id
  tagKey := id
  artistsKey := List.flatten
  sortKey := id
  tagSortKey := id
  trim := id
  releaseKind := fun _ => none

def asGiven : Order := ⟨id, fun _ => List.Perm.refl _⟩

def firstDraws : Draws := ⟨10, fun _ => 20, 30, fun _ _ => 40⟩

def firstFile : Record where
  id := none
  elsewhere := false
  rootId := some 1
  path := ['p']
  artists := [['a']]
  albumArtists := [['a']]
  album := some ['b']
  tagValues := [(['g'], [['c']])]
  title := ['t']
  artistSort := []
  albumArtistSort := []
  albumSort := ['b']
  discNumber := none
  trackNumber := some 1
  trackTotal := none
  discTotal := none
  releaseDate := none
  compilation := false
  releaseType := none
  labels := ['[', ']']
  durationUs := 5
  imageId := none
  imageEmbedded := false
  artistImageId := none
  biography := none

/-- A library once its first file is scanned. -/
def scanned : Catalog :=
  ((Catalog.empty 1).write plainRules 9
    (.batch asGiven ⟨[(firstDraws, firstFile)], [], [], []⟩)).getD (Catalog.empty 1)

theorem reachable_scanned : Reachable plainRules scanned :=
  .write 9 (.batch asGiven ⟨[(firstDraws, firstFile)], [], [], []⟩) (.made 1) (by rfl)

end Catalog

end JewelCase.Content
