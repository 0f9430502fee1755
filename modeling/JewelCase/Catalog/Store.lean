import Mathlib.Data.Char
import Mathlib.Data.List.Infix
import Mathlib.Data.List.Lex
import Mathlib.Data.List.Sort
import Mathlib.Data.List.TakeWhile
import JewelCase.Library.Lists

/-!
# Names and their keys

A name's key decides identity: `name_key` and `artists_key` of `crates/core/src/fold.rs`, and
`split_all` of `crates/scanner/src/multi_value.rs`, which splits a tag at semicolons before its names
are folded. Normalization comes last, and writes U+037E, the Greek question mark, as a semicolon.
-/
namespace JewelCase.Catalog

set_option autoImplicit false

open Library.Joined (pieces)

abbrev Text := List Char

/-- What the Unicode libraries define: a character's lowercase, a text's NFC, and which characters
are letters or digits. Neither of the first two leaves nothing of something. -/
structure Unicode where
  lower : Char → Text
  nfc : Text → Text
  isAlphanumeric : Char → Bool
  lower_full : ∀ c, lower c ≠ []
  nfc_empty : nfc [] = []
  nfc_full : ∀ text, text ≠ [] → nfc text ≠ []

/-- `char::is_whitespace` -/
def isWhitespace (c : Char) : Bool :=
  (9 ≤ c.toNat ∧ c.toNat ≤ 13) ∨ (0x2000 ≤ c.toNat ∧ c.toNat ≤ 0x200A) ∨
    c.toNat ∈ [0x20, 0x85, 0xA0, 0x1680, 0x2028, 0x2029, 0x202F, 0x205F, 0x3000]

/-- `str::trim` -/
def trim (text : Text) : Text := ((text.dropWhile isWhitespace).reverse.dropWhile isWhitespace).reverse

/-- How a name key writes a lowercased character. -/
def foldChar (c : Char) : Char :=
  if c = 'ς' then 'σ' else if isWhitespace c then ' ' else c

variable (u : Unicode)

/-- Fold a name for identity. -/
def nameKey (name : Text) : Text := u.nfc (((trim name).flatMap u.lower).map foldChar)

/-- `Vec::dedup`, which keeps one of a run of equal items. -/
def dedup {α : Type} [DecidableEq α] : List α → List α
  | [] => []
  | [a] => [a]
  | a :: b :: rest => if a = b then dedup (b :: rest) else a :: dedup (b :: rest)

/-- The name keys of `names`, sorted, each once. -/
def sortedKeys (names : List Text) : List Text :=
  dedup ((names.map (nameKey u)).insertionSort (· ≤ ·))

/-- The album-artists half of album identity. -/
def artistsKey (names : List Text) : Text := List.intercalate [';'] (sortedKeys u names)

/-- The values whose keys are not among `keys`, nor an earlier value's. -/
def keepFirst (keys : List Text) : List Text → List Text
  | [] => []
  | value :: rest =>
    if keys.contains (nameKey u value) then keepFirst keys rest
    else value :: keepFirst (keys ++ [nameKey u value]) rest

/-- Split raw tag values, one per field the tag carried natively, into one ordered list. -/
def splitAll (raws : List Text) : List Text :=
  keepFirst u [] (((raws.flatMap fun raw => raw.splitOn ';').map trim).filter (· ≠ []))

/-- Names with the same set of keys. -/
def SameKeys (names names' : List Text) : Prop :=
  ∀ key, key ∈ names.map (nameKey u) ↔ key ∈ names'.map (nameKey u)

/-- Names with different keys that come to the same pieces, cut at every semicolon in them. -/
def Regroup (names names' : List Text) : Prop :=
  ¬ SameKeys u names names' ∧
    pieces ';' (sortedKeys u names) = pieces ';' (sortedKeys u names')

variable {u} {names names' : List Text}

/-! ### Trimmed text -/

theorem mem_trim {text : Text} {c : Char} (hc : c ∈ text) (hspace : isWhitespace c = false) :
    c ∈ trim text := by
  have hkeep : ∀ text : Text, c ∈ text → c ∈ text.dropWhile isWhitespace := by
    intro text hmem
    rw [← List.takeWhile_append_dropWhile (p := isWhitespace) (l := text)] at hmem
    refine (List.mem_append.mp hmem).resolve_left fun htake => ?_
    rw [List.mem_takeWhile_imp htake] at hspace
    exact absurd hspace (by decide)
  exact List.mem_reverse.mpr (hkeep _ (List.mem_reverse.mpr (hkeep text hc)))

theorem trim_full {text : Text} (h : trim text ≠ []) :
    ∃ c ∈ text, isWhitespace c = false := by
  by_contra hall
  have hspace : ∀ c ∈ text, isWhitespace c = true := by
    intro c hc
    by_contra hne
    exact hall ⟨c, hc, by simpa using hne⟩
  exact h (by rw [trim, List.dropWhile_eq_nil_iff.mpr hspace]; rfl)

/-- Trimming trimmed text leaves something of it. -/
theorem trim_trim_full {text : Text} (h : trim text ≠ []) : trim (trim text) ≠ [] := by
  obtain ⟨c, hc, hspace⟩ := trim_full h
  exact List.ne_nil_of_mem (mem_trim (mem_trim hc hspace) hspace)

theorem nameKey_full {name : Text} (h : trim name ≠ []) : nameKey u name ≠ [] := by
  refine u.nfc_full _ ?_
  rw [ne_eq, List.map_eq_nil_iff, List.flatMap_eq_nil_iff]
  intro hall
  obtain ⟨c, hc⟩ := List.exists_mem_of_ne_nil _ h
  exact u.lower_full c (hall c hc)

theorem nameKey_nil : nameKey u [] = [] := u.nfc_empty

/-! ### Split names -/

theorem keepFirst_subset {keys values : List Text} {value : Text}
    (h : value ∈ keepFirst u keys values) : value ∈ values := by
  induction values generalizing keys with
  | nil => exact h
  | cons v rest ih =>
    rw [keepFirst] at h
    split at h
    · exact List.mem_cons_of_mem _ (ih h)
    · rcases List.mem_cons.mp h with rfl | h
      · exact List.mem_cons_self
      · exact List.mem_cons_of_mem _ (ih h)

/-- A name of a split tag has a key. -/
theorem splitAll_full {raws : List Text} {name : Text} (h : name ∈ splitAll u raws) :
    nameKey u name ≠ [] := by
  have hmem := keepFirst_subset h
  rw [List.mem_filter, List.mem_map, decide_eq_true_eq] at hmem
  obtain ⟨⟨raw, -, rfl⟩, hne⟩ := hmem
  exact nameKey_full (trim_trim_full hne)

/-! ### Keys of artists -/

theorem mem_dedup {α : Type} [DecidableEq α] {l : List α} {a : α} : a ∈ dedup l ↔ a ∈ l := by
  fun_induction dedup l with
  | case1 => rfl
  | case2 => rfl
  | case3 b rest ih => simp only [ih, List.mem_cons, or_self_left]
  | case4 a b rest hne ih =>
    rw [List.mem_cons, ih]
    exact List.mem_cons.symm

/-- A sorted list without its runs is strictly sorted. -/
theorem dedup_sorted {l : List Text} (h : l.Pairwise (· ≤ ·)) : (dedup l).Pairwise (· < ·) := by
  fun_induction dedup l with
  | case1 => exact List.Pairwise.nil
  | case2 => exact List.pairwise_singleton _ _
  | case3 b rest ih => exact ih (List.pairwise_cons.mp h).2
  | case4 a b rest hne ih =>
    obtain ⟨hle, hrest⟩ := List.pairwise_cons.mp h
    refine List.pairwise_cons.mpr ⟨fun c hc => ?_, ih hrest⟩
    have hab : a < b := lt_of_le_of_ne (hle b List.mem_cons_self) hne
    rcases List.mem_cons.mp (mem_dedup.1 hc) with rfl | hc
    · exact hab
    · exact hab.trans_le ((List.pairwise_cons.mp hrest).1 c hc)

theorem mem_sortedKeys {key : Text} : key ∈ sortedKeys u names ↔ key ∈ names.map (nameKey u) := by
  rw [sortedKeys, mem_dedup, List.mem_insertionSort]

/-- The sorted keys are those of the set. -/
theorem sortedKeys_eq_iff : sortedKeys u names = sortedKeys u names' ↔ SameKeys u names names' := by
  constructor
  · intro h key
    rw [← mem_sortedKeys, h, mem_sortedKeys]
  · intro h
    have hsorted : ∀ names : List Text, (sortedKeys u names).Pairwise (· < ·) := fun names =>
      dedup_sorted (List.pairwise_insertionSort _ _)
    refine (hsorted names).eq_of_mem_iff (hsorted names') fun key => ?_
    rw [mem_sortedKeys, mem_sortedKeys]
    exact h key

theorem artistsKey_congr (h : SameKeys u names names') :
    artistsKey u names = artistsKey u names' := by
  rw [artistsKey, artistsKey, sortedKeys_eq_iff.2 h]

/-- The artists' key of names with keys is that of their pieces. -/
theorem artistsKey_eq_iff (hfull : ∀ name ∈ names, nameKey u name ≠ [])
    (hfull' : ∀ name ∈ names', nameKey u name ≠ []) :
    artistsKey u names = artistsKey u names' ↔
      pieces ';' (sortedKeys u names) = pieces ';' (sortedKeys u names') := by
  have hitems : ∀ names : List Text, (∀ name ∈ names, nameKey u name ≠ []) →
      ∀ key ∈ sortedKeys u names, key ≠ [] := by
    intro names hfull key hkey
    obtain ⟨name, hname, rfl⟩ := List.mem_map.mp (mem_sortedKeys.1 hkey)
    exact hfull name hname
  exact Library.Joined.join_eq_iff (hitems names hfull) (hitems names' hfull')

/-- **Two artists' keys are equal just when the names have the same keys, or regroup.** -/
theorem artistsKey_eq_or (hfull : ∀ name ∈ names, nameKey u name ≠ [])
    (hfull' : ∀ name ∈ names', nameKey u name ≠ []) :
    artistsKey u names = artistsKey u names' ↔
      SameKeys u names names' ∨ Regroup u names names' := by
  constructor
  · intro h
    by_cases hsame : SameKeys u names names'
    · exact .inl hsame
    · exact .inr ⟨hsame, (artistsKey_eq_iff hfull hfull').mp h⟩
  · rintro (h | ⟨-, h⟩)
    · exact artistsKey_congr h
    · exact (artistsKey_eq_iff hfull hfull').mpr h

/-- Names whose keys hold no semicolon do not regroup. -/
theorem clean_apart (hclean : ∀ name ∈ names, ';' ∉ nameKey u name)
    (hclean' : ∀ name ∈ names', ';' ∉ nameKey u name) : ¬ Regroup u names names' := by
  have hitems : ∀ names : List Text, (∀ name ∈ names, ';' ∉ nameKey u name) →
      pieces ';' (sortedKeys u names) = sortedKeys u names := by
    intro names hclean
    refine Library.Joined.pieces_clean fun key hkey => ?_
    obtain ⟨name, hname, rfl⟩ := List.mem_map.mp (mem_sortedKeys.1 hkey)
    exact hclean name hname
  rintro ⟨hne, hpieces⟩
  rw [hitems names hclean, hitems names' hclean'] at hpieces
  exact hne (sortedKeys_eq_iff.1 hpieces)

end JewelCase.Catalog

/-!
## Artists, albums and tracks

What a scanned file writes of them, as `upsert_track` of `crates/server/src/db/store/upsert.rs` does:
its artists and album are found by their keys or created, in one library, and its track row points at
them. A row's ID is drawn at random, and a write whose draw is taken fails. The recompute and the
sweep delete an artist, an album or a track.
-/
namespace JewelCase.Catalog

set_option autoImplicit false

variable (u : Unicode)

/-! ### A file's tags -/

inductive Kind where
  | compilation
  | single
  | ep
  | album
deriving DecidableEq

/-- The album type a release-type tag names. -/
def releaseKind (releaseType : Text) : Option Kind :=
  let text := releaseType.map Char.toLower
  if "compilation".toList <:+: text then some .compilation
  else if "single".toList <:+: text then some .single
  else if (text.splitOnP fun c => ! u.isAlphanumeric c).contains "ep".toList then some .ep
  else if "album".toList <:+: text then some .album
  else none

/-- A file's tags, as far as its credits read them. Names are as `split_all` gives them. -/
structure TagSet where
  artists : List Text
  album : Option Text
  albumArtists : List Text
  compilation : Bool
  releaseType : Option Text
  artists_split : ∃ raws, artists = splitAll u raws
  albumArtists_split : ∃ raws, albumArtists = splitAll u raws

variable {u}

/-- The album artists this file gives its album: the tagged ones, else none for a compilation, else
the first track artist. -/
def TagSet.albumArtistsOrPrimary (tags : TagSet u) : List Text :=
  let compilation : Bool := match tags.releaseType.bind (releaseKind u) with
    | some kind => kind == .compilation
    | none => tags.compilation
  if tags.albumArtists ≠ [] then tags.albumArtists
  else if compilation then []
  else tags.artists.take 1

/-! ### Rows -/

structure Artist where
  id : Nat
  nameKey : Text
deriving DecidableEq

structure Album where
  id : Nat
  titleKey : Text
  artistsKey : Text
deriving DecidableEq

/-- A track's row and links, with the tags they were written from. -/
structure Track (u : Unicode) where
  id : Nat
  albumId : Nat
  artistIds : List Nat
  albumArtistIds : List Nat
  tags : TagSet u

structure Store (u : Unicode) where
  artists : List Artist
  albums : List Album
  tracks : List (Track u)

/-- The IDs a write draws: one for each new artist, by its key, and one for a new album. -/
structure Draws where
  artist : Text → Nat
  album : Nat

/-! ### Finding or creating -/

/-- The key of an artist's name; `None` is the unknown artist. -/
def creditKey (u : Unicode) (name : Option Text) : Text := (name.map (nameKey u)).getD []

def findOrCreateArtist (u : Unicode) (draw : Text → Nat) (artists : List Artist)
    (name : Option Text) : Option (List Artist × Nat) :=
  let key := creditKey u name
  match artists.find? fun artist => artist.nameKey = key with
  | some artist => some (artists, artist.id)
  | none =>
    if draw key ∈ artists.map Artist.id then none
    else some (artists ++ [⟨draw key, key⟩], draw key)

def findOrCreateAlbum (u : Unicode) (draw : Nat) (albums : List Album) (title : Option Text)
    (artistsKey : Text) : Option (List Album × Nat) :=
  let titleKey := (title.map (nameKey u)).getD []
  match albums.find? fun album => album.titleKey = titleKey ∧ album.artistsKey = artistsKey with
  | some album => some (albums, album.id)
  | none =>
    if draw ∈ albums.map Album.id then none
    else some (albums ++ [⟨draw, titleKey, artistsKey⟩], draw)

/-- An artist's ID and its name as tagged. -/
abbrev Credit := Nat × Option Text

def credit (u : Unicode) (draw : Text → Nat) (artists : List Artist) :
    List (Option Text) → Option (List Artist × List Credit)
  | [] => some (artists, [])
  | name :: rest => do
    let (artists, id) ← findOrCreateArtist u draw artists name
    let (artists, credits) ← credit u draw artists rest
    some (artists, (id, name) :: credits)

/-- The credited names, or the unknown artist alone when there are none. -/
def credited (names : List Text) : List (Option Text) :=
  if names = [] then [none] else names.map some

def artistIds (u : Unicode) (draw : Text → Nat) (artists : List Artist) (names : List Text) :
    Option (List Artist × List Credit) :=
  credit u draw artists (credited names)

/-- `retain`, which keeps the first credit of each artist. -/
def listedOnce (listed : List Nat) : List Credit → List Credit
  | [] => []
  | (id, name) :: rest =>
    if id ∈ listed then listedOnce listed rest
    else (id, name) :: listedOnce (listed ++ [id]) rest

/-- A track's credits, and the album they place it on. -/
structure Credits where
  artists : List Credit
  albumArtists : List Credit
  albumId : Nat

/-- Finds or makes the artists a file credits, then its album artists, each once, then the album they
place it on. -/
def credits (draws : Draws) (s : Store u) (tags : TagSet u) : Option (Store u × Credits) := do
  let (artists, trackArtists) ← artistIds u draws.artist s.artists tags.artists
  let (artists, albumArtists) ← artistIds u draws.artist artists tags.albumArtistsOrPrimary
  let albumArtists := listedOnce [] albumArtists
  let key := artistsKey u (albumArtists.map fun c => c.2.getD [])
  let (albums, albumId) ← findOrCreateAlbum u draws.album s.albums tags.album key
  some ({ s with artists, albums }, ⟨trackArtists, albumArtists, albumId⟩)

/-- `INSERT … ON CONFLICT (id) DO UPDATE` -/
def putTrack (tracks : List (Track u)) (track : Track u) : List (Track u) :=
  tracks.filter (fun t => t.id ≠ track.id) ++ [track]

def upsertTrack (draws : Draws) (s : Store u) (id : Nat) (tags : TagSet u) : Option (Store u) := do
  let (s, c) ← credits draws s tags
  some { s with
    tracks := putTrack s.tracks
      { id, albumId := c.albumId, artistIds := c.artists.map Prod.fst,
        albumArtistIds := c.albumArtists.map Prod.fst, tags } }

/-! ### Runs -/

inductive Event (u : Unicode) where
  | upsert (draws : Draws) (id : Nat) (tags : TagSet u)
  | purge (id : Nat)
  | dropAlbum (id : Nat)
  | dropArtist (id : Nat)

/-- A write. An album goes with its last track, and an artist with the last track that credits it. -/
def Store.step (s : Store u) : Event u → Option (Store u)
  | .upsert draws id tags => upsertTrack draws s id tags
  | .purge id => some { s with tracks := s.tracks.filter fun t => t.id ≠ id }
  | .dropAlbum id =>
    if s.tracks.any fun t => t.albumId = id then none
    else some { s with albums := s.albums.filter fun a => a.id ≠ id }
  | .dropArtist id =>
    if s.tracks.any fun t => id ∈ t.artistIds ∨ id ∈ t.albumArtistIds then none
    else some { s with artists := s.artists.filter fun a => a.id ≠ id }

/-- A store that writes have made of an empty one. -/
inductive Reachable : Store u → Prop where
  | empty : Reachable ⟨[], [], []⟩
  | step {s s' : Store u} (e : Event u) : Reachable s → s.step e = some s' → Reachable s'

end JewelCase.Catalog
