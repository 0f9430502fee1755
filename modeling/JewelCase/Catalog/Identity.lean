import Mathlib.Algebra.GroupWithZero.Nat
import JewelCase.Catalog.Store

/-!
# Album identity

In every store two tracks are on one album just when their title keys and their artists' keys are
equal, and list the same artists just when their album artists have the same name keys. The artists'
key tells two sets of name keys apart unless they regroup at a semicolon that folding brought back, so
it tells those apart that hold none.
-/
namespace JewelCase.Catalog

set_option autoImplicit false

variable {u : Unicode}

/-! ### Rows found by ID and by key -/

/-- No two rows share an ID or a key. -/
structure Table {α β : Type} (id : α → Nat) (key : α → β) (rows : List α) : Prop where
  ids : (rows.map id).Nodup
  keys : (rows.map key).Nodup

section Table

variable {α β : Type} {id : α → Nat} {key : α → β} {rows : List α} {a b : α}

theorem Table.empty : Table id key [] := ⟨List.nodup_nil, List.nodup_nil⟩

theorem Table.of_id (h : Table id key rows) (ha : a ∈ rows) (hb : b ∈ rows)
    (he : id a = id b) : a = b := List.inj_on_of_nodup_map h.ids ha hb he

theorem Table.of_key (h : Table id key rows) (ha : a ∈ rows) (hb : b ∈ rows)
    (he : key a = key b) : a = b := List.inj_on_of_nodup_map h.keys ha hb he

theorem Table.filter (h : Table id key rows) (p : α → Bool) : Table id key (rows.filter p) :=
  ⟨h.ids.sublist (List.filter_sublist.map id), h.keys.sublist (List.filter_sublist.map key)⟩

theorem Table.add (h : Table id key rows) (hid : id a ∉ rows.map id) (hkey : key a ∉ rows.map key) :
    Table id key (rows ++ [a]) := by
  constructor
  · rw [List.map_append, List.nodup_append]
    refine ⟨h.ids, List.nodup_singleton _, fun i hi j hj => ?_⟩
    rw [List.mem_singleton.mp hj]
    rintro rfl
    exact hid hi
  · rw [List.map_append, List.nodup_append]
    refine ⟨h.keys, List.nodup_singleton _, fun i hi j hj => ?_⟩
    rw [List.mem_singleton.mp hj]
    rintro rfl
    exact hkey hi

end Table

abbrev ArtistTable (artists : List Artist) : Prop := Table Artist.id Artist.nameKey artists

abbrev AlbumTable (albums : List Album) : Prop :=
  Table Album.id (fun album => (album.titleKey, album.artistsKey)) albums

/-! ### Credits -/

variable {draw : Text → Nat} {artists artists' : List Artist}

theorem findOrCreateArtist_spec (h : ArtistTable artists) {name : Option Text} {id : Nat}
    (hf : findOrCreateArtist u draw artists name = some (artists', id)) :
    ArtistTable artists' ∧ artists ⊆ artists' ∧ ⟨id, creditKey u name⟩ ∈ artists' := by
  unfold findOrCreateArtist at hf
  simp only at hf
  split at hf
  · rename_i artist hfind
    simp only [Option.some.injEq, Prod.mk.injEq] at hf
    obtain ⟨rfl, rfl⟩ := hf
    have hkey : artist.nameKey = creditKey u name := by simpa using List.find?_some hfind
    refine ⟨h, List.Subset.refl _, ?_⟩
    rw [← hkey]
    exact List.mem_of_find?_eq_some hfind
  · rename_i hfind
    split at hf
    · exact absurd hf (by simp)
    · rename_i hfresh
      simp only [Option.some.injEq, Prod.mk.injEq] at hf
      obtain ⟨rfl, rfl⟩ := hf
      have hkey : creditKey u name ∉ artists.map Artist.nameKey := by
        intro hmem
        obtain ⟨artist, hartist, he⟩ := List.mem_map.mp hmem
        simpa [he] using List.find?_eq_none.mp hfind artist hartist
      exact ⟨h.add hfresh hkey, List.subset_append_left _ _,
        List.mem_append_right _ (List.mem_singleton_self _)⟩

theorem credit_spec (h : ArtistTable artists) {names : List (Option Text)} {credits : List Credit}
    (hf : credit u draw artists names = some (artists', credits)) :
    ArtistTable artists' ∧ artists ⊆ artists' ∧ credits.map Prod.snd = names ∧
      ∀ c ∈ credits, ⟨c.1, creditKey u c.2⟩ ∈ artists' := by
  induction names generalizing artists credits with
  | nil =>
    simp only [credit, Option.some.injEq, Prod.mk.injEq] at hf
    obtain ⟨rfl, rfl⟩ := hf
    exact ⟨h, List.Subset.refl _, rfl, fun c hc => absurd hc List.not_mem_nil⟩
  | cons name rest ih =>
    simp only [credit, Option.bind_eq_bind, Option.bind_eq_some_iff, Prod.exists,
      Option.some.injEq, Prod.mk.injEq] at hf
    obtain ⟨artists₁, id, hone, artists₂, credits₂, hrest, rfl, rfl⟩ := hf
    obtain ⟨htable, hsub, hmem⟩ := findOrCreateArtist_spec h hone
    obtain ⟨htable', hsub', hnames, hall⟩ := ih htable hrest
    refine ⟨htable', List.Subset.trans hsub hsub', by rw [List.map_cons, hnames], fun c hc => ?_⟩
    rcases List.mem_cons.mp hc with rfl | hc
    · exact hsub' hmem
    · exact hall c hc

theorem mem_listedOnce {listed : List Nat} {credits : List Credit} {c : Credit}
    (h : c ∈ listedOnce listed credits) : c ∈ credits := by
  fun_induction listedOnce listed credits with
  | case1 => exact h
  | case2 listed id name rest hid ih => exact List.mem_cons_of_mem _ (ih h)
  | case3 listed id name rest hid ih =>
    rcases List.mem_cons.mp h with rfl | h
    · exact List.mem_cons_self
    · exact List.mem_cons_of_mem _ (ih h)

theorem listedOnce_covers (listed : List Nat) {credits : List Credit} {c : Credit}
    (h : c ∈ credits) : c.1 ∈ listed ∨ ∃ c' ∈ listedOnce listed credits, c'.1 = c.1 := by
  fun_induction listedOnce listed credits with
  | case1 => exact absurd h List.not_mem_nil
  | case2 listed id name rest hid ih =>
    rcases List.mem_cons.mp h with rfl | h
    · exact .inl hid
    · exact ih h
  | case3 listed id name rest hid ih =>
    rcases List.mem_cons.mp h with rfl | h
    · exact .inr ⟨_, List.mem_cons_self, rfl⟩
    · rcases ih h with hmem | ⟨c', hc', he⟩
      · rcases List.mem_append.mp hmem with hmem | hmem
        · exact .inl hmem
        · exact .inr ⟨_, List.mem_cons_self, (List.mem_singleton.mp hmem).symm⟩
      · exact .inr ⟨c', List.mem_cons_of_mem _ hc', he⟩

theorem nameKey_getD (name : Option Text) : nameKey u (name.getD []) = creditKey u name := by
  cases name with
  | none => exact nameKey_nil
  | some name => rfl

theorem artistsKey_unknown : artistsKey u [[]] = artistsKey u [] := by
  change List.intercalate [';'] [nameKey u []] = []
  rw [nameKey_nil]
  rfl

/-- The unknown artist's key stands for no names. -/
theorem artistsKey_credited (names : List Text) :
    artistsKey u ((credited names).map fun name => name.getD []) = artistsKey u names := by
  unfold credited
  split
  · rename_i hnil
    rw [hnil]
    exact artistsKey_unknown
  · rw [List.map_map]
    exact congrArg (artistsKey u) (List.map_id names)

/-- Listing each artist once keeps the set of keys. -/
theorem listedOnce_keys {credits : List Credit} (h : ArtistTable artists)
    (hall : ∀ c ∈ credits, ⟨c.1, creditKey u c.2⟩ ∈ artists) :
    SameKeys u ((listedOnce [] credits).map fun c => c.2.getD [])
      ((credits.map Prod.snd).map fun name => name.getD []) := by
  intro key
  simp only [List.map_map, List.mem_map, Function.comp_apply, nameKey_getD]
  constructor
  · rintro ⟨c, hc, rfl⟩
    exact ⟨c, mem_listedOnce hc, rfl⟩
  · rintro ⟨c, hc, rfl⟩
    obtain ⟨c', hc', hid⟩ := (listedOnce_covers [] hc).resolve_left List.not_mem_nil
    have hrow := h.of_id (hall c' (mem_listedOnce hc')) (hall c hc) hid
    exact ⟨c', hc', congrArg Artist.nameKey hrow⟩

theorem findOrCreateAlbum_spec {draw : Nat} {albums albums' : List Album} (h : AlbumTable albums)
    {title : Option Text} {key : Text} {id : Nat}
    (hf : findOrCreateAlbum u draw albums title key = some (albums', id)) :
    AlbumTable albums' ∧ albums ⊆ albums' ∧ ⟨id, creditKey u title, key⟩ ∈ albums' := by
  unfold findOrCreateAlbum at hf
  simp only at hf
  split at hf
  · rename_i album hfind
    simp only [Option.some.injEq, Prod.mk.injEq] at hf
    obtain ⟨rfl, rfl⟩ := hf
    have hkey : album.titleKey = creditKey u title ∧ album.artistsKey = key := by
      simpa [creditKey] using List.find?_some hfind
    refine ⟨h, List.Subset.refl _, ?_⟩
    rw [← hkey.1, ← hkey.2]
    exact List.mem_of_find?_eq_some hfind
  · rename_i hfind
    split at hf
    · exact absurd hf (by simp)
    · rename_i hfresh
      simp only [Option.some.injEq, Prod.mk.injEq] at hf
      obtain ⟨rfl, rfl⟩ := hf
      have hkey : (creditKey u title, key) ∉
          albums.map fun album => (album.titleKey, album.artistsKey) := by
        intro hmem
        obtain ⟨album, halbum, he⟩ := List.mem_map.mp hmem
        simp only [Prod.mk.injEq] at he
        simpa [creditKey, he] using List.find?_eq_none.mp hfind album halbum
      exact ⟨h.add hfresh hkey, List.subset_append_left _ _,
        List.mem_append_right _ (List.mem_singleton_self _)⟩

/-! ### The invariant -/

abbrev Track.names (t : Track u) : List Text := t.tags.albumArtistsOrPrimary

def Track.titleKey (t : Track u) : Text := creditKey u t.tags.album

/-- The keys of the album artists a track lists; the unknown artist's when it lists none. -/
def Track.listedKeys (t : Track u) : List Text := (credited t.names).map (creditKey u)

/-- A track points at the rows its tags name. -/
structure Track.Placed (artists : List Artist) (albums : List Album) (t : Track u) : Prop where
  album : ⟨t.albumId, t.titleKey, artistsKey u t.names⟩ ∈ albums
  rows : ∀ key ∈ t.listedKeys, ∃ artist ∈ artists, artist.nameKey = key
  lists : ∀ id, id ∈ t.albumArtistIds ↔
    ∃ artist ∈ artists, artist.id = id ∧ artist.nameKey ∈ t.listedKeys

structure Store.Sound (s : Store u) : Prop where
  artists : ArtistTable s.artists
  albums : AlbumTable s.albums
  tracks : ∀ t ∈ s.tracks, t.Placed s.artists s.albums

variable {albums albums' : List Album} {t : Track u}

/-- More rows leave a track where it is. -/
theorem Track.Placed.grow (h : t.Placed artists albums) (htable : ArtistTable artists')
    (hartists : artists ⊆ artists') (halbums : albums ⊆ albums') :
    t.Placed artists' albums' where
  album := halbums h.album
  rows := by
    intro key hkey
    obtain ⟨artist, hmem, he⟩ := h.rows key hkey
    exact ⟨artist, hartists hmem, he⟩
  lists := by
    intro id
    rw [h.lists]
    constructor
    · rintro ⟨artist, hmem, hid, hkey⟩
      exact ⟨artist, hartists hmem, hid, hkey⟩
    · rintro ⟨artist, hmem, hid, hkey⟩
      obtain ⟨old, hold, he⟩ := h.rows _ hkey
      obtain rfl := htable.of_key (hartists hold) hmem he
      exact ⟨old, hold, hid, hkey⟩

/-- What a file's credits are. -/
theorem credits_spec {draws : Draws} {s s' : Store u} {tags : TagSet u} {c : Credits}
    (h : s.Sound) (hf : credits draws s tags = some (s', c)) :
    ArtistTable s'.artists ∧ AlbumTable s'.albums ∧ s.artists ⊆ s'.artists ∧
      s.albums ⊆ s'.albums ∧ s'.tracks = s.tracks ∧
      ∀ id, Track.Placed s'.artists s'.albums
        ⟨id, c.albumId, c.artists.map Prod.fst, c.albumArtists.map Prod.fst, tags⟩ := by
  simp only [credits, artistIds, Option.bind_eq_bind, Option.bind_eq_some_iff, Prod.exists,
    Option.some.injEq, Prod.mk.injEq] at hf
  obtain ⟨artists₁, credits₁, hfirst, artists₂, credits₂, hsecond, albums₁, albumId, halbum, rfl,
    rfl⟩ := hf
  obtain ⟨htable₁, hsub₁, -, -⟩ := credit_spec h.artists hfirst
  obtain ⟨htable₂, hsub₂, hnames, hall⟩ := credit_spec htable₁ hsecond
  obtain ⟨halbums, hsub, hrow⟩ := findOrCreateAlbum_spec h.albums halbum
  refine ⟨htable₂, halbums, List.Subset.trans hsub₁ hsub₂, hsub, rfl, fun id => ⟨?_, ?_, ?_⟩⟩
  · have hkey := artistsKey_congr (listedOnce_keys htable₂ hall)
    rw [hnames, artistsKey_credited] at hkey
    rw [hkey] at hrow
    exact hrow
  · intro key hkey
    obtain ⟨name, hname, rfl⟩ := List.mem_map.mp hkey
    rw [Track.names, ← hnames] at hname
    obtain ⟨credit, hcredit, rfl⟩ := List.mem_map.mp hname
    exact ⟨_, hall credit hcredit, rfl⟩
  · intro id
    constructor
    · intro hid
      obtain ⟨credit, hcredit, rfl⟩ := List.mem_map.mp hid
      have hmem := mem_listedOnce hcredit
      refine ⟨_, hall credit hmem, rfl, List.mem_map.mpr ⟨credit.2, ?_, rfl⟩⟩
      rw [Track.names, ← hnames]
      exact List.mem_map_of_mem hmem
    · rintro ⟨artist, hartist, rfl, hkey⟩
      obtain ⟨name, hname, he⟩ := List.mem_map.mp hkey
      rw [Track.names, ← hnames] at hname
      obtain ⟨credit, hcredit, rfl⟩ := List.mem_map.mp hname
      obtain rfl := htable₂.of_key (hall credit hcredit) hartist he
      obtain ⟨credit', hcredit', hid⟩ :=
        (listedOnce_covers [] hcredit).resolve_left List.not_mem_nil
      exact List.mem_map.mpr ⟨credit', hcredit', hid⟩

/-! ### Runs -/

/-- **A write keeps every track where its tags place it.** -/
theorem Store.Sound.step {s s' : Store u} (h : s.Sound) {e : Event u} (hs : s.step e = some s') :
    s'.Sound := by
  cases e with
  | upsert draws id tags =>
    simp only [Store.step, upsertTrack, Option.bind_eq_bind, Option.bind_eq_some_iff, Prod.exists,
      Option.some.injEq] at hs
    obtain ⟨s₁, c, hcredits, rfl⟩ := hs
    obtain ⟨hartists, halbums, hsub, hsub', htracks, hplaced⟩ := credits_spec h hcredits
    refine ⟨hartists, halbums, fun t ht => ?_⟩
    rcases List.mem_append.mp ht with ht | ht
    · have hold : t ∈ s.tracks := htracks ▸ List.mem_of_mem_filter ht
      exact (h.tracks t hold).grow hartists hsub hsub'
    · rw [List.mem_singleton.mp ht]
      exact hplaced id
  | purge id =>
    obtain rfl := Option.some.inj hs
    exact ⟨h.artists, h.albums, fun t ht => h.tracks t (List.mem_of_mem_filter ht)⟩
  | dropAlbum id =>
    simp only [Store.step] at hs
    split at hs
    · exact absurd hs (by simp)
    · rename_i hnone
      obtain rfl := Option.some.inj hs
      refine ⟨h.artists, h.albums.filter _, fun t ht => ?_⟩
      have hplaced := h.tracks t ht
      refine ⟨List.mem_filter.mpr ⟨hplaced.album, ?_⟩, hplaced.rows, hplaced.lists⟩
      rw [decide_eq_true_eq]
      intro he
      exact hnone (List.any_eq_true.mpr ⟨t, ht, decide_eq_true he⟩)
  | dropArtist id =>
    simp only [Store.step] at hs
    split at hs
    · exact absurd hs (by simp)
    · rename_i hnone
      obtain rfl := Option.some.inj hs
      refine ⟨h.artists.filter _, h.albums, fun t ht => ?_⟩
      have hplaced := h.tracks t ht
      have hkeep : ∀ artist ∈ s.artists, artist.nameKey ∈ t.listedKeys →
          artist ∈ s.artists.filter fun a => a.id ≠ id := by
        intro artist hmem hkey
        refine List.mem_filter.mpr ⟨hmem, ?_⟩
        rw [decide_eq_true_eq]
        intro he
        have hlisted := (hplaced.lists id).mpr ⟨artist, hmem, he, hkey⟩
        exact hnone (List.any_eq_true.mpr ⟨t, ht, decide_eq_true (.inr hlisted)⟩)
      refine ⟨hplaced.album, ?_, ?_⟩
      · intro key hkey
        obtain ⟨artist, hmem, rfl⟩ := hplaced.rows key hkey
        exact ⟨artist, hkeep artist hmem hkey, rfl⟩
      · intro id'
        rw [hplaced.lists]
        constructor
        · rintro ⟨artist, hmem, hid, hkey⟩
          exact ⟨artist, hkeep artist hmem hkey, hid, hkey⟩
        · rintro ⟨artist, hmem, hid, hkey⟩
          exact ⟨artist, List.mem_of_mem_filter hmem, hid, hkey⟩

theorem Reachable.sound {s : Store u} (h : Reachable s) : s.Sound := by
  induction h with
  | empty =>
    exact ⟨Table.empty, Table.empty, fun t ht => absurd ht List.not_mem_nil⟩
  | step e _ hs ih => exact ih.step hs

/-! ### Identity -/

/-- An album artist has a key. -/
theorem names_full (tags : TagSet u) {name : Text} (h : name ∈ tags.albumArtistsOrPrimary) :
    nameKey u name ≠ [] := by
  obtain ⟨raws, hartists⟩ := tags.artists_split
  obtain ⟨raws', halbumArtists⟩ := tags.albumArtists_split
  have hfirst : ∀ compilation : Bool,
      name ∈ (if compilation then [] else tags.artists.take 1) → name ∈ tags.artists := by
    intro compilation hmem
    cases compilation with
    | true => exact absurd hmem List.not_mem_nil
    | false => exact List.mem_of_mem_take hmem
  have hmem : name ∈ tags.albumArtists ∨ name ∈ tags.artists := by
    unfold TagSet.albumArtistsOrPrimary at h
    by_cases hne : tags.albumArtists ≠ []
    · rw [if_pos hne] at h
      exact .inl h
    · rw [if_neg hne] at h
      exact .inr (hfirst _ h)
  rcases hmem with hmem | hmem
  · exact splitAll_full (halbumArtists ▸ hmem)
  · exact splitAll_full (hartists ▸ hmem)

/-- The keys two tracks list are the same when their names' are: the unknown artist's is no
name's. -/
theorem listedKeys_iff (t t' : Track u) :
    (∀ key, key ∈ t.listedKeys ↔ key ∈ t'.listedKeys) ↔ SameKeys u t.names t'.names := by
  have hlisted : ∀ t : Track u, t.listedKeys =
      if t.names = [] then [[]] else t.names.map (nameKey u) := by
    intro t
    unfold Track.listedKeys credited
    split
    · rfl
    · rw [List.map_map]
      rfl
  have hempty : ∀ t : Track u, t.names ≠ [] → [] ∉ t.names.map (nameKey u) := by
    intro t _ hmem
    obtain ⟨name, hname, he⟩ := List.mem_map.mp hmem
    exact names_full t.tags hname he
  have hsome : ∀ t : Track u, t.names ≠ [] → ∃ key, key ∈ t.names.map (nameKey u) := by
    intro t hne
    obtain ⟨name, hname⟩ := List.exists_mem_of_ne_nil _ hne
    exact ⟨_, List.mem_map_of_mem hname⟩
  unfold SameKeys
  rw [hlisted t, hlisted t']
  by_cases hnil : t.names = [] <;> by_cases hnil' : t'.names = []
  · simp [hnil, hnil']
  · rw [if_pos hnil, if_neg hnil', hnil]
    refine iff_of_false (fun h => ?_) fun h => ?_
    · exact hempty t' hnil' ((h []).mp (List.mem_singleton_self _))
    · obtain ⟨key, hkey⟩ := hsome t' hnil'
      exact List.not_mem_nil ((h key).mpr hkey)
  · rw [if_neg hnil, if_pos hnil', hnil']
    refine iff_of_false (fun h => ?_) fun h => ?_
    · exact hempty t hnil ((h []).mpr (List.mem_singleton_self _))
    · obtain ⟨key, hkey⟩ := hsome t hnil
      exact List.not_mem_nil ((h key).mp hkey)
  · rw [if_neg hnil, if_neg hnil']

variable {s : Store u} {t' : Track u}

/-- **Tracks are on one album just when their keys are equal.** -/
theorem Store.Sound.album_iff (h : s.Sound) (ht : t ∈ s.tracks) (ht' : t' ∈ s.tracks) :
    t.albumId = t'.albumId ↔
      t.titleKey = t'.titleKey ∧ artistsKey u t.names = artistsKey u t'.names := by
  have hrow := (h.tracks t ht).album
  have hrow' := (h.tracks t' ht').album
  constructor
  · intro he
    have heq := h.albums.of_id hrow hrow' he
    exact ⟨congrArg Album.titleKey heq, congrArg Album.artistsKey heq⟩
  · rintro ⟨htitle, hkey⟩
    exact congrArg Album.id (h.albums.of_key hrow hrow' (Prod.ext htitle hkey))

/-- **Tracks list the same artists just when their names have the same keys.** -/
theorem Store.Sound.lists_iff (h : s.Sound) (ht : t ∈ s.tracks) (ht' : t' ∈ s.tracks) :
    (∀ id, id ∈ t.albumArtistIds ↔ id ∈ t'.albumArtistIds) ↔ SameKeys u t.names t'.names := by
  have hplaced := h.tracks t ht
  have hplaced' := h.tracks t' ht'
  rw [← listedKeys_iff]
  have hkey : ∀ {t : Track u}, t.Placed s.artists s.albums → ∀ {key : Text}, key ∈ t.listedKeys →
      ∃ artist ∈ s.artists, artist.nameKey = key ∧ artist.id ∈ t.albumArtistIds := by
    intro t hplaced key hkey
    obtain ⟨artist, hmem, rfl⟩ := hplaced.rows key hkey
    exact ⟨artist, hmem, rfl, (hplaced.lists _).mpr ⟨artist, hmem, rfl, hkey⟩⟩
  have hback : ∀ {t : Track u}, t.Placed s.artists s.albums → ∀ {artist : Artist},
      artist ∈ s.artists → artist.id ∈ t.albumArtistIds → artist.nameKey ∈ t.listedKeys := by
    intro t hplaced artist hmem hid
    obtain ⟨row, hrow, he, hkey⟩ := (hplaced.lists _).mp hid
    obtain rfl := h.artists.of_id hrow hmem he
    exact hkey
  constructor
  · intro hsame key
    constructor
    · intro hmem
      obtain ⟨artist, hartist, rfl, hid⟩ := hkey hplaced hmem
      exact hback hplaced' hartist ((hsame _).mp hid)
    · intro hmem
      obtain ⟨artist, hartist, rfl, hid⟩ := hkey hplaced' hmem
      exact hback hplaced hartist ((hsame _).mpr hid)
  · intro hsame id
    rw [hplaced.lists, hplaced'.lists]
    simp only [hsame]

/-- **Album identity is title and set of album artists, but for names that regroup.** For two lists
of split names, and for two tracks of any store that writes have made, with one title key, the
artists' keys tell the sets of name keys apart, the tracks are on one album just when both halves
agree, and the tracks of an album list the same artists, just when the names do not regroup. -/
theorem identity_iff (u : Unicode) :
    (∀ raws raws' : List Text,
      ((artistsKey u (splitAll u raws) = artistsKey u (splitAll u raws') ↔
          SameKeys u (splitAll u raws) (splitAll u raws')) ↔
        ¬ Regroup u (splitAll u raws) (splitAll u raws'))) ∧
    ∀ s : Store u, Reachable s → ∀ t ∈ s.tracks, ∀ t' ∈ s.tracks,
      ((t.albumId = t'.albumId ↔ t.titleKey = t'.titleKey ∧ SameKeys u t.names t'.names) ↔
        (t.titleKey = t'.titleKey → ¬ Regroup u t.names t'.names)) ∧
      ((t.albumId = t'.albumId → ∀ id, id ∈ t.albumArtistIds ↔ id ∈ t'.albumArtistIds) ↔
        (t.titleKey = t'.titleKey → ¬ Regroup u t.names t'.names)) := by
  constructor
  · intro raws raws'
    rw [artistsKey_eq_or (fun name => splitAll_full) (fun name => splitAll_full)]
    constructor
    · rintro h ⟨hne, hpieces⟩
      exact hne (h.mp (.inr ⟨hne, hpieces⟩))
    · intro h
      exact or_iff_left h
  · intro s hreach t ht t' ht'
    have hsound := hreach.sound
    have hone : t.albumId = t'.albumId ↔ t.titleKey = t'.titleKey ∧
        (SameKeys u t.names t'.names ∨ Regroup u t.names t'.names) := by
      rw [hsound.album_iff ht ht', artistsKey_eq_or (fun name => names_full t.tags)
        (fun name => names_full t'.tags)]
    rw [hsound.lists_iff ht ht', hone]
    constructor
    · constructor
      · rintro h htitle ⟨hne, hpieces⟩
        exact hne (h.mp ⟨htitle, .inr ⟨hne, hpieces⟩⟩).2
      · intro h
        exact and_congr_right fun htitle => or_iff_left (h htitle)
    · constructor
      · rintro h htitle ⟨hne, hpieces⟩
        exact hne (h ⟨htitle, .inr ⟨hne, hpieces⟩⟩)
      · rintro h ⟨htitle, hsame | hregroup⟩
        · exact hsame
        · exact absurd hregroup (h htitle)

/-- Names whose keys hold no semicolon, as `split_all` means to leave them. -/
def Clean (u : Unicode) (names : List Text) : Prop := ∀ name ∈ names, ';' ∉ nameKey u name

/-- **Album identity is title and set of album artists, for names whose keys hold no semicolon.** For two
lists of split names, and for two tracks of any store that writes have made. -/
theorem identity_of_clean (u : Unicode) :
    (∀ raws raws' : List Text, Clean u (splitAll u raws) → Clean u (splitAll u raws') →
      (artistsKey u (splitAll u raws) = artistsKey u (splitAll u raws') ↔
        SameKeys u (splitAll u raws) (splitAll u raws'))) ∧
    ∀ s : Store u, Reachable s → ∀ t ∈ s.tracks, ∀ t' ∈ s.tracks, Clean u t.names →
      Clean u t'.names →
      (t.albumId = t'.albumId ↔ t.titleKey = t'.titleKey ∧ SameKeys u t.names t'.names) ∧
      (t.albumId = t'.albumId → ∀ id, id ∈ t.albumArtistIds ↔ id ∈ t'.albumArtistIds) := by
  obtain ⟨hkeys, hstores⟩ := identity_iff u
  constructor
  · intro raws raws' hclean hclean'
    exact (hkeys raws raws').mpr (clean_apart hclean hclean')
  · intro s hreach t ht t' ht' hclean hclean'
    obtain ⟨halbum, hlists⟩ := hstores s hreach t ht t' ht'
    have hapart := clean_apart hclean hclean'
    exact ⟨halbum.mpr fun _ => hapart, hlists.mpr fun _ => hapart⟩

/-! ### A Greek question mark -/

/-- Unicode as far as the names below need it: ASCII, and the Greek question mark, whose NFC is a
semicolon. -/
def greek : Unicode where
  lower c := [c.toLower]
  nfc text := text.map fun c => if c = '\u037E' then ';' else c
  isAlphanumeric := Char.isAlphanum
  lower_full c := List.cons_ne_nil _ _
  nfc_empty := rfl
  nfc_full text h := by simpa using h

/-- Tags that name album artists alone. -/
def artistTags (raw : Text) : TagSet greek where
  artists := splitAll greek []
  album := none
  albumArtists := splitAll greek [raw]
  compilation := false
  releaseType := none
  artists_split := ⟨[], rfl⟩
  albumArtists_split := ⟨[raw], rfl⟩

/-- Two files are scanned: one by the artist `a\u037Eb`, the other by the artists `a` and `b`. -/
def greekScan : Option (Store greek) := do
  let draws : Draws := ⟨fun key => (key.map Char.toNat).sum, 1⟩
  let s ← Store.step ⟨[], [], []⟩ (.upsert draws 1 (artistTags "a\u037Eb".toList))
  s.step (.upsert draws 2 (artistTags "a;b".toList))

/-- Two artists have one key, in whichever order their files name them. -/
theorem identity_of_clean_order :
    artistsKey greek (splitAll greek ["b".toList, "a".toList]) =
      artistsKey greek (splitAll greek ["A;B".toList]) := by
  have hclean : Clean greek (splitAll greek ["b".toList, "a".toList]) := by
    unfold Clean
    decide +kernel
  have hclean' : Clean greek (splitAll greek ["A;B".toList]) := by
    unfold Clean
    decide +kernel
  refine ((identity_of_clean greek).1 _ _ hclean hclean').mpr fun key => ?_
  have hnames : (splitAll greek ["b".toList, "a".toList]).map (nameKey greek) =
      [['b'], ['a']] := by decide +kernel
  have hnames' : (splitAll greek ["A;B".toList]).map (nameKey greek) = [['a'], ['b']] := by
    decide +kernel
  rw [hnames, hnames']
  exact List.mem_cons.trans (by simp [or_comm])

/-- One artist's album takes two artists' track, since both keys are `a;b`. -/
theorem greek_question_mark :
    (artistsKey greek (splitAll greek ["a\u037Eb".toList]) =
        artistsKey greek (splitAll greek ["a;b".toList]) ∧
      ¬ SameKeys greek (splitAll greek ["a\u037Eb".toList]) (splitAll greek ["a;b".toList])) ∧
    ∃ s : Store greek, Reachable s ∧ ∃ t ∈ s.tracks, ∃ t' ∈ s.tracks,
      t.albumId = t'.albumId ∧ ¬ SameKeys greek t.names t'.names ∧
        ¬ ∀ id, id ∈ t.albumArtistIds ↔ id ∈ t'.albumArtistIds := by
  have hkeys : ¬ SameKeys greek (splitAll greek ["a\u037Eb".toList])
      (splitAll greek ["a;b".toList]) := by
    intro h
    exact absurd ((h "a".toList).mpr (by decide +kernel)) (by decide +kernel)
  refine ⟨⟨by decide +kernel, hkeys⟩, ?_⟩
  have hrun : greekScan.map (fun s => s.tracks.map fun t => (t.albumId, t.albumArtistIds)) =
      some [(1, [254]), (1, [97, 98])] := by decide +kernel
  cases hscan : greekScan with
  | none => simp [hscan] at hrun
  | some s =>
    rw [hscan] at hrun
    have htracks : s.tracks.map (fun t => (t.albumId, t.albumArtistIds)) =
        [(1, [254]), (1, [97, 98])] := Option.some.inj hrun
    have hreach : Reachable s := by
      simp only [greekScan, Option.bind_eq_bind, Option.bind_eq_some_iff] at hscan
      obtain ⟨s₁, hfirst, hsecond⟩ := hscan
      exact (Reachable.empty.step _ hfirst).step _ hsecond
    obtain ⟨t, ht, hone⟩ : ∃ t ∈ s.tracks, (t.albumId, t.albumArtistIds) = (1, [254]) := by
      rw [← List.mem_map, htracks]
      exact List.mem_cons_self
    obtain ⟨t', ht', htwo⟩ : ∃ t ∈ s.tracks, (t.albumId, t.albumArtistIds) = (1, [97, 98]) := by
      rw [← List.mem_map, htracks]
      exact List.mem_cons_of_mem _ List.mem_cons_self
    simp only [Prod.mk.injEq] at hone htwo
    have hlists : ¬ ∀ id, id ∈ t.albumArtistIds ↔ id ∈ t'.albumArtistIds := by
      rw [hone.2, htwo.2]
      intro h
      exact absurd ((h 254).mp List.mem_cons_self) (by decide)
    refine ⟨s, hreach, t, ht, t', ht', hone.1.trans htwo.1.symm, ?_, hlists⟩
    exact fun hsame => hlists ((hreach.sound.lists_iff ht ht').mpr hsame)

end JewelCase.Catalog
