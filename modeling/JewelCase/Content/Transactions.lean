import JewelCase.Content.Names

/-!
# Transactions keep the counts

Each file, reread, mark and purge writes one track, and leaves its transaction ready to be brought up to
date. Once it is every count is what a recount gives, and so it is after any run of transactions.
-/
namespace JewelCase.Content

set_option autoImplicit false

open Library

namespace Catalog

variable {c c' c'' : Catalog} {rules : Rules} {now : Int} {track : Id} {touched more : Touched}

/-! ### One track -/

/-- What is written of one track: all is counted, what it pointed at is touched, and a change of names
raises the version. -/
structure Wrote (track : Id) (s : Catalog × Touched) (c' : Catalog) (touched : Touched) : Prop where
  consistent : c'.Consistent
  lists : Lists c' track
  writes : Writes track touched s.1 c'
  within : s.2.Within touched
  pending : Pending c' touched
  versioned : Versioned s.1 c'

/-- What a file, a reread, a mark or a purge does of a track: nothing, a write that no tag or credit of
a track shows, or one that the feed records. -/
inductive Outcome (now : Int) (s : Catalog × Touched) : Catalog × Touched → Prop where
  | same : Outcome now s s
  | unrecorded {track : Id} {c' : Catalog} {touched : Touched} (wrote : Wrote track s c' touched)
      (tracks : c'.tracks = s.1.tracks) (credits : c'.trackArtists = s.1.trackArtists)
      (tags : ∀ track tag, tag ∈ c'.tagsOf track ↔ tag ∈ s.1.tagsOf track)
      (types : ∀ k ∈ s.1.tagTypes, k ∈ c'.tagTypes) : Outcome now s (c', touched)
  | recorded {track : Id} {c' : Catalog} {touched : Touched} (op : Op)
      (wrote : Wrote track s c' touched) (there : op = .upsert ↔ track ∈ c'.tracks.map Track.id) :
      Outcome now s (c'.record .track track op now, touched)

/-- What is written of one track leaves the next one ready. -/
theorem Wrote.ready {s : Catalog × Touched} (h : Ready s) (hw : Wrote track s c' touched) :
    Ready (c', touched) :=
  ⟨⟨hw.consistent, hw.writes.listsEach h.whole.listsEach hw.lists⟩, hw.pending⟩

theorem Outcome.ready {s s' : Catalog × Touched} (h : Ready s) (ho : Outcome now s s') : Ready s' := by
  cases ho with
  | same => exact h
  | unrecorded wrote => exact wrote.ready h
  | recorded op wrote => exact (wrote.ready h).record .track _ op

/-- What is done of one track changes names under a new version only. -/
theorem Outcome.versioned {s s' : Catalog × Touched} (ho : Outcome now s s') :
    Versioned s.1 s'.1 := by
  cases ho with
  | same => exact .refl _
  | unrecorded wrote => exact wrote.versioned
  | recorded op wrote => exact wrote.versioned.trans (.of_stamp (stamp_record _ _ _))

/-- What is written apart from a track that was touched. -/
theorem Ready.wrote {s : Catalog × Touched} {before : Touched} (ha : Apart s.1 track before)
    (hsince : s.2.Within before) (hc : c'.Consistent) (hw : Writes track touched s.1 c')
    (hbefore : before.Within touched) (hl : Lists c' track) (hv : Versioned s.1 c') :
    Wrote track s c' touched :=
  ⟨hc, hl, hw, hsince.trans hbefore, (ha.writes hw hbefore).pending, hv⟩

/-! ### Files -/

theorem ListsEach.lists (h : c.ListsEach) (htracks : c'.tracks = c.tracks)
    (hlistings : c'.trackAlbumArtists = c.trackAlbumArtists) : Lists c' track := by
  intro t ht _ artist hartist
  rw [hlistings]
  exact h t (htracks ▸ ht) artist hartist

/-- A file upserted is one of the outcomes, whether or not its track was there. -/
theorem Ready.upsertTrack {s s' : Catalog × Touched} (h : Ready s) {draws : Draws} {rec : Record}
    (hs' : s.1.upsertTrack rules draws rec now s.2 = some s') : Outcome now s s' := by
  unfold Catalog.upsertTrack at hs'
  cases hroot : rec.rootId with
  | none =>
    rw [hroot] at hs'
    rw [← Option.some.inj hs']
    exact .same
  | some root =>
    rw [hroot] at hs'
    obtain ⟨⟨added, credits⟩, hadded, hrest⟩ := Option.bind_eq_some_iff.mp hs'
    clear hs'
    dsimp only at hrest
    obtain ⟨before, hbefore⟩ : ∃ before, rec.id.elim s.2 (s.1.touch s.2) = before := ⟨_, rfl⟩
    obtain ⟨reached, hreached⟩ : ∃ reached : Touched, reached = { before with
        moved := before.moved ∪ rec.id.toList.filter fun _ =>
          rec.id.bind s.1.albumOf ≠ some credits.albumId
        albums := before.albums ∪ [credits.albumId]
        artists := before.artists ∪
          (credits.artists ++ credits.albumArtists).map Prod.fst } := ⟨_, rfl⟩
    rw [hbefore, ← hreached] at hrest
    have hsince : s.2.Within before := by
      rw [← hbefore]
      cases rec.id with
      | none => exact .refl s.2
      | some id => exact within_touch s.1 s.2 id
    have hwithin : before.Within reached := by
      rw [hreached]
      exact ⟨fun _ hid => List.mem_union_iff.mpr (Or.inl hid),
        fun _ hid => List.mem_union_iff.mpr (Or.inl hid), fun _ => id⟩
    obtain ⟨hconsistent, hadds, hplaced⟩ := h.whole.consistent.credits hadded
      (fun id hid => by
        rw [hreached]
        exact List.mem_union_iff.mpr (Or.inr hid))
      (by
        rw [hreached]
        exact List.mem_union_iff.mpr (Or.inr (List.mem_singleton_self _)) :
          credits.albumId ∈ reached.albums)
    have hcredits := versioned_credits hadded
    split at hrest
    · cases hrest
    rename_i htaken
    have hapart : Apart s.1 (rec.id.getD draws.track) before := by
      rw [← hbefore]
      cases hid : rec.id with
      | some id => exact h.pending.touch h.whole.consistent.linked id
      | none =>
        refine h.pending.apart h.whole.consistent.linked fun t ht hnew => htaken ?_
        rw [hid, Bool.and_eq_true]
        refine ⟨rfl, ?_⟩
        have hfound := (Keyed.find_eq_some hconsistent.linked.tracks).mpr
          ⟨hadds.tracks.symm ▸ ht, hnew⟩
        exact Option.isSome_of_eq_some hfound
    cases hwritten : added.writeRow rec (rec.id.getD draws.track) root credits with
    | none =>
      rw [hwritten] at hrest
      rw [← Option.some.inj hrest]
      have hside := alike_sidecarRows (c := added) rec
      refine .unrecorded (Ready.wrote hapart hsince (hconsistent.alike hside)
        ((hadds.writes _).trans (writes_sidecarRows rec _ reached)) hwithin
        (h.whole.listsEach.lists hadds.tracks hadds.trackAlbumArtists)
        (hcredits.trans (.of_stamp rfl))) hadds.tracks hadds.trackArtists (fun id tag => ?_)
        fun k hk => ?_
      · rw [mem_tagsOf, mem_tagsOf]
        change (∃ r ∈ added.trackTags, _) ↔ _
        rw [hadds.trackTags]
      · change k ∈ added.tagTypes
        unfold tagTypes
        rw [hadds.tags]
        exact hk
    | some written =>
      rw [hwritten] at hrest
      obtain ⟨s'', hlinked, hdone⟩ := Option.bind_eq_some_iff.mp hrest
      obtain ⟨hrowed, hwrites, hrow, hids⟩ := hconsistent.writeRow hplaced reached hwritten
      obtain ⟨hlinks, hwrites', hwithin', hlists, htracks⟩ := hrowed.replaceLinks hrow
        (fun credit hcredit => hids ▸ hplaced.artists credit hcredit)
        (fun credit hcredit => hids ▸ hplaced.albumArtists credit hcredit) hlinked
      have hstamp := stamp_replaceLinks hlinked
      rw [← Option.some.inj hdone]
      refine .recorded .upsert (Ready.wrote hapart hsince hlinks
        ((((hadds.writes _).trans hwrites).within hwithin').trans hwrites')
        (hwithin.trans hwithin') hlists ((hcredits.trans
          (versioned_writeRow hconsistent.linked hwritten)).trans (.of_stamp hstamp))) ?_
      rw [htracks]
      exact ⟨fun _ => List.mem_map.mpr hrow.row, fun _ => rfl⟩

/-! ### Tags read again -/

theorem mem_tagLinks {id : Id} :
    id ∈ c.tagsOf track ↔ ∃ name, (id, name) ∈ c.tagLinks track := by
  unfold tagLinks tagsOf
  simp only [List.mem_insertionSort, List.mem_map]
  constructor
  · rintro ⟨r, hr, rfl⟩
    exact ⟨r.name, r, hr, rfl⟩
  · rintro ⟨name, r, hr, hlink⟩
    exact ⟨r, hr, congrArg Prod.fst hlink⟩

/-- A track that carries the tags it did needs the rows it did. -/
theorem Pending.retagged {s' : Catalog × Touched} (h : Pending c more)
    (hr : Retags track (c.deleteTrackTags track, touched) s')
    (hsame : s'.1.tagLinks track = c.tagLinks track) : Pending s'.1 more := by
  have hdeleted := relinks_deleteTrackTags (c := c) track
  have hcredits : s'.1.trackArtists = c.trackArtists := by
    have hbare := congrArg Catalog.trackArtists (bare_deleteTrackTags (c := c) track)
    exact hr.credits.trans hbare
  have hlistings : s'.1.trackAlbumArtists = c.trackAlbumArtists := by
    have hbare := congrArg Catalog.trackAlbumArtists (bare_deleteTrackTags (c := c) track)
    exact hr.listings.trans hbare
  have htags : ∀ id, id ∈ s'.1.tagsOf track ↔ id ∈ c.tagsOf track := fun id => by
    rw [mem_tagLinks, mem_tagLinks, hsame]
  refine ⟨fun id hid => ?_, fun id hid => ?_, fun id hid => ?_⟩
  · rw [hr.albums, hdeleted.albums] at hid
    refine (h.albums id hid).imp_left fun ⟨t, ht, halbum⟩ => ⟨t, ?_, halbum⟩
    rw [hr.tracks, hdeleted.tracks]
    exact ht
  · rw [hr.artists, hdeleted.artists] at hid
    refine (h.artists id hid).imp_left fun hcredited => ?_
    unfold credited at hcredited ⊢
    rw [hcredits, hlistings]
    exact hcredited
  · have hcarried : id ∈ s'.1.tagsOf track → s'.1.carried id = true := fun hmem => by
      obtain ⟨r, hr, _, htag⟩ := mem_tagsOf.mp hmem
      exact carried_iff.mpr ⟨r, hr, htag⟩
    rcases hr.tags.added id hid with hid | hmem
    · rw [hdeleted.tags] at hid
      refine (h.tags id hid).imp_left fun hlive => ?_
      obtain ⟨r, hmem, htag⟩ := carried_iff.mp hlive
      by_cases heq : r.track = track
      · exact hcarried ((htags id).mpr (mem_tagsOf.mpr ⟨r, hmem, heq, htag⟩))
      · have hother := mem_tags_others.mpr ⟨hmem, heq⟩
        rw [← hdeleted.trackTags, ← hr.trackTags] at hother
        exact carried_iff.mpr ⟨r, (mem_tags_others.mp hother).1, htag⟩
    · exact Or.inl (hcarried hmem)

theorem Ready.rereadTags {s s' : Catalog × Touched} (h : Ready s) {draws : Draws}
    {tagValues : List (Text × List Text)}
    (hs' : s.1.rereadTags rules draws track tagValues now s.2 = some s') : Outcome now s s' := by
  unfold Catalog.rereadTags at hs'
  split at hs'
  · rw [← Option.some.inj hs']
    exact .same
  rename_i hrow
  obtain ⟨⟨written, reached⟩, hwritten, hrest⟩ := Option.bind_eq_some_iff.mp hs'
  dsimp only at hrest
  have hfound : s.1.track? track ≠ none := fun hnone => hrow (by
    rw [hnone]
    rfl)
  obtain ⟨t, ht⟩ := Option.ne_none_iff_exists'.mp hfound
  have hl := h.whole.consistent.linked
  obtain ⟨hconsistent, hretags⟩ := h.whole.consistent.replaceTags ⟨t, find_mem ht⟩ hwritten
  have hstamp : Versioned s.1 written := .of_stamp (stamp_replaceTags hwritten)
  have hdeleted := relinks_deleteTrackTags (c := s.1) track
  have htracks : written.tracks = s.1.tracks := hretags.tracks.trans hdeleted.tracks
  have hlists : Lists written track := by
    have hbare := congrArg Catalog.trackAlbumArtists (bare_deleteTrackTags (c := s.1) track)
    exact h.whole.listsEach.lists htracks (hretags.listings.trans hbare)
  have hcredits : written.trackArtists = s.1.trackArtists := by
    have hbare := congrArg Catalog.trackArtists (bare_deleteTrackTags (c := s.1) track)
    exact hretags.credits.trans hbare
  split at hrest
  · rename_i hsame
    rw [← Option.some.inj hrest]
    have hpending := h.pending.retagged hretags hsame
    have htags : ∀ id, id ∈ written.tagsOf track ↔ id ∈ s.1.tagsOf track := fun id => by
      rw [mem_tagLinks, mem_tagLinks, hsame]
    have hwrites : Writes track s.2 s.1 written :=
      { hretags.writes with
        albums := .of_eq _ (by rw [hretags.albums, hdeleted.albums])
        artists := .of_eq _ (hretags.artists.trans hdeleted.artists)
        tags := by
          refine ⟨hretags.writes.tags.kept, fun id hid => Or.inl ?_⟩
          rcases hretags.tags.added id hid with hid | hcarried
          · exact hdeleted.tags ▸ hid
          · obtain ⟨r, hr, _, rfl⟩ := mem_tagsOf.mp ((htags id).mp hcarried)
            exact List.mem_map.mpr (hl.tagRows r hr) }
    refine .unrecorded ⟨hconsistent, hlists, hwrites, .refl _, hpending, hstamp⟩ htracks hcredits
      (fun other tag => ?_) (tagTypes_replaceTags hwritten)
    by_cases heq : other = track
    · rw [heq]
      exact htags tag
    · rw [mem_tagsOf, mem_tagsOf]
      constructor
      · rintro ⟨r, hr, rfl, htag⟩
        have hother := mem_tags_others.mpr ⟨hr, heq⟩
        rw [hwrites.trackTags] at hother
        exact ⟨r, (mem_tags_others.mp hother).1, rfl, htag⟩
      · rintro ⟨r, hr, rfl, htag⟩
        have hother := mem_tags_others.mpr ⟨hr, heq⟩
        rw [← hwrites.trackTags] at hother
        exact ⟨r, (mem_tags_others.mp hother).1, rfl, htag⟩
  · rw [← Option.some.inj hrest]
    have hwithin := hretags.within
    have hunion : reached.Within { s.2 with
        albums := s.2.albums ∪ reached.albums
        artists := s.2.artists ∪ reached.artists
        tags := s.2.tags ∪ reached.tags } :=
      ⟨fun _ hid => List.mem_union_iff.mpr (Or.inr hid),
        fun _ hid => List.mem_union_iff.mpr (Or.inr hid),
        fun _ hid => List.mem_union_iff.mpr (Or.inr hid)⟩
    have htouched : (s.1.touch s.2 track).Within { s.2 with
        albums := s.2.albums ∪ reached.albums
        artists := s.2.artists ∪ reached.artists
        tags := s.2.tags ∪ reached.tags } := by
      refine ⟨fun id hid => ?_, fun id hid => ?_, fun id hid => ?_⟩
      · exact List.mem_union_iff.mpr ((List.mem_union_iff.mp hid).imp_right fun hid =>
          hwithin.albums id (List.mem_union_iff.mpr (Or.inr hid)))
      · exact List.mem_union_iff.mpr ((List.mem_union_iff.mp hid).imp_right fun hid =>
          hwithin.artists id (List.mem_union_iff.mpr (Or.inr hid)))
      · exact List.mem_union_iff.mpr ((List.mem_union_iff.mp hid).imp_right fun hid =>
          hwithin.tags id (List.mem_union_iff.mpr (Or.inr hid)))
    refine .recorded .upsert (Ready.wrote (h.pending.touch hl track) (within_touch s.1 s.2 track)
      hconsistent (hretags.writes.within hunion) htouched hlists hstamp) ?_
    rw [htracks]
    exact ⟨fun _ => List.mem_map.mpr ⟨t, find_mem ht⟩, fun _ => rfl⟩

/-! ### Tracks gone, returned and purged -/

theorem albumOf_updateTrack {old new : Track} (hl : (c.updateTrack old new).Linked)
    (hold : old ∈ c.tracks) (hid : new.id = old.id) :
    (c.updateTrack old new).albumOf new.id = some new.albumId := by
  have hmem : new ∈ (c.updateTrack old new).tracks := by
    rw [tracks_updateTrack]
    exact List.mem_map.mpr ⟨old, hold, if_pos hid.symm⟩
  unfold albumOf track?
  rw [(Keyed.find_eq_some hl.tracks).mpr ⟨hmem, rfl⟩, Option.map_some]

theorem touch_updateTrack {old new : Track} (hl : c.Linked) (hl' : (c.updateTrack old new).Linked)
    (hold : old ∈ c.tracks) (hid : new.id = old.id) (halbum : new.albumId = old.albumId)
    (touched : Touched) :
    (c.updateTrack old new).touch touched new.id = c.touch touched new.id := by
  have hbefore : c.albumOf new.id = some new.albumId := by
    unfold albumOf track?
    rw [(Keyed.find_eq_some hl.tracks).mpr ⟨hold, hid.symm⟩, Option.map_some, halbum]
  have hbare := bare_updateTrack (c := c) old new
  have hcredits : (c.updateTrack old new).trackArtists = c.trackArtists := by
    have h := congrArg Catalog.trackArtists hbare
    exact h
  have hlistings : (c.updateTrack old new).trackAlbumArtists = c.trackAlbumArtists := by
    have h := congrArg Catalog.trackAlbumArtists hbare
    exact h
  have htags : (c.updateTrack old new).trackTags = c.trackTags := by
    have h := congrArg Catalog.trackTags hbare
    exact h
  unfold touch artistsOf tagsOf
  rw [albumOf_updateTrack hl' hold hid, hbefore, hcredits, hlistings, htags]

theorem Ready.markTrack {s : Catalog × Touched} (h : Ready s) (missingSince : Option Int) (id : Id) :
    Outcome now s (Catalog.markTrack missingSince now s id) := by
  unfold Catalog.markTrack
  cases hfind : s.1.track? id with
  | none => exact .same
  | some old =>
    dsimp only
    split
    · exact .same
    obtain ⟨hold, rfl⟩ := find_mem hfind
    have hl := h.whole.consistent.linked
    have hconsistent : (s.1.updateTrack old { old with missingSince }).Consistent :=
      h.whole.consistent.updateTrack hold rfl (hl.albumRows old hold) (hl.listedRows old hold)
    have htouch := touch_updateTrack hl hconsistent.linked hold rfl rfl s.2
    have hwithin : (s.1.touch s.2 old.id).Within
        ((s.1.updateTrack old { old with missingSince }).touch s.2 old.id) :=
      htouch ▸ Touched.Within.refl _
    have hlists : Lists (s.1.updateTrack old { old with missingSince }) old.id := by
      have hlistings : (s.1.updateTrack old { old with missingSince }).trackAlbumArtists =
          s.1.trackAlbumArtists := by
        have hbare := congrArg Catalog.trackAlbumArtists
          (bare_updateTrack (c := s.1) old { old with missingSince })
        exact hbare
      intro t ht hid artist hartist
      rw [tracks_updateTrack] at ht
      obtain ⟨held, hheld, rfl⟩ := List.mem_map.mp ht
      rw [hlistings]
      by_cases heq : held.id = old.id
      · rw [if_pos heq] at hartist ⊢
        exact h.whole.listsEach old hold artist hartist
      · rw [if_neg heq] at hid
        exact absurd hid heq
    refine .recorded .upsert (Ready.wrote (h.pending.touch hl old.id) (within_touch s.1 s.2 old.id)
      hconsistent (writes_updateTrack old _ rfl) hwithin hlists
      (versioned_updateTrack hl hold rfl)) ?_
    rw [tracks_updateTrack]
    exact ⟨fun _ => List.mem_map.mpr ⟨_, List.mem_map_of_mem hold, by rw [if_pos rfl]⟩, fun _ => rfl⟩

theorem Pending.within (h : Pending c touched) (hw : touched.Within more) : Pending c more :=
  ⟨fun id hid => (h.albums id hid).imp_right (hw.albums id),
    fun id hid => (h.artists id hid).imp_right (hw.artists id),
    fun id hid => (h.tags id hid).imp_right (hw.tags id)⟩

theorem delete_ne_upsert : Op.delete ≠ Op.upsert := by decide

theorem Ready.purgeTrack {s s' : Catalog × Touched} (h : Ready s) {id : Id}
    (hs' : Catalog.purgeTrack now s id = some s') : Outcome now s s' := by
  unfold Catalog.purgeTrack at hs'
  split at hs'
  · cases hs'
  rw [← Option.some.inj hs']
  have hwithin := within_touch s.1 s.2 id
  cases hfind : s.1.track? id with
  | none =>
    refine .recorded .delete ⟨h.whole.consistent, fun t ht _ => h.whole.listsEach t ht,
      .refl id _ s.1, hwithin, h.pending.within hwithin, .refl s.1⟩ ?_
    exact ⟨fun hop => absurd hop delete_ne_upsert, fun hmem => absurd hmem (find_none hfind)⟩
  | some t =>
    obtain ⟨ht, rfl⟩ := find_mem hfind
    have htracks : (s.1.deleteTrack t).tracks = Keyed.without Track.id s.1.tracks t.id := by
      have hbare := congrArg Catalog.tracks (bare_deleteTrack (c := s.1) t)
      exact hbare
    have hgone : ∀ held ∈ (s.1.deleteTrack t).tracks, held.id ≠ t.id := by
      intro held hheld
      rw [htracks] at hheld
      exact (Keyed.mem_without.mp hheld).2
    refine .recorded .delete (Ready.wrote (h.pending.touch h.whole.consistent.linked t.id) hwithin
      (h.whole.consistent.deleteTrack ht) (writes_deleteTrack t _) (.refl _)
      (fun held hheld hid => absurd hid (hgone held hheld)) (versioned_deleteTrack t)) ?_
    refine ⟨fun hop => absurd hop delete_ne_upsert, fun hmem => ?_⟩
    obtain ⟨held, hheld, hid⟩ := List.mem_map.mp hmem
    exact absurd hid (hgone held hheld)

/-! ### Transactions -/

/-- What the tracks of a transaction come to, one after another. -/
inductive Outcomes (now : Int) (s : Catalog × Touched) : Catalog × Touched → Prop where
  | refl : Outcomes now s s
  | step {s' s'' : Catalog × Touched} :
      Outcomes now s s' → Outcome now s' s'' → Outcomes now s s''

/-- The tracks of a transaction leave it ready to bring up to date what they touched. -/
theorem Outcomes.ready {s s' : Catalog × Touched} (h : Ready s) (ho : Outcomes now s s') :
    Ready s' := by
  induction ho with
  | refl => exact h
  | step _ hstep ih => exact hstep.ready ih

theorem Outcomes.versioned {s s' : Catalog × Touched} (ho : Outcomes now s s') :
    Versioned s.1 s'.1 := by
  induction ho with
  | refl => exact .refl _
  | step _ hstep ih => exact ih.trans hstep.versioned

/-- What holds between transactions: every count is what a recount gives, and each artist, album and
tag has a row exactly when a track needs it. -/
structure Settled (c : Catalog) : Prop where
  whole : c.Whole
  populated : c.Populated

theorem Settled.ready (h : c.Settled) : Ready (c, Touched.none) :=
  ⟨h.whole,
    fun id hid => Or.inl ((h.populated.albums id).mp (List.mem_map.mp hid)),
    fun id hid => Or.inl ((h.populated.artists id).mp (List.mem_map.mp hid)),
    fun id hid => Or.inl ((h.populated.tags id).mp (List.mem_map.mp hid))⟩

/-- Once what was touched is brought up to date, all is settled. -/
theorem Ready.settled {s : Catalog × Touched} (h : Ready s) {order : Order}
    (hc' : s.1.recompute rules (order.touched s.2) now = some c') : c'.Settled := by
  have hwithin : s.2.Within (order.touched s.2) :=
    ⟨fun _ hid => (order.perm _).mem_iff.mpr hid, fun _ hid => (order.perm _).mem_iff.mpr hid,
      fun _ hid => (order.perm _).mem_iff.mpr hid⟩
  obtain ⟨hwhole, hpopulated⟩ := h.whole.recompute (h.pending.within hwithin) hc'
  exact ⟨hwhole, hpopulated⟩

theorem Settled.alike (h : c.Settled) (ha : Alike c c') : c'.Settled := by
  have hholds := ha.settles.holds
  have halbums : ∀ id, id ∈ c'.albums.map Album.id ↔ id ∈ c.albums.map Album.id := fun id => by
    rw [ha.albums]
  have hartists : c'.artists.map Artist.id = c.artists.map Artist.id :=
    map_comp_eq ha.artists Prod.fst
  have htags : c'.tags.map Tag.id = c.tags.map Tag.id := map_comp_eq ha.tags Prod.fst
  refine ⟨h.whole.alike ha, fun id => ?_, fun id => ?_, fun id => ?_⟩
  · rw [← List.mem_map, halbums, List.mem_map, h.populated.albums]
    exact (hholds id).symm
  · rw [← List.mem_map, hartists, List.mem_map, h.populated.artists, ha.settles.credited]
  · rw [← List.mem_map, htags, List.mem_map, h.populated.tags, ha.settles.carried]

/-- What a batch or a purge does: the tracks it goes through, then what they touched. -/
structure Transacted (rules : Rules) (now : Int) (c c' : Catalog) : Prop where
  written : ∃ (order : Order) (s : Catalog × Touched), Outcomes now (c, Touched.none) s ∧
    s.1.recompute rules (order.touched s.2) now = some c'

/-- A batch of a scan goes through its files, then through what they touched. -/
theorem Settled.applyBatch (h : c.Settled) {order : Order} {batch : Batch}
    (hc' : c.applyBatch rules order batch now = some c') : Transacted rules now c c' := by
  unfold Catalog.applyBatch at hc'
  obtain ⟨written, hwritten, hrest⟩ := Option.bind_eq_some_iff.mp hc'
  obtain ⟨reread, hreread, hrest⟩ := Option.bind_eq_some_iff.mp hrest
  have hready := h.ready
  have hupserts := foldlM_keeps (p := Outcomes now (c, Touched.none))
    (fun hs hx => .step hs ((hs.ready hready).upsertTrack hx)) .refl hwritten
  have hrereads := foldlM_keeps (p := Outcomes now (c, Touched.none))
    (fun hs hx => .step hs ((hs.ready hready).rereadTags hx)) hupserts hreread
  have hmissing := foldl_keeps (p := Outcomes now (c, Touched.none))
    (f := markTrack (some now) now) batch.missing
    (fun hs => .step hs ((hs.ready hready).markTrack (some now) _)) hrereads
  have hreturned := foldl_keeps (p := Outcomes now (c, Touched.none))
    (f := markTrack none now) batch.returned
    (fun hs => .step hs ((hs.ready hready).markTrack none _)) hmissing
  exact ⟨order, _, hreturned, hrest⟩

theorem Settled.purge (h : c.Settled) {order : Order} {ids : List Id}
    (hc' : c.purge rules order ids now = some c') : Transacted rules now c c' := by
  unfold Catalog.purge at hc'
  obtain ⟨purged, hpurged, hrest⟩ := Option.bind_eq_some_iff.mp hc'
  have hready := h.ready
  have houtcomes := foldlM_keeps (p := Outcomes now (c, Touched.none))
    (fun hs hx => .step hs ((hs.ready hready).purgeTrack hx)) .refl hpurged
  exact ⟨order, purged, houtcomes, hrest⟩

/-- A batch or a purge leaves a library settled. -/
theorem Settled.transacted (h : c.Settled) (ht : Transacted rules now c c') : c'.Settled := by
  obtain ⟨order, s, houtcomes, hrest⟩ := ht.written
  exact (houtcomes.ready h.ready).settled hrest

theorem Settled.versioned_transacted (h : c.Settled) (ht : Transacted rules now c c') :
    Versioned c c' := by
  obtain ⟨order, s, houtcomes, hrest⟩ := ht.written
  exact houtcomes.versioned.trans ((houtcomes.ready h.ready).whole.versioned_recompute hrest)

theorem exact_empty {κ V : Type} [DecidableEq κ] [Tally.Amount V] (w : Filed → κ → V) :
    Tally.Exact ([] : Tally.Table κ V) (Tally.recount w []) where
  nodup := List.nodup_nil
  value := fun _ h => absurd h List.not_mem_nil
  mem := fun k => by
    refine ⟨fun h => absurd h List.not_mem_nil, fun h => absurd ?_ h⟩
    exact Tally.size_zero

theorem none_in {α : Type} {p : α → Prop} : ∀ x ∈ ([] : List α), p x :=
  fun _ h => absurd h List.not_mem_nil

theorem settled_empty (library : Id) : (Catalog.empty library).Settled where
  whole :=
    { consistent :=
        { tallied := ⟨exact_empty _, exact_empty _, exact_empty _, exact_empty _, exact_empty _,
            exact_empty _, exact_empty _⟩
          counted := ⟨rfl, rfl, rfl, rfl, none_in, none_in, none_in, none_in, none_in, none_in⟩
          linked :=
            { tracks := List.nodup_nil, albums := List.nodup_nil, artists := List.nodup_nil
              tags := List.nodup_nil, credits := List.nodup_nil, creditArtists := List.nodup_nil
              listings := List.nodup_nil, trackTags := List.nodup_nil
              albumArtists := List.nodup_nil, creditTracks := none_in, listingTracks := none_in
              tagTracks := none_in, creditRows := none_in, listingRows := none_in
              tagRows := none_in, albumRows := none_in, listedRows := none_in
              albumArtistRows := none_in, artistAlbums := none_in } }
      listsEach := none_in }
  populated :=
    ⟨fun id => by simp [Catalog.empty], fun id => by simp [Catalog.empty, credited],
      fun id => by simp [Catalog.empty, carried]⟩

/-- Every transaction leaves a library settled. -/
theorem Settled.write (h : c.Settled) {w : Write} (hc' : c.write rules now w = some c') :
    c'.Settled := by
  cases w with
  | batch order batch => exact h.transacted (h.applyBatch hc')
  | purge order ids => exact h.transacted (h.purge hc')
  | analysis id =>
    rw [← Option.some.inj hc']
    unfold storeAnalysis
    cases c.albumOf id with
    | none => exact h
    | some album =>
      have hrecorded := alike_record c .album album .upsert now
      exact h.alike (hrecorded.trans (alike_record _ .track id .upsert now))
  | placeholder image made =>
    obtain ⟨feed, lastSeq, he⟩ := c.storePlaceholder_eq image made now
    rw [← Option.some.inj hc', he]
    exact h.alike ⟨rfl, rfl, rfl, rfl, rfl, rfl, rfl, rfl, rfl, rfl, rfl, rfl, rfl, rfl, rfl, rfl⟩
  | createPlaylist playlist =>
    have hmade : c.createPlaylist playlist = some c' := hc'
    unfold createPlaylist at hmade
    split at hmade
    · cases hmade
    rw [← Option.some.inj hmade]
    exact h.alike ⟨rfl, rfl, rfl, rfl, rfl, rfl, rfl, rfl, rfl, rfl, rfl, rfl, rfl, rfl, rfl, rfl⟩
  | setItems playlist tracks =>
    have hset : c.setItems playlist tracks = some c' := hc'
    unfold setItems at hset
    split at hset
    · rw [← Option.some.inj hset]
      exact h.alike ⟨rfl, rfl, rfl, rfl, rfl, rfl, rfl, rfl, rfl, rfl, rfl, rfl, rfl, rfl, rfl, rfl⟩
    · cases hset
  | deletePlaylist playlist =>
    rw [← Option.some.inj hc']
    exact h.alike ⟨rfl, rfl, rfl, rfl, rfl, rfl, rfl, rfl, rfl, rfl, rfl, rfl, rfl, rfl, rfl, rfl⟩
  | elsewhere changes =>
    rw [← Option.some.inj hc']
    exact h.alike ⟨rfl, rfl, rfl, rfl, rfl, rfl, rfl, rfl, rfl, rfl, rfl, rfl, rfl, rfl, rfl, rfl⟩

/-- A library is settled after any run of transactions. -/
theorem settled_reachable (h : Reachable rules c) : c.Settled := by
  induction h with
  | made library => exact settled_empty library
  | write now w _ hc' ih => exact ih.write hc'

/-- A count row that a recount gives counts something. -/
theorem Tallied.positive (h : c.Tallied) : c.Positive where
  albumGroups := fun _ hrow => h.group_pos hrow
  albumCredits := fun _ hrow => h.albumCredits.pos Filed.onAlbum_counts hrow
  albumTags := fun _ hrow => h.albumTags.pos Filed.taggedOnAlbum_counts hrow
  artistTags := fun _ hrow => h.artistTags.pos Filed.taggedByArtist_counts hrow
  artistSpellings := fun _ hrow => h.artistSpellings.pos Filed.spells_counts hrow
  artistSortKeys := fun _ hrow => h.artistSortKeys.pos Filed.sorts_counts hrow
  tagSpellings := fun _ hrow => h.tagSpellings.pos Filed.spellsTag_counts hrow

/-- After any run of transactions, every count kept by adding and taking away is what a recount of the
tracks and links gives, and an artist, album or tag has a row just when a track needs it. -/
theorem counts_of_reachable (h : Reachable rules c) :
    c.Tallied ∧ c.Positive ∧ c.Counted ∧ c.Populated := by
  have hsettled := settled_reachable h
  have hconsistent := hsettled.whole.consistent
  exact ⟨hconsistent.tallied, hconsistent.tallied.positive, hconsistent.counted,
    hsettled.populated⟩

theorem counts_of_scanned : scanned.albumCredits = [((30, 20), 1)] ∧
    scanned.Tallied ∧ scanned.Positive ∧ scanned.Counted ∧ scanned.Populated :=
  ⟨by decide, counts_of_reachable reachable_scanned⟩

end Catalog

end JewelCase.Content

/-!
## The names version

Each transaction that changes a name raises the library's names version, and none lowers it, so one
version has one set of names.
-/
namespace JewelCase.Content

set_option autoImplicit false

open Library

namespace Catalog

variable {c c' : Catalog} {rules : Rules} {now : Int}

/-- Every transaction changes names under a new version only. -/
theorem Settled.versioned (h : c.Settled) {w : Write} (hc' : c.write rules now w = some c') :
    Versioned c c' := by
  cases w with
  | batch order batch => exact h.versioned_transacted (h.applyBatch hc')
  | purge order ids => exact h.versioned_transacted (h.purge hc')
  | analysis id =>
    rw [← Option.some.inj hc']
    unfold storeAnalysis
    cases c.albumOf id with
    | none => exact .refl c
    | some album => exact .of_stamp rfl
  | placeholder image made =>
    obtain ⟨feed, lastSeq, he⟩ := c.storePlaceholder_eq image made now
    rw [← Option.some.inj hc', he]
    exact .of_stamp rfl
  | createPlaylist playlist =>
    have hmade : c.createPlaylist playlist = some c' := hc'
    unfold createPlaylist at hmade
    split at hmade
    · cases hmade
    · rw [← Option.some.inj hmade]
      exact .of_stamp rfl
  | setItems playlist tracks =>
    have hset : c.setItems playlist tracks = some c' := hc'
    unfold setItems at hset
    split at hset
    · rw [← Option.some.inj hset]
      exact .of_stamp rfl
    · cases hset
  | deletePlaylist playlist =>
    rw [← Option.some.inj hc']
    exact .of_stamp rfl
  | elsewhere changes =>
    rw [← Option.some.inj hc']
    exact .of_stamp rfl

end Catalog

/-- A library's content after more transactions committed. -/
inductive Later (rules : Rules) : Catalog → Catalog → Prop where
  | refl (c : Catalog) : Later rules c c
  | write {c c' c'' : Catalog} (now : Int) (w : Write) :
      Later rules c c' → c'.write rules now w = some c'' → Later rules c c''

theorem Later.trans {rules : Rules} {c c' c'' : Catalog} (h : Later rules c c')
    (h' : Later rules c' c'') : Later rules c c'' := by
  induction h' with
  | refl => exact h
  | write now w _ hw ih => exact .write now w ih hw

namespace Catalog

variable {c c' : Catalog} {rules : Rules}

theorem later_reachable (h : Reachable rules c) (hl : Later rules c c') : Reachable rules c' := by
  induction hl with
  | refl => exact h
  | write now w _ hw ih => exact .write now w ih hw

/-- Over any run names change under a new version only. -/
theorem versioned_later (h : Reachable rules c) (hl : Later rules c c') : Versioned c c' := by
  induction hl with
  | refl => exact .refl _
  | write now w hlater hw ih =>
    exact ih.trans ((settled_reachable (later_reachable h hlater)).versioned hw)

/-- Over any run a library's names version never falls, and two states of one version have the same
documents to search. -/
theorem documents_of_namesVersion (h : Reachable rules c) (hl : Later rules c c') :
    c.totals.namesVersion ≤ c'.totals.namesVersion ∧
      (c'.totals.namesVersion = c.totals.namesVersion → c'.documents = c.documents) := by
  have hversioned := versioned_later h hl
  refine ⟨hversioned.le, fun heq => ?_⟩
  unfold documents
  rw [hversioned.same heq]

theorem documents_of_analysed : (scanned.storeAnalysis 10 11).totals.namesVersion = 3 ∧
    scanned.totals.namesVersion ≤ (scanned.storeAnalysis 10 11).totals.namesVersion ∧
      ((scanned.storeAnalysis 10 11).totals.namesVersion = scanned.totals.namesVersion →
        (scanned.storeAnalysis 10 11).documents = scanned.documents) :=
  ⟨by decide, documents_of_namesVersion reachable_scanned
    (.write 11 (.analysis 10) (.refl scanned) rfl)⟩

end Catalog

end JewelCase.Content
