import JewelCase.Scanner.Generations

/-!
# What a registration leaves of the tag types

A type that still has a generation it had before also has its key and its field. The ones that are
new or read from another field have the next generation, which the registration raises to.
-/
namespace JewelCase.Scanner

open JewelCase.Plugins (Manifest TagType TagTypes TagTypeRequest trimmed toAsciiUppercase)

set_option autoImplicit false

/-- The same type, but for its name. -/
def SameType (old type : TagType) : Prop :=
  old.key = type.key ∧ old.field = type.field ∧ old.since = type.since

/-- What holds of the types that plugins added. -/
structure TypesKept (types : TagTypes) : Prop where
  once : (types.added.map TagType.key).Nodup
  since : ∀ type ∈ types.added, type.since ≤ types.generation
  dotted : ∀ type ∈ types.added, '.' ∈ type.key.toList

/-- The generation does not fall, and each type that is as old as `before` was there. -/
structure Extends (before after : TagTypes) : Prop where
  generation : before.generation ≤ after.generation
  kept : ∀ type ∈ after.added, type.since ≤ before.generation →
    ∃ old ∈ before.added, SameType old type

/-! ### One type -/

theorem dotted_tagTypeKey (manifest : Manifest) (key : String) :
    '.' ∈ (manifest.tagTypeKey key).toList := by
  simp [Manifest.tagTypeKey, String.toList_append]

theorem upsert_generation (types : TagTypes) (tagType : TagType) :
    (types.upsert tagType).1.generation = types.generation := by
  unfold TagTypes.upsert
  split <;> rfl

theorem upsert_once (types : TagTypes) (tagType : TagType)
    (h : (types.added.map TagType.key).Nodup) :
    ((types.upsert tagType).1.added.map TagType.key).Nodup := by
  unfold TagTypes.upsert
  split
  · next hnone =>
    rw [List.map_append, List.nodup_append]
    refine ⟨h, by simp, ?_⟩
    intro key hkey other hother heq
    obtain ⟨old, hold, rfl⟩ := List.mem_map.mp hkey
    have hne := List.find?_eq_none.mp hnone old hold
    simp only [List.map_cons, List.map_nil, List.mem_singleton] at hother
    subst hother
    exact hne (by simpa using heq)
  · have hkeys : ∀ (since : Nat), (types.added.map fun other =>
        if other.key = tagType.key then
          { other with name := tagType.name, since := since, field := tagType.field }
        else other).map TagType.key = types.added.map TagType.key := by
      intro since
      rw [List.map_map]
      refine List.map_congr_left ?_
      intro other _
      simp only [Function.comp_apply]
      split <;> rfl
    rw [hkeys]
    exact h

/-- A type that is not as before took the generation it is registered in. -/
theorem upsert_kept (types : TagTypes) (tagType type : TagType)
    (h : type ∈ (types.upsert tagType).1.added) :
    (∃ old ∈ types.added, SameType old type) ∨
      (type.key = tagType.key ∧ type.since = tagType.since ∧
        (types.upsert tagType).2 = tagType.since) := by
  unfold TagTypes.upsert at h ⊢
  split at h
  · next hnone =>
    obtain hold | hnew := List.mem_append.mp h
    · exact .inl ⟨type, hold, rfl, rfl, rfl⟩
    · obtain rfl := List.mem_singleton.mp hnew
      exact .inr ⟨rfl, rfl, rfl⟩
  · next old hsome =>
    have hold := List.mem_of_find?_eq_some hsome
    have hkey : old.key = tagType.key := by simpa using List.find?_some hsome
    obtain ⟨other, hother, rfl⟩ := List.mem_map.mp h
    by_cases hsame : other.key = tagType.key
    · rw [if_pos hsame]
      by_cases hfield : old.field = tagType.field
      · left
        refine ⟨old, hold, ?_, hfield, ?_⟩
        · exact hkey.trans hsame.symm
        · simp only [if_pos hfield]
      · right
        simp only [if_neg hfield]
        exact ⟨hsame, trivial, trivial⟩
    · rw [if_neg hsame]
      exact .inl ⟨other, hother, rfl, rfl, rfl⟩

/-! ### A manifest -/

/-- Registers one of a manifest's types. -/
def registerOne (manifest : Manifest) (next : Nat) (state : TagTypes × Bool)
    (tagType : TagTypeRequest) : TagTypes × Bool :=
  let upserted := state.1.upsert ⟨manifest.tagTypeKey tagType.key, trimmed tagType.name,
    manifest.id, toAsciiUppercase tagType.field, next⟩
  (upserted.1, state.2 || upserted.2 = next)

/-- How far a registration that raises to `next` has come from `before`. -/
structure Registering (before : TagTypes) (next : Nat) (state : TagTypes × Bool) : Prop where
  once : (state.1.added.map TagType.key).Nodup
  generation : state.1.generation = before.generation
  dotted : ∀ type ∈ state.1.added, '.' ∈ type.key.toList
  kept : ∀ type ∈ state.1.added,
    (∃ old ∈ before.added, SameType old type) ∨ (type.since = next ∧ state.2 = true)

theorem registerOne_keeps {before : TagTypes} {next : Nat} {state : TagTypes × Bool}
    (manifest : Manifest) (h : Registering before next state) (tagType : TagTypeRequest) :
    Registering before next (registerOne manifest next state tagType) := by
  have hupsert := upsert_kept state.1 ⟨manifest.tagTypeKey tagType.key, trimmed tagType.name,
    manifest.id, toAsciiUppercase tagType.field, next⟩
  constructor
  · exact upsert_once _ _ h.once
  · exact (upsert_generation _ _).trans h.generation
  · intro type htype
    obtain ⟨old, hold, hkey, -⟩ | ⟨hkey, -⟩ := hupsert type htype
    · rw [← hkey]
      exact h.dotted old hold
    · rw [hkey]
      exact dotted_tagTypeKey manifest tagType.key
  · intro type htype
    obtain ⟨old, hold, hkey, hfield, hsince⟩ | ⟨-, hsince, hflag⟩ := hupsert type htype
    · obtain ⟨first, hfirst, hkey', hfield', hsince'⟩ | ⟨hnext, hflag⟩ := h.kept old hold
      · exact .inl ⟨first, hfirst, hkey'.trans hkey, hfield'.trans hfield, hsince'.trans hsince⟩
      · refine .inr ⟨hsince ▸ hnext, ?_⟩
        simp [registerOne, hflag]
    · refine .inr ⟨hsince, ?_⟩
      simp only at hflag
      simp [registerOne, hflag]

theorem register_eq (types : TagTypes) (manifest : Manifest) :
    types.register manifest =
      let state := manifest.tagTypes.foldl (registerOne manifest (types.generation + 1))
        (types, false)
      if state.2 then ({ state.1 with generation := state.1.generation + 1 }, true) else state := rfl

theorem registering (types : TagTypes) (manifest : Manifest) (h : TypesKept types) :
    Registering types (types.generation + 1)
      (manifest.tagTypes.foldl (registerOne manifest (types.generation + 1)) (types, false)) := by
  have hrun : ∀ (requests : List TagTypeRequest) (state : TagTypes × Bool),
      Registering types (types.generation + 1) state →
        Registering types (types.generation + 1)
          (requests.foldl (registerOne manifest (types.generation + 1)) state) := by
    intro requests
    induction requests with
    | nil => exact fun _ h => h
    | cons request rest ih => exact fun state h => ih _ (registerOne_keeps manifest h request)
  refine hrun _ _ ⟨h.once, rfl, h.dotted, ?_⟩
  exact fun type htype => .inl ⟨type, htype, rfl, rfl, rfl⟩

theorem register_extends (types : TagTypes) (manifest : Manifest) (h : TypesKept types) :
    Extends types (types.register manifest).1 := by
  have hstate := registering types manifest h
  rw [register_eq]
  dsimp only
  constructor
  · split
    · simp only [hstate.generation]
      omega
    · exact Nat.le_of_eq hstate.generation.symm
  · intro type htype hsince
    have hmem : type ∈ (manifest.tagTypes.foldl (registerOne manifest (types.generation + 1))
        (types, false)).1.added := by
      split at htype <;> exact htype
    obtain hold | ⟨hnext, -⟩ := hstate.kept type hmem
    · exact hold
    · omega

theorem register_keeps (types : TagTypes) (manifest : Manifest) (h : TypesKept types) :
    TypesKept (types.register manifest).1 := by
  have hstate := registering types manifest h
  rw [register_eq]
  dsimp only
  split
  · refine ⟨hstate.once, ?_, hstate.dotted⟩
    intro type htype
    simp only [hstate.generation]
    obtain ⟨old, hold, -, -, hsince⟩ | ⟨hnext, -⟩ := hstate.kept type htype
    · have := h.since old hold
      omega
    · omega
  · next hflag =>
    refine ⟨hstate.once, ?_, hstate.dotted⟩
    intro type htype
    rw [hstate.generation]
    obtain ⟨old, hold, -, -, hsince⟩ | ⟨-, hnew⟩ := hstate.kept type htype
    · have := h.since old hold
      omega
    · exact absurd hnew hflag

end JewelCase.Scanner

/-!
## What a track's tags were read for

A reading holds each type that is as old as its generation, with the field it has now, since the
generation is read before the types. So what it reads fits, and a write leaves each track either as
it was or as it was read.
-/
namespace JewelCase.Scanner

open JewelCase.Plugins (Manifest TagType TagTypes)

set_option autoImplicit false

variable {Contents : Type} {reader : Reader Contents}

/-! ### One file -/

/-- A type that a plugin added, as a scan reads it. -/
def asField (type : TagType) : TagTypeField := ⟨type.key, none, some type.field⟩

theorem values_asField (contents : Contents) (type : TagType) :
    reader.values contents (asField type) = reader.custom contents type.field := rfl

theorem valuesOf_setValues (tagValues : List (String × List String)) (key other : String)
    (values : List String) :
    valuesOf (setValues tagValues key values) other =
      if other = key then values else valuesOf tagValues other := by
  have hothers : (tagValues.filter fun entry => entry.1 ≠ key).find? (fun entry => entry.1 = other) =
      if other = key then none else tagValues.find? fun entry => entry.1 = other := by
    rw [List.find?_filter]
    split
    · next heq =>
      subst heq
      rw [List.find?_eq_none]
      intro entry _
      simp
    · next hne =>
      congr 1
      funext entry
      by_cases h : entry.1 = other
      · simp [h, hne]
      · simp [h]
  unfold setValues valuesOf
  by_cases hempty : values.isEmpty
  · rw [if_pos hempty, hothers]
    have hnil : values = [] := List.isEmpty_iff.mp hempty
    split <;> simp [hnil]
  · rw [if_neg hempty, List.find?_append, hothers]
    by_cases heq : other = key
    · simp [heq]
    · have hkey : ¬ key = other := fun h => heq h.symm
      simp [heq, hkey]

/-- Each type once: its values are the file's. -/
theorem valuesOf_read (types : Reading) (contents : Contents)
    (honce : (types.fields.map TagTypeField.key).Nodup) {type : TagTypeField}
    (htype : type ∈ types.fields) :
    valuesOf (reader.read types contents) type.key = reader.values contents type := by
  have hfold : ∀ (fields : List TagTypeField) (tagValues : List (String × List String)),
      (fields.map TagTypeField.key).Nodup →
      (type ∈ fields → valuesOf (fields.foldl (fun tagValues type =>
        setValues tagValues type.key (reader.values contents type)) tagValues) type.key =
          reader.values contents type) ∧
      (type.key ∉ fields.map TagTypeField.key → valuesOf (fields.foldl (fun tagValues type =>
        setValues tagValues type.key (reader.values contents type)) tagValues) type.key =
          valuesOf tagValues type.key) := by
    intro fields
    induction fields with
    | nil => exact fun _ _ => ⟨fun h => absurd h (List.not_mem_nil), fun _ => rfl⟩
    | cons first rest ih =>
      intro tagValues hnodup
      rw [List.map_cons, List.nodup_cons] at hnodup
      obtain ⟨hfirst, hrest⟩ := hnodup
      obtain ⟨hin, hout⟩ := ih (setValues tagValues first.key (reader.values contents first)) hrest
      constructor
      · intro hmem
        obtain rfl | hmem := List.mem_cons.mp hmem
        · rw [List.foldl_cons, hout hfirst, valuesOf_setValues, if_pos rfl]
        · exact hin hmem
      · intro hnot
        rw [List.map_cons, List.mem_cons, not_or] at hnot
        rw [List.foldl_cons, hout hnot.2, valuesOf_setValues, if_neg hnot.1]
  exact (hfold types.fields [] honce).1 htype

/-- A track's tags, as a reread writes them. -/
def Track.tags (track : Track Contents) : TagsReread Contents :=
  ⟨track.path, track.tagValues, track.tagsGeneration, track.file⟩

/-- Tags hold what their file gives for each type that is as old as their generation. -/
def Fits (reader : Reader Contents) (types : TagTypes) (tags : TagsReread Contents) : Prop :=
  ∀ type ∈ types.added, type.since ≤ tags.tagsGeneration →
    valuesOf tags.tagValues type.key = reader.custom tags.file type.field

theorem Fits.extend {before after : TagTypes} {tags : TagsReread Contents}
    (h : Fits reader before tags) (hextends : Extends before after)
    (hle : tags.tagsGeneration ≤ before.generation) : Fits reader after tags := by
  intro type htype hsince
  obtain ⟨old, hold, hkey, hfield, hsame⟩ := hextends.kept type htype (Nat.le_trans hsince hle)
  rw [← hkey, ← hfield]
  exact h old hold (by omega)

/-- A reading has each type that is as old as its generation. -/
structure Covers (types : TagTypes) (reading : Reading) : Prop where
  once : (reading.fields.map TagTypeField.key).Nodup
  generation : reading.generation ≤ types.generation
  fields : ∀ type ∈ types.added, type.since ≤ reading.generation → asField type ∈ reading.fields

theorem Covers.extend {before after : TagTypes} {reading : Reading} (h : Covers before reading)
    (hextends : Extends before after) : Covers after reading := by
  refine ⟨h.once, Nat.le_trans h.generation hextends.generation, ?_⟩
  intro type htype hsince
  obtain ⟨old, hold, hkey, hfield, hsame⟩ :=
    hextends.kept type htype (Nat.le_trans hsince h.generation)
  have hsameField : asField old = asField type := by
    unfold asField
    rw [hkey, hfield]
  rw [← hsameField]
  exact h.fields old hold (by omega)

/-- The generation first and then the types. -/
theorem covers_withAdded (types : TagTypes) (release : Release) (generation : Nat)
    (h : TypesKept types) (hle : generation ≤ types.generation) :
    Covers types (.withAdded release types.added generation) := by
  refine ⟨?_, hle, ?_⟩
  · have hkeys : (types.added.map fun type =>
        (⟨type.key, none, some type.field⟩ : TagTypeField)).map TagTypeField.key =
          types.added.map TagType.key := by
      rw [List.map_map]
      rfl
    unfold Reading.withAdded
    dsimp only
    rw [List.map_append, hkeys, List.nodup_append]
    refine ⟨release.once, h.once, ?_⟩
    intro key hkey other hother heq
    obtain ⟨builtIn, hbuiltIn, rfl⟩ := List.mem_map.mp hkey
    obtain ⟨added, hadded, rfl⟩ := List.mem_map.mp hother
    exact release.undotted builtIn hbuiltIn (heq ▸ h.dotted added hadded)
  · intro type htype _
    exact List.mem_append_right _ (List.mem_map_of_mem (f := fun type : TagType =>
      (⟨type.key, none, some type.field⟩ : TagTypeField)) htype)

theorem Covers.fits {types : TagTypes} {reading : Reading} (h : Covers types reading)
    (path : String) (contents : Contents) :
    Fits reader types ⟨path, reader.read reading contents, reading.generation, contents⟩ := by
  intro type htype hsince
  have hread : valuesOf (reader.read reading contents) (asField type).key =
      reader.values contents (asField type) :=
    valuesOf_read reading contents h.once (h.fields type htype hsince)
  rw [values_asField] at hread
  exact hread

end JewelCase.Scanner
