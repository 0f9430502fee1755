import Mathlib.Data.List.Basic
import Mathlib.Data.List.Induction
import Mathlib.Data.List.Nodup
import JewelCase.Plugins.Grants

/-!
# A plugin holds what was approved for it

Every grant is of a request that some manifest made, and those of an installed plugin of one its own
makes. A plugin is enabled only where everything it requires is granted.
-/
namespace JewelCase.Plugins

set_option autoImplicit false

variable {text : PermissionRequest → String} {id : String} {manifest : Manifest}
  {tables tables' tables'' : Tables} {scope : Int → Prop}

/-- A grant is of a request, in the scope its permission has. -/
structure Matches (text : PermissionRequest → String) (grant : Grant) (request : PermissionRequest) :
    Prop where
  permission : request.permission = grant.permission
  approved : grant.approved = text request
  scope : grant.permission.perLibrary = true ↔ grant.libraryId ≠ 0

/-! ### Setting grants -/

/-- Only a plugin's grants in `scope` change, to ones of its requests. -/
structure Regranted (text : PermissionRequest → String) (id : String) (manifest : Manifest)
    (scope : Int → Prop) (tables tables' : Tables) : Prop where
  plugins : tables'.plugins = tables.plugins
  libraries : tables'.libraries = tables.libraries
  pluginLibraries : tables'.pluginLibraries = tables.pluginLibraries
  cursors : tables'.cursors = tables.cursors
  exemptions : tables'.exemptions = tables.exemptions
  requested : ∀ grant ∈ tables'.grants, grant ∈ tables.grants ∨
    grant.pluginId = id ∧ ∃ request ∈ manifest.permissions, Matches text grant request
  others : ∀ grant : Grant, (grant.pluginId = id → ¬ scope grant.libraryId) →
    (grant ∈ tables'.grants ↔ grant ∈ tables.grants)

theorem Regranted.refl (tables : Tables) : Regranted text id manifest scope tables tables :=
  ⟨rfl, rfl, rfl, rfl, rfl, fun _ hg => .inl hg, fun _ _ => Iff.rfl⟩

theorem Regranted.trans (h : Regranted text id manifest scope tables tables')
    (h' : Regranted text id manifest scope tables' tables'') :
    Regranted text id manifest scope tables tables'' := by
  refine ⟨h'.plugins.trans h.plugins, h'.libraries.trans h.libraries,
    h'.pluginLibraries.trans h.pluginLibraries, h'.cursors.trans h.cursors,
    h'.exemptions.trans h.exemptions, ?_, ?_⟩
  · intro grant hg
    obtain hg | hg := h'.requested grant hg
    · exact h.requested grant hg
    · exact .inr hg
  · intro grant hother
    rw [h'.others grant hother, h.others grant hother]

theorem Regranted.mono {wider : Int → Prop} (h : Regranted text id manifest scope tables tables')
    (hscope : ∀ library, scope library → wider library) :
    Regranted text id manifest wider tables tables' := by
  refine ⟨h.plugins, h.libraries, h.pluginLibraries, h.cursors, h.exemptions, h.requested, ?_⟩
  intro grant hother
  exact h.others grant fun hid hs => hother hid (hscope _ hs)

theorem Regranted.foldl {β : Type} {f : Tables → β → Tables}
    (hf : ∀ tables, ∀ b, Regranted text id manifest scope tables (f tables b)) (bs : List β)
    (tables : Tables) : Regranted text id manifest scope tables (bs.foldl f tables) := by
  induction bs generalizing tables with
  | nil => exact .refl tables
  | cons b bs ih => exact (hf tables b).trans (ih _)

theorem approve_some {permission : Permission} {library : Bool} {request : String}
    (h : approve text manifest permission library = some request) :
    permission.perLibrary = library ∧ ∃ asked ∈ manifest.permissions,
      asked.permission = permission ∧ request = text asked := by
  rw [approve] at h
  obtain ⟨asked, hasked, rfl⟩ := Option.map_eq_some_iff.mp h
  obtain ⟨hfind, hscope⟩ := Option.filter_eq_some_iff.mp hasked
  have hpermission := List.find?_some hfind
  exact ⟨of_decide_eq_true hscope, asked, List.mem_of_find?_eq_some hfind,
    of_decide_eq_true hpermission, rfl⟩

theorem regranted_delete (library : Int) :
    Regranted text id manifest (fun other => other = library) tables
      (tables.deleteGrants id library) := by
  refine ⟨rfl, rfl, rfl, rfl, rfl, ?_, ?_⟩
  · intro grant hg
    exact .inl (List.mem_filter.mp hg).1
  · intro grant hother
    rw [Tables.deleteGrants, List.mem_filter]
    constructor
    · exact fun hg => hg.1
    · intro hg
      refine ⟨hg, decide_eq_true ?_⟩
      intro hsame
      exact hother hsame.1 hsame.2

theorem regranted_insert {grant : Grant} {request : PermissionRequest} (hid : grant.pluginId = id)
    (hscope : scope grant.libraryId) (hrequest : request ∈ manifest.permissions)
    (hmatches : Matches text grant request) :
    Regranted text id manifest scope tables (tables.insertGrant grant) := by
  rw [Tables.insertGrant]
  split_ifs
  · exact .refl tables
  · refine ⟨rfl, rfl, rfl, rfl, rfl, ?_, ?_⟩
    · intro other ho
      obtain ho | ho := List.mem_append.mp ho
      · exact .inl ho
      · rw [List.mem_singleton.mp ho]
        exact .inr ⟨hid, request, hrequest, hmatches⟩
    · intro other hother
      rw [List.mem_append, List.mem_singleton]
      constructor
      · intro ho
        obtain ho | rfl := ho
        · exact ho
        · exact absurd hscope (hother hid)
      · exact .inl

theorem regranted_own (state : Tables × Bool) (permission : Permission) :
    Regranted text id manifest (fun other => other = 0) state.1
      (setOwn text id manifest state permission).1 := by
  rw [setOwn]
  cases happrove : approve text manifest permission false with
  | none => exact .refl _
  | some request =>
    obtain ⟨hper, asked, hasked, hpermission, rfl⟩ := approve_some happrove
    have hinsert : Regranted text id manifest (fun other => other = 0) state.1
        (state.1.insertGrant ⟨id, 0, permission, text asked⟩) :=
      regranted_insert rfl rfl hasked ⟨hpermission, rfl, by simp [hper]⟩
    simp only
    split_ifs
    · exact ⟨hinsert.plugins, hinsert.libraries, hinsert.pluginLibraries, hinsert.cursors,
        hinsert.exemptions, hinsert.requested, hinsert.others⟩
    · exact hinsert

theorem regranted_owns (pluginWide : List Permission) (state : Tables × Bool) :
    Regranted text id manifest (fun other => other = 0) state.1
      (pluginWide.foldl (setOwn text id manifest) state).1 := by
  induction pluginWide generalizing state with
  | nil => exact .refl _
  | cons permission pluginWide ih => exact (regranted_own state permission).trans (ih _)

theorem regranted_in {library : Int} (hlibrary : library ≠ 0) (permission : Permission) :
    Regranted text id manifest (fun other => other = library) tables
      (setIn text id manifest library tables permission) := by
  rw [setIn]
  cases happrove : approve text manifest permission true with
  | none => exact .refl _
  | some request =>
    obtain ⟨hper, asked, hasked, hpermission, rfl⟩ := approve_some happrove
    simp only
    split_ifs
    · exact regranted_insert rfl rfl hasked ⟨hpermission, rfl, by simp [hper, hlibrary]⟩
    · exact .refl _

theorem regranted_library {library : Int × List Permission} (hlibrary : library.1 ≠ 0) :
    Regranted text id manifest (fun other => other = library.1) tables
      (setLibrary text id manifest tables library) :=
  (regranted_delete library.1).trans
    (.foldl (fun _ permission => regranted_in hlibrary permission) library.2 _)

theorem regranted_libraries (perLibrary : List (Int × List Permission))
    (hlibraries : ∀ library ∈ perLibrary, library.1 ≠ 0) :
    Regranted text id manifest (fun other => other ∈ perLibrary.map Prod.fst) tables
      (perLibrary.foldl (setLibrary text id manifest) tables) := by
  induction perLibrary generalizing tables with
  | nil => exact .refl _
  | cons library perLibrary ih =>
    have hfirst := @regranted_library text id manifest tables library
      (hlibraries library List.mem_cons_self)
    have hrest := @ih (setLibrary text id manifest tables library)
      fun other ho => hlibraries other (List.mem_cons_of_mem _ ho)
    refine (hfirst.mono ?_).trans (hrest.mono ?_)
    · intro other ho
      rw [ho]
      exact List.mem_cons_self
    · intro other ho
      exact List.mem_cons_of_mem _ ho

/-! ### Disabling -/

/-- Only rows of `plugin_libraries` change, and none is enabled that was not. -/
structure Disabled (id : String) (tables tables' : Tables) : Prop where
  plugins : tables'.plugins = tables.plugins
  libraries : tables'.libraries = tables.libraries
  grants : tables'.grants = tables.grants
  rows : ∀ row ∈ tables'.pluginLibraries, ∃ old ∈ tables.pluginLibraries,
    old.pluginId = row.pluginId ∧ old.libraryId = row.libraryId ∧
      (row.enabled = true → old.enabled = true)

theorem Disabled.refl (tables : Tables) : Disabled id tables tables :=
  ⟨rfl, rfl, rfl, fun row hr => ⟨row, hr, rfl, rfl, fun he => he⟩⟩

theorem Disabled.trans (h : Disabled id tables tables') (h' : Disabled id tables' tables'') :
    Disabled id tables tables'' := by
  refine ⟨h'.plugins.trans h.plugins, h'.libraries.trans h.libraries, h'.grants.trans h.grants, ?_⟩
  intro row hr
  obtain ⟨old, ho, hid, hlibrary, henabled⟩ := h'.rows row hr
  obtain ⟨older, hol, hid', hlibrary', henabled'⟩ := h.rows old ho
  exact ⟨older, hol, hid'.trans hid, hlibrary'.trans hlibrary, fun he => henabled' (henabled he)⟩

theorem granted_congr (h : tables'.grants = tables.grants) (library : Int) :
    granted tables' id library = granted tables id library := by
  rw [granted, granted, h]

theorem disabled_lost (library : Int) :
    Disabled id tables (disableLost id manifest tables library) := by
  rw [disableLost]
  split_ifs
  · exact .refl tables
  · refine ⟨rfl, rfl, rfl, ?_⟩
    intro row hr
    obtain ⟨old, ho, rfl⟩ := List.mem_map.mp hr
    refine ⟨old, ho, ?_⟩
    split_ifs
    · exact ⟨rfl, rfl, fun he => False.elim he⟩
    · exact ⟨rfl, rfl, fun he => he⟩

/-- Where a required permission is missing, no row is left enabled. -/
theorem disabled_row {library : Int} {row : PluginLibrary}
    (hr : row ∈ (disableLost id manifest tables library).pluginLibraries)
    (hid : row.pluginId = id) (hlibrary : row.libraryId = library) (henabled : row.enabled = true) :
    missing manifest (granted tables id library) = [] := by
  by_contra hmissing
  rw [disableLost, if_neg hmissing] at hr
  obtain ⟨old, ho, rfl⟩ := List.mem_map.mp hr
  split_ifs at hid hlibrary henabled with hsame
  exact hsame ⟨hid, hlibrary⟩

/-- Where a required permission was lost, the plugin is enabled no longer. -/
theorem disabled_all (enabled : List Int) :
    Disabled id tables (enabled.foldl (disableLost id manifest) tables) ∧
    ∀ row ∈ (enabled.foldl (disableLost id manifest) tables).pluginLibraries, row.pluginId = id →
      row.libraryId ∈ enabled → row.enabled = true →
        missing manifest (granted tables id row.libraryId) = [] := by
  induction enabled generalizing tables with
  | nil =>
    refine ⟨.refl tables, ?_⟩
    intro row _ _ hmem
    cases hmem
  | cons library enabled ih =>
    have hfirst := @disabled_lost id manifest tables library
    obtain ⟨hrest, hrows⟩ := @ih (disableLost id manifest tables library)
    refine ⟨hfirst.trans hrest, ?_⟩
    intro row hr hid hmem henabled
    obtain hlibrary | hmem := List.mem_cons.mp hmem
    · obtain ⟨old, ho, hold, holdLibrary, holdEnabled⟩ := hrest.rows row hr
      rw [hlibrary]
      exact disabled_row ho (hold.trans hid) (holdLibrary.trans hlibrary) (holdEnabled henabled)
    · have hmissing := hrows row hr hid hmem henabled
      rwa [granted_congr hfirst.grants] at hmissing

/-! ### Every call -/

variable {asked : List PermissionRequest}

/-- Grants are of requests, and rows of installed plugins; where one is enabled, nothing is
missing. -/
structure Approved (text : PermissionRequest → String) (asked : List PermissionRequest)
    (tables : Tables) : Prop where
  requested : ∀ grant ∈ tables.grants, ∃ request ∈ asked, Matches text grant request
  installed : ∀ plugin ∈ tables.plugins, ∀ grant ∈ tables.grants, grant.pluginId = plugin.id →
    ∃ request ∈ plugin.manifest.permissions, Matches text grant request
  requests : ∀ plugin ∈ tables.plugins, ∀ request ∈ plugin.manifest.permissions, request ∈ asked
  unique : tables.plugins.Pairwise fun a b => a.id ≠ b.id
  libraries : 0 ∉ tables.libraries
  rows : ∀ row ∈ tables.pluginLibraries, ∃ plugin ∈ tables.plugins, plugin.id = row.pluginId ∧
    (row.enabled = true →
      missing plugin.manifest (granted tables row.pluginId row.libraryId) = [])

theorem approved_empty : Approved text asked .empty := by
  constructor
  · intro grant h
    cases h
  · intro plugin h
    cases h
  · intro plugin h
    cases h
  · exact .nil
  · exact List.not_mem_nil
  · intro row h
    cases h

theorem plugin_mem {plugin : Plugin} (h : tables.plugin id = some plugin) :
    plugin ∈ tables.plugins ∧ plugin.id = id := by
  rw [Tables.plugin] at h
  have hid := List.find?_some h
  exact ⟨List.mem_of_find?_eq_some h, of_decide_eq_true hid⟩

theorem Approved.same (h : Approved text asked tables) {a b : Plugin} (ha : a ∈ tables.plugins)
    (hb : b ∈ tables.plugins) (hid : a.id = b.id) : a = b := by
  have hunique := h.unique
  generalize tables.plugins = plugins at *
  induction plugins with
  | nil => cases ha
  | cons first rest ih =>
    obtain ⟨hfirst, hrest⟩ := List.pairwise_cons.mp hunique
    obtain rfl | ha' := List.mem_cons.mp ha
    · obtain rfl | hb' := List.mem_cons.mp hb
      · rfl
      · exact absurd hid (hfirst b hb')
    · obtain rfl | hb' := List.mem_cons.mp hb
      · exact absurd hid.symm (hfirst a ha')
      · exact ih ha' hb' hrest

/-- What is granted for a plugin depends on its own grants there. -/
theorem missing_congr {library : Int} (hscope : ∀ grant : Grant, grant.pluginId = id →
      (grant.libraryId = 0 ∨ grant.libraryId = library) →
        (grant ∈ tables'.grants ↔ grant ∈ tables.grants)) :
    missing manifest (granted tables' id library) = missing manifest (granted tables id library) := by
  have hgranted : ∀ permission, permission ∈ granted tables' id library ↔
      permission ∈ granted tables id library := by
    intro permission
    simp only [granted, List.mem_map, List.mem_filter, decide_eq_true_eq]
    constructor
    · intro hp
      obtain ⟨grant, ⟨hg, hid, hlibrary⟩, hpermission⟩ := hp
      exact ⟨grant, ⟨(hscope grant hid hlibrary).mp hg, hid, hlibrary⟩, hpermission⟩
    · intro hp
      obtain ⟨grant, ⟨hg, hid, hlibrary⟩, hpermission⟩ := hp
      exact ⟨grant, ⟨(hscope grant hid hlibrary).mpr hg, hid, hlibrary⟩, hpermission⟩
  apply List.filter_congr
  intro permission _
  rw [decide_eq_decide, hgranted]

/-- Setting grants leaves each one that of a request made. -/
theorem approved_set (h : Approved text asked tables) {plugin : Plugin}
    (hplugin : tables.plugin id = some plugin) (pluginWide : List Permission)
    (perLibrary : List (Int × List Permission)) :
    Approved text asked (set text tables id plugin.manifest pluginWide perLibrary).1 := by
  obtain ⟨hmem, hid⟩ := plugin_mem hplugin
  rw [set]
  have hown := (@regranted_delete text id plugin.manifest tables 0).trans
    (regranted_owns pluginWide (tables.deleteGrants id 0, false))
  have hlibraries := @regranted_libraries text id plugin.manifest
    (pluginWide.foldl (setOwn text id plugin.manifest) (tables.deleteGrants id 0, false)).1
    (perLibrary.filter fun library => library.1 ≠ 0)
    fun library hl => of_decide_eq_true (List.mem_filter.mp hl).2
  have hall := (@Regranted.mono _ _ _ _ _ _ (fun _ => True) hown fun _ _ => trivial).trans
    (hlibraries.mono fun _ _ => trivial)
  simp only
  generalize (perLibrary.filter fun library => decide (library.1 ≠ 0)).foldl
    (setLibrary text id plugin.manifest)
    (pluginWide.foldl (setOwn text id plugin.manifest) (tables.deleteGrants id 0, false)).1 =
      regranted at hall ⊢
  obtain ⟨hdisabled, hrows⟩ := @disabled_all id plugin.manifest regranted
    ((regranted.pluginLibraries.filter fun row => row.pluginId = id && row.enabled).map
      PluginLibrary.libraryId)
  generalize (((regranted.pluginLibraries.filter fun row => row.pluginId = id && row.enabled).map
    PluginLibrary.libraryId).foldl (disableLost id plugin.manifest) regranted) = after at *
  have hplugins : after.plugins = tables.plugins := hdisabled.plugins.trans hall.plugins
  constructor
  · intro grant hg
    rw [hdisabled.grants] at hg
    obtain hg | ⟨-, request, hrequest, hmatches⟩ := hall.requested grant hg
    · exact h.requested grant hg
    · exact ⟨request, h.requests plugin hmem request hrequest, hmatches⟩
  · intro other ho grant hg hgid
    rw [hplugins] at ho
    rw [hdisabled.grants] at hg
    obtain hg | ⟨hgid', request, hrequest, hmatches⟩ := hall.requested grant hg
    · exact h.installed other ho grant hg hgid
    · have hsame := h.same ho hmem (hgid.symm.trans (hgid'.trans hid.symm))
      rw [hsame]
      exact ⟨request, hrequest, hmatches⟩
  · rw [hplugins]
    exact h.requests
  · rw [hplugins]
    exact h.unique
  · rw [hdisabled.libraries, hall.libraries]
    exact h.libraries
  · intro row hr
    obtain ⟨old, ho, hold, hlibrary, henabled⟩ := hdisabled.rows row hr
    rw [hall.pluginLibraries] at ho
    obtain ⟨other, hother, hotherId, hmissing⟩ := h.rows old ho
    rw [hplugins]
    refine ⟨other, hother, hotherId.trans hold, ?_⟩
    intro he
    rw [granted_congr hdisabled.grants]
    by_cases hrow : row.pluginId = id
    · have hsame := h.same hother hmem ((hotherId.trans hold).trans (hrow.trans hid.symm))
      rw [hsame, hrow]
      refine hrows row hr hrow ?_ he
      refine List.mem_map.mpr ⟨old, List.mem_filter.mpr ⟨?_, ?_⟩, hlibrary⟩
      · rw [hall.pluginLibraries]
        exact ho
      · rw [hold, hrow, henabled he, decide_eq_true rfl]
        rfl
    · have hold' := hmissing (henabled he)
      rw [hold, hlibrary] at hold'
      rw [← hold']
      apply missing_congr
      intro grant hgid _
      apply hall.others
      intro hg
      exact absurd (hgid.symm.trans hg) hrow

/-- A reinstall keeps only grants of requests that the new manifest makes. -/
theorem approved_keep (htext : ∀ a ∈ asked, ∀ b ∈ asked, text a = text b → a = b)
    (h : Approved text asked tables) {manifest : Manifest}
    (hasked : ∀ request ∈ manifest.permissions, request ∈ asked)
    (hnew : tables.plugin manifest.id = none) (sourceUrl : Option String) (now : Int) :
    Approved text asked (keepRequested text
      { tables with plugins := tables.plugins ++ [⟨manifest.id, manifest, sourceUrl, now⟩] }
      manifest) := by
  have hother : ∀ plugin ∈ tables.plugins, plugin.id ≠ manifest.id := by
    intro plugin hp hid
    have hnone := List.find?_eq_none.mp hnew plugin hp
    exact hnone (decide_eq_true hid)
  have hkept : ∀ grant ∈ (keepRequested text
      { tables with plugins := tables.plugins ++ [⟨manifest.id, manifest, sourceUrl, now⟩] }
      manifest).grants, grant ∈ tables.grants ∧
        (grant.pluginId = manifest.id → grant.approved ∈ manifest.permissions.map text) := by
    intro grant hg
    obtain ⟨hold, hkeep⟩ := List.mem_filter.mp hg
    refine ⟨hold, ?_⟩
    intro hid
    by_contra hnot
    exact of_decide_eq_true hkeep ⟨hid, hnot⟩
  constructor
  · intro grant hg
    exact h.requested grant (hkept grant hg).1
  · intro plugin hp grant hg hid
    obtain ⟨hold, hrequested⟩ := hkept grant hg
    obtain hp | hp := List.mem_append.mp hp
    · exact h.installed plugin hp grant hold hid
    · rw [List.mem_singleton.mp hp] at hid ⊢
      obtain ⟨request, hrequest, happroved⟩ := List.mem_map.mp (hrequested hid)
      obtain ⟨old, hold', hmatches⟩ := h.requested grant hold
      have hsame := htext request (hasked request hrequest) old hold'
        (happroved.trans hmatches.approved)
      rw [← hsame] at hmatches
      exact ⟨request, hrequest, hmatches⟩
  · intro plugin hp
    obtain hp | hp := List.mem_append.mp hp
    · exact h.requests plugin hp
    · rw [List.mem_singleton.mp hp]
      exact hasked
  · refine List.pairwise_append.mpr ⟨h.unique, List.pairwise_singleton _ _, ?_⟩
    intro a ha b hb
    rw [List.mem_singleton.mp hb]
    exact hother a ha
  · exact h.libraries
  · intro row hr
    obtain ⟨plugin, hp, hid, hmissing⟩ := h.rows row hr
    refine ⟨plugin, List.mem_append_left _ hp, hid, ?_⟩
    intro he
    rw [← hmissing he]
    apply missing_congr
    intro grant hgid _
    refine List.mem_filter.trans (and_iff_left ?_)
    apply decide_eq_true
    intro hnew
    exact hother plugin hp (hid.trans (hgid.symm.trans hnew.1))

theorem approved_delete (h : Approved text asked tables) (id : String) :
    Approved text asked (tables.deletePlugin id) := by
  constructor
  · exact h.requested
  · intro plugin hp
    exact h.installed plugin (List.mem_filter.mp hp).1
  · intro plugin hp
    exact h.requests plugin (List.mem_filter.mp hp).1
  · exact h.unique.filter _
  · exact h.libraries
  · intro row hr
    obtain ⟨hr, hne⟩ := List.mem_filter.mp hr
    obtain ⟨plugin, hp, hid, hmissing⟩ := h.rows row hr
    refine ⟨plugin, List.mem_filter.mpr ⟨hp, ?_⟩, hid, hmissing⟩
    rw [hid]
    exact hne

theorem approved_deleteLibrary (h : Approved text asked tables) {library : Int}
    (hlibrary : library ∈ tables.libraries) :
    Approved text asked (tables.deleteLibrary library) := by
  constructor
  · intro grant hg
    exact h.requested grant (List.mem_filter.mp hg).1
  · intro plugin hp grant hg
    exact h.installed plugin hp grant (List.mem_filter.mp hg).1
  · exact h.requests
  · exact h.unique
  · intro hzero
    exact h.libraries (List.mem_filter.mp hzero).1
  · intro row hr
    obtain ⟨hr, hne⟩ := List.mem_filter.mp hr
    obtain ⟨plugin, hp, hid, hmissing⟩ := h.rows row hr
    refine ⟨plugin, hp, hid, ?_⟩
    intro he
    rw [← hmissing he]
    apply missing_congr
    intro grant _ hscope
    refine List.mem_filter.trans (and_iff_left ?_)
    apply decide_eq_true
    intro hsame
    obtain hzero | hrow := hscope
    · rw [hzero] at hsame
      rw [← hsame] at hlibrary
      exact h.libraries hlibrary
    · exact of_decide_eq_true hne (hrow.symm.trans hsame)

theorem approved_addLibrary (h : Approved text asked tables) {library : Int}
    (hlibrary : library ≠ 0) :
    Approved text asked { tables with libraries := tables.libraries ++ [library] } := by
  refine ⟨h.requested, h.installed, h.requests, h.unique, ?_, h.rows⟩
  intro hzero
  obtain hzero | hzero := List.mem_append.mp hzero
  · exact h.libraries hzero
  · exact hlibrary (List.mem_singleton.mp hzero).symm

/-- A plugin is enabled only where it has all that it requires. -/
theorem approved_enable (h : Approved text asked tables) {plugin : Plugin}
    (hplugin : tables.plugin id = some plugin) (library : Int) (enabled : Bool) :
    Approved text asked (setEnabled tables id plugin.manifest library enabled).2 := by
  obtain ⟨hmem, hid⟩ := plugin_mem hplugin
  rw [setEnabled]
  simp only
  split_ifs with hlacking
  · exact h
  all_goals
    refine ⟨h.requested, h.installed, h.requests, h.unique, h.libraries, ?_⟩
    intro row hr
    obtain hr | hr := List.mem_append.mp hr
    · exact h.rows row (List.mem_filter.mp hr).1
    · rw [List.mem_singleton.mp hr]
      refine ⟨plugin, hmem, hid, ?_⟩
      intro he
      by_contra hmissing
      apply hlacking
      have he' : enabled = true := he
      have hnot : (missing plugin.manifest (granted tables id library)).isEmpty = false := by
        rw [List.isEmpty_eq_false_iff]
        exact hmissing
      rw [he', hnot]
      rfl

/-- **What is approved stays so with every call.** -/
theorem approved_call (htext : ∀ a ∈ asked, ∀ b ∈ asked, text a = text b → a = b)
    (h : Approved text asked tables) {next : Call}
    (hasked : ∀ manifest sourceUrl now stored, next = .install manifest sourceUrl now stored →
      ∀ request ∈ manifest.permissions, request ∈ asked) :
    Approved text asked (call text tables next).2 := by
  cases next with
  | install manifest sourceUrl now stored =>
    rw [call, add]
    cases hnew : tables.plugin manifest.id with
    | some plugin => exact h
    | none =>
      simp only
      split_ifs
      · exact approved_keep htext h (hasked manifest sourceUrl now stored rfl) hnew sourceUrl now
      · exact h
  | uninstall id removed =>
    rw [call]
    split_ifs
    · exact h
    · exact approved_delete h id
    · exact h
  | setGrants id pluginWide perLibrary =>
    rw [call]
    cases hplugin : tables.plugin id with
    | none => exact h
    | some plugin => exact approved_set h hplugin pluginWide perLibrary
  | setEnabled id library enabled =>
    rw [call]
    cases hplugin : tables.plugin id with
    | none => exact h
    | some plugin =>
      simp only
      split_ifs
      · exact approved_enable h hplugin library enabled
      · exact approved_enable h hplugin library enabled
      · exact h
  | addLibrary library =>
    rw [call]
    split_ifs with hused
    · exact h
    · exact approved_addLibrary h (not_or.mp hused).1
  | deleteLibrary library =>
    rw [call]
    split_ifs with hmem
    · exact approved_deleteLibrary h hmem
    · exact h

/-- The requests that a call's manifest makes. -/
def Call.requests : Call → List PermissionRequest
  | .install manifest _ _ _ => manifest.permissions
  | .uninstall .. | .setGrants .. | .setEnabled .. | .addLibrary _ | .deleteLibrary _ => []

/-- After any calls, a plugin holds no more than was approved. -/
theorem approved_after (htext : ∀ a ∈ asked, ∀ b ∈ asked, text a = text b → a = b)
    {calls : List Call} (hasked : ∀ next ∈ calls, ∀ request ∈ next.requests, request ∈ asked) :
    Approved text asked (after text calls) := by
  induction calls using List.reverseRecOn with
  | nil => exact approved_empty
  | append_singleton calls next ih =>
    have hcalls := ih fun other ho => hasked other (List.mem_append_left _ ho)
    have hnext := hasked next (List.mem_append_right _ List.mem_cons_self)
    rw [after, List.foldl_append]
    refine approved_call htext hcalls ?_
    rintro manifest sourceUrl now stored rfl
    exact hnext

/-- The grants of other plugins, and those in libraries not named, stay. -/
theorem set_others (pluginWide : List Permission) (perLibrary : List (Int × List Permission))
    {grant : Grant} (hother : grant.pluginId = id →
      grant.libraryId ≠ 0 ∧ grant.libraryId ∉ perLibrary.map Prod.fst) :
    grant ∈ (set text tables id manifest pluginWide perLibrary).1.grants ↔
      grant ∈ tables.grants := by
  have hown := (@regranted_delete text id manifest tables 0).trans
    (regranted_owns pluginWide (tables.deleteGrants id 0, false))
  have hlibraries := @regranted_libraries text id manifest
    (pluginWide.foldl (setOwn text id manifest) (tables.deleteGrants id 0, false)).1
    (perLibrary.filter fun library => library.1 ≠ 0)
    fun library hl => of_decide_eq_true (List.mem_filter.mp hl).2
  rw [set]
  simp only
  rw [(disabled_all _).1.grants, hlibraries.others grant, hown.others grant]
  · intro hid
    exact (hother hid).1
  · intro hid hmem
    obtain ⟨library, hl, hlibrary⟩ := List.mem_map.mp hmem
    exact (hother hid).2 (List.mem_map.mpr ⟨library, (List.mem_filter.mp hl).1, hlibrary⟩)

/-- An install keeps exactly the grants whose request its manifest makes again. -/
theorem install_keeps (htext : ∀ a ∈ asked, ∀ b ∈ asked, text a = text b → a = b)
    {sourceUrl : Option String} {now : Int} {stored : Bool}
    (hasked : ∀ request ∈ manifest.permissions, request ∈ asked)
    (hok : (call text tables (.install manifest sourceUrl now stored)).1 = .ok ())
    {grant : Grant} (hgrant : grant ∈ tables.grants) {request : PermissionRequest}
    (hrequest : request ∈ asked) (hmatches : Matches text grant request) :
    grant ∈ (call text tables (.install manifest sourceUrl now stored)).2.grants ↔
      (grant.pluginId = manifest.id → request ∈ manifest.permissions) := by
  rw [call, add] at hok ⊢
  cases hnew : tables.plugin manifest.id with
  | some plugin =>
    rw [hnew] at hok
    cases hok
  | none =>
    rw [hnew] at hok
    simp only at hok ⊢
    split_ifs at hok ⊢ with hstored
    simp only [keepRequested, List.mem_filter, decide_eq_true_eq, not_and, not_not]
    constructor
    · intro h hid
      obtain ⟨again, ha, htexts⟩ := List.mem_map.mp (h.2 hid)
      have hsame := htext again (hasked again ha) request hrequest
        (htexts.trans hmatches.approved)
      rwa [← hsame]
    · intro h
      refine ⟨hgrant, ?_⟩
      intro hid
      rw [hmatches.approved]
      exact List.mem_map_of_mem (h hid)

/-- A plugin just installed has a row in no library. -/
theorem install_disabled (h : Approved text asked tables) {sourceUrl : Option String} {now : Int}
    {stored : Bool} (hok : (call text tables (.install manifest sourceUrl now stored)).1 = .ok ()) :
    ∀ row ∈ (call text tables (.install manifest sourceUrl now stored)).2.pluginLibraries,
      row.pluginId ≠ manifest.id := by
  intro row hr hid
  rw [call, add] at hok hr
  cases hnew : tables.plugin manifest.id with
  | some plugin =>
    rw [hnew] at hok
    cases hok
  | none =>
    rw [hnew] at hok hr
    simp only at hok hr
    split_ifs at hok hr
    obtain ⟨plugin, hp, hpid, -⟩ := h.rows row hr
    have hnone := List.find?_eq_none.mp hnew plugin hp
    exact hnone (decide_eq_true (hpid.trans hid))

/-- A refused enable changes nothing. -/
theorem refused_unchanged {library : Int} {enabled : Bool} {error : PluginError}
    (h : (call text tables (.setEnabled id library enabled)).1 = .error error) :
    (call text tables (.setEnabled id library enabled)).2 = tables := by
  rw [call] at h ⊢
  cases hplugin : tables.plugin id with
  | none => rfl
  | some plugin =>
    rw [hplugin] at h
    simp only at h ⊢
    split_ifs at h ⊢ with hlacking
    · rw [setEnabled] at hlacking ⊢
      simp only at hlacking ⊢
      split_ifs at hlacking ⊢
      · rfl
      all_goals exact absurd rfl hlacking
    · rfl

/-- **A plugin never holds more than was approved for it**, whatever is installed, granted, enabled
and removed. -/
theorem plugins_approved (text : PermissionRequest → String) (calls : List Call)
    (htext : ∀ a ∈ calls.flatMap Call.requests, ∀ b ∈ calls.flatMap Call.requests,
      text a = text b → a = b) :
    let tables := after text calls
    (∀ plugin ∈ tables.plugins, ∀ grant ∈ tables.grants, grant.pluginId = plugin.id →
      ∃ request ∈ plugin.manifest.permissions, request.permission = grant.permission ∧
        grant.approved = text request ∧
        (grant.permission.perLibrary = true ↔ grant.libraryId ≠ 0)) ∧
    (∀ row ∈ tables.pluginLibraries, ∃ plugin ∈ tables.plugins, plugin.id = row.pluginId ∧
      (row.enabled = true → ∀ permission ∈ plugin.manifest.required,
        ∃ grant ∈ tables.grants, grant.pluginId = plugin.id ∧ grant.permission = permission ∧
          (grant.libraryId = 0 ∨ grant.libraryId = row.libraryId))) ∧
    ∀ (before : List Call) (next : Call), calls = before ++ [next] →
      (∀ manifest sourceUrl now stored, next = .install manifest sourceUrl now stored →
        (call text (after text before) next).1 = .ok () →
        (∀ grant ∈ tables.grants, grant ∈ (after text before).grants) ∧
        (∀ grant ∈ (after text before).grants, ∃ request ∈ before.flatMap Call.requests,
          grant.approved = text request ∧ (grant ∈ tables.grants ↔
            (grant.pluginId = manifest.id → request ∈ manifest.permissions))) ∧
        ∀ row ∈ tables.pluginLibraries, row.pluginId ≠ manifest.id) ∧
      (∀ id removed, next = .uninstall id removed →
        tables.grants = (after text before).grants) ∧
      (∀ id pluginWide perLibrary, next = .setGrants id pluginWide perLibrary →
        ∀ grant : Grant, (grant.pluginId = id →
            grant.libraryId ≠ 0 ∧ grant.libraryId ∉ perLibrary.map Prod.fst) →
          (grant ∈ tables.grants ↔ grant ∈ (after text before).grants)) ∧
      ∀ id library enabled error, next = .setEnabled id library enabled →
        (call text (after text before) next).1 = .error error → tables = after text before := by
  simp only
  have happroved := @approved_after text _ htext calls
    fun next hn request hr => List.mem_flatMap.mpr ⟨next, hn, hr⟩
  refine ⟨?_, ?_, ?_⟩
  · intro plugin hp grant hg hid
    obtain ⟨request, hrequest, hmatches⟩ := happroved.installed plugin hp grant hg hid
    exact ⟨request, hrequest, hmatches.permission, hmatches.approved, hmatches.scope⟩
  · intro row hr
    obtain ⟨plugin, hp, hid, hmissing⟩ := happroved.rows row hr
    refine ⟨plugin, hp, hid, ?_⟩
    intro he permission hpermission
    have hgranted := List.filter_eq_nil_iff.mp (hmissing he) permission hpermission
    rw [decide_eq_true_eq, not_not] at hgranted
    obtain ⟨grant, hg, rfl⟩ := List.mem_map.mp hgranted
    obtain ⟨hg, hscope⟩ := List.mem_filter.mp hg
    obtain ⟨hgid, hlibrary⟩ := of_decide_eq_true hscope
    exact ⟨grant, hg, hgid.trans hid.symm, rfl, hlibrary⟩
  rintro before next rfl
  have hsubset : ∀ request ∈ before.flatMap Call.requests,
      request ∈ (before ++ [next]).flatMap Call.requests := by
    intro request hr
    rw [List.flatMap_append]
    exact List.mem_append_left _ hr
  have hbefore := @approved_after text (before.flatMap Call.requests)
    (fun a ha b hb => htext a (hsubset a ha) b (hsubset b hb)) before
    fun other ho request hr => List.mem_flatMap.mpr ⟨other, ho, hr⟩
  have hafter : after text (before ++ [next]) = (call text (after text before) next).2 := by
    rw [after, List.foldl_append]
    rfl
  rw [hafter]
  refine ⟨?_, ?_, ?_, ?_⟩
  · rintro manifest sourceUrl now stored rfl hok
    have hasked : ∀ request ∈ manifest.permissions,
        request ∈ (before ++ [Call.install manifest sourceUrl now stored]).flatMap
          Call.requests := by
      intro request hr
      exact List.mem_flatMap.mpr ⟨_, List.mem_append_right _ List.mem_cons_self, hr⟩
    refine ⟨?_, ?_, install_disabled hbefore hok⟩
    · intro grant hg
      rw [call, add] at hok hg
      cases hnew : (after text before).plugin manifest.id with
      | some plugin =>
        rw [hnew] at hg
        exact hg
      | none =>
        rw [hnew] at hok hg
        simp only at hok hg
        split_ifs at hok hg
        exact (List.mem_filter.mp hg).1
    · intro grant hg
      obtain ⟨request, hrequest, hmatches⟩ := hbefore.requested grant hg
      exact ⟨request, hrequest, hmatches.approved,
        install_keeps htext hasked hok hg (hsubset request hrequest) hmatches⟩
  · rintro id removed rfl
    rw [call]
    split_ifs
    all_goals rfl
  · rintro id pluginWide perLibrary rfl grant hother
    rw [call]
    cases hplugin : (after text before).plugin id with
    | none => exact Iff.rfl
    | some plugin => exact set_others pluginWide perLibrary hother
  · rintro id library enabled error rfl herror
    exact refused_unchanged herror

/-! ### A reinstall

A request's canonical text, as `serde_json` writes it. -/

/-- A character of a JSON string, escaped where it has to be. -/
def jsonChar (c : Char) : List Char :=
  let hex := fun n : Nat => if n < 10 then Char.ofNat (48 + n) else Char.ofNat (87 + n)
  match c.toNat with
  | 34 => ['\\', '"']
  | 92 => ['\\', '\\']
  | 8 => ['\\', 'b']
  | 9 => ['\\', 't']
  | 10 => ['\\', 'n']
  | 12 => ['\\', 'f']
  | 13 => ['\\', 'r']
  | n => if n < 32 then ['\\', 'u', '0', '0', hex (n / 16), hex (n % 16)] else [c]

def jsonString (text : String) : List Char := '"' :: (text.toList.flatMap jsonChar ++ ['"'])

def jsonArray (values : List (List Char)) : List Char :=
  '[' :: (List.intercalate [','] values ++ [']'])

/-- An object, without the keys that are left out. -/
def jsonObject (fields : List (String × Option (List Char))) : List Char :=
  let written := fields.filterMap fun field =>
    field.2.map fun value => jsonString field.1 ++ ':' :: value
  Char.ofNat 123 :: (List.intercalate [','] written ++ [Char.ofNat 125])

def Permission.key : Permission → String
  | .libraryRead => "libraryRead"
  | .libraryAdd => "libraryAdd"
  | .libraryChange => "libraryChange"
  | .network => "network"
  | .listeningActivity => "listeningActivity"
  | .tracksChanged => "tracksChanged"
  | .scanFinished => "scanFinished"
  | .schedule => "schedule"
  | .played => "played"
  | .playing => "playing"
  | .searchActivity => "searchActivity"
  | .searched => "searched"
  | .albumsChanged => "albumsChanged"
  | .artistsChanged => "artistsChanged"
  | .hostRateLimits => "hostRateLimits"
  | .tagTypes => "tagTypes"

def Per.key : Per → String
  | .plugin => "plugin"
  | .user => "user"
  | .host => "host"

def Limit.json : Limit → List Char
  | .pace text => jsonString text
  | .counted limit per =>
    jsonObject [("limit", some (jsonString limit)), ("per", some (jsonString per.key))]

def TagTypeRequest.json (type : TagTypeRequest) : List Char :=
  jsonObject [("key", some (jsonString type.key)), ("name", some (jsonString type.name)),
    ("field", some (jsonString type.field))]

/-- A request as compact JSON. -/
def PermissionRequest.json (request : PermissionRequest) : String :=
  String.ofList <| jsonObject
    [("permission", some (jsonString request.permission.key)),
      ("required", some (if request.required then "true".toList else "false".toList)),
      ("reason", some (jsonString request.reason)),
      ("destinations", request.destinations.map fun hosts => jsonArray (hosts.map jsonString)),
      ("rateLimits", request.rateLimits.map fun limits =>
        jsonObject (limits.map fun limit => (limit.1, some limit.2.json))),
      ("everyMinutes", request.everyMinutes.map fun minutes => Nat.toDigits 10 minutes),
      ("types", request.types.map fun types => jsonArray (types.map TagTypeRequest.json))]

/-- Asks to read the library. -/
def reads : PermissionRequest := ⟨.libraryRead, true, "To read.", none, none, none, none⟩

/-- Asks for the network, at one host. -/
def fetches (host : String) : PermissionRequest :=
  ⟨.network, false, "To fetch.", some [host], none, none, none⟩

/-- A plugin that asks for both. -/
def lyrics (host : String) : Manifest :=
  ⟨"lyrics", "Lyrics", [reads, fetches host], (by decide : [Permission.libraryRead, .network].Nodup)⟩

/-- It is granted both, enabled in a library and uninstalled. -/
def grantedBoth : List Call :=
  [.addLibrary 1, .install (lyrics "a.org") none 0 true,
    .setGrants "lyrics" [.network] [(1, [.libraryRead])], .setEnabled "lyrics" 1 true,
    .uninstall "lyrics" true]

def reinstalled : Call := .install (lyrics "b.org") none 1 true

/-- A reinstall keeps the grant of a request made again as it was, and loses that of one that names
another host. -/
theorem plugins_approved_reinstalled :
    let tables := after PermissionRequest.json (grantedBoth ++ [reinstalled])
    (after PermissionRequest.json grantedBoth).grants =
        [⟨"lyrics", 0, .network, (fetches "a.org").json⟩, ⟨"lyrics", 1, .libraryRead, reads.json⟩] ∧
      ⟨"lyrics", 1, .libraryRead, reads.json⟩ ∈ tables.grants ∧
      ⟨"lyrics", 0, .network, (fetches "a.org").json⟩ ∉ tables.grants := by
  have hgrants : (after PermissionRequest.json grantedBoth).grants =
      [⟨"lyrics", 0, .network, (fetches "a.org").json⟩,
        ⟨"lyrics", 1, .libraryRead, reads.json⟩] := by
    decide +kernel
  have hinstalled : (call PermissionRequest.json (after PermissionRequest.json grantedBoth)
      reinstalled).1 = .ok () := by
    decide +kernel
  have htexts : ([reads, fetches "a.org", fetches "b.org"].map PermissionRequest.json).Nodup := by
    decide +kernel
  generalize PermissionRequest.json = text at hgrants hinstalled htexts ⊢
  intro tables
  have hall : ∀ request ∈ (grantedBoth ++ [reinstalled]).flatMap
      Call.requests, request ∈ [reads, fetches "a.org", fetches "b.org"] := by
    decide
  have hasked : ∀ a ∈ (grantedBoth ++ [reinstalled]).flatMap Call.requests,
      ∀ b ∈ (grantedBoth ++ [reinstalled]).flatMap Call.requests,
        text a = text b → a = b :=
    fun a ha b hb => List.inj_on_of_nodup_map htexts (hall a ha) (hall b hb)
  obtain ⟨-, -, hlast⟩ := plugins_approved text (grantedBoth ++ [reinstalled]) hasked
  obtain ⟨-, hkept, -⟩ := (hlast grantedBoth reinstalled rfl).1 (lyrics "b.org") none 1 true rfl hinstalled
  have hmade : ∀ request ∈ grantedBoth.flatMap Call.requests,
      request ∈ [reads, fetches "a.org", fetches "b.org"] := by decide
  refine ⟨hgrants, ?_, ?_⟩
  · obtain ⟨request, hrequest, htext, hiff⟩ := hkept ⟨"lyrics", 1, .libraryRead, text reads⟩
      (hgrants ▸ List.mem_cons_of_mem _ List.mem_cons_self)
    have hsame := List.inj_on_of_nodup_map htexts List.mem_cons_self (hmade _ hrequest) htext
    exact hiff.mpr fun _ => hsame ▸ List.mem_cons_self
  · obtain ⟨request, hrequest, htext, hiff⟩ := hkept ⟨"lyrics", 0, .network, text (fetches "a.org")⟩
      (hgrants ▸ List.mem_cons_self)
    have hsame := List.inj_on_of_nodup_map htexts (List.mem_cons_of_mem _ List.mem_cons_self)
      (hmade _ hrequest) htext
    intro hmem
    have hagain : request ∈ (lyrics "b.org").permissions := hiff.mp hmem rfl
    rw [← hsame] at hagain
    exact absurd hagain (by decide)

end JewelCase.Plugins
