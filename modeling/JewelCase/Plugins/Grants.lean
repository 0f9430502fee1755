import JewelCase.Network.Limits

/-!
# What plugins are granted and where they are enabled

`crates/server/src/plugins/grants.rs`, with the installs and uninstalls of `install.rs` and the
tables of `migrations/0006_plugins.sql`. How a request reads as canonical JSON is a parameter. Files
are left out but for whether they could be stored or removed.
-/
namespace JewelCase.Plugins

set_option autoImplicit false

/-! ### Manifests -/

/-- What a plugin can ask for. -/
inductive Permission where
  | libraryRead
  | libraryAdd
  | libraryChange
  | network
  | listeningActivity
  | tracksChanged
  | scanFinished
  | schedule
  | played
  | playing
  | searchActivity
  | searched
  | albumsChanged
  | artistsChanged
  | hostRateLimits
  | tagTypes
deriving DecidableEq, Repr

/-- Granted per library, rather than once for the plugin. -/
def Permission.perLibrary : Permission → Bool
  | .libraryRead | .libraryAdd | .libraryChange | .tracksChanged | .scanFinished
  | .albumsChanged | .artistsChanged => true
  | .network | .listeningActivity | .schedule | .played | .playing | .searchActivity | .searched
  | .hostRateLimits | .tagTypes => false

inductive Per where
  | plugin
  | user
  | host
deriving DecidableEq, Repr

/-- A destination's rate limit as a manifest gives it. -/
inductive Limit where
  | pace (pace : String)
  | counted (limit : String) (per : Per)
deriving DecidableEq, Repr

/-- A type of tag a plugin adds. -/
structure TagTypeRequest where
  key : String
  name : String
  field : String
deriving DecidableEq, Repr

/-- One permission a manifest asks for, and why. -/
structure PermissionRequest where
  permission : Permission
  required : Bool
  reason : String
  destinations : Option (List String)
  /-- By host. -/
  rateLimits : Option (List (String × Limit))
  everyMinutes : Option Nat
  types : Option (List TagTypeRequest)
deriving DecidableEq, Repr

/-- What a plugin says of itself. A validated one requests no permission twice. -/
structure Manifest where
  id : String
  name : String
  permissions : List PermissionRequest
  once : (permissions.map PermissionRequest.permission).Nodup

/-- The types of tag its `tagTypes` request adds. -/
def Manifest.tagTypes (manifest : Manifest) : List TagTypeRequest :=
  ((manifest.permissions.find? fun request => request.permission = .tagTypes).bind
    PermissionRequest.types).getD []

/-- The catalog's key for its type `key`. -/
def Manifest.tagTypeKey (manifest : Manifest) (key : String) : String := manifest.id ++ "." ++ key

/-- The permissions it marks required. -/
def Manifest.required (manifest : Manifest) : List Permission :=
  (manifest.permissions.filter PermissionRequest.required).map PermissionRequest.permission

/-! ### Tag types -/

/-- A type that a plugin added. -/
structure TagType where
  key : String
  name : String
  pluginId : String
  field : String
  since : Nat
deriving DecidableEq, Repr

/-- The types that plugins added, and the generation they are read with. -/
structure TagTypes where
  added : List TagType
  generation : Nat
deriving DecidableEq, Repr

def trimmed (text : String) : String := String.ofList (Network.trim text.toList)

/-- `str::to_ascii_uppercase` -/
def toAsciiUppercase (text : String) : String := text.map Char.toUpper

/-- One type registered in the generation `next`, and the generation it then has. -/
def TagTypes.upsert (types : TagTypes) (tagType : TagType) : TagTypes × Nat :=
  match types.added.find? fun old => old.key = tagType.key with
  | none => ({ types with added := types.added ++ [tagType] }, tagType.since)
  | some old =>
    let since := if old.field = tagType.field then old.since else tagType.since
    ({ types with added := types.added.map fun other =>
        if other.key = tagType.key then
          { other with name := tagType.name, since := since, field := tagType.field }
        else other }, since)

/-- Registers each type a manifest asks to add, and whether a scan must read files again. -/
def TagTypes.register (types : TagTypes) (manifest : Manifest) : TagTypes × Bool :=
  let next := types.generation + 1
  let registered := manifest.tagTypes.foldl (fun state tagType =>
    let upserted := state.1.upsert ⟨manifest.tagTypeKey tagType.key, trimmed tagType.name,
      manifest.id, toAsciiUppercase tagType.field, next⟩
    (upserted.1, state.2 || upserted.2 = next)) (types, false)
  if registered.2 then ({ registered.1 with generation := registered.1.generation + 1 }, true)
  else registered

/-! ### Tables -/

/-- A row of `plugins`. -/
structure Plugin where
  id : String
  manifest : Manifest
  sourceUrl : Option String
  installedAt : Int

/-- A row of `plugin_grants`. Library 0 is the plugin itself. -/
structure Grant where
  pluginId : String
  libraryId : Int
  permission : Permission
  /-- The manifest's request that was approved, as canonical JSON. -/
  approved : String
deriving DecidableEq, Repr

/-- A row of `plugin_libraries`. -/
structure PluginLibrary where
  pluginId : String
  libraryId : Int
  enabled : Bool
  disabledReason : Option String
deriving DecidableEq, Repr

/-- A row of `plugin_cursors`. -/
structure Cursor where
  pluginId : String
  libraryId : Int
  hook : Permission
  userId : Int
  position : Int
  failingSince : Option Int
  retryAt : Option Int
deriving DecidableEq, Repr

structure Tables where
  plugins : List Plugin
  grants : List Grant
  libraries : List Int
  pluginLibraries : List PluginLibrary
  cursors : List Cursor
  /-- The hosts whose limits a plugin is exempt from. -/
  exemptions : List (String × String)
  tagTypes : TagTypes

def Tables.empty : Tables := ⟨[], [], [], [], [], [], ⟨[], 0⟩⟩

inductive PluginError where
  | exists (name : String)
  | notFound
  | permissionsRequired (missing : List Permission)
  | internal (message : String)
deriving DecidableEq, Repr

/-- Why a library was disabled by the server rather than by the admin. -/
def REVOKED : String := "A required permission was revoked."

/-- The installed plugin with an ID. -/
def Tables.plugin (tables : Tables) (id : String) : Option Plugin :=
  tables.plugins.find? fun plugin => plugin.id = id

/-- Everything granted for a library: its permissions there, and the plugin's own. -/
def granted (tables : Tables) (id : String) (library : Int) : List Permission :=
  (tables.grants.filter fun grant =>
    grant.pluginId = id ∧ (grant.libraryId = 0 ∨ grant.libraryId = library)).map Grant.permission

/-- The required permissions that `granted` leaves out. -/
def missing (manifest : Manifest) (granted : List Permission) : List Permission :=
  manifest.required.filter fun permission => permission ∉ granted

/-! ### Setting grants -/

variable (text : PermissionRequest → String)

/-- The request approved in granting a permission, if it is asked for in that scope. -/
def approve (manifest : Manifest) (permission : Permission) (library : Bool) : Option String :=
  let request := manifest.permissions.find? fun request => request.permission = permission
  (request.filter fun _ => permission.perLibrary = library).map text

/-- `INSERT OR IGNORE` -/
def Tables.insertGrant (tables : Tables) (grant : Grant) : Tables :=
  if tables.grants.any fun other => other.pluginId = grant.pluginId &&
      other.libraryId = grant.libraryId && other.permission = grant.permission then tables
  else { tables with grants := tables.grants ++ [grant] }

def Tables.deleteGrants (tables : Tables) (id : String) (library : Int) : Tables :=
  { tables with grants := tables.grants.filter fun grant =>
      ¬ (grant.pluginId = id ∧ grant.libraryId = library) }

/-- Grants one permission to the plugin itself. -/
def setOwn (id : String) (manifest : Manifest) (state : Tables × Bool) (permission : Permission) :
    Tables × Bool :=
  match approve text manifest permission false with
  | none => state
  | some request =>
    let tables := state.1.insertGrant ⟨id, 0, permission, request⟩
    if permission = .tagTypes then
      let registered := tables.tagTypes.register manifest
      ({ tables with tagTypes := registered.1 }, state.2 || registered.2)
    else (tables, state.2)

/-- Grants one permission in a library, if there is such a library. -/
def setIn (id : String) (manifest : Manifest) (library : Int) (tables : Tables)
    (permission : Permission) : Tables :=
  match approve text manifest permission true with
  | none => tables
  | some request =>
    if library ∈ tables.libraries then tables.insertGrant ⟨id, library, permission, request⟩
    else tables

/-- Replaces what is granted in a library. -/
def setLibrary (id : String) (manifest : Manifest) (tables : Tables)
    (library : Int × List Permission) : Tables :=
  library.2.foldl (setIn text id manifest library.1) (tables.deleteGrants id library.1)

/-- Disables a library that has lost a required permission. -/
def disableLost (id : String) (manifest : Manifest) (tables : Tables) (library : Int) : Tables :=
  if missing manifest (granted tables id library) = [] then tables
  else
    { tables with pluginLibraries := tables.pluginLibraries.map fun row =>
        if row.pluginId = id ∧ row.libraryId = library then
          { row with enabled := false, disabledReason := some REVOKED }
        else row }

/-- Replaces what a plugin is granted, and whether that changed what a scan reads. -/
def set (tables : Tables) (id : String) (manifest : Manifest) (pluginWide : List Permission)
    (perLibrary : List (Int × List Permission)) : Tables × Bool :=
  let own := pluginWide.foldl (setOwn text id manifest) (tables.deleteGrants id 0, false)
  -- Library 0 holds the plugin's own grants, so it is never replaced as a library.
  let tables := (perLibrary.filter fun library => library.1 ≠ 0).foldl (setLibrary text id manifest)
    own.1
  let enabled := (tables.pluginLibraries.filter fun row => row.pluginId = id && row.enabled).map
    PluginLibrary.libraryId
  (enabled.foldl (disableLost id manifest) tables, own.2)

/-! ### Enabling -/

/-- Enables or disables a plugin in a library, or the required permissions still missing there. -/
def setEnabled (tables : Tables) (id : String) (manifest : Manifest) (library : Int)
    (enabled : Bool) : List Permission × Tables :=
  let lacking := missing manifest (granted tables id library)
  if enabled && !lacking.isEmpty then (lacking, tables)
  else
    let cursors := if enabled then
        tables.cursors.map fun cursor =>
          if cursor.pluginId = id ∧ cursor.libraryId = library then
            { cursor with failingSince := none, retryAt := none }
          else cursor
      else tables.cursors
    let rows := tables.pluginLibraries.filter fun row =>
      ¬ (row.pluginId = id ∧ row.libraryId = library)
    ([], { tables with cursors := cursors, pluginLibraries := rows ++ [⟨id, library, enabled, none⟩] })

/-! ### Installing -/

/-- Keeps, of the grants a reinstalled plugin held, only those whose request it makes again. -/
def keepRequested (tables : Tables) (manifest : Manifest) : Tables :=
  let requests := manifest.permissions.map text
  let grants := tables.grants.filter fun grant =>
    ¬ (grant.pluginId = manifest.id ∧ grant.approved ∉ requests)
  { tables with
    grants := grants
    exemptions := tables.exemptions.filter fun exemption =>
      ¬ (exemption.1 = manifest.id ∧
        ¬ ∃ grant ∈ grants, grant.pluginId = manifest.id ∧ grant.permission = .network) }

/-- Records a manifest's plugin as installed. -/
def add (tables : Tables) (manifest : Manifest) (sourceUrl : Option String) (now : Int) :
    Except PluginError Tables :=
  match tables.plugin manifest.id with
  | some _ => .error (.exists manifest.name)
  | none => .ok (keepRequested text
      { tables with plugins := tables.plugins ++ [⟨manifest.id, manifest, sourceUrl, now⟩] } manifest)

/-- What goes with a plugin's row. -/
def Tables.deletePlugin (tables : Tables) (id : String) : Tables :=
  { tables with
    plugins := tables.plugins.filter fun plugin => plugin.id ≠ id
    pluginLibraries := tables.pluginLibraries.filter fun row => row.pluginId ≠ id
    cursors := tables.cursors.filter fun cursor => cursor.pluginId ≠ id }

/-- What goes with a library's row. -/
def Tables.deleteLibrary (tables : Tables) (library : Int) : Tables :=
  { tables with
    libraries := tables.libraries.filter fun other => other ≠ library
    grants := tables.grants.filter fun grant => grant.libraryId ≠ library
    pluginLibraries := tables.pluginLibraries.filter fun row => row.libraryId ≠ library
    cursors := tables.cursors.filter fun cursor => cursor.libraryId ≠ library }

/-! ### Calls -/

inductive Call where
  /-- `stored` is whether the plugin's file could be put in place. -/
  | install (manifest : Manifest) (sourceUrl : Option String) (now : Int) (stored : Bool)
  /-- `removed` is whether its file could be removed. -/
  | uninstall (id : String) (removed : Bool)
  | setGrants (id : String) (pluginWide : List Permission)
      (perLibrary : List (Int × List Permission))
  | setEnabled (id : String) (library : Int) (enabled : Bool)
  | addLibrary (library : Int)
  | deleteLibrary (library : Int)

/-- What a call answers, and the tables after it. One that fails leaves them as they are. -/
def call (tables : Tables) : Call → Except PluginError Unit × Tables
  | .install manifest sourceUrl now stored =>
    match add text tables manifest sourceUrl now with
    | .error error => (.error error, tables)
    | .ok added =>
      if stored then (.ok (), added)
      else (.error (.internal "The plugin could not be stored."), tables)
  | .uninstall id removed =>
    if (tables.plugin id).isNone then (.error .notFound, tables)
    else if removed then (.ok (), tables.deletePlugin id)
    else (.error (.internal "The plugin could not be stored."), tables)
  | .setGrants id pluginWide perLibrary =>
    match tables.plugin id with
    | none => (.error .notFound, tables)
    | some plugin => (.ok (), (set text tables id plugin.manifest pluginWide perLibrary).1)
  | .setEnabled id library enabled =>
    match tables.plugin id with
    | none => (.error .notFound, tables)
    | some plugin =>
      let answer := setEnabled tables id plugin.manifest library enabled
      if answer.1 ≠ [] then (.error (.permissionsRequired answer.1), answer.2)
      -- A row of `plugin_libraries` names a library there is.
      else if library ∉ tables.libraries then
        (.error (.internal "FOREIGN KEY constraint failed"), tables)
      else (.ok (), answer.2)
  | .addLibrary library =>
    -- No library has the ID 0, nor one that another has.
    if library = 0 ∨ library ∈ tables.libraries then
      (.error (.internal "UNIQUE constraint failed: libraries.id"), tables)
    else (.ok (), { tables with libraries := tables.libraries ++ [library] })
  | .deleteLibrary library =>
    if library ∈ tables.libraries then (.ok (), tables.deleteLibrary library)
    else (.error .notFound, tables)

/-- The tables after calls from the start. -/
def after (calls : List Call) : Tables :=
  calls.foldl (fun tables next => (call text tables next).2) .empty

end JewelCase.Plugins
