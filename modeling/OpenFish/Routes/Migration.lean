/-
`models/model_route_migrate.py` and `models/table_rebuild.py` on SQLite: the boot-time repair of the `model_routes` table
that an earlier version left. The provider `mineru` is retired first, then the metadata columns are added, then the
retired column is dropped.
-/
import OpenFish.Lib.Sql
import OpenFish.Lib.Text

namespace OpenFish.Routes

open Lib Lib.Sql

/-! ## The model's table -/

def providers : List String := ["openai", "anthropic"]

def kinds : List String := ["chat", "completion", "embedding", "rerank", "ocr", "asr", "tts"]

def apiKeyPrefix : String := "enc:v1:"

def kindCheck : Check := ⟨"kind", kinds⟩

/-- `ADDED_COLUMNS`. -/
def addedColumns : List String := ["context_window", "max_tokens", "modalities", "reasoning"]

def retiredColumn : String := "api_key_env"

/-- The columns of `ModelRoute`, its checks, its primary key and its unique index. -/
def modelRoute : Schema where
  columns :=
    [⟨"id", true⟩, ⟨"name", true⟩, ⟨"provider", true⟩, ⟨"kind", true⟩, ⟨"base_url", true⟩, ⟨"path", true⟩,
      ⟨"model", true⟩, ⟨"api_key", true⟩, ⟨"aliases", true⟩, ⟨"enabled", true⟩, ⟨"description", true⟩,
      ⟨"context_window", false⟩, ⟨"max_tokens", false⟩, ⟨"modalities", false⟩, ⟨"reasoning", false⟩,
      ⟨"health", false⟩, ⟨"created_at", true⟩, ⟨"updated_at", true⟩]
  checks := [⟨"provider", providers⟩, kindCheck]
  uniques := ["id", "name"]

theorem modelRoute_nodup : modelRoute.names.Nodup := by decide

/-- `in_check`. -/
def inCheck (column : String) (values : List String) : String :=
  column ++ " IN (" ++ String.intercalate ", " (values.map fun value => "'" ++ value ++ "'") ++ ")"

def retiredProvider : String := "mineru"

def providerReplacement : String := "openai"

def retiredProviderPath : String := "/file_parse"

/-! ## The database -/

structure Database where
  /-- The table `model_routes`, where there is one. -/
  routes : Option Relation
  /-- What `PRAGMA foreign_key_check` finds, in other tables: this one has no foreign key, and none refers to it. -/
  orphans : List String

/-- `columns_present`. -/
def columnsPresent (db : Database) : List String :=
  match db.routes with
  | none => []
  | some table => table.schema.names

/-- `rebuild_table`: the new table stays when only the check of the foreign keys fails. -/
def rebuildTable : EStateM String Database Unit := fun db =>
  match db.routes with
  | none => .error "no such table: model_routes" db
  | some table =>
    match table.insertSelect modelRoute modelRoute_nodup with
    | .error why => .error why db
    | .ok rebuilt =>
      if db.orphans = [] then .ok () { db with routes := some rebuilt }
      else .error ("foreign key violations after rebuilding model_routes: " ++ toString (db.orphans.take 5))
        { db with routes := some rebuilt }

/-! ## The steps -/

/-- SQLite's `LOWER` of a value that may have letters. -/
def sqlLower : Value → Option String
  | .text s => some (String.ofList (s.toList.map Char.toLower))
  | .blob bytes => some (String.ofList (bytes.map fun byte => (Char.ofNat byte.toNat).toLower))
  | .null | .integer _ | .real _ => none

/-- `LOWER(provider) = 'mineru'`. -/
def retired (row : Row) : Bool := sqlLower (row "provider") = some retiredProvider

structure Retired where
  rewritten : List Value
  constraint : Option String
  deriving DecidableEq, Repr

/-- The two `UPDATE`s of one transaction, where a row is retired. -/
def rewriteRoutes (table : Relation) : Except String Relation :=
  if table.rows.filter retired = [] then .ok table
  else
    match table.update "path" (.text "") fun row => retired row ∧ row "path" = .text retiredProviderPath with
    | .error why => .error why
    | .ok cleared => cleared.update "provider" (.text providerReplacement) retired

/-- `_provider_check_is_stale`. -/
def providerCheckIsStale (table : Relation) : Bool :=
  table.schema.checks.any fun check => Text.contains retiredProvider (Text.lower (inCheck check.column check.values))

/-- `retire_mineru_provider`. -/
def retireMineruProvider : EStateM String Database Retired := fun db =>
  match db.routes with
  | none => .ok ⟨[], none⟩ db
  | some table =>
    let names := (table.rows.filter retired).map fun row => row "name"
    match rewriteRoutes table with
    | .error why => .error why db
    | .ok rewritten =>
      let db := { db with routes := some rewritten }
      if providerCheckIsStale rewritten then
        match rebuildTable db with
        | .error why db => .error why db
        | .ok () db => .ok ⟨names, some "rebuilt"⟩ db
      else .ok ⟨names, none⟩ db

/-- The columns one after another, in one transaction. -/
def addColumns (table : Relation) : List String → Except String Relation
  | [] => .ok table
  | column :: rest =>
    match table.addColumn column with
    | .error why => .error why
    | .ok table => addColumns table rest

/-- `add_metadata_columns`. -/
def addMetadataColumns : EStateM String Database (List String) := fun db =>
  match db.routes with
  | none => .ok [] db
  | some table =>
    let missing := addedColumns.filter (· ∉ table.schema.names)
    match addColumns table missing with
    | .error why => .error why db
    | .ok table => .ok missing { db with routes := some table }

/-- `retire_api_key_env`. -/
def retireApiKeyEnv : EStateM String Database Bool := fun db =>
  match db.routes with
  | none => .ok false db
  | some table =>
    if retiredColumn ∉ table.schema.names then .ok false db
    else
      match rebuildTable db with
      | .error why db => .error why db
      | .ok () db => .ok true db

/-- `COALESCE(api_key, '') <> '' AND api_key NOT LIKE :prefix`. -/
def plaintextKey (value : Value) : Bool :=
  match value with
  | .null => false
  | .text "" => false
  | value =>
    match sqlLower value with
    | some lowered => !Text.startsWith apiKeyPrefix lowered
    | none => true

/-- `plaintext_key_count`. -/
def plaintextKeyCount (db : Database) : Nat :=
  match db.routes with
  | none => 0
  | some table => if "api_key" ∉ table.schema.names then 0 else table.rows.countP fun row => plaintextKey (row "api_key")

structure Report where
  rewrittenRoutes : List Value
  droppedColumns : List String
  addedColumns : List String
  plaintextKeys : Nat
  deriving DecidableEq, Repr

/-- `sorted(columns - others)`, under the table's name. -/
def difference (columns others : List String) : List String :=
  ((columns.filter (· ∉ others)).mergeSort fun a b => a ≤ b).map ("model_routes." ++ ·)

/-- `ensure_schema`. -/
def ensureSchema : EStateM String Database Report := do
  let columnsBefore := columnsPresent (← get)
  let retired ← retireMineruProvider
  let _ ← addMetadataColumns
  let _ ← retireApiKeyEnv
  let columnsAfter := columnsPresent (← get)
  return {
    rewrittenRoutes := retired.rewritten
    droppedColumns := difference columnsBefore columnsAfter
    addedColumns := difference columnsAfter columnsBefore
    plaintextKeys := plaintextKeyCount (← get) }

end OpenFish.Routes
