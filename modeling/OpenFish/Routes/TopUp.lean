/-
The repair of `model_routes` keeps every row and is done once, exactly where the rebuild that retires the provider finds
the metadata columns: it is made before they are added.
-/
import OpenFish.Lib.Effect
import OpenFish.Routes.Migration

namespace OpenFish.Routes

open Lib Lib.Sql

/-! ## Tables of earlier versions -/

/-- A table that an earlier version left: the retired column or not, the metadata columns or not, and a check that admits
the retired provider or not. -/
structure IsLegacy (r : Relation) : Prop where
  known : ∀ c ∈ r.schema.columns, c ∈ modelRoute.columns ∨ c = ⟨retiredColumn, true⟩
  required : ∀ c ∈ modelRoute.columns, c.name ∉ addedColumns → c ∈ r.schema.columns
  checks : r.schema.checks = modelRoute.checks ∨
    ∃ values, (∀ p, p ∈ values ↔ p ∈ providers ∨ p = retiredProvider) ∧ r.schema.checks = [⟨"provider", values⟩, kindCheck]
  uniques : r.schema.uniques = modelRoute.uniques

/-- The row under the current vocabulary. -/
def migrated (row : Row) : Row := fun c =>
  if row "provider" = .text retiredProvider then
    if c = "provider" then .text providerReplacement
    else if c = "path" ∧ row "path" = .text retiredProviderPath then .text ""
    else row c
  else row c

/-- The model's columns, checks and indexes. -/
structure IsCurrent (r : Relation) : Prop where
  columns : ∀ c, c ∈ r.schema.columns ↔ c ∈ modelRoute.columns
  checks : r.schema.checks = modelRoute.checks
  uniques : r.schema.uniques = modelRoute.uniques

/-- The values of a row in the columns of both tables. -/
def Kept (r r' : Relation) (row row' : Row) : Prop :=
  ∀ c ∈ r.schema.names, c ∈ r'.schema.names → row' c = migrated row c

/-- The call answers, loses nothing, and a second one changes nothing. -/
def Lossless (db : Database) (r : Relation) : Prop :=
  ∃ report r', ensureSchema db = .ok report { db with routes := some r' } ∧ IsCurrent r' ∧
    List.Forall₂ (Kept r r') r.rows r'.rows ∧
    ∃ count, ensureSchema { db with routes := some r' } =
      .ok { rewrittenRoutes := [], droppedColumns := [], addedColumns := [], plaintextKeys := count }
        { db with routes := some r' }

/-- Where the retired provider is still admitted the metadata columns are there, and where the table has to be rebuilt no
other table has a row that refers to none. -/
def Repairable (db : Database) (r : Relation) : Prop :=
  (providerCheckIsStale r = true → ∀ c ∈ addedColumns, c ∈ r.schema.names) ∧
    (providerCheckIsStale r = true ∨ retiredColumn ∈ r.schema.names → db.orphans = [])

/-! ## The check -/

/-- A check that admits the retired provider names it. -/
theorem stale_of_mem {column : String} {values : List String} (h : retiredProvider ∈ values) :
    Text.contains retiredProvider (Text.lower (inCheck column values)) = true := by
  refine Text.contains_lower (by decide) ?_
  have hquoted : ("'" ++ retiredProvider ++ "'").toList ∈
      (values.map fun value => "'" ++ value ++ "'").map String.toList :=
    List.mem_map_of_mem (List.mem_map_of_mem h)
  have hname : retiredProvider.toList <:+: ("'" ++ retiredProvider ++ "'").toList := by decide
  rw [inCheck, String.toList_append, String.toList_append, String.toList_intercalate]
  refine (hname.trans (Text.infix_intercalate ", ".toList hquoted)).trans ?_
  exact (List.suffix_append _ _).isInfix.trans (List.prefix_append _ _).isInfix

theorem not_stale_modelRoute {r : Relation} (h : r.schema.checks = modelRoute.checks) :
    providerCheckIsStale r = false := by
  rw [providerCheckIsStale, h, List.any_eq_false]
  -- no check of the model has the letter
  have hletter : ∀ check ∈ modelRoute.checks, 'u' ∉ (Text.lower (inCheck check.column check.values)).toList := by
    intro check hcheck
    rw [Text.lower, String.toList_ofList, inCheck, String.toList_append, String.toList_append, String.toList_append,
      String.toList_intercalate]
    revert check
    decide
  intro check hcheck
  rw [Text.not_contains_of_not_mem (c := 'u') (by decide) (hletter check hcheck)]
  exact Bool.false_ne_true

/-! ## The rows of the retired provider -/

/-- The model's table but for its columns: the rows fit it. -/
structure Fits (r : Relation) : Prop where
  known : ∀ c ∈ r.schema.columns, c ∈ modelRoute.columns ∨ c = ⟨retiredColumn, true⟩
  required : ∀ c ∈ modelRoute.columns, c.name ∉ addedColumns → c ∈ r.schema.columns
  uniques : r.schema.uniques = modelRoute.uniques
  provider : ∀ row ∈ r.rows, ∃ p ∈ providers, row "provider" = .text p
  kind : ∀ row ∈ r.rows, kindCheck.Admits (row "kind")

theorem retired_of_text {row : Row} {p : String} (hrow : row "provider" = .text p)
    (hp : p ∈ providers ∨ p = retiredProvider) : retired row = true ↔ p = retiredProvider := by
  rw [retired, hrow]
  rcases hp with hp | rfl
  · have hall : ∀ p ∈ providers, (sqlLower (.text p) = some retiredProvider ↔ p = retiredProvider) := by decide
    simpa using hall p hp
  · decide

/-- Every provider of a legacy table is a current one or the retired one. -/
theorem IsLegacy.provider {r : Relation} (h : IsLegacy r) {row : Row} (hrow : row ∈ r.rows) :
    ∃ p, (p ∈ providers ∨ p = retiredProvider) ∧ row "provider" = .text p := by
  obtain ⟨values, hvalues, hcheck⟩ : ∃ values, (∀ p ∈ values, p ∈ providers ∨ p = retiredProvider) ∧
      (⟨"provider", values⟩ : Check) ∈ r.schema.checks := by
    rcases h.checks with hchecks | ⟨values, hvalues, hchecks⟩
    · exact ⟨providers, fun p hp => .inl hp, by rw [hchecks]; exact List.mem_cons_self ..⟩
    · exact ⟨values, fun p hp => (hvalues p).1 hp, by rw [hchecks]; exact List.mem_cons_self ..⟩
  obtain ⟨hnull, hadmits⟩ := r.meets.1 row hrow
  have hcolumn : (⟨"provider", true⟩ : Column) ∈ r.schema.columns := h.required _ (by decide) (by decide)
  have hgiven := hnull _ hcolumn rfl
  have hadmit := hadmits _ hcheck
  cases hvalue : row "provider" with
  | text p =>
    rw [hvalue] at hadmit
    exact ⟨p, hvalues p hadmit, rfl⟩
  | null => exact absurd hvalue hgiven
  | integer n => rw [hvalue] at hadmit; exact hadmit.elim
  | real bits => rw [hvalue] at hadmit; exact hadmit.elim
  | blob bytes => rw [hvalue] at hadmit; exact hadmit.elim

theorem IsLegacy.retired_iff {r : Relation} (h : IsLegacy r) {row : Row} (hrow : row ∈ r.rows) :
    retired row = true ↔ row "provider" = .text retiredProvider := by
  obtain ⟨p, hp, hvalue⟩ := h.provider hrow
  rw [retired_of_text hvalue hp, hvalue, Value.text.injEq]

theorem IsLegacy.kind {r : Relation} (h : IsLegacy r) {row : Row} (hrow : row ∈ r.rows) :
    kindCheck.Admits (row "kind") := by
  refine (r.meets.1 row hrow).2 kindCheck ?_
  rcases h.checks with hchecks | ⟨values, -, hchecks⟩
  · rw [hchecks]
    decide
  · rw [hchecks]
    exact List.mem_cons_of_mem _ (List.mem_singleton_self _)

theorem migrated_of_ne {row : Row} (h : row "provider" ≠ .text retiredProvider) : migrated row = row :=
  funext fun _ => if_neg h

/-- The rewritten rows of a legacy table fit the model. -/
theorem IsLegacy.fits {r r' : Relation} (h : IsLegacy r) (hschema : r'.schema = r.schema)
    (hrows : r'.rows = r.rows.map migrated) : Fits r' where
  known := hschema ▸ h.known
  required := hschema ▸ h.required
  uniques := hschema ▸ h.uniques
  provider := by
    intro row hrow
    rw [hrows] at hrow
    obtain ⟨old, hold, rfl⟩ := List.mem_map.1 hrow
    by_cases hret : old "provider" = .text retiredProvider
    · exact ⟨providerReplacement, by decide, by rw [migrated, if_pos hret, if_pos rfl]⟩
    · obtain ⟨p, hp, hvalue⟩ := h.provider hold
      rw [migrated_of_ne hret]
      refine ⟨p, hp.resolve_right fun heq => hret ?_, hvalue⟩
      rw [hvalue, heq]
  kind := by
    intro row hrow
    rw [hrows] at hrow
    obtain ⟨old, hold, rfl⟩ := List.mem_map.1 hrow
    have hsame : migrated old "kind" = old "kind" := by
      unfold migrated
      split
      · rw [if_neg (by decide), if_neg fun hpath => absurd hpath.1 (by decide)]
      · rfl
    rw [hsame]
    exact h.kind hold

theorem IsLegacy.checks_column {r : Relation} (h : IsLegacy r) {check : Check} (hcheck : check ∈ r.schema.checks) :
    check.column = "provider" ∧ providerReplacement ∈ check.values ∨ check = kindCheck := by
  rcases h.checks with hchecks | ⟨values, hvalues, hchecks⟩
  · rw [hchecks] at hcheck
    rcases List.mem_cons.1 hcheck with rfl | hcheck
    · exact .inl ⟨rfl, by decide⟩
    · exact .inr (List.mem_singleton.1 hcheck)
  · rw [hchecks] at hcheck
    rcases List.mem_cons.1 hcheck with rfl | hcheck
    · exact .inl ⟨rfl, (hvalues _).2 (.inl (by decide))⟩
    · exact .inr (List.mem_singleton.1 hcheck)

theorem IsLegacy.mem_names {r : Relation} (h : IsLegacy r) {c : Column} (hc : c ∈ modelRoute.columns)
    (hadded : c.name ∉ addedColumns) : c.name ∈ r.schema.names :=
  List.mem_map_of_mem (h.required c hc hadded)

/-- The two updates of a row, one after the other. -/
theorem updates_eq_migrated {row : Row} (h : retired row = true ↔ row "provider" = .text retiredProvider) :
    ((fun row => if retired row then assign "provider" (.text providerReplacement) row else row) ∘ fun row =>
      if decide (retired row ∧ row "path" = .text retiredProviderPath) = true then assign "path" (.text "") row
      else row) row = migrated row := by
  simp only [Function.comp_apply, decide_eq_true_eq]
  by_cases hret : retired row = true
  · have hsame : retired (assign "path" (.text "") row) = true := by
      rw [retired, assign_of_ne (by decide)]
      exact hret
    funext c
    simp only [hret, true_and, migrated, h.1 hret, if_true]
    by_cases hpath : row "path" = .text retiredProviderPath
    · rw [if_pos hpath, if_pos hsame]
      by_cases hc : c = "provider"
      · rw [hc, assign_self, if_pos rfl]
      · rw [assign_of_ne hc, if_neg hc]
        by_cases hc' : c = "path"
        · rw [hc', assign_self, if_pos ⟨rfl, hpath⟩]
        · rw [assign_of_ne hc', if_neg fun hand => hc' hand.1]
    · rw [if_neg hpath, if_pos hret]
      by_cases hc : c = "provider"
      · rw [hc, assign_self, if_pos rfl]
      · rw [assign_of_ne hc, if_neg hc, if_neg fun hand => hpath hand.2]
  · have hinner : (if retired row = true ∧ row "path" = .text retiredProviderPath then assign "path" (.text "") row
        else row) = row := if_neg fun hand => hret hand.1
    rw [hinner, if_neg hret]
    exact (migrated_of_ne fun hprovider => hret (h.2 hprovider)).symm

theorem rewriteRoutes_spec {r : Relation} (h : IsLegacy r) :
    ∃ r', rewriteRoutes r = .ok r' ∧ r'.schema = r.schema ∧ r'.rows = r.rows.map migrated := by
  unfold rewriteRoutes
  by_cases hnone : r.rows.filter retired = []
  · refine ⟨r, if_pos hnone, rfl, ?_⟩
    rw [List.filter_eq_nil_iff] at hnone
    have hsame : r.rows.map migrated = r.rows.map id := List.map_congr_left fun row hrow =>
      migrated_of_ne fun hret => hnone row hrow ((h.retired_iff hrow).2 hret)
    rw [hsame, List.map_id]
  · have huniques : r.schema.uniques = ["id", "name"] := h.uniques
    obtain ⟨cleared, hcleared, hschema, hrows⟩ := Relation.update_spec (r := r) "path" (.text "")
      (fun row => retired row ∧ row "path" = .text retiredProviderPath)
      (h.mem_names (c := ⟨"path", true⟩) (by decide) (by decide))
      (fun row hrow _ => (r.meets.1 row hrow).assign fun check hcheck hname => by
        rcases h.checks_column hcheck with ⟨hprovider, -⟩ | rfl
        · rw [hprovider] at hname
          exact absurd hname (by decide)
        · exact absurd hname (by decide))
      (by rw [huniques]; decide)
    obtain ⟨r', hr', hschema', hrows'⟩ := Relation.update_spec (r := cleared) "provider"
      (.text providerReplacement) retired (hschema ▸ h.mem_names (c := ⟨"provider", true⟩) (by decide) (by decide))
      (fun row hrow _ => (cleared.meets.1 row hrow).assign fun check hcheck hname => by
        rw [hschema] at hcheck
        rcases h.checks_column hcheck with ⟨-, hvalues⟩ | rfl
        · exact hvalues
        · exact absurd hname (by decide))
      (by rw [hschema, huniques]; decide)
    refine ⟨r', ?_, hschema'.trans hschema, ?_⟩
    · rw [if_neg hnone, hcleared]
      exact hr'
    · rw [hrows', hrows, List.map_map]
      exact List.map_congr_left fun row hrow => updates_eq_migrated (h.retired_iff hrow)

/-! ## The steps -/

/-- A column of the model whose name the table has is a column of the table. -/
theorem Fits.mem_columns {r : Relation} (h : Fits r) {c : Column} (hc : c ∈ modelRoute.columns)
    (hname : c.name ∈ r.schema.names) : c ∈ r.schema.columns := by
  obtain ⟨c', hc', heq⟩ := List.mem_map.1 hname
  rcases h.known c' hc' with hmodel | rfl
  · have hsame : c' = c := List.inj_on_of_nodup_map modelRoute_nodup hmodel hc heq
    exact hsame ▸ hc'
  · have hall : ∀ c ∈ modelRoute.columns, c.name ≠ retiredColumn := by decide
    exact absurd heq.symm (hall c hc)

theorem Fits.columns {r : Relation} (h : Fits r) (hadded : ∀ c ∈ addedColumns, c ∈ r.schema.names) :
    ∀ c ∈ modelRoute.columns, c ∈ r.schema.columns := by
  intro c hc
  by_cases hname : c.name ∈ addedColumns
  · exact h.mem_columns hc (hadded _ hname)
  · exact h.required c hc hname

/-- A table that fits and has the metadata columns is rebuilt to the model's. -/
theorem Fits.insertSelect {r : Relation} (h : Fits r) (hadded : ∀ c ∈ addedColumns, c ∈ r.schema.names) :
    ∃ r', r.insertSelect modelRoute modelRoute_nodup = .ok r' ∧ r'.schema = modelRoute ∧
      r'.rows = r.rows.map (restrict modelRoute.names) := by
  have hcolumns := h.columns hadded
  apply Relation.insertSelect_spec
  · intro c hc
    obtain ⟨column, hcolumn, rfl⟩ := List.mem_map.1 hc
    exact List.mem_map_of_mem (hcolumns column hcolumn)
  · decide
  · intro row hrow
    refine ⟨fun column hcolumn hnot => (r.meets.1 row hrow).1 column (hcolumns column hcolumn) hnot, ?_⟩
    intro check hcheck
    rcases List.mem_cons.1 hcheck with rfl | hcheck
    · obtain ⟨p, hp, hvalue⟩ := h.provider row hrow
      rw [hvalue]
      exact hp
    · rw [List.mem_singleton.1 hcheck]
      exact h.kind row hrow
  · rw [h.uniques]
    decide

theorem rebuildTable_spec {r : Relation} (h : Fits r) (hadded : ∀ c ∈ addedColumns, c ∈ r.schema.names)
    (db : Database) (hdb : db.routes = some r) :
    ∃ r', r'.schema = modelRoute ∧ r'.rows = r.rows.map (restrict modelRoute.names) ∧
      (db.orphans = [] → rebuildTable db = .ok () { db with routes := some r' }) ∧
      (db.orphans ≠ [] → ∃ why, rebuildTable db = .error why { db with routes := some r' }) := by
  obtain ⟨r', hr', hschema, hrows⟩ := h.insertSelect hadded
  refine ⟨r', hschema, hrows, fun hnone => ?_, fun hsome => ?_⟩
  · simp only [rebuildTable, hdb, hr', if_pos hnone]
  · simp only [rebuildTable, hdb, hr', if_neg hsome]
    exact ⟨_, rfl⟩

/-- A rebuild fails where the model has a column that the table has not. -/
theorem rebuildTable_error {r : Relation} (hmissing : ¬ ∀ c ∈ addedColumns, c ∈ r.schema.names) (db : Database)
    (hdb : db.routes = some r) : ∃ why, rebuildTable db = .error why db := by
  obtain ⟨c, hc, hc'⟩ : ∃ c ∈ addedColumns, c ∉ r.schema.names := by simpa using hmissing
  have hmodel : ∀ c ∈ addedColumns, c ∈ modelRoute.names := by decide
  obtain ⟨why, hwhy⟩ := Relation.insertSelect_error modelRoute_nodup ⟨c, hmodel c hc, hc'⟩
  exact ⟨why, by simp only [rebuildTable, hdb, hwhy]⟩

theorem addColumns_spec {r : Relation} (columns : List String) (hnodup : columns.Nodup)
    (hnew : ∀ c ∈ columns, c ∉ r.schema.names) :
    ∃ r', addColumns r columns = .ok r' ∧ r'.rows = r.rows ∧
      r'.schema = { r.schema with columns := r.schema.columns ++ columns.map fun c => ⟨c, false⟩ } := by
  induction columns generalizing r with
  | nil =>
    refine ⟨r, rfl, rfl, ?_⟩
    rw [List.map_nil, List.append_nil]
  | cons c rest ih =>
    obtain ⟨hc, hnodup⟩ := List.nodup_cons.1 hnodup
    obtain ⟨r₁, hr₁, hschema₁, hrows₁⟩ := Relation.addColumn_spec (hnew c (List.mem_cons_self ..))
    have hnew₁ : ∀ c' ∈ rest, c' ∉ r₁.schema.names := by
      intro c' hc' hmem
      rw [hschema₁, Schema.names, List.map_append, List.mem_append] at hmem
      rcases hmem with hmem | hmem
      · exact hnew c' (List.mem_cons_of_mem _ hc') hmem
      · rw [List.map_singleton, List.mem_singleton] at hmem
        have hsame : c' = c := hmem
        exact hc (hsame ▸ hc')
    obtain ⟨r', hr', hrows', hschema'⟩ := ih hnodup hnew₁
    refine ⟨r', ?_, hrows'.trans hrows₁, ?_⟩
    · simp only [addColumns, hr₁, hr']
    · rw [hschema', hschema₁, List.append_assoc, List.map_cons]
      rfl

/-- The metadata columns are added, and nothing else changes. -/
theorem addMetadataColumns_spec {r : Relation} (db : Database) (hdb : db.routes = some r) :
    ∃ missing r', addMetadataColumns db = .ok missing { db with routes := some r' } ∧ r'.rows = r.rows ∧
      (∀ c, c ∈ r'.schema.columns ↔ c ∈ r.schema.columns ∨ c.name ∈ addedColumns ∧ c.name ∉ r.schema.names ∧ c.notNull = false) ∧
      r'.schema.checks = r.schema.checks ∧ r'.schema.uniques = r.schema.uniques := by
  obtain ⟨r', hr', hrows, hschema⟩ := addColumns_spec (r := r) (addedColumns.filter (· ∉ r.schema.names))
    (List.Nodup.filter _ (by decide)) (fun c hc => by simpa using (List.mem_filter.1 hc).2)
  have hstep : addMetadataColumns db =
      .ok (addedColumns.filter (· ∉ r.schema.names)) { db with routes := some r' } := by
    simp only [addMetadataColumns, hdb, hr']
  refine ⟨_, r', hstep, hrows, fun c => ?_, by rw [hschema], by rw [hschema]⟩
  rw [hschema, List.mem_append]
  refine or_congr_right ⟨fun hc => ?_, fun ⟨hadded, hnew, hnull⟩ => ?_⟩
  · obtain ⟨name, hname, rfl⟩ := List.mem_map.1 hc
    obtain ⟨hadded, hnew⟩ := List.mem_filter.1 hname
    exact ⟨hadded, by simpa using hnew, rfl⟩
  · refine List.mem_map.2 ⟨c.name, List.mem_filter.2 ⟨hadded, by simpa using hnew⟩, ?_⟩
    rw [← hnull]

theorem addMetadataColumns_present {r : Relation} (h : ∀ c ∈ addedColumns, c ∈ r.schema.names) {db : Database}
    (hdb : db.routes = some r) : addMetadataColumns db = .ok [] db := by
  have hnone : addedColumns.filter (· ∉ r.schema.names) = [] :=
    List.filter_eq_nil_iff.2 fun c hc => by simpa using h c hc
  obtain ⟨routes, orphans⟩ := db
  cases hdb
  simp only [addMetadataColumns, hnone, addColumns]

theorem retireApiKeyEnv_absent {r : Relation} (h : retiredColumn ∉ r.schema.names) {db : Database}
    (hdb : db.routes = some r) : retireApiKeyEnv db = .ok false db := by
  simp only [retireApiKeyEnv, hdb, if_pos h]

theorem retireApiKeyEnv_present {r : Relation} (h : retiredColumn ∈ r.schema.names) (db : Database)
    (hdb : db.routes = some r) :
    (∀ db', rebuildTable db = .ok () db' → retireApiKeyEnv db = .ok true db') ∧
      ∀ why db', rebuildTable db = .error why db' → retireApiKeyEnv db = .error why db' := by
  constructor
  · intro db' hdb'
    simp only [retireApiKeyEnv, hdb, if_neg (not_not_intro h), hdb']
  · intro why db' hdb'
    simp only [retireApiKeyEnv, hdb, if_neg (not_not_intro h), hdb']

theorem ensureSchema_eq {db db₁ db₂ db₃ : Database} {x : Retired} {y : List String} {z : Bool}
    (h₁ : retireMineruProvider db = .ok x db₁) (h₂ : addMetadataColumns db₁ = .ok y db₂)
    (h₃ : retireApiKeyEnv db₂ = .ok z db₃) :
    ensureSchema db = .ok ⟨x.rewritten, difference (columnsPresent db) (columnsPresent db₃),
      difference (columnsPresent db₃) (columnsPresent db), plaintextKeyCount db₃⟩ db₃ := by
  rw [ensureSchema, get_bind, bind_ok h₁, bind_ok h₂, bind_ok h₃, get_bind, get_bind]
  rfl

theorem ensureSchema_error {db db₁ : Database} {why : String} (h : retireMineruProvider db = .error why db₁) :
    ensureSchema db = .error why db₁ := by
  rw [ensureSchema, get_bind, bind_error h]

theorem ensureSchema_error_last {db db₁ db₂ db₃ : Database} {x : Retired} {y : List String} {why : String}
    (h₁ : retireMineruProvider db = .ok x db₁) (h₂ : addMetadataColumns db₁ = .ok y db₂)
    (h₃ : retireApiKeyEnv db₂ = .error why db₃) : ensureSchema db = .error why db₃ := by
  rw [ensureSchema, get_bind, bind_ok h₁, bind_ok h₂, bind_error h₃]

/-! ## The second call -/

theorem difference_self {columns others : List String} (h : ∀ c ∈ columns, c ∈ others) : difference columns others = [] := by
  have hnone : columns.filter (· ∉ others) = [] := List.filter_eq_nil_iff.2 fun c hc => by simpa using h c hc
  rw [difference, hnone, List.mergeSort_nil, List.map_nil]

theorem IsCurrent.legacy {r : Relation} (h : IsCurrent r) : IsLegacy r where
  known c hc := .inl ((h.columns c).1 hc)
  required c hc _ := (h.columns c).2 hc
  checks := .inl h.checks
  uniques := h.uniques

theorem IsCurrent.mem_names {r : Relation} (h : IsCurrent r) {c : String} : c ∈ r.schema.names ↔ c ∈ modelRoute.names := by
  simp only [Schema.names, List.mem_map, h.columns]

/-- A current table is left as it is. -/
theorem ensureSchema_current {r : Relation} (h : IsCurrent r) {db : Database} (hdb : db.routes = some r) :
    ensureSchema db = .ok ⟨[], [], [], plaintextKeyCount db⟩ db := by
  have hnone : r.rows.filter retired = [] := by
    refine List.filter_eq_nil_iff.2 fun row hrow hret => ?_
    obtain ⟨p, hp, hvalue⟩ := h.legacy.provider hrow
    have hadmits := (r.meets.1 row hrow).2 ⟨"provider", providers⟩ (by rw [h.checks]; exact List.mem_cons_self ..)
    rw [(h.legacy.retired_iff hrow).1 hret] at hadmits
    exact absurd hadmits (by decide)
  have hretire : retireMineruProvider db = .ok ⟨[], none⟩ db := by
    obtain ⟨routes, orphans⟩ := db
    cases hdb
    simp only [retireMineruProvider, rewriteRoutes, hnone, if_true, not_stale_modelRoute h.checks, List.map_nil]
    rfl
  have hadded : ∀ c ∈ addedColumns, c ∈ r.schema.names := by
    have hall : ∀ c ∈ addedColumns, c ∈ modelRoute.names := by decide
    exact fun c hc => h.mem_names.2 (hall c hc)
  have habsent : retiredColumn ∉ r.schema.names := fun hmem => absurd (h.mem_names.1 hmem) (by decide)
  rw [ensureSchema_eq hretire (addMetadataColumns_present hadded hdb) (retireApiKeyEnv_absent habsent hdb),
    difference_self fun _ => id]

/-! ## A legacy table -/

theorem IsLegacy.checks_of_not_stale {r : Relation} (h : IsLegacy r) (hstale : providerCheckIsStale r ≠ true) :
    r.schema.checks = modelRoute.checks := by
  rcases h.checks with hchecks | ⟨values, hvalues, hchecks⟩
  · exact hchecks
  · refine absurd (List.any_eq_true.2 ⟨⟨"provider", values⟩, ?_, ?_⟩) hstale
    · rw [hchecks]
      exact List.mem_cons_self ..
    · exact stale_of_mem ((hvalues _).2 (.inr rfl))

/-- The provider is retired: the rows are rewritten, and the table is rebuilt where its check is stale. -/
theorem retireMineruProvider_spec {r : Relation} (h : IsLegacy r) {db : Database} (hdb : db.routes = some r) :
    ∃ r₁ names, Fits r₁ ∧ r₁.schema = r.schema ∧ r₁.rows = r.rows.map migrated ∧
      (providerCheckIsStale r ≠ true → retireMineruProvider db = .ok ⟨names, none⟩ { db with routes := some r₁ }) ∧
      (providerCheckIsStale r = true →
        (∀ db', rebuildTable { db with routes := some r₁ } = .ok () db' →
          retireMineruProvider db = .ok ⟨names, some "rebuilt"⟩ db') ∧
        ∀ why db', rebuildTable { db with routes := some r₁ } = .error why db' →
          retireMineruProvider db = .error why db') := by
  obtain ⟨r₁, hr₁, hschema, hrows⟩ := rewriteRoutes_spec h
  have hstale : providerCheckIsStale r₁ = providerCheckIsStale r := by
    rw [providerCheckIsStale, hschema, providerCheckIsStale]
  refine ⟨r₁, (r.rows.filter retired).map fun row => row "name", h.fits hschema hrows, hschema, hrows, fun hnot => ?_,
    fun hold => ⟨fun db' hdb' => ?_, fun why db' hdb' => ?_⟩⟩
  · rw [← hstale] at hnot
    simp only [retireMineruProvider, hdb, hr₁, if_neg hnot]
  · rw [← hstale] at hold
    simp only [retireMineruProvider, hdb, hr₁, if_pos hold, hdb']
  · rw [← hstale] at hold
    simp only [retireMineruProvider, hdb, hr₁, if_pos hold, hdb']

theorem not_lossless_of_error {db db' : Database} {r : Relation} {why : String} (h : ensureSchema db = .error why db') :
    ¬ Lossless db r := by
  rintro ⟨report, r', hok, -⟩
  rw [h] at hok
  cases hok

theorem lossless_of_ok {db : Database} {r r' : Relation} {report : Report} (f : Row → Row)
    (hok : ensureSchema db = .ok report { db with routes := some r' }) (hcurrent : IsCurrent r')
    (hrows : r'.rows = r.rows.map f) (hf : ∀ row, ∀ c ∈ r'.schema.names, f row c = migrated row c) : Lossless db r := by
  refine ⟨report, r', hok, hcurrent, ?_, _, ensureSchema_current hcurrent rfl⟩
  rw [hrows, List.forall₂_map_right_iff]
  exact List.forall₂_same.2 fun row _ c _ hc => hf row c hc

theorem isCurrent_of_schema {r : Relation} (h : r.schema = modelRoute) : IsCurrent r :=
  ⟨fun c => by rw [h], by rw [h], by rw [h]⟩

/-- The rows of a rebuilt table are the rewritten ones, without the retired column. -/
theorem lossless_of_rebuilt {db : Database} {r r₁ r' : Relation} {report : Report}
    (hok : ensureSchema db = .ok report { db with routes := some r' }) (hschema : r'.schema = modelRoute)
    (hrows₁ : r₁.rows = r.rows.map migrated) (hrows : r'.rows = r₁.rows.map (restrict modelRoute.names)) : Lossless db r := by
  refine lossless_of_ok (restrict modelRoute.names ∘ migrated) hok (isCurrent_of_schema hschema) ?_ fun row c hc => ?_
  · rw [hrows, hrows₁, List.map_map]
  · rw [hschema] at hc
    exact restrict_of_mem hc _

/-- Where the check is stale, the rebuild that replaces it does it all. -/
theorem lossless_iff_of_stale {db : Database} {r : Relation} (hdb : db.routes = some r) (h : IsLegacy r)
    (hstale : providerCheckIsStale r = true) :
    Lossless db r ↔ (∀ c ∈ addedColumns, c ∈ r.schema.names) ∧ db.orphans = [] := by
  obtain ⟨r₁, names, hfits, hschema, hrows, -, hretire⟩ := retireMineruProvider_spec h hdb
  obtain ⟨hretireOk, hretireError⟩ := hretire hstale
  by_cases hadded : ∀ c ∈ addedColumns, c ∈ r.schema.names
  · have hadded₁ : ∀ c ∈ addedColumns, c ∈ r₁.schema.names := hschema ▸ hadded
    obtain ⟨r', hschema', hrows', hok, herror⟩ :=
      rebuildTable_spec hfits hadded₁ { db with routes := some r₁ } rfl
    by_cases horphans : db.orphans = []
    · refine iff_of_true ?_ ⟨hadded, horphans⟩
      have hcurrent := isCurrent_of_schema hschema'
      have hadded' : ∀ c ∈ addedColumns, c ∈ r'.schema.names := by
        rw [hschema']
        decide
      have habsent : retiredColumn ∉ r'.schema.names := by
        rw [hschema']
        decide
      exact lossless_of_rebuilt (ensureSchema_eq (hretireOk _ (hok horphans)) (addMetadataColumns_present hadded' rfl)
        (retireApiKeyEnv_absent habsent rfl)) hschema' hrows hrows'
    · obtain ⟨why, hwhy⟩ := herror horphans
      exact iff_of_false (not_lossless_of_error (ensureSchema_error (hretireError _ _ hwhy))) fun hboth => horphans hboth.2
  · have hmissing : ¬ ∀ c ∈ addedColumns, c ∈ r₁.schema.names := hschema ▸ hadded
    obtain ⟨why, hwhy⟩ := rebuildTable_error hmissing { db with routes := some r₁ } rfl
    exact iff_of_false (not_lossless_of_error (ensureSchema_error (hretireError _ _ hwhy))) fun hboth => hadded hboth.1

/-- A table that fits, with the metadata columns and without the retired one, has the model's columns. -/
theorem Fits.isCurrent {r : Relation} (h : Fits r) (hadded : ∀ c ∈ addedColumns, c ∈ r.schema.names)
    (habsent : retiredColumn ∉ r.schema.names) (hchecks : r.schema.checks = modelRoute.checks) : IsCurrent r := by
  refine ⟨fun c => ⟨fun hc => ?_, h.columns hadded c⟩, hchecks, h.uniques⟩
  rcases h.known c hc with hmodel | rfl
  · exact hmodel
  · exact absurd (List.mem_map_of_mem hc) habsent

/-- Where the check is current, the columns are added before the rebuild. -/
theorem lossless_iff_of_not_stale {db : Database} {r : Relation} (hdb : db.routes = some r) (h : IsLegacy r)
    (hstale : providerCheckIsStale r ≠ true) :
    Lossless db r ↔ (retiredColumn ∈ r.schema.names → db.orphans = []) := by
  obtain ⟨r₁, names, hfits, hschema, hrows, hretire, -⟩ := retireMineruProvider_spec h hdb
  obtain ⟨missing, r₂, hadd, hrows₂, hcolumns₂, hchecks₂, huniques₂⟩ :=
    addMetadataColumns_spec (r := r₁) { db with routes := some r₁ } rfl
  have hmodel : ∀ name ∈ addedColumns, (⟨name, false⟩ : Column) ∈ modelRoute.columns := by decide
  have hadded₂ : ∀ c ∈ addedColumns, c ∈ r₂.schema.names := by
    intro c hc
    by_cases hpresent : c ∈ r₁.schema.names
    · obtain ⟨column, hcolumn, rfl⟩ := List.mem_map.1 hpresent
      exact List.mem_map_of_mem ((hcolumns₂ column).2 (.inl hcolumn))
    · exact List.mem_map.2 ⟨⟨c, false⟩, (hcolumns₂ _).2 (.inr ⟨hc, hpresent, rfl⟩), rfl⟩
  have hfits₂ : Fits r₂ := by
    refine ⟨fun c hc => ?_, fun c hc hnot => (hcolumns₂ c).2 (.inl (hfits.required c hc hnot)), huniques₂.trans hfits.uniques,
      hrows₂ ▸ hfits.provider, hrows₂ ▸ hfits.kind⟩
    rcases (hcolumns₂ c).1 hc with hold | ⟨hname, -, hnull⟩
    · exact hfits.known c hold
    · refine .inl ?_
      have hcolumn := hmodel c.name hname
      rwa [← hnull] at hcolumn
  have hretired : retiredColumn ∈ r₂.schema.names ↔ retiredColumn ∈ r.schema.names := by
    rw [← hschema]
    constructor
    · intro hmem
      obtain ⟨column, hcolumn, hname⟩ := List.mem_map.1 hmem
      rcases (hcolumns₂ column).1 hcolumn with hold | ⟨hin, -, -⟩
      · exact hname ▸ List.mem_map_of_mem hold
      · rw [hname] at hin
        exact absurd hin (by decide)
    · intro hmem
      obtain ⟨column, hcolumn, hname⟩ := List.mem_map.1 hmem
      exact hname ▸ List.mem_map_of_mem ((hcolumns₂ column).2 (.inl hcolumn))
  by_cases hpresent : retiredColumn ∈ r.schema.names
  · obtain ⟨hretireOk, hretireError⟩ :=
      retireApiKeyEnv_present (hretired.2 hpresent) { db with routes := some r₂ } rfl
    obtain ⟨r', hschema', hrows', hok, herror⟩ :=
      rebuildTable_spec hfits₂ hadded₂ { db with routes := some r₂ } rfl
    by_cases horphans : db.orphans = []
    · refine iff_of_true ?_ fun _ => horphans
      exact lossless_of_rebuilt (ensureSchema_eq (hretire hstale) hadd (hretireOk _ (hok horphans))) hschema'
        (hrows₂.trans hrows) hrows'
    · obtain ⟨why, hwhy⟩ := herror horphans
      exact iff_of_false (not_lossless_of_error (ensureSchema_error_last (hretire hstale) hadd (hretireError _ _ hwhy)))
        fun hboth => horphans (hboth hpresent)
  · have habsent : retiredColumn ∉ r₂.schema.names := fun hmem => hpresent (hretired.1 hmem)
    refine iff_of_true ?_ fun hmem => absurd hmem hpresent
    have hchecks : r₂.schema.checks = modelRoute.checks := by
      rw [hchecks₂, hschema]
      exact h.checks_of_not_stale hstale
    exact lossless_of_ok migrated (ensureSchema_eq (hretire hstale) hadd (retireApiKeyEnv_absent habsent rfl))
      (hfits₂.isCurrent hadded₂ habsent hchecks) (hrows₂.trans hrows) fun _ _ _ => rfl

/-- The repair of a legacy table loses nothing and is done once, exactly where it can be made. -/
theorem lossless_iff_repairable (db : Database) (r : Relation) (hdb : db.routes = some r) (h : IsLegacy r) :
    Lossless db r ↔ Repairable db r := by
  by_cases hstale : providerCheckIsStale r = true
  · rw [lossless_iff_of_stale hdb h hstale, Repairable]
    simp [hstale]
  · rw [lossless_iff_of_not_stale hdb h hstale, Repairable]
    simp [hstale]

/-- The columns before the metadata were declared. -/
def firstColumns : List Column :=
  modelRoute.columns.filter (fun c => c.name ∉ addedColumns) ++ [⟨retiredColumn, true⟩]

/-- A route of one provider, with its key named in the environment. -/
def firstRoute (provider path : String) : Row := fun c =>
  if c ∈ ["name", "provider", "kind", "base_url", "path", "model", "api_key", "aliases", "enabled", "description",
      "created_at", "updated_at", retiredColumn] then
    if c = "provider" then .text provider else if c = "path" then .text path else if c = "kind" then .text "ocr" else .text "x"
  else if c = "id" then .integer 1
  else .null

/-- A table of the first version, with one route. -/
def firstTable (values : List String) (provider path : String)
    (h : (⟨firstColumns, [⟨"provider", values⟩, kindCheck], ["id", "name"]⟩ : Schema).Meets [firstRoute provider path]) :
    Relation where
  schema := ⟨firstColumns, [⟨"provider", values⟩, kindCheck], ["id", "name"]⟩
  nodup := by
    show (firstColumns.map Column.name).Nodup
    decide
  rows := [firstRoute provider path]
  closed := by
    intro row hrow c hc
    rw [List.mem_singleton.1 hrow]
    have hnames : ∀ name ∈ ["name", "provider", "kind", "base_url", "path", "model", "api_key", "aliases", "enabled",
        "description", "created_at", "updated_at", retiredColumn], name ∈ firstColumns.map Column.name := by decide
    have hid : "id" ∈ firstColumns.map Column.name := by decide
    rw [firstRoute, if_neg fun hin => hc (hnames c hin), if_neg]
    rintro rfl
    exact hc hid
  meets := h

theorem firstTable_isLegacy {values : List String} {provider path : String}
    {h : (⟨firstColumns, [⟨"provider", values⟩, kindCheck], ["id", "name"]⟩ : Schema).Meets [firstRoute provider path]}
    (hvalues : values = providers ∨ ∀ p, p ∈ values ↔ p ∈ providers ∨ p = retiredProvider) :
    IsLegacy (firstTable values provider path h) where
  known := by
    have hall : ∀ c ∈ firstColumns, c ∈ modelRoute.columns ∨ c = ⟨retiredColumn, true⟩ := by decide
    exact hall
  required := by
    have hall : ∀ c ∈ modelRoute.columns, c.name ∉ addedColumns → c ∈ firstColumns := by decide
    exact hall
  checks := by
    rcases hvalues with rfl | hvalues
    · exact .inl rfl
    · exact .inr ⟨values, hvalues, rfl⟩
  uniques := rfl

/-- A first table whose check was already replaced. -/
def checkedTable : Relation := firstTable providers "openai" "" (by decide)

theorem lossless_iff_repairable_checkedTable : Lossless ⟨some checkedTable, []⟩ checkedTable := by
  refine (lossless_iff_repairable ⟨some checkedTable, []⟩ checkedTable rfl (firstTable_isLegacy (.inl rfl))).2
    ⟨fun h => ?_, fun _ => rfl⟩
  rw [not_stale_modelRoute rfl] at h
  cases h

/-- A first table that still admits the retired provider, and has a route of it. -/
def mineruTable : Relation := firstTable ["openai", "anthropic", "mineru"] "mineru" "/file_parse" (by decide)

theorem mineruTable_not_lossless : IsLegacy mineruTable ∧ ¬ Lossless ⟨some mineruTable, []⟩ mineruTable := by
  have hlegacy : IsLegacy mineruTable := by
    refine firstTable_isLegacy (.inr fun p => ?_)
    simp [providers, retiredProvider, or_assoc]
  refine ⟨hlegacy, fun h => ?_⟩
  have hstale : providerCheckIsStale mineruTable = true :=
    List.any_eq_true.2 ⟨⟨"provider", ["openai", "anthropic", "mineru"]⟩, List.mem_cons_self .., stale_of_mem (by decide)⟩
  have hadded := ((lossless_iff_of_stale rfl hlegacy hstale).1 h).1 "context_window" (by decide)
  exact absurd hadded (by decide)

end OpenFish.Routes
