/-
Boots that race and crash: what every run of them keeps, and when a call of theirs raises.
-/
import OpenFish.Seeding.Boot
import Mathlib.Data.List.Nodup

namespace OpenFish.Seeding

open Lib

variable {c : Catalogs}

/-! ## What has been installed stays so -/

/-- The row was committed, and has gone only by an administrator's hand. -/
def Kept (db : Db) (ns : String) (r : SeedRow) : Prop := (ns, r) ∈ db.rows ∨ (ns, r.name) ∈ db.removed

/-- The object was stored, and has gone only after the rows that name it. -/
def Stored (db : Db) (ns : String) (seed : Seed) (object : String) : Prop :=
  (ns, object) ∈ db.objects ∨ ∀ r ∈ seed.rows, r.object = some object → (ns, r.name) ∈ db.removed

/-- The seed of the namespace has been installed, if it has one. -/
def Settled (c : Catalogs) (db : Db) (ns : String) : Prop :=
  ∀ seed, c.seed ns = some seed → (∀ r ∈ seed.rows, Kept db ns r) ∧ ∀ object ∈ seed.objects, Stored db ns seed object

/-- What no step of a call or an administrator takes back. -/
structure Grows (c : Catalogs) (db db' : Db) : Prop where
  kept : ∀ {ns r}, Kept db ns r → Kept db' ns r
  stored : ∀ {ns seed object}, c.seed ns = some seed → Stored db ns seed object → Stored db' ns seed object
  markers : ∀ {ns}, ns ∈ db.markers → ns ∈ db'.markers

theorem Grows.refl (db : Db) : Grows c db db := ⟨id, fun _ => id, id⟩

theorem Grows.settled {db db' : Db} (h : Grows c db db') {ns : String} (hs : Settled c db ns) : Settled c db' ns :=
  fun seed hseed => ⟨fun r hr => h.kept ((hs seed hseed).1 r hr), fun o ho => h.stored hseed ((hs seed hseed).2 o ho)⟩

theorem Grows.put (db : Db) (ns object : String) : Grows c db (db.put ns object) := by
  unfold Db.put
  split
  · exact .refl db
  · exact ⟨id, fun _ h => h.imp_left (List.mem_append_left _), id⟩

theorem Grows.commitRows (db : Db) (ns : String) (pending : List SeedRow) :
    Grows c db { db with rows := db.rows ++ pending.map fun r => (ns, r) } :=
  ⟨fun h => h.imp_left (List.mem_append_left _), fun _ => id, id⟩

theorem Grows.commitMarker (db : Db) (ns : String) : Grows c db { db with markers := db.markers ++ [ns] } :=
  ⟨id, fun _ => id, List.mem_append_left _⟩

theorem mem_removed_remove {db : Db} {ns : String} {names : List String} {e : String × String}
    (h : e ∈ (administer c db (.remove ns names)).removed) :
    e ∈ db.removed ∨ ∃ r ∈ db.rows, e = (r.1, r.2.name) := by
  rcases List.mem_append.1 h with h | h
  · exact .inl h
  · obtain ⟨r, hr, rfl⟩ := List.mem_map.1 h
    exact .inr ⟨r, (List.mem_filter.1 hr).1, rfl⟩

theorem Grows.administer (db : Db) (e : Admin) : Grows c db (administer c db e) := by
  cases e with
  | remove ns names =>
    refine ⟨fun {ns' r} h => ?_, fun {ns' seed object} _ h => ?_, id⟩
    · rcases h with h | h
      · by_cases hgone : doomed ns names (ns', r) = true
        · exact .inr (List.mem_append_right _ (List.mem_map.2 ⟨(ns', r), List.mem_filter.2 ⟨h, hgone⟩, rfl⟩))
        · exact .inl (List.mem_filter.2 ⟨h, by simpa using hgone⟩)
      · exact .inr (List.mem_append_left _ h)
    · exact h.imp_right fun hall r hr ho => List.mem_append_left _ (hall r hr ho)
  | purge ns object =>
    unfold Seeding.administer
    dsimp only
    split
    · rename_i hgone
      refine ⟨id, fun {ns' seed o} hseed h => ?_, id⟩
      rcases h with h | h
      · by_cases heq : (ns', o) = (ns, object)
        · right
          obtain ⟨rfl, rfl⟩ := Prod.mk.inj heq
          intro r hr ho
          simp only [abandoned, hseed, Option.all_some, List.all_eq_true, decide_eq_true_eq] at hgone
          exact (hgone r hr).resolve_left fun hne => hne ho
        · exact .inl (List.mem_filter.2 ⟨h, decide_eq_true heq⟩)
      · exact .inr h
    · exact .refl db

/-! ## The database -/

/-- What every run keeps of the database: each row once, only rows of the seeds, and a namespace that shows a sign of
its seed has been given the whole of it. -/
structure Db.Sound (c : Catalogs) (db : Db) : Prop where
  once : (db.rows.map fun e => (e.1, e.2.name)).Nodup
  known : ∀ e ∈ db.rows, ∃ seed, c.seed e.1 = some seed ∧ e.2 ∈ seed.rows
  rows : ∀ e ∈ db.rows, Settled c db e.1
  removed : ∀ e ∈ db.removed, Settled c db e.1
  markers : ∀ ns ∈ db.markers, Settled c db ns

theorem Seed.eq_of_name {seed : Seed} {r r' : SeedRow} (hr : r ∈ seed.rows) (hr' : r' ∈ seed.rows)
    (h : r.name = r'.name) : r = r' := List.inj_on_of_nodup_map seed.distinct hr hr' h

theorem hasRow_eq_true {db : Db} {ns name : String} :
    db.hasRow ns name = true ↔ ∃ r, (ns, r) ∈ db.rows ∧ r.name = name := by
  simp only [Db.hasRow, List.any_eq_true, decide_eq_true_eq]
  constructor
  · rintro ⟨⟨ns', r⟩, h, rfl, rfl⟩; exact ⟨r, h, rfl⟩
  · rintro ⟨r, h, rfl⟩; exact ⟨(ns, r), h, rfl, rfl⟩

/-- A row of the seed that is found under its name is the row of the seed. -/
theorem Db.Sound.mem_of_hasRow {db : Db} (h : db.Sound c) {ns : String} {seed : Seed} (hseed : c.seed ns = some seed)
    {r : SeedRow} (hr : r ∈ seed.rows) (hhas : db.hasRow ns r.name = true) : (ns, r) ∈ db.rows := by
  obtain ⟨r', hr', hname⟩ := hasRow_eq_true.1 hhas
  obtain ⟨seed', hseed', hmem⟩ := h.known _ hr'
  obtain rfl : seed = seed' := Option.some.inj (hseed.symm.trans hseed')
  rwa [← Seed.eq_of_name hmem hr hname]

theorem Db.Sound.fresh : Db.fresh.Sound c :=
  ⟨List.nodup_nil, fun _ h => absurd h List.not_mem_nil, fun _ h => absurd h List.not_mem_nil,
    fun _ h => absurd h List.not_mem_nil, fun _ h => absurd h List.not_mem_nil⟩

theorem Db.Sound.put {db : Db} (h : db.Sound c) (ns object : String) : (db.put ns object).Sound c := by
  have hgrows := Grows.put (c := c) db ns object
  have hrows : (db.put ns object).rows = db.rows := by unfold Db.put; split <;> rfl
  have hremoved : (db.put ns object).removed = db.removed := by unfold Db.put; split <;> rfl
  have hmarkers : (db.put ns object).markers = db.markers := by unfold Db.put; split <;> rfl
  exact ⟨by rw [hrows]; exact h.once, by rw [hrows]; exact h.known,
    by rw [hrows]; exact fun e he => hgrows.settled (h.rows e he),
    by rw [hremoved]; exact fun e he => hgrows.settled (h.removed e he),
    by rw [hmarkers]; exact fun n hn => hgrows.settled (h.markers n hn)⟩

theorem Db.Sound.commitMarker {db : Db} (h : db.Sound c) {ns : String} (hs : Settled c db ns) :
    ({ db with markers := db.markers ++ [ns] } : Db).Sound c := by
  have hgrows := Grows.commitMarker (c := c) db ns
  refine ⟨h.once, h.known, fun e he => hgrows.settled (h.rows e he), fun e he => hgrows.settled (h.removed e he),
    fun n hn => hgrows.settled ?_⟩
  rcases List.mem_append.1 hn with hn | hn
  · exact h.markers n hn
  · rwa [List.mem_singleton.1 hn]

theorem Db.Sound.administer {db : Db} (h : db.Sound c) (e : Admin) : (administer c db e).Sound c := by
  have hgrows := Grows.administer (c := c) db e
  cases e with
  | remove ns names =>
    refine ⟨h.once.sublist (List.filter_sublist.map _), fun e he => h.known e (List.mem_filter.1 he).1,
      fun e he => hgrows.settled (h.rows e (List.mem_filter.1 he).1), fun e he => ?_,
      fun n hn => hgrows.settled (h.markers n hn)⟩
    rcases mem_removed_remove he with he | ⟨r, hr, rfl⟩
    · exact hgrows.settled (h.removed e he)
    · exact hgrows.settled (h.rows r hr)
  | purge ns object =>
    have hrows : (Seeding.administer c db (.purge ns object)).rows = db.rows := by
      unfold Seeding.administer; dsimp only; split <;> rfl
    have hremoved : (Seeding.administer c db (.purge ns object)).removed = db.removed := by
      unfold Seeding.administer; dsimp only; split <;> rfl
    have hmarkers : (Seeding.administer c db (.purge ns object)).markers = db.markers := by
      unfold Seeding.administer; dsimp only; split <;> rfl
    exact ⟨by rw [hrows]; exact h.once, by rw [hrows]; exact h.known,
      by rw [hrows]; exact fun e he => hgrows.settled (h.rows e he),
      by rw [hremoved]; exact fun e he => hgrows.settled (h.removed e he),
      by rw [hmarkers]; exact fun n hn => hgrows.settled (h.markers n hn)⟩

/-! ## The calls -/

/-- The transaction of the statements: what its statements so far have seen or inserted, and what it is to insert is
not there. -/
structure Executing (c : Catalogs) (db : Db) (ns : String) (pending rest : List SeedRow) (seed : Seed)
    (past : List SeedRow) : Prop where
  found : c.seed ns = some seed
  split : seed.rows = past ++ rest
  stored : ∀ object ∈ seed.objects, Stored db ns seed object
  kept : ∀ r ∈ past, r ∈ pending ∨ Kept db ns r
  own : ∀ r ∈ pending, r ∈ past
  absent : ∀ r ∈ pending, db.hasRow ns r.name = false
  once : (pending.map SeedRow.name).Nodup

def Phase.Sound (c : Catalogs) (db : Db) (ns : String) : Phase → Prop
  | .resolve => True
  | .readMarker seed => c.seed ns = some seed
  | .countRows seed => c.seed ns = some seed
  | .install objects rows => ∃ seed, c.seed ns = some seed ∧ rows = seed.rows ∧
      ∀ object ∈ seed.objects, object ∈ objects ∨ Stored db ns seed object
  | .execute pending rest => ∃ seed past, Executing c db ns pending rest seed past
  | .blocked pending r rest => ∃ seed past, Executing c db ns pending (r :: rest) seed past
  | .getMarker | .insertMarker | .commitMarker => Settled c db ns

/-- The call has not looked at its namespace yet, or only for its marker. -/
def Phase.early : Phase → Bool
  | .resolve | .readMarker _ => true
  | _ => false

/-- What every run keeps of a call. -/
structure Call.Sound (c : Catalogs) (db : Db) (k : Call) : Prop where
  seen : ∀ ns ∈ k.seen, ns ∈ db.markers
  seeding : ∀ {ns later phase}, k.stage = .seeding ns later phase →
    (∃ past, c.seeded = past ++ ns :: later ∧ ∀ n ∈ past, Settled c db n) ∧
      (ns ∈ k.seen → phase.early = true) ∧ phase.Sound c db ns
  returned : k.stage = .returned → ∀ n ∈ c.seeded, Settled c db n

/-! ## One step -/

theorem proceed_grows (db : Db) (taken : Key → Bool) (ns : String) (later : List String) (phase : Phase) :
    Grows c db (proceed c db taken ns later phase).1 := by
  unfold proceed
  split
  · split <;> exact .refl db
  · exact .refl db
  · exact .refl db
  · exact .refl db
  · exact .put db ns _
  · exact .commitRows db ns _
  · exact .refl db
  · split
    · exact .refl db
    · split <;> exact .refl db
  · exact .refl db
  · split
    · exact .refl db
    · split <;> exact .refl db
  · exact .commitMarker db ns

/-- A step commits no row but those its call holds. -/
theorem hasRow_proceed {db : Db} {taken : Key → Bool} {ns : String} {later : List String} {phase : Phase}
    {n name : String} (h : (proceed c db taken ns later phase).1.hasRow n name = true) :
    db.hasRow n name = true ∨ .row n name ∈ phase.holds ns := by
  have hput (object : String) (h : (db.put ns object).hasRow n name = true) : db.hasRow n name = true := by
    unfold Db.put at h
    split at h <;> exact h
  unfold proceed at h
  split at h
  · split at h <;> exact .inl h
  · exact .inl h
  · exact .inl h
  · exact .inl h
  · exact .inl (hput _ h)
  · obtain ⟨r, hr, hname⟩ := hasRow_eq_true.1 h
    rcases List.mem_append.1 hr with hr | hr
    · exact .inl (hasRow_eq_true.2 ⟨r, hr, hname⟩)
    · obtain ⟨r', hr', heq⟩ := List.mem_map.1 hr
      obtain ⟨rfl, rfl⟩ := Prod.mk.inj heq
      exact .inr (List.mem_map.2 ⟨r', hr', by rw [hname]⟩)
  · exact .inl h
  · split at h
    · exact .inl h
    · split at h <;> exact .inl h
  · exact .inl h
  · split at h
    · exact .inl h
    · split at h <;> exact .inl h
  · exact .inl h

/-- The end of the transaction of the statements. -/
theorem Executing.settled {db : Db} {ns : String} {pending past : List SeedRow} {seed : Seed}
    (h : Executing c db ns pending [] seed past) :
    Settled c { db with rows := db.rows ++ pending.map fun r => (ns, r) } ns := by
  have hgrows := Grows.commitRows (c := c) db ns pending
  intro seed' hseed'
  obtain rfl : seed = seed' := Option.some.inj (h.found.symm.trans hseed')
  refine ⟨fun r hr => ?_, fun o ho => hgrows.stored h.found (h.stored o ho)⟩
  rw [h.split, List.append_nil] at hr
  rcases h.kept r hr with hr | hr
  · exact .inl (List.mem_append_right _ (List.mem_map_of_mem hr))
  · exact hgrows.kept hr

theorem Executing.mem_rows {db : Db} {ns : String} {pending rest past : List SeedRow} {seed : Seed}
    (h : Executing c db ns pending rest seed past) {r : SeedRow} (hr : r ∈ past) : r ∈ seed.rows := by
  rw [h.split]
  exact List.mem_append_left _ hr

theorem Executing.commit {db : Db} (hdb : db.Sound c) {ns : String} {pending past : List SeedRow} {seed : Seed}
    (h : Executing c db ns pending [] seed past) :
    ({ db with rows := db.rows ++ pending.map fun r => (ns, r) } : Db).Sound c := by
  have hgrows := Grows.commitRows (c := c) db ns pending
  refine ⟨?_, fun e he => ?_, fun e he => ?_, fun e he => hgrows.settled (hdb.removed e he),
    fun n hn => hgrows.settled (hdb.markers n hn)⟩
  · have hpairs : (pending.map fun r => (ns, r.name)).Nodup := by
      have hmapped := h.once.map (f := fun name => (ns, name)) fun _ _ heq => (Prod.mk.inj heq).2
      rwa [List.map_map] at hmapped
    rw [List.map_append, List.map_map]
    refine List.Nodup.append hdb.once hpairs fun key hold hnew => ?_
    obtain ⟨r, hr, rfl⟩ := List.mem_map.1 hnew
    obtain ⟨⟨n, e⟩, he, heq⟩ := List.mem_map.1 hold
    obtain ⟨rfl, hname⟩ := Prod.mk.inj heq
    have habsent := h.absent r hr
    rw [hasRow_eq_true.2 ⟨e, he, hname⟩] at habsent
    cases habsent
  · rcases List.mem_append.1 he with he | he
    · exact hdb.known e he
    · obtain ⟨r, hr, rfl⟩ := List.mem_map.1 he
      exact ⟨seed, h.found, h.mem_rows (h.own r hr)⟩
  · rcases List.mem_append.1 he with he | he
    · exact hgrows.settled (hdb.rows e he)
    · obtain ⟨r, -, rfl⟩ := List.mem_map.1 he
      exact h.settled

theorem Executing.mem_next {db : Db} {ns : String} {pending rest past : List SeedRow} {r : SeedRow} {seed : Seed}
    (h : Executing c db ns pending (r :: rest) seed past) : r ∈ seed.rows := by
  rw [h.split]
  exact List.mem_append_right _ (List.mem_cons_self ..)

/-- The next row has another name than those the transaction has inserted. -/
theorem Executing.name_ne {db : Db} {ns : String} {pending rest past : List SeedRow} {r : SeedRow} {seed : Seed}
    (h : Executing c db ns pending (r :: rest) seed past) : ∀ r' ∈ pending, r'.name ≠ r.name := by
  intro r' hr' heq
  have hdistinct := seed.distinct
  rw [h.split, List.map_append, List.map_cons] at hdistinct
  exact (List.nodup_append.1 hdistinct).2.2 _ (List.mem_map_of_mem (h.own r' hr')) _ (List.mem_cons_self ..) heq

theorem Executing.advance {db : Db} {ns : String} {pending rest past : List SeedRow} {r : SeedRow} {seed : Seed}
    (h : Executing c db ns pending (r :: rest) seed past) (hr : r ∈ pending ∨ Kept db ns r) :
    Executing c db ns pending rest seed (past ++ [r]) where
  found := h.found
  split := by rw [h.split, List.append_assoc, List.singleton_append]
  stored := h.stored
  kept r' hr' := by
    rcases List.mem_append.1 hr' with hr' | hr'
    · exact h.kept r' hr'
    · rwa [List.mem_singleton.1 hr']
  own r' hr' := List.mem_append_left _ (h.own r' hr')
  absent := h.absent
  once := h.once

/-- A statement whose guard fails leaves out a row that is there, or that an administrator has deleted with its
parent. -/
theorem Executing.skip {db : Db} (hdb : db.Sound c) {ns : String} {pending rest past : List SeedRow} {r : SeedRow}
    {seed : Seed} (h : Executing c db ns pending (r :: rest) seed past)
    (hguard : sees db ns pending r.name = true ∨ r.parent.any (fun p => !sees db ns pending p) = true) :
    Executing c db ns pending rest seed (past ++ [r]) := by
  refine h.advance ?_
  rcases hguard with hguard | hguard
  · rcases Bool.or_eq_true_iff.1 hguard with hhas | hown
    · exact .inr (.inl (hdb.mem_of_hasRow h.found h.mem_next hhas))
    · obtain ⟨r', hr', hname⟩ := List.any_eq_true.1 hown
      exact absurd (of_decide_eq_true hname) (h.name_ne r' hr')
  · obtain ⟨p, hp, hunseen⟩ := (Option.any_eq_true _ _).1 hguard
    obtain ⟨q, hq, rfl⟩ := seed.founded past r rest h.split p hp
    have hsees : sees db ns pending q.name = false := by simpa using hunseen
    obtain ⟨hhas, hown⟩ := Bool.or_eq_false_iff.1 hsees
    rcases h.kept q hq with hpending | hrow | hremoved
    · have hseen := List.any_eq_false.1 hown q hpending
      exact absurd (decide_eq_true rfl) hseen
    · rw [hasRow_eq_true.2 ⟨q, hrow, rfl⟩] at hhas
      cases hhas
    · exact .inr ((hdb.removed _ hremoved seed h.found).1 r h.mem_next)

theorem Executing.insert {db : Db} {ns : String} {pending rest past : List SeedRow} {r : SeedRow} {seed : Seed}
    (h : Executing c db ns pending (r :: rest) seed past) (habsent : db.hasRow ns r.name = false) :
    Executing c db ns (pending ++ [r]) rest seed (past ++ [r]) where
  found := h.found
  split := by rw [h.split, List.append_assoc, List.singleton_append]
  stored := h.stored
  kept r' hr' := by
    rcases List.mem_append.1 hr' with hr' | hr'
    · exact (h.kept r' hr').imp_left (List.mem_append_left _)
    · exact .inl (List.mem_append_right _ hr')
  own r' hr' := by
    rcases List.mem_append.1 hr' with hr' | hr'
    · exact List.mem_append_left _ (h.own r' hr')
    · exact List.mem_append_right _ hr'
  absent r' hr' := by
    rcases List.mem_append.1 hr' with hr' | hr'
    · exact h.absent r' hr'
    · rwa [List.mem_singleton.1 hr']
  once := by
    rw [List.map_append, List.map_singleton]
    refine List.nodup_append.2 ⟨h.once, List.nodup_singleton _, fun name hname name' hname' => ?_⟩
    obtain ⟨r', hr', rfl⟩ := List.mem_map.1 hname
    rw [List.mem_singleton.1 hname']
    exact h.name_ne r' hr'

theorem Executing.execute {db : Db} (hdb : db.Sound c) (taken : Key → Bool) {ns : String}
    {pending rest past : List SeedRow} {r : SeedRow} {seed : Seed}
    (h : Executing c db ns pending (r :: rest) seed past) : (execute db taken ns pending r rest).Sound c db ns := by
  unfold Seeding.execute
  split
  · rename_i hguard
    exact ⟨seed, _, h.skip hdb hguard⟩
  · rename_i hguard
    split
    · exact ⟨seed, past, h⟩
    · have hunseen : sees db ns pending r.name = false := by simpa using fun hsees => hguard (.inl hsees)
      exact ⟨seed, _, h.insert (Bool.or_eq_false_iff.1 hunseen).1⟩

theorem proceed_db {db : Db} (hdb : db.Sound c) (taken : Key → Bool) {ns : String} (later : List String) {phase : Phase}
    (hphase : phase.Sound c db ns) : (proceed c db taken ns later phase).1.Sound c := by
  unfold proceed
  split
  · split <;> exact hdb
  · exact hdb
  · exact hdb
  · exact hdb
  · exact hdb.put ns _
  · obtain ⟨seed, past, h⟩ := hphase
    exact h.commit hdb
  · exact hdb
  · split
    · exact hdb
    · split <;> exact hdb
  · exact hdb
  · split
    · exact hdb
    · split <;> exact hdb
  · exact hdb.commitMarker hphase

/-- Where a step brings its call: to a later phase, to the next namespace once this one has its seed, or to an
exception. -/
theorem proceed_stage {db : Db} (hdb : db.Sound c) (taken : Key → Bool) {ns : String} (later : List String)
    {phase : Phase} (hphase : phase.Sound c db ns) :
    (∃ phase', (proceed c db taken ns later phase).2 = .seeding ns later phase' ∧
        phase'.Sound c (proceed c db taken ns later phase).1 ns ∧
        (phase.early = true → ns ∈ db.markers → phase'.early = true)) ∨
      ((proceed c db taken ns later phase).2 = enter later ∧ Settled c (proceed c db taken ns later phase).1 ns) ∨
      (proceed c db taken ns later phase).2 = .raised := by
  unfold proceed
  split
  · -- the seed is resolved
    split
    · rename_i hnone
      exact .inr (.inl ⟨rfl, fun seed hseed => by rw [hnone] at hseed; cases hseed⟩)
    · rename_i seed hseed
      exact .inl ⟨_, rfl, hseed, fun _ _ => rfl⟩
  · -- the marker is read
    rename_i seed
    by_cases hmarker : ns ∈ db.markers
    · rw [if_pos hmarker]
      exact .inr (.inl ⟨rfl, hdb.markers ns hmarker⟩)
    · rw [if_neg hmarker]
      exact .inl ⟨_, rfl, hphase, fun _ h => absurd h hmarker⟩
  · -- the rows are counted
    rename_i seed
    by_cases hrows : db.hasRows ns = true
    · rw [if_pos hrows]
      refine .inl ⟨_, rfl, ?_, fun h => by cases h⟩
      obtain ⟨e, he, hmeets⟩ := List.any_eq_true.1 hrows
      obtain ⟨rfl, -⟩ := of_decide_eq_true hmeets
      exact hdb.rows e he
    · rw [if_neg hrows]
      exact .inl ⟨_, rfl, ⟨seed, hphase, rfl, fun o ho => .inl ho⟩, fun h => by cases h⟩
  · -- every object is there
    obtain ⟨seed, hseed, rfl, hobjects⟩ := hphase
    refine .inl ⟨_, rfl, ⟨seed, [], hseed, rfl, fun o ho => ?_, fun r hr => ?_, fun r hr => ?_, fun r hr => ?_, ?_⟩,
      fun h => by cases h⟩
    · exact (hobjects o ho).resolve_left List.not_mem_nil
    · cases hr
    · cases hr
    · cases hr
    · exact List.nodup_nil
  · -- the next object is put
    rename_i object objects rows
    obtain ⟨seed, hseed, rfl, hobjects⟩ := hphase
    refine .inl ⟨_, rfl, ⟨seed, hseed, rfl, fun o ho => ?_⟩, fun h => by cases h⟩
    -- an object is on the list still, or it was put before
    rcases hobjects o ho with hmem | hstored
    · rcases List.mem_cons.1 hmem with rfl | hmem
      · refine .inr (.inl ?_)
        show (ns, o) ∈ (db.put ns o).objects
        unfold Db.put
        split
        · assumption
        · exact List.mem_append_right _ (List.mem_singleton_self _)
      · exact .inl hmem
    · exact .inr ((Grows.put db ns object).stored hseed hstored)
  · -- the transaction of the rows commits
    obtain ⟨seed, past, h⟩ := hphase
    exact .inl ⟨_, rfl, h.settled, fun h => by cases h⟩
  · -- the next row of it
    obtain ⟨seed, past, h⟩ := hphase
    exact .inl ⟨_, rfl, h.execute hdb taken, fun h => by cases h⟩
  · -- a row that waited
    split
    · exact .inl ⟨_, rfl, hphase, fun h => by cases h⟩
    · split
      · exact .inr (.inr rfl)
      · rename_i habsent
        obtain ⟨seed, past, h⟩ := hphase
        exact .inl ⟨_, rfl, ⟨seed, _, h.insert (Bool.eq_false_iff.2 habsent)⟩, fun h => by cases h⟩
  · -- the marker is read again
    by_cases hmarker : ns ∈ db.markers
    · rw [if_pos hmarker]
      exact .inr (.inl ⟨rfl, hdb.markers ns hmarker⟩)
    · rw [if_neg hmarker]
      exact .inl ⟨_, rfl, hphase, fun h => by cases h⟩
  · -- the marker is inserted
    split
    · exact .inl ⟨_, rfl, hphase, fun h => by cases h⟩
    · split
      · exact .inr (.inr rfl)
      · exact .inl ⟨_, rfl, hphase, fun h => by cases h⟩
  · exact .inr (.inl ⟨rfl, (Grows.commitMarker db ns).settled hphase⟩)

/-! ## Every run -/

theorem Phase.Sound.mono {db db' : Db} (hgrows : Grows c db db') {ns : String} {phase : Phase}
    (hrows : ∀ name, db'.hasRow ns name = true → db.hasRow ns name = true ∨ .row ns name ∉ phase.holds ns)
    (h : phase.Sound c db ns) : phase.Sound c db' ns := by
  have hexecuting {pending rest past : List SeedRow} {seed : Seed}
      (hrows : ∀ name, db'.hasRow ns name = true →
        db.hasRow ns name = true ∨ Key.row ns name ∉ pending.map fun r => Key.row ns r.name)
      (h : Executing c db ns pending rest seed past) : Executing c db' ns pending rest seed past := by
    refine ⟨h.found, h.split, fun o ho => hgrows.stored h.found (h.stored o ho),
      fun r hr => (h.kept r hr).imp_right hgrows.kept, h.own, fun r hr => ?_, h.once⟩
    refine Bool.eq_false_iff.2 fun hhas => ?_
    rcases hrows r.name hhas with hhad | hnot
    · rw [h.absent r hr] at hhad; cases hhad
    · exact hnot (List.mem_map_of_mem hr)
  cases phase with
  | resolve => trivial
  | readMarker seed => exact h
  | countRows seed => exact h
  | install objects rows =>
    obtain ⟨seed, hseed, heq, hobjects⟩ := h
    exact ⟨seed, hseed, heq, fun o ho => (hobjects o ho).imp_right (hgrows.stored hseed)⟩
  | execute pending rest =>
    obtain ⟨seed, past, h⟩ := h
    exact ⟨seed, past, hexecuting hrows h⟩
  | blocked pending r rest =>
    obtain ⟨seed, past, h⟩ := h
    exact ⟨seed, past, hexecuting hrows h⟩
  | getMarker => exact hgrows.settled h
  | insertMarker => exact hgrows.settled h
  | commitMarker => exact hgrows.settled h

/-- A call stays as it is beside what grows the database, if no row it holds is committed. -/
theorem Call.Sound.mono {db db' : Db} (hgrows : Grows c db db') {k : Call}
    (hrows : ∀ n name, db'.hasRow n name = true → db.hasRow n name = true ∨ .row n name ∉ k.stage.holds)
    (h : k.Sound c db) : k.Sound c db' where
  seen n hn := hgrows.markers (h.seen n hn)
  seeding {ns later phase} hstage := by
    obtain ⟨⟨past, hsplit, hpast⟩, hearly, hphase⟩ := h.seeding hstage
    rw [hstage] at hrows
    exact ⟨⟨past, hsplit, fun n hn => hgrows.settled (hpast n hn)⟩, hearly, hphase.mono hgrows (hrows ns)⟩
  returned hstage n hn := hgrows.settled (h.returned hstage n hn)

/-- The call that enters the namespaces still to come, when those before them have their seeds. -/
theorem sound_enter {db : Db} {seen later past : List String} (hseen : ∀ n ∈ seen, n ∈ db.markers)
    (hsplit : c.seeded = past ++ later) (hpast : ∀ n ∈ past, Settled c db n) : Call.Sound c db ⟨seen, enter later⟩ := by
  refine ⟨hseen, fun {ns rest phase} hstage => ?_, fun hstage n hn => ?_⟩
  · cases later with
    | nil => cases hstage
    | cons m later =>
      obtain ⟨rfl, rfl, rfl⟩ := Stage.seeding.inj hstage
      exact ⟨⟨past, hsplit, hpast⟩, fun _ => rfl, trivial⟩
  · cases later with
    | nil => rw [hsplit, List.append_nil] at hn; exact hpast n hn
    | cons m later => cases hstage

theorem step_sound {db : Db} (hdb : db.Sound c) (taken : Key → Bool) {k : Call} (hk : k.Sound c db) (fate : Fate) :
    (step c db taken k fate).1.Sound c ∧ (step c db taken k fate).2.Sound c (step c db taken k fate).1 := by
  unfold step
  split
  · rename_i ns later phase hstage
    obtain ⟨⟨past, hsplit, hpast⟩, hearly, hphase⟩ := hk.seeding hstage
    have hgrows := proceed_grows (c := c) db taken ns later phase
    have hseen : ∀ n ∈ k.seen, n ∈ (proceed c db taken ns later phase).1.markers :=
      fun n hn => hgrows.markers (hk.seen n hn)
    refine ⟨proceed_db hdb taken later hphase, ?_⟩
    rcases proceed_stage hdb taken later hphase with ⟨phase', hstage', hphase', hkeep⟩ | ⟨hstage', hsettled⟩ | hstage'
    · rw [hstage']
      refine ⟨hseen, fun hnow => ?_, fun hnow => by cases hnow⟩
      obtain ⟨rfl, rfl, rfl⟩ := Stage.seeding.inj hnow
      exact ⟨⟨past, hsplit, fun n hn => hgrows.settled (hpast n hn)⟩,
        fun hns => hkeep (hearly hns) (hk.seen ns hns), hphase'⟩
    · rw [hstage']
      have hahead : c.seeded = (past ++ [ns]) ++ later := by rw [hsplit, List.append_assoc, List.singleton_append]
      refine sound_enter hseen hahead fun n hn => ?_
      rcases List.mem_append.1 hn with hn | hn
      · exact hgrows.settled (hpast n hn)
      · rwa [List.mem_singleton.1 hn]
    · rw [hstage']
      exact ⟨hseen, fun hnow => (by cases hnow), fun hnow => by cases hnow⟩
  · exact ⟨hdb, hk.seen, fun hnow => (by cases hnow), fun hnow => by cases hnow⟩
  · exact ⟨hdb, hk⟩

theorem holds_enter (later : List String) : (enter later).holds = [] := by
  cases later <;> rfl

/-- A call takes only keys that no other call holds. -/
theorem mem_holds_proceed {db : Db} {taken : Key → Bool} {ns : String} {later : List String} {phase : Phase} {key : Key}
    (h : key ∈ (proceed c db taken ns later phase).2.holds) : key ∈ phase.holds ns ∨ taken key = false := by
  have henter (h : key ∈ (enter later).holds) : key ∈ phase.holds ns ∨ taken key = false := by
    rw [holds_enter] at h; cases h
  have hnew {pending : List SeedRow} {r : SeedRow} (hfree : taken (.row ns r.name) = false)
      (h : key ∈ (pending ++ [r]).map fun r => Key.row ns r.name) :
      key ∈ pending.map (fun r => Key.row ns r.name) ∨ taken key = false := by
    rw [List.map_append, List.map_singleton] at h
    rcases List.mem_append.1 h with h | h
    · exact .inl h
    · exact .inr (by rw [List.mem_singleton.1 h]; exact hfree)
  unfold proceed at h
  split at h
  · split at h
    · exact henter h
    · cases h
  · split at h
    · exact henter h
    · cases h
  · split at h <;> cases h
  · cases h
  · cases h
  · cases h
  · rename_i pending r rest
    simp only [Stage.holds, execute] at h
    split at h
    · exact .inl h
    · split at h
      · exact .inl h
      · rename_i hfree
        exact hnew (Bool.eq_false_iff.2 hfree) h
  · split at h
    · exact .inl h
    · rename_i hfree
      split at h
      · cases h
      · exact hnew (Bool.eq_false_iff.2 hfree) h
  · split at h
    · exact henter h
    · cases h
  · split at h
    · exact .inl h
    · rename_i hfree
      split at h
      · cases h
      · exact .inr (by rw [List.mem_singleton.1 h]; exact Bool.eq_false_iff.2 hfree)
  · exact henter h

theorem hasRow_administer {db : Db} {e : Admin} {n name : String} (h : (administer c db e).hasRow n name = true) :
    db.hasRow n name = true := by
  obtain ⟨r, hr, hname⟩ := hasRow_eq_true.1 h
  cases e with
  | remove ns names => exact hasRow_eq_true.2 ⟨r, (List.mem_filter.1 hr).1, hname⟩
  | purge ns object =>
    unfold administer at hr
    dsimp only at hr
    split at hr <;> exact hasRow_eq_true.2 ⟨r, hr, hname⟩

theorem outline (c : Catalogs) : (boots c).Outline (Db.Sound c) (Call.Sound c) where
  start := .fresh
  enter {db _} _ := sound_enter (fun _ h => h) (List.nil_append c.seeded).symm fun _ h => absurd h List.not_mem_nil
  free _ _ := holds_enter c.seeded
  locks {db taken k fate key} h := by
    simp only [boots, step] at h ⊢
    split at h
    · rename_i hstage
      rw [hstage]
      exact mem_holds_proceed h
    · cases h
    · exact .inl h
  step hdb hk := step_sound hdb _ hk _
  others {db taken k fate k'} hdb hk hk' hapart := by
    simp only [boots, step] at hapart ⊢
    split
    · rename_i hstage
      refine hk'.mono (proceed_grows ..) fun n name hhas => (hasRow_proceed hhas).imp_right fun hmem hmem' => ?_
      rw [hstage] at hapart
      exact hapart hmem hmem'
    · exact hk'
    · exact hk'
  world hdb := hdb.administer _
  away hdb hk := hk.mono (.administer ..) fun n name hhas => .inl (hasRow_administer hhas)

/-! ## The seeds are there -/

/-- A row that is there once is all that is found under its key. -/
theorem filter_eq_singleton {ns : String} {r : SeedRow} {rows : List (String × SeedRow)} (hmem : (ns, r) ∈ rows)
    (honce : (rows.map fun e => (e.1, e.2.name)).Nodup) :
    (rows.filter fun e => e.1 = ns ∧ e.2.name = r.name) = [(ns, r)] := by
  induction rows with
  | nil => cases hmem
  | cons e rows ih =>
    obtain ⟨hnew, honce⟩ := List.nodup_cons.1 (by rwa [List.map_cons] at honce)
    by_cases hkey : e.1 = ns ∧ e.2.name = r.name
    · have hnone : (rows.filter fun e => e.1 = ns ∧ e.2.name = r.name) = [] := by
        refine List.filter_eq_nil_iff.2 fun e' he' hsame => hnew (List.mem_map.2 ⟨e', he', ?_⟩)
        obtain ⟨hns, hname⟩ := of_decide_eq_true hsame
        rw [hns, hname, hkey.1, hkey.2]
      rw [List.filter_cons, if_pos (by simpa using hkey), hnone]
      rcases List.mem_cons.1 hmem with rfl | hmem
      · rfl
      · exact absurd (List.mem_map.2 ⟨(ns, r), hmem, by rw [hkey.1, hkey.2]⟩) hnew
    · rw [List.filter_cons, if_neg (by simpa using hkey)]
      refine ih ((List.mem_cons.1 hmem).resolve_left ?_) honce
      rintro rfl
      exact hkey ⟨rfl, rfl⟩

theorem complete_of_sound {s : Scene Db Call} (hs : s.Holds (Db.Sound c) (Call.Sound c)) : Complete c s := by
  rintro ⟨k, hk, hreturned⟩ ns hns seed hseed r hr hremoved
  obtain ⟨i, hi⟩ := List.mem_iff_getElem?.1 hk
  obtain ⟨hrows, hobjects⟩ := (hs.calls hi).returned hreturned ns hns seed hseed
  refine ⟨filter_eq_singleton ((hrows r hr).resolve_right hremoved) hs.shared.once, fun o ho => ?_⟩
  exact (hobjects o (seed.shipped r hr o ho)).resolve_right fun hall => hremoved (hall r hr ho)

/-! ## A namespace with its marker is left alone -/

theorem part_proceed {db : Db} {taken : Key → Bool} {ns n : String} (hne : n ≠ ns) (later : List String) (phase : Phase) :
    (proceed c db taken ns later phase).1.part n = db.part n := by
  have hne' : ns ≠ n := Ne.symm hne
  unfold proceed
  split
  · split <;> rfl
  · rfl
  · rfl
  · rfl
  · unfold Db.put
    split
    · rfl
    · simp [Db.part, hne']
  · rename_i pending
    have hnone : ((pending.map fun r => (ns, r)).filter fun e => e.1 = n) = [] := by
      refine List.filter_eq_nil_iff.2 fun e he hsame => ?_
      obtain ⟨r, -, rfl⟩ := List.mem_map.1 he
      exact hne' (of_decide_eq_true hsame)
    simp only [Db.part, List.filter_append, hnone, List.append_nil]
  · rfl
  · split
    · rfl
    · split <;> rfl
  · rfl
  · split
    · rfl
    · split <;> rfl
  · simp [Db.part, hne]

/-- Before it knows that the marker is missing, a call changes nothing. -/
theorem proceed_early {db : Db} {taken : Key → Bool} {ns : String} {later : List String} {phase : Phase}
    (h : phase.early = true) : (proceed c db taken ns later phase).1 = db := by
  cases phase with
  | resolve => simp only [proceed]; split <;> rfl
  | readMarker seed => rfl
  | countRows seed => cases h
  | install objects rows => cases h
  | execute pending rest => cases h
  | blocked pending r rest => cases h
  | getMarker => cases h
  | insertMarker => cases h
  | commitMarker => cases h

theorem untouched_of_sound {s : Scene Db Call} (hs : s.Holds (Db.Sound c) (Call.Sound c)) (m : Move Unit Fate Admin) :
    Untouched c s m := by
  cases m with
  | begin _ => trivial
  | other _ => trivial
  | step i fate =>
    intro k hi ns hns
    rw [LockProgram.next_step _ hi]
    simp only [boots, step]
    split
    · rename_i n later phase hstage
      by_cases heq : ns = n
      · subst heq
        obtain ⟨-, hearly, -⟩ := (hs.calls hi).seeding hstage
        rw [proceed_early (hearly hns)]
      · exact part_proceed heq later phase
    · rfl
    · rfl

/-! ## When a call raises -/

/-- A step raises exactly if its insert does not wait and finds its row. -/
theorem proceed_raised_iff {db : Db} {taken : Key → Bool} {ns : String} {later : List String} {phase : Phase} :
    (proceed c db taken ns later phase).2 = .raised ↔
      ∃ key ∈ (Stage.seeding ns later phase).inserts, taken key = false ∧ db.has key = true := by
  have henter : enter later ≠ .raised := by cases later <;> exact fun h => by cases h
  cases phase with
  | resolve =>
    simp only [proceed, Stage.inserts]
    split
    · exact ⟨fun h => absurd h henter, fun ⟨key, h, _⟩ => by cases h⟩
    · exact ⟨fun h => (by cases h), fun ⟨key, h, _⟩ => by cases h⟩
  | readMarker seed =>
    simp only [proceed, Stage.inserts]
    split
    · exact ⟨fun h => absurd h henter, fun ⟨key, h, _⟩ => by cases h⟩
    · exact ⟨fun h => (by cases h), fun ⟨key, h, _⟩ => by cases h⟩
  | countRows seed => exact ⟨fun h => (by cases h), fun ⟨key, h, _⟩ => by cases h⟩
  | install objects rows =>
    cases objects <;> exact ⟨fun h => (by cases h), fun ⟨key, h, _⟩ => by cases h⟩
  | execute pending rest =>
    cases rest <;> exact ⟨fun h => (by cases h), fun ⟨key, h, _⟩ => by cases h⟩
  | getMarker =>
    simp only [proceed, Stage.inserts]
    split
    · exact ⟨fun h => absurd h henter, fun ⟨key, h, _⟩ => by cases h⟩
    · exact ⟨fun h => (by cases h), fun ⟨key, h, _⟩ => by cases h⟩
  | commitMarker => exact ⟨fun h => absurd h henter, fun ⟨key, h, _⟩ => by cases h⟩
  | blocked pending r rest =>
    simp only [proceed, Stage.inserts, Option.mem_some, exists_eq_left', Db.has]
    cases htaken : taken (.row ns r.name) <;> cases hhas : db.hasRow ns r.name <;> simp
  | insertMarker =>
    simp only [proceed, Stage.inserts, Option.mem_some, exists_eq_left', Db.has]
    cases htaken : taken (.marker ns) <;> by_cases hmarker : ns ∈ db.markers <;> simp [hmarker]

theorem step_raised_iff {db : Db} {taken : Key → Bool} {k : Call} {fate : Fate} (hk : k.stage ≠ .raised) :
    (step c db taken k fate).2.stage = .raised ↔
      fate = .go ∧ ∃ key ∈ k.stage.inserts, taken key = false ∧ db.has key = true := by
  unfold step
  split
  · rename_i ns later phase hstage
    rw [hstage]
    exact proceed_raised_iff.trans (and_iff_right rfl).symm
  · exact ⟨fun h => (by cases h), fun h => by cases h.1⟩
  · rename_i hnot _
    refine ⟨fun h => absurd h hk, fun ⟨hgo, key, hkey, _⟩ => ?_⟩
    subst hgo
    cases hstage : k.stage with
    | seeding ns later phase => exact absurd rfl (hnot _ _ _ hstage)
    | returned => rw [hstage] at hkey; cases hkey
    | raised => exact absurd hstage hk
    | crashed => rw [hstage] at hkey; cases hkey

/-- From a state in which no call has raised, a move leads to one exactly if no insert of it is opposed. -/
theorem noneRaised_next_iff {s : Scene Db Call} (h : NoneRaised s) (m : Move Unit Fate Admin) :
    NoneRaised ((boots c).next s m) ↔ Unopposed c s m := by
  cases m with
  | begin _ =>
    refine iff_of_true (fun k hk => ?_) trivial
    rcases List.mem_append.1 hk with hk | hk
    · exact h k hk
    · rw [List.mem_singleton.1 hk]
      show enter c.seeded ≠ .raised
      cases c.seeded <;> exact fun h => by cases h
  | other _ => exact iff_of_true h trivial
  | step i fate =>
    cases hi : s.calls[i]? with
    | none =>
      rw [LockProgram.next_none _ hi]
      refine iff_of_true h ?_
      cases fate with
      | go => exact fun k hk => by rw [hi] at hk; cases hk
      | crash => trivial
    | some k =>
      have hk := h k (List.mem_of_getElem? hi)
      have hraised : (step c s.shared ((boots c).taken s i) k fate).2.stage = .raised ↔
          fate = .go ∧ ∃ key ∈ k.stage.inserts, (boots c).taken s i key = false ∧ s.shared.has key = true :=
        step_raised_iff hk
      rw [LockProgram.next_step _ hi]
      -- none of the other calls steps
      have hnext : NoneRaised ⟨((boots c).step s.shared ((boots c).taken s i) k fate).1,
          s.calls.set i ((boots c).step s.shared ((boots c).taken s i) k fate).2⟩ ↔
          (step c s.shared ((boots c).taken s i) k fate).2.stage ≠ .raised := by
        constructor
        · exact fun hnone => hnone _ (List.mem_set (List.getElem?_eq_some_iff.1 hi).1 _)
        · intro hne k' hk'
          rcases List.mem_or_eq_of_mem_set hk' with hk' | rfl
          · exact h k' hk'
          · exact hne
      rw [hnext, ne_eq, hraised]
      cases fate with
      | crash => exact iff_of_true (fun hgo => by cases hgo.1) trivial
      | go =>
        constructor
        · intro hnot k' hk' key hkey hfree
          rw [hi] at hk'
          obtain rfl := Option.some.inj hk'
          exact Bool.eq_false_iff.2 fun hhas => hnot ⟨rfl, key, hkey, hfree, hhas⟩
        · rintro hunopposed ⟨-, key, hkey, hfree, hhas⟩
          rw [hunopposed k hi key hkey hfree] at hhas
          cases hhas

/-! ## Calls come to their end -/

/-- The insert a call waits for, if it waits. -/
theorem work_proceed (db : Db) (taken : Key → Bool) (ns : String) (later : List String) (phase : Phase) :
    (proceed c db taken ns later phase).2.work c < (Stage.seeding ns later phase).work c ∨
      ∃ key ∈ (Stage.seeding ns later phase).inserts, taken key = true := by
  have henter : (enter later).work c = (later.map (seedWork c)).sum := by
    cases later with
    | nil => rfl
    | cons n later => rw [List.map_cons, List.sum_cons]; rfl
  cases phase with
  | resolve =>
    left
    simp only [proceed]
    split
    · rename_i hnone
      rw [henter]
      simp only [Stage.work, Phase.work, seedWork, hnone]
      omega
    · rename_i seed hseed
      simp only [Stage.work, Phase.work, seedWork, hseed]
      omega
  | readMarker seed =>
    left
    simp only [proceed]
    split
    · rw [henter]; simp only [Stage.work, Phase.work]; omega
    · simp only [Stage.work, Phase.work]; omega
  | countRows seed =>
    left
    simp only [proceed]
    split <;> simp only [Stage.work, Phase.work] <;> omega
  | install objects rows =>
    left
    cases objects <;> simp only [proceed, Stage.work, Phase.work, List.length_cons, List.length_nil] <;> omega
  | execute pending rest =>
    left
    cases rest with
    | nil => simp only [proceed, Stage.work, Phase.work, List.length_nil]; omega
    | cons r rest =>
      simp only [proceed, execute]
      split
      · simp only [Stage.work, Phase.work, List.length_cons]; omega
      · split <;> simp only [Stage.work, Phase.work, List.length_cons] <;> omega
  | blocked pending r rest =>
    cases htaken : taken (.row ns r.name) with
    | true => exact .inr ⟨_, rfl, htaken⟩
    | false =>
      left
      simp only [proceed, htaken, Bool.false_eq_true, if_false]
      split <;> simp only [Stage.work, Phase.work] <;> omega
  | getMarker =>
    left
    simp only [proceed]
    split
    · rw [henter]; simp only [Stage.work, Phase.work]; omega
    · simp only [Stage.work, Phase.work]; omega
  | insertMarker =>
    cases htaken : taken (.marker ns) with
    | true => exact .inr ⟨_, rfl, htaken⟩
    | false =>
      left
      simp only [proceed, htaken, Bool.false_eq_true, if_false]
      split <;> simp only [Stage.work, Phase.work] <;> omega
  | commitMarker =>
    left
    simp only [proceed]
    rw [henter]
    simp only [Stage.work, Phase.work]
    omega

/-- What follows an entry of a list without duplicates. -/
theorem eq_of_nodup_append_cons {α : Type} {l past past' later later' : List α} {a : α} (hnodup : l.Nodup)
    (h : l = past ++ a :: later) (h' : l = past' ++ a :: later') : later = later' := by
  rw [h, List.nodup_middle, List.nodup_cons, List.mem_append, not_or] at hnodup
  exact ((List.append_cons_inj_of_notMem hnodup.1.1 hnodup.1.2).1 (h.symm.trans h')).2.2

/-- A transaction that has inserted the row another one is to insert has less left. -/
theorem Executing.rest_le {db : Db} {ns : String} {pending rest past pending' rest' past' : List SeedRow} {r r' : SeedRow}
    {seed seed' : Seed} (h : Executing c db ns pending (r :: rest) seed past)
    (h' : Executing c db ns pending' rest' seed' past') (hr' : r' ∈ pending') (hname : r'.name = r.name) :
    rest'.length ≤ rest.length := by
  obtain rfl : seed = seed' := Option.some.inj (h.found.symm.trans h'.found)
  obtain rfl : r' = r := Seed.eq_of_name (h'.mem_rows (h'.own r' hr')) h.mem_next hname
  obtain ⟨front, between, hpast⟩ := List.append_of_mem (h'.own r' hr')
  have hsplit := h'.split
  rw [hpast, List.append_assoc, List.cons_append] at hsplit
  rw [eq_of_nodup_append_cons (List.Nodup.of_map _ seed.distinct) h.split hsplit, List.length_append]
  omega

/-- In its namespace, a transaction that holds the key another one waits for is nearer to its end. -/
theorem Phase.work_lt_of_holds {db : Db} {ns : String} {later : List String} {phase phase' : Phase}
    (h : phase.Sound c db ns) (h' : phase'.Sound c db ns) {key : Key}
    (hinserts : key ∈ (Stage.seeding ns later phase).inserts) (hholds : key ∈ phase'.holds ns) :
    phase'.work c ns < phase.work c ns := by
  cases phase with
  | blocked pending r rest =>
    obtain rfl := Option.some.inj hinserts
    obtain ⟨seed, past, h⟩ := h
    cases phase' with
    | execute pending' rest' =>
      obtain ⟨seed', past', h'⟩ := h'
      obtain ⟨r', hr', heq⟩ := List.mem_map.1 hholds
      have hle := h.rest_le h' hr' (Key.row.inj heq).2
      simp only [Phase.work]
      omega
    | blocked pending' r'' rest' =>
      obtain ⟨seed', past', h'⟩ := h'
      obtain ⟨r', hr', heq⟩ := List.mem_map.1 hholds
      have hle := h.rest_le h' hr' (Key.row.inj heq).2
      rw [List.length_cons] at hle
      simp only [Phase.work]
      omega
    | commitMarker => cases List.mem_singleton.1 hholds
    | _ => cases hholds
  | insertMarker =>
    obtain rfl := Option.some.inj hinserts
    cases phase' with
    | commitMarker => exact Nat.lt_succ_self 2
    | execute pending' rest' => obtain ⟨r', _, heq⟩ := List.mem_map.1 hholds; cases heq
    | blocked pending' r'' rest' => obtain ⟨r', _, heq⟩ := List.mem_map.1 hholds; cases heq
    | _ => cases hholds
  | _ => cases hinserts

def Key.ns : Key → String
  | .row ns _ => ns
  | .marker ns => ns

theorem ns_of_mem_inserts {ns : String} {later : List String} {phase : Phase} {key : Key}
    (h : key ∈ (Stage.seeding ns later phase).inserts) : key.ns = ns := by
  cases phase with
  | blocked pending r rest => rw [← Option.some.inj h]; rfl
  | insertMarker => rw [← Option.some.inj h]; rfl
  | _ => cases h

theorem ns_of_mem_holds {ns : String} {phase : Phase} {key : Key} (h : key ∈ phase.holds ns) : key.ns = ns := by
  cases phase with
  | execute pending rest => obtain ⟨r, _, rfl⟩ := List.mem_map.1 h; rfl
  | blocked pending r' rest => obtain ⟨r, _, rfl⟩ := List.mem_map.1 h; rfl
  | commitMarker => rw [List.mem_singleton.1 h]; rfl
  | _ => cases h

/-- A call that holds a key another one waits for is nearer to its end. -/
theorem work_lt_of_holds {db : Db} {k k' : Call} (hk : k.Sound c db) (hk' : k'.Sound c db) {key : Key}
    (hinserts : key ∈ k.stage.inserts) (hholds : key ∈ k'.stage.holds) :
    k'.stage.busy = true ∧ k'.stage.work c < k.stage.work c := by
  cases hstage : k.stage with
  | returned => rw [hstage] at hinserts; cases hinserts
  | raised => rw [hstage] at hinserts; cases hinserts
  | crashed => rw [hstage] at hinserts; cases hinserts
  | seeding ns later phase =>
    cases hstage' : k'.stage with
    | returned => rw [hstage'] at hholds; cases hholds
    | raised => rw [hstage'] at hholds; cases hholds
    | crashed => rw [hstage'] at hholds; cases hholds
    | seeding ns' later' phase' =>
      rw [hstage] at hinserts
      rw [hstage'] at hholds
      obtain rfl : ns' = ns := (ns_of_mem_holds hholds).symm.trans (ns_of_mem_inserts hinserts)
      obtain ⟨⟨past, hsplit, -⟩, -, hphase⟩ := hk.seeding hstage
      obtain ⟨⟨past', hsplit', -⟩, -, hphase'⟩ := hk'.seeding hstage'
      obtain rfl := eq_of_nodup_append_cons c.distinct hsplit hsplit'
      exact ⟨rfl, Nat.add_lt_add_right (Phase.work_lt_of_holds hphase hphase' hinserts hholds) _⟩

theorem advancing_of_sound {s : Scene Db Call} (hs : s.Holds (Db.Sound c) (Call.Sound c)) : Advancing c s := by
  rintro ⟨k, hk, hbusy⟩
  obtain ⟨i, hi⟩ := List.mem_iff_getElem?.1 hk
  refine LockProgram.exists_advance (boots c) (fun k => k.stage.work c) (fun i k hi hbusy => ?_) hi hbusy
  cases hstage : k.stage with
  | returned => rw [hstage] at hbusy; cases hbusy
  | raised => rw [hstage] at hbusy; cases hbusy
  | crashed => rw [hstage] at hbusy; cases hbusy
  | seeding ns later phase =>
    rcases work_proceed (c := c) s.shared ((boots c).taken s i) ns later phase with hlt | ⟨key, hkey, htaken⟩
    · left
      simp only [boots, step, hstage]
      exact hlt
    · rw [← hstage] at hkey
      refine .inr ⟨key, htaken, fun j k' hj hholds => ?_⟩
      rw [← hstage]
      exact work_lt_of_holds (hs.calls hi) (hs.calls hj) hkey hholds

/-- In every run of boots, with crashes and deletions, a returned call leaves every seeded row there once and with its
object, unless an administrator has deleted it; no boot changes a namespace whose marker was there when it began; and
the calls that are left come to their end. No call raises exactly as long as no insert is opposed. -/
theorem boots_safe_iff (c : Catalogs) (run : List (Move Unit Fate Admin)) :
    (boots c).machine.AllStates (fun _ s => Complete c s ∧ Advancing c s) run ∧
      (boots c).machine.AllSteps (fun _ s m => Untouched c s m) run ∧
      ((boots c).machine.AllStates (fun _ s => NoneRaised s) run ↔
        (boots c).machine.AllSteps (fun _ s m => Unopposed c s m) run) := by
  have hsound (ms : List (Move Unit Fate Admin)) := ((outline c).run ms).1
  refine ⟨?_, ?_, ?_⟩
  · induction run with
    | nil => exact ⟨complete_of_sound (hsound []), advancing_of_sound (hsound [])⟩
    | cons m ms ih => exact ⟨⟨complete_of_sound (hsound (m :: ms)), advancing_of_sound (hsound (m :: ms))⟩, ih⟩
  · induction run with
    | nil => trivial
    | cons m ms ih => exact ⟨untouched_of_sound (hsound ms) m, ih⟩
  · exact Machine.allStates_iff_allSteps (fun k hk => absurd hk List.not_mem_nil)
      (fun _ m hnone => noneRaised_next_iff hnone m) run

/-- A fresh database whose one catalog has one entry to install. -/
def oneEntry : Catalogs where
  seeded := ["tools"]
  distinct := List.nodup_singleton _
  seed ns := if ns = "tools" then some
    { objects := ["a"]
      rows := [{ name := "catalog_entries: misc/a.sh", object := some "a" }]
      shipped := by simp
      distinct := by simp
      founded := fun before r after h p hp => by
        have hr : r ∈ before ++ r :: after := List.mem_append_right _ (List.mem_cons_self ..)
        rw [← h, List.mem_singleton] at hr
        rw [hr] at hp
        cases hp }
    else none

/-- Two boots: the second counts the rows the first has installed, and both look for the marker before either inserts
it. The latest move stands first. -/
def markerRace : List (Move Unit Fate Admin) :=
  [.step 1 .go, .step 0 .go, .step 0 .go, .step 1 .go, .step 0 .go, .step 1 .go, .step 1 .go, .step 1 .go,
    .step 0 .go, .step 0 .go, .step 0 .go, .step 0 .go, .step 0 .go, .step 0 .go, .step 0 .go, .begin (), .begin ()]

/-- The second boot raises. -/
theorem markerRace_raises : ¬ (boots oneEntry).machine.AllStates (fun _ s => NoneRaised s) markerRace := by
  intro h
  have hcalls : ((boots oneEntry).machine.state markerRace).calls = [⟨[], .returned⟩, ⟨[], .raised⟩] := by rfl
  have hnone : NoneRaised ((boots oneEntry).machine.state markerRace) := h.now
  exact hnone ⟨[], .raised⟩ (by rw [hcalls]; simp) rfl

end OpenFish.Seeding
