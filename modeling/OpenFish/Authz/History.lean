/-
Histories of boots and of an administrator's edits: what a boot adds, and when an entry of the top-ups may be recorded.
-/
import OpenFish.Authz.Boots

namespace OpenFish.Authz

open Lib

variable {t : Tables}

/-! ## What the claim is about -/

/-- The role has the point. -/
def Holds (t : Tables) (role point : String) : Prop :=
  ∃ r ∈ t.roles, r.code = role ∧ ∃ p ∈ t.permissions, p.code = point ∧ RolePermission.mk r.id p.id ∈ t.rolePermissions

/-- A boot removes nothing, is done when it has run, gives no removed grant back except by a new top-up, and records no top-up
that it has not granted in full. -/
structure Respects (removed : String → String → Prop) (r : Release) (t : Tables) : Prop where
  kept : Extends t (bootstrap r t)
  twice : bootstrap r (bootstrap r t) = bootstrap r t
  back : ∀ role point, removed role point → role ≠ adminRole → ¬ Holds t role point → Holds (bootstrap r t) role point →
    ∃ entry ∈ (applySeedTopups r.topups (beforeTopups r t)).2, entry.id ∉ t.seeds ∧ entry.role = role ∧ point ∈ entry.points
  recorded : ∀ entry ∈ (applySeedTopups r.topups (beforeTopups r t)).2, ∀ point ∈ entry.points,
    Holds (bootstrap r t) entry.role point

/-- Every boot of these events does, where `removed` are the grants that an administrator has taken away so far. -/
def Respected (isAlnum : Char → Bool) : (String → String → Prop) → Tables → List Event → Prop
  | _, _, [] => True
  | removed, t, .boot r :: rest => Respects removed r t ∧ Respected isAlnum removed (bootstrap r t) rest
  | removed, t, .edit e :: rest =>
    let t' := e.run isAlnum t
    Respected isAlnum (fun role point => removed role point ∨ Holds t role point ∧ ¬ Holds t' role point) t' rest

/-- The role is there when the top-ups are applied. -/
def RoleThere (t : Tables) (code : String) : Prop := (t.roleByCode? code).isSome = true ∨ code ∈ builtinRoles.map (·.code)

/-- A top-up that is not recorded yet and whose role is there (the first with its id) names only points that the release
declares or that are already in the table. -/
def Declares (r : Release) (t : Tables) : Prop :=
  ∀ before entry after, r.topups = before ++ entry :: after → entry.id ∉ t.seeds → RoleThere t entry.role →
    (∀ e ∈ before, e.id = entry.id → ¬ RoleThere t e.role) →
    ∀ point ∈ entry.points, point ∈ r.catalog.entries.map Prod.fst ∨ (t.permission? point).isSome = true

/-- Every release of these events does. -/
def Declared (isAlnum : Char → Bool) : Tables → List Event → Prop
  | _, [] => True
  | t, .boot r :: rest => Declares r t ∧ Declared isAlnum (bootstrap r t) rest
  | t, .edit e :: rest => Declared isAlnum (e.run isAlnum t) rest

/-! ## One boot -/

theorem roleThere_iff (h : Sound t) (r : Release) (code : String) :
    ((beforeTopups r t).roleByCode? code).isSome = true ↔ RoleThere t code := by
  have hbefore := beforeTopups_spec h r
  constructor
  · intro hsome
    obtain ⟨role, hrole⟩ := Option.isSome_iff_exists.1 hsome
    obtain ⟨hin, rfl⟩ := roleByCode?_some hrole
    refine (hbefore.codes role hin).imp_left fun hold => ?_
    rw [Option.isSome_iff_ne_none, ne_eq, roleByCode?_none, not_not]
    exact hold
  · intro hthere
    rw [Option.isSome_iff_ne_none, ne_eq, roleByCode?_none, not_not]
    rcases hthere with hold | hnew
    · obtain ⟨role, hrole⟩ := Option.isSome_iff_exists.1 hold
      obtain ⟨hin, rfl⟩ := roleByCode?_some hrole
      obtain ⟨role', hin', -, hcode⟩ := hbefore.kept.roles role hin
      exact List.mem_map.2 ⟨role', hin', hcode⟩
    · obtain ⟨b, hb, rfl⟩ := List.mem_map.1 hnew
      obtain ⟨role, hin, hcode, -⟩ := hbefore.shaped b hb
      exact List.mem_map.2 ⟨role, hin, hcode⟩

theorem mem_points_iff (h : Sound t) (r : Release) (point : String) :
    point ∈ (beforeTopups r t).permissions.map (·.code) ↔
      point ∈ r.catalog.entries.map Prod.fst ∨ (t.permission? point).isSome = true := by
  have hbefore := beforeTopups_spec h r
  rw [Option.isSome_iff_ne_none, ne_eq, permission?_none, not_not]
  constructor
  · intro hin
    obtain ⟨p, hp, rfl⟩ := List.mem_map.1 hin
    exact (hbefore.points p hp).symm.imp_right fun hold => List.mem_map.2 ⟨p, hold, rfl⟩
  · rintro (hnew | hold)
    · obtain ⟨p, hp, -⟩ := hbefore.declared point hnew
      obtain ⟨hin, hcode⟩ := permission?_some hp
      exact List.mem_map.2 ⟨p, hin, hcode⟩
    · obtain ⟨p, hp, rfl⟩ := List.mem_map.1 hold
      exact List.mem_map.2 ⟨p, hbefore.kept.permissions p hp, rfl⟩

theorem mem_applied_iff (h : Sound t) (r : Release) (entry : Topup) :
    entry ∈ (applySeedTopups r.topups (beforeTopups r t)).2 ↔ entry.id ∉ t.seeds ∧ RoleThere t entry.role ∧
      ∃ before after, r.topups = before ++ entry :: after ∧ ∀ e ∈ before, e.id = entry.id → ¬ RoleThere t e.role := by
  rw [mem_applied, (beforeTopups_spec h r).seeds, roleThere_iff h]
  simp only [← roleThere_iff h r, Bool.not_eq_true, Option.isSome_eq_false_iff, Option.isNone_iff_eq_none]

/-- What a boot records it has granted in full if and only if it knows the points. -/
theorem recorded_iff_declares (h : Sound t) (r : Release) :
    (∀ entry ∈ (applySeedTopups r.topups (beforeTopups r t)).2, ∀ point ∈ entry.points, Holds (bootstrap r t) entry.role point) ↔
      Declares r t := by
  have hbefore := beforeTopups_spec h r
  have hafter := applySeedTopups_spec r.topups hbefore.sound
  change ToppedUp r.topups (beforeTopups r t) (bootstrap r t) _ at hafter
  constructor
  · intro hrecorded before entry after heq hnew hthere hfirst point hpoint
    have happlied := (mem_applied_iff h r entry).2 ⟨hnew, hthere, before, after, heq, hfirst⟩
    obtain ⟨-, -, -, p, hp, hcode, -⟩ := hrecorded entry happlied point hpoint
    rw [← mem_points_iff h r, ← hafter.permissions]
    exact List.mem_map.2 ⟨p, hp, hcode⟩
  · intro hdeclares entry happlied point hpoint
    obtain ⟨hnew, hthere, before, after, heq, hfirst⟩ := (mem_applied_iff h r entry).1 happlied
    obtain ⟨role, hrole⟩ := Option.isSome_iff_exists.1 ((roleThere_iff h r entry.role).2 hthere)
    obtain ⟨hin, hcode⟩ := roleByCode?_some hrole
    obtain ⟨p, hp, rfl⟩ := List.mem_map.1 ((mem_points_iff h r point).2 (hdeclares before entry after heq hnew hthere hfirst point hpoint))
    refine ⟨role, by rw [hafter.roles]; exact hin, hcode, p, by rw [hafter.permissions]; exact hp, rfl, ?_⟩
    exact (hafter.grants _).2 (.inr ⟨entry, happlied, role, hrole, rfl, (hbefore.sound.mem_ids hp).2 hpoint⟩)

/-- The built-in roles are there and cannot be deleted. -/
def Builtin (t : Tables) : Prop := ∀ b ∈ builtinRoles, ∃ role ∈ t.roles, role.code = b.code ∧ role.isBuiltin = true

theorem Builtin.roleByCode? (hbuiltin : Builtin t) {b : BuiltinRole} (hb : b ∈ builtinRoles) :
    (t.roleByCode? b.code).isSome = true := by
  obtain ⟨role, hrole, hcode, -⟩ := hbuiltin b hb
  rw [Option.isSome_iff_ne_none, ne_eq, roleByCode?_none, not_not]
  exact List.mem_map.2 ⟨role, hrole, hcode⟩

/-- Where the built-in roles were there, whoever is granted a point is the admin, or is topped up. -/
theorem granted_by_topup (h : Sound t) (hbuiltin : Builtin t) (r : Release) {role point : String} (hne : role ≠ adminRole)
    (hnot : ¬ Holds t role point) (hnow : Holds (bootstrap r t) role point) :
    ∃ entry ∈ (applySeedTopups r.topups (beforeTopups r t)).2, entry.id ∉ t.seeds ∧ entry.role = role ∧ point ∈ entry.points := by
  have hbefore := beforeTopups_spec h r
  have hafter := applySeedTopups_spec r.topups hbefore.sound
  change ToppedUp r.topups (beforeTopups r t) (bootstrap r t) _ at hafter
  obtain ⟨role', hrole', rfl, p', hp', rfl, hgrant⟩ := hnow
  have hroleIn : role' ∈ (beforeTopups r t).roles := by rw [← hafter.roles]; exact hrole'
  have hpIn : p' ∈ (beforeTopups r t).permissions := by rw [← hafter.permissions]; exact hp'
  rcases (hafter.grants _).1 hgrant with hold | ⟨entry, happlied, found, hfound, hid, hpoint⟩
  · rcases hbefore.grants (fun b hb => hbuiltin.roleByCode? hb) _ hold with hgranted | ⟨admin, hadmin, hid⟩
    · -- the grant was there, and so were its role and its point
      refine absurd ?_ hnot
      obtain ⟨p, hp, hpid⟩ := List.mem_map.1 (h.refs _ hgranted)
      have hpoint := hbefore.sound.point_of_id (hbefore.kept.permissions p hp) hpIn hpid
      have hcode : role'.code ∈ t.roles.map (·.code) := by
        refine (hbefore.codes role' hroleIn).elim id fun hcode => ?_
        obtain ⟨b, hb, hbcode⟩ := List.mem_map.1 hcode
        obtain ⟨old, hold, holdCode, -⟩ := hbuiltin b hb
        exact List.mem_map.2 ⟨old, hold, holdCode.trans hbcode⟩
      obtain ⟨old, hold, holdCode⟩ := List.mem_map.1 hcode
      obtain ⟨new, hnew, hnewId, hnewCode⟩ := hbefore.kept.roles old hold
      have hsame := List.inj_on_of_nodup_map hbefore.sound.roleCodes hnew hroleIn (hnewCode.trans holdCode)
      refine ⟨old, hold, holdCode, p, hp, congrArg _ hpoint, ?_⟩
      rw [← hnewId, hsame, hpoint]
      exact hgranted
    · obtain ⟨hin, hcode⟩ := roleByCode?_some hadmin
      have hsame := hbefore.sound.role_of_id hroleIn hin hid
      rw [hsame] at hne
      exact absurd hcode hne
  · obtain ⟨hin, hcode⟩ := roleByCode?_some hfound
    have hsame := hbefore.sound.role_of_id hroleIn hin hid
    refine ⟨entry, happlied, ((mem_applied_iff h r entry).1 happlied).1, ?_, (hbefore.sound.mem_ids hpIn).1 hpoint⟩
    rw [hsame, hcode]

/-- One boot respects an administrator if and only if it knows the points that it hands out for the first time. -/
theorem respects_iff (h : Sound t) {removed : String → String → Prop}
    (hstart : (∀ role point, ¬ removed role point) ∨ Builtin t) (r : Release) : Respects removed r t ↔ Declares r t := by
  have hbefore := beforeTopups_spec h r
  have hafter := applySeedTopups_spec r.topups hbefore.sound
  rw [← recorded_iff_declares h r]
  constructor
  · exact Respects.recorded
  · refine fun hrecorded => ⟨hbefore.kept.trans hafter.kept, bootstrap_bootstrap h r, fun role point hremoved hne hnot hnow => ?_,
      hrecorded⟩
    rcases hstart with hnone | hbuiltin
    · exact absurd hremoved (hnone role point)
    · exact granted_by_topup h hbuiltin r hne hnot hnow

theorem bootstrap_sound (h : Sound t) (r : Release) : Sound (bootstrap r t) ∧ Builtin (bootstrap r t) := by
  have hbefore := beforeTopups_spec h r
  have hafter := applySeedTopups_spec r.topups hbefore.sound
  refine ⟨hafter.sound, fun b hb => ?_⟩
  obtain ⟨role, hrole, hcode, hbuiltin, -⟩ := (hbefore.shaped b hb).congr hafter.roles hafter.autoGrant
  exact ⟨role, hrole, hcode, hbuiltin⟩

/-! ## One edit -/

theorem addPermissions_spec : ∀ {codes : List String} {db : Db}, codes.Nodup → (∀ c ∈ codes, c ∉ db.permissions.map (·.code)) →
    (db.permissions.map (·.id)).Nodup → (db.permissions.map (·.code)).Nodup →
    ((db.addPermissions codes).permissions.map (·.id)).Nodup ∧ ((db.addPermissions codes).permissions.map (·.code)).Nodup ∧
      (∀ p ∈ db.permissions, p ∈ (db.addPermissions codes).permissions) ∧ (db.addPermissions codes).roles = db.roles ∧
      (db.addPermissions codes).rolePermissions = db.rolePermissions
  | [], _, _, _, hids, hcodes => ⟨hids, hcodes, fun _ hp => hp, rfl, rfl⟩
  | code :: codes, db, hnodup, hnew, hids, hcodes => by
    rw [List.nodup_cons] at hnodup
    rw [List.forall_mem_cons] at hnew
    rw [Db.addPermissions]
    have hadded : ∀ c ∈ codes, c ∉ (db.permissions ++ [Permission.mk db.nextPermissionId code]).map (·.code) := by
      intro c hc hin
      rw [List.map_append, List.mem_append] at hin
      rcases hin with hold | heq
      · exact hnew.2 c hc hold
      · rw [List.mem_singleton.1 heq] at hc
        exact hnodup.1 hc
    have hids' : ((db.permissions ++ [Permission.mk db.nextPermissionId code]).map (·.id)).Nodup := by
      rw [List.map_append, List.map_singleton]
      refine List.nodup_append.2 ⟨hids, List.nodup_singleton _, fun a ha b hb => ?_⟩
      rw [List.mem_singleton.1 hb]
      exact Nat.ne_of_lt (lt_next ha)
    have hcodes' : ((db.permissions ++ [Permission.mk db.nextPermissionId code]).map (·.code)).Nodup := by
      rw [List.map_append, List.map_singleton]
      refine List.nodup_append.2 ⟨hcodes, List.nodup_singleton _, fun a ha b hb heq => ?_⟩
      have hcode : a = code := heq.trans (List.mem_singleton.1 hb)
      exact hnew.1 (hcode ▸ ha)
    obtain ⟨hi, hc, hkept, hroles, hgrants⟩ := @addPermissions_spec codes
      { db with permissions := db.permissions ++ [Permission.mk db.nextPermissionId code] } hnodup.2 hadded hids' hcodes'
    exact ⟨hi, hc, fun p hp => hkept p (List.mem_append.2 (.inl hp)), hroles, hgrants⟩

theorem setRolePermissions_sound (h : Sound t) {roleId : Nat} {codes : List String} {db : Db}
    (hcommit : (Write.setRolePermissions roleId codes).commit t.toDb = some db) {t' : Tables} (hdb : t'.toDb = db) :
    Sound t' ∧ t'.roles = t.roles := by
  unfold Write.commit at hcommit
  simp only at hcommit
  split at hcommit
  · cases hcommit
  · rename_i role hrole
    split at hcommit
    · cases hcommit
    · rename_i hnodup
      rw [not_not] at hnodup
      obtain ⟨hids, hcodes, hkept, hroles, hgrants⟩ := addPermissions_spec hnodup
        (fun c hc => permission?_none.1 (of_decide_eq_true (List.mem_filter.1 hc).2)) h.pointIds h.pointCodes
      rw [← Option.some.inj hcommit] at hdb
      refine ⟨⟨?_, ?_, ?_, ?_, fun g hg => ?_⟩, ?_⟩
      · rw [hdb]; exact hroles ▸ h.roleIds
      · rw [hdb]; exact hroles ▸ h.roleCodes
      · rw [hdb]; exact hids
      · rw [hdb]; exact hcodes
      · rw [hdb] at hg ⊢
        rcases List.mem_append.1 hg with hold | hnew
        · rw [hgrants] at hold
          obtain ⟨p, hp, hid⟩ := List.mem_map.1 (h.refs g (List.mem_filter.1 hold).1)
          exact List.mem_map.2 ⟨p, hkept p hp, hid⟩
        · obtain ⟨pid, hpid, rfl⟩ := List.mem_map.1 hnew
          obtain ⟨p, hp, rfl⟩ := List.mem_map.1 (List.mem_dedup.1 (List.mem_filter.1 hpid).1)
          obtain ⟨code, -, hsome⟩ := List.mem_filterMap.1 hp
          exact List.mem_map.2 ⟨p, List.mem_of_find?_eq_some hsome, rfl⟩
      · rw [hdb]
        exact hroles

theorem deleteRole_sound (h : Sound t) (hbuiltin : Builtin t) {roleId : Nat} {db : Db}
    (hcommit : (Write.deleteRole roleId).commit t.toDb = some db) {t' : Tables} (hdb : t'.toDb = db) :
    Sound t' ∧ Builtin t' := by
  unfold Write.commit at hcommit
  simp only at hcommit
  split at hcommit
  · cases hcommit
  · rename_i role hrole
    split at hcommit
    · cases hcommit
    · rename_i hnot
      have hin : role ∈ t.roles := List.mem_of_find?_eq_some hrole
      rw [← Option.some.inj hcommit] at hdb
      refine ⟨⟨?_, ?_, ?_, ?_, fun g hg => ?_⟩, fun b hb => ?_⟩
      · rw [hdb]; exact h.roleIds.sublist (List.filter_sublist.map _)
      · rw [hdb]; exact h.roleCodes.sublist (List.filter_sublist.map _)
      · rw [hdb]; exact h.pointIds
      · rw [hdb]; exact h.pointCodes
      · rw [hdb] at hg ⊢
        exact h.refs g (List.mem_filter.1 hg).1
      · obtain ⟨kept, hkept, hcode, hflag⟩ := hbuiltin b hb
        refine ⟨kept, ?_, hcode, hflag⟩
        rw [hdb]
        refine List.mem_filter.2 ⟨hkept, decide_eq_true fun hid => hnot ?_⟩
        rw [← h.role_of_id hkept hin hid]
        exact hflag

theorem edit_sound (isAlnum : Char → Bool) (h : Sound t) (hbuiltin : Builtin t) (e : Edit) :
    Sound (e.run isAlnum t) ∧ Builtin (e.run isAlnum t) := by
  cases e with
  | setRolePermissions roleId codes =>
    unfold Edit.run
    simp only
    split
    · exact ⟨h, hbuiltin⟩
    · rename_i db hcommit
      have hset : ∀ t' : Tables, t'.toDb = db → Sound t' ∧ Builtin t' := fun t' hdb => by
        obtain ⟨hsound, hroles⟩ := setRolePermissions_sound h hcommit hdb
        exact ⟨hsound, fun b hb => by rw [hroles]; exact hbuiltin b hb⟩
      exact hset _ rfl
  | createRole code =>
    unfold Edit.run
    simp only
    split
    · exact ⟨h, hbuiltin⟩
    · rename_i code' _
      split
      · exact ⟨h, hbuiltin⟩
      · rename_i hnew
        rw [Bool.not_eq_true, Option.isSome_eq_false_iff, Option.isNone_iff_eq_none] at hnew
        refine ⟨h.addRole (r := ⟨t.nextRoleId, code', false, false⟩) rfl hnew rfl rfl rfl, fun b hb => ?_⟩
        obtain ⟨role, hrole, hrest⟩ := hbuiltin b hb
        exact ⟨role, List.mem_append.2 (.inl hrole), hrest⟩
  | deleteRole roleId =>
    unfold Edit.run
    simp only
    split
    · exact ⟨h, hbuiltin⟩
    · rename_i db hcommit
      exact deleteRole_sound h hbuiltin hcommit rfl

/-! ## Histories -/

theorem respected_iff (isAlnum : Char → Bool) : ∀ (events : List Event) {removed : String → String → Prop} {t : Tables},
    Sound t → Builtin t → (Respected isAlnum removed t events ↔ Declared isAlnum t events)
  | [], _, _, _, _ => Iff.rfl
  | .boot r :: rest, removed, t, h, hbuiltin => by
    obtain ⟨hsound, hbuiltin'⟩ := bootstrap_sound h r
    exact and_congr (respects_iff h (.inr hbuiltin) r) (respected_iff isAlnum rest hsound hbuiltin')
  | .edit e :: rest, removed, t, h, hbuiltin => by
    obtain ⟨hsound, hbuiltin'⟩ := edit_sound isAlnum h hbuiltin e
    exact respected_iff isAlnum rest hsound hbuiltin'

/-- In every history of boots and edits, seeding is additive, settles, and respects the administrator, if and only if no release
hands out for the first time, to a role that is there, a point that nobody has declared. -/
theorem respected_iff_declared (isAlnum : Char → Bool) (first : Release) (events : List Event) :
    Respected isAlnum (fun _ _ => False) .empty (.boot first :: events) ↔ Declared isAlnum .empty (.boot first :: events) := by
  obtain ⟨hsound, hbuiltin⟩ := bootstrap_sound sound_empty first
  exact and_congr (respects_iff sound_empty (.inl fun _ _ hno => hno) first) (respected_iff isAlnum events hsound hbuiltin)

/-! ## A point that is not declared yet -/

/-- A release that tops a role up with a point whose guard comes in a later one. -/
def early : Release where
  catalog := .empty
  topups := [⟨"2026-10-report", authenticatedRole, ["report:read"]⟩]

/-- The top-up is recorded, and the role does not have the point. -/
theorem early_not_respected : ¬ Respected Char.isAlphanum (fun _ _ => False) .empty [.boot early] := by
  rintro ⟨hrespects, -⟩
  have hrecorded := hrespects.recorded ⟨"2026-10-report", authenticatedRole, ["report:read"]⟩ (by decide) "report:read" (by decide)
  obtain ⟨-, -, -, p, hp, -⟩ := hrecorded
  have hnone : (bootstrap early .empty).permissions = [] := by rfl
  rw [hnone] at hp
  exact absurd hp List.not_mem_nil

end OpenFish.Authz
