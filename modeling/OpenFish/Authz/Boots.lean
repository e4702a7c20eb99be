/-
One boot, step by step: the built-in roles have their shape, the admin has every point, and an entry of the top-ups is
recorded where its role is there.
-/
import OpenFish.Authz.Upgrades

namespace OpenFish.Authz

open Lib

variable {t : Tables}

/-! ## The built-in roles -/

/-- The role is there with the flags that the release gives it. -/
def Shaped (t : Tables) (b : BuiltinRole) : Prop :=
  ∃ role ∈ t.roles, role.code = b.code ∧ role.isBuiltin = true ∧ role.isAnonymousDefault = b.isAnonymousDefault ∧
    t.autoGrant.get? role.id = some b.autoGrant

/-- What one turn of the loop over the built-in roles leaves as it is. -/
structure RoleSynced (t t' : Tables) : Prop where
  kept : Extends t t'
  permissions : t'.permissions = t.permissions
  modules : t'.modules = t.modules
  seeds : t'.seeds = t.seeds
  /-- A role that has none of the codes of the loop is not created. -/
  codes : ∀ r ∈ t'.roles, r.code ∈ t.roles.map (·.code) ∨ r.code ∈ builtinRoles.map (·.code)

theorem Sound.flags (h : Sound t) {f : Role → Role} (hid : ∀ r, (f r).id = r.id) (hcode : ∀ r, (f r).code = r.code) {t' : Tables}
    (hroles : t'.roles = t.roles.map f) (hpermissions : t'.permissions = t.permissions)
    (hgrants : t'.rolePermissions = t.rolePermissions) : Sound t' := by
  have hids : t'.roles.map (·.id) = t.roles.map (·.id) := by
    rw [hroles, List.map_map]
    exact List.map_congr_left fun r _ => hid r
  have hcodes : t'.roles.map (·.code) = t.roles.map (·.code) := by
    rw [hroles, List.map_map]
    exact List.map_congr_left fun r _ => hcode r
  refine ⟨?_, ?_, ?_, ?_, ?_⟩
  · rw [hids]; exact h.roleIds
  · rw [hcodes]; exact h.roleCodes
  · rw [hpermissions]; exact h.pointIds
  · rw [hpermissions]; exact h.pointCodes
  · rw [hgrants, hpermissions]; exact h.refs

/-- A role that is not there is created with its flags and its seed. -/
theorem syncRole_created {b : BuiltinRole} (hnone : t.roleByCode? b.code = none) :
    ∃ created : Tables, created.roles = t.roles ++ [⟨t.nextRoleId, b.code, b.isBuiltin, b.isAnonymousDefault⟩] ∧
      created.permissions = t.permissions ∧ created.rolePermissions = t.rolePermissions ∧
      created.autoGrant = t.autoGrant.set t.nextRoleId b.autoGrant ∧ Extends t created ∧ created.modules = t.modules ∧
      created.seeds = t.seeds ∧ syncRole t b = created.grant t.nextRoleId (t.ids (seedOf t b.code)) := by
  unfold syncRole
  rw [hnone]
  refine ⟨{ t with
      roles := t.roles ++ [⟨t.nextRoleId, b.code, b.isBuiltin, b.isAnonymousDefault⟩]
      autoGrant := t.autoGrant.set t.nextRoleId b.autoGrant }, rfl, rfl, rfl, rfl,
    ⟨rfl, fun r hr => ⟨r, List.mem_append.2 (.inl hr), rfl, rfl⟩, fun _ hp => hp, rfl, fun _ hg => hg, fun _ hid => hid⟩,
    rfl, rfl, rfl⟩

/-- A role that is there has its flags set, and nothing else. -/
theorem syncRole_present {b : BuiltinRole} {role : Role} (hsome : t.roleByCode? b.code = some role) :
    ∃ f : Role → Role, (∀ r, (f r).id = r.id) ∧ (∀ r, (f r).code = r.code) ∧ (∀ r, r.id ≠ role.id → f r = r) ∧
      (f role).isBuiltin = true ∧ (f role).isAnonymousDefault = b.isAnonymousDefault ∧
      (role.isBuiltin = true → role.isAnonymousDefault = b.isAnonymousDefault → f role = role) ∧
      syncRole t b = { t with roles := t.roles.map f, autoGrant := t.autoGrant.set role.id b.autoGrant } := by
  refine ⟨fun r => if r.id = role.id then { r with isBuiltin := true, isAnonymousDefault := b.isAnonymousDefault } else r,
    fun r => ?_, fun r => ?_, fun r hne => if_neg hne, ?_, ?_, fun hbuiltin hdefault => ?_, ?_⟩
  · dsimp only; split <;> rfl
  · dsimp only; split <;> rfl
  · dsimp only; rw [if_pos rfl]
  · dsimp only; rw [if_pos rfl]
  · dsimp only; rw [if_pos rfl, ← hbuiltin, ← hdefault]
  · unfold syncRole
    rw [hsome]

theorem syncRole_sound (h : Sound t) (b : BuiltinRole) : Sound (syncRole t b) := by
  cases hfound : t.roleByCode? b.code with
  | none =>
    obtain ⟨created, hroles, hpermissions, hgrants, -, -, -, -, heq⟩ := syncRole_created hfound
    rw [heq]
    refine (h.addRole rfl hfound hroles hpermissions hgrants).grant fun pid hpid => ?_
    rw [hpermissions]
    exact ids_refs hpid
  | some role =>
    obtain ⟨f, hid, hcode, -, -, -, -, heq⟩ := syncRole_present hfound
    rw [heq]
    exact h.flags hid hcode rfl rfl rfl

theorem syncRole_spec {b : BuiltinRole} (hb : b ∈ builtinRoles) : RoleSynced t (syncRole t b) := by
  cases hfound : t.roleByCode? b.code with
  | none =>
    obtain ⟨created, hroles, hpermissions, hgrants, -, hkept, hmodules, hseeds, heq⟩ := syncRole_created hfound
    rw [heq]
    refine ⟨hkept.trans (extends_grant ..), hpermissions, hmodules, hseeds, fun r hr => ?_⟩
    have hr : r ∈ created.roles := hr
    rw [hroles] at hr
    rcases List.mem_append.1 hr with hold | hnew
    · exact .inl (List.mem_map.2 ⟨r, hold, rfl⟩)
    · rw [List.mem_singleton.1 hnew]
      exact .inr (List.mem_map.2 ⟨b, hb, rfl⟩)
  | some role =>
    obtain ⟨f, hid, hcode, -, -, -, -, heq⟩ := syncRole_present hfound
    rw [heq]
    refine ⟨⟨rfl, fun r hr => ⟨f r, List.mem_map.2 ⟨r, hr, rfl⟩, hid r, hcode r⟩, fun _ hp => hp, rfl, fun _ hg => hg,
      fun _ hid => hid⟩, rfl, rfl, rfl, fun r hr => ?_⟩
    obtain ⟨r', hr', rfl⟩ := List.mem_map.1 hr
    exact .inl (List.mem_map.2 ⟨r', hr', (hcode r').symm⟩)

theorem syncRole_shaped (t : Tables) {b : BuiltinRole} (hb : b.isBuiltin = true) : Shaped (syncRole t b) b := by
  cases hfound : t.roleByCode? b.code with
  | none =>
    obtain ⟨created, hroles, -, -, hauto, -, -, -, heq⟩ := syncRole_created hfound
    rw [heq]
    refine ⟨⟨t.nextRoleId, b.code, b.isBuiltin, b.isAnonymousDefault⟩, ?_, rfl, hb, rfl, ?_⟩
    · show _ ∈ created.roles
      rw [hroles]
      exact List.mem_append.2 (.inr (List.mem_singleton_self _))
    · show created.autoGrant.get? _ = _
      rw [hauto, Dict.get?_set, if_pos rfl]
  | some role =>
    obtain ⟨f, hid, hcode, -, hbuiltin, hdefault, -, heq⟩ := syncRole_present hfound
    obtain ⟨hrole, hcodeEq⟩ := roleByCode?_some hfound
    rw [heq]
    refine ⟨f role, List.mem_map.2 ⟨role, hrole, rfl⟩, (hcode role).trans hcodeEq, hbuiltin, hdefault, ?_⟩
    rw [hid, Dict.get?_set, if_pos rfl]

/-- The turn of another role does not change the shape of this one. -/
theorem Shaped.syncRole (h : Sound t) {b b' : BuiltinRole} (hne : b.code ≠ b'.code) (hb : Shaped t b) :
    Shaped (syncRole t b') b := by
  obtain ⟨role, hrole, hcodeEq, hbuiltin, hdefault, hauto⟩ := hb
  cases hfound : t.roleByCode? b'.code with
  | none =>
    obtain ⟨created, hroles, -, -, hautoEq, -, -, -, heq⟩ := syncRole_created hfound
    rw [heq]
    refine ⟨role, ?_, hcodeEq, hbuiltin, hdefault, ?_⟩
    · show _ ∈ created.roles
      rw [hroles]
      exact List.mem_append.2 (.inl hrole)
    · show created.autoGrant.get? _ = _
      have hlt : role.id < t.nextRoleId := lt_next (List.mem_map.2 ⟨role, hrole, rfl⟩)
      rw [hautoEq, Dict.get?_set, if_neg (Nat.ne_of_lt hlt), hauto]
  | some other =>
    obtain ⟨f, hid, hcode, hothers, -, -, -, heq⟩ := syncRole_present hfound
    obtain ⟨hother, hotherCode⟩ := roleByCode?_some hfound
    have hids : role.id ≠ other.id := fun hids => hne (by
      rw [← hcodeEq, ← hotherCode, h.role_of_id hrole hother hids])
    rw [heq]
    refine ⟨role, List.mem_map.2 ⟨role, hrole, hothers role hids⟩, hcodeEq, hbuiltin, hdefault, ?_⟩
    rw [Dict.get?_set, if_neg hids, hauto]

/-- A role that has its shape is left alone. -/
theorem syncRole_self (h : Sound t) {b : BuiltinRole} (hb : Shaped t b) : syncRole t b = t := by
  obtain ⟨role, hrole, hcodeEq, hbuiltin, hdefault, hauto⟩ := hb
  have hfound : t.roleByCode? b.code = some role := hcodeEq ▸ h.roleByCode?_of_mem hrole
  obtain ⟨f, -, -, hothers, -, -, hself, heq⟩ := syncRole_present hfound
  have hroles : t.roles.map f = t.roles := by
    refine (List.map_congr_left fun r hr => ?_).trans (List.map_id _)
    by_cases hids : r.id = role.id
    · rw [h.role_of_id hr hrole hids]
      exact hself hbuiltin hdefault
    · exact hothers r hids
  rw [heq, hroles, Dict.set_self hauto]

/-! ## The loop, and the admin -/

theorem RoleSynced.refl (t : Tables) : RoleSynced t t :=
  ⟨.refl t, rfl, rfl, rfl, fun r hr => .inl (List.mem_map.2 ⟨r, hr, rfl⟩)⟩

theorem RoleSynced.trans {t' t'' : Tables} (h : RoleSynced t t') (h' : RoleSynced t' t'') : RoleSynced t t'' where
  kept := h.kept.trans h'.kept
  permissions := h'.permissions.trans h.permissions
  modules := h'.modules.trans h.modules
  seeds := h'.seeds.trans h.seeds
  codes r hr := by
    rcases h'.codes r hr with hold | hnew
    · obtain ⟨r', hr', hcode⟩ := List.mem_map.1 hold
      rw [← hcode]
      exact h.codes r' hr'
    · exact .inr hnew

theorem syncRoles_spec : ∀ {bs : List BuiltinRole}, (∀ b ∈ bs, b ∈ builtinRoles) → (bs.map (·.code)).Nodup → ∀ {t : Tables},
    Sound t → Sound (bs.foldl syncRole t) ∧ RoleSynced t (bs.foldl syncRole t) ∧
      (∀ b ∈ bs, Shaped (bs.foldl syncRole t) b) ∧
      ∀ b : BuiltinRole, b.code ∉ bs.map (·.code) → Shaped t b → Shaped (bs.foldl syncRole t) b
  | [], _, _, t, h => ⟨h, .refl t, fun b hb => absurd hb List.not_mem_nil, fun b _ hb => hb⟩
  | first :: bs, hall, hnodup, t, h => by
    rw [List.forall_mem_cons] at hall
    rw [List.map_cons, List.nodup_cons] at hnodup
    obtain ⟨hfirst, hall⟩ := hall
    obtain ⟨hnew, hnodup⟩ := hnodup
    have hbuiltin : ∀ b ∈ builtinRoles, b.isBuiltin = true := by decide
    obtain ⟨hsound, hsynced, hshaped, hothers⟩ := syncRoles_spec hall hnodup (syncRole_sound h first)
    rw [List.foldl_cons, List.forall_mem_cons]
    refine ⟨hsound, (syncRole_spec hfirst).trans hsynced,
      ⟨hothers first hnew (syncRole_shaped t (hbuiltin first hfirst)), hshaped⟩, fun b hb hshape => ?_⟩
    rw [List.map_cons, List.mem_cons, not_or] at hb
    exact hothers b hb.2 (hshape.syncRole h hb.1)

theorem syncRoles_self : ∀ {bs : List BuiltinRole} {t : Tables}, Sound t → (∀ b ∈ bs, Shaped t b) → bs.foldl syncRole t = t
  | [], _, _, _ => rfl
  | first :: bs, t, h, hshaped => by
    rw [List.forall_mem_cons] at hshaped
    rw [List.foldl_cons, syncRole_self h hshaped.1, syncRoles_self h hshaped.2]

/-- Where the built-in roles are there, the loop grants nothing. -/
theorem syncRoles_grants : ∀ {bs : List BuiltinRole} {t : Tables}, (∀ b ∈ bs, (t.roleByCode? b.code).isSome = true) →
    (bs.foldl syncRole t).rolePermissions = t.rolePermissions ∧ (bs.foldl syncRole t).roles.map (·.code) = t.roles.map (·.code)
  | [], _, _ => ⟨rfl, rfl⟩
  | first :: bs, t, hall => by
    rw [List.forall_mem_cons] at hall
    obtain ⟨role, hrole⟩ := Option.isSome_iff_exists.1 hall.1
    obtain ⟨f, -, hcode, -, -, -, -, heq⟩ := syncRole_present hrole
    have hcodes : (syncRole t first).roles.map (·.code) = t.roles.map (·.code) := by
      rw [heq, List.map_map]
      exact List.map_congr_left fun r _ => hcode r
    have hpresent : ∀ b ∈ bs, ((syncRole t first).roleByCode? b.code).isSome = true := fun b hb => by
      have hthere := hall.2 b hb
      rw [Option.isSome_iff_ne_none, ne_eq, roleByCode?_none] at hthere ⊢
      rwa [hcodes]
    obtain ⟨hgrants, hroles⟩ := syncRoles_grants hpresent
    rw [List.foldl_cons]
    refine ⟨hgrants.trans ?_, hroles.trans hcodes⟩
    rw [heq]

/-- The admin role, if it is there, has every point afterwards, and nothing else changes. -/
theorem topUpAdmin_spec (h : Sound t) : Sound (topUpAdmin t) ∧ Extends t (topUpAdmin t) ∧ (topUpAdmin t).roles = t.roles ∧
    (topUpAdmin t).permissions = t.permissions ∧ (topUpAdmin t).modules = t.modules ∧ (topUpAdmin t).seeds = t.seeds ∧
    (topUpAdmin t).autoGrant = t.autoGrant ∧
    ∀ g, g ∈ (topUpAdmin t).rolePermissions ↔ g ∈ t.rolePermissions ∨
      ∃ role, t.roleByCode? adminRole = some role ∧ g.roleId = role.id ∧ g.permissionId ∈ t.permissions.map (·.id) := by
  unfold topUpAdmin
  cases hfound : t.roleByCode? adminRole with
  | none => exact ⟨h, .refl t, rfl, rfl, rfl, rfl, rfl, fun g => by simp⟩
  | some role =>
    refine ⟨h.grant fun _ hpid => hpid, extends_grant .., rfl, rfl, rfl, rfl, rfl, fun g => ?_⟩
    simp only [Option.some.injEq, exists_eq_left']
    exact mem_grant

theorem topUpAdmin_self {role : Role} (hfound : t.roleByCode? adminRole = some role)
    (hall : ∀ pid ∈ t.permissions.map (·.id), RolePermission.mk role.id pid ∈ t.rolePermissions) : topUpAdmin t = t := by
  unfold topUpAdmin
  rw [hfound]
  exact grant_self hall

/-! ## The top-ups -/

/-- What the top-ups grant, and which entries are recorded in the end. -/
structure ToppedUp (topups : List Topup) (t t' : Tables) (applied : List Topup) : Prop where
  sound : Sound t'
  kept : Extends t t'
  roles : t'.roles = t.roles
  permissions : t'.permissions = t.permissions
  modules : t'.modules = t.modules
  autoGrant : t'.autoGrant = t.autoGrant
  grants : ∀ g, g ∈ t'.rolePermissions ↔ g ∈ t.rolePermissions ∨ ∃ entry ∈ applied, ∃ role,
    t.roleByCode? entry.role = some role ∧ g.roleId = role.id ∧ g.permissionId ∈ t.ids entry.points
  done : ∀ entry ∈ topups, entry.id ∈ t'.seeds ∨ t.roleByCode? entry.role = none

theorem applySeedTopups_spec : ∀ (topups : List Topup) {t : Tables}, Sound t →
    ToppedUp topups t (applySeedTopups topups t).1 (applySeedTopups topups t).2
  | [], t, h => ⟨h, .refl t, rfl, rfl, rfl, rfl, fun g => by simp [applySeedTopups], fun _ he => absurd he List.not_mem_nil⟩
  | entry :: rest, t, h => by
    rw [applySeedTopups]
    split
    · rename_i hseen
      have hrest := applySeedTopups_spec rest h
      refine { hrest with done := ?_ }
      rw [List.forall_mem_cons]
      exact ⟨.inl (hrest.kept.seeds _ hseen), hrest.done⟩
    · cases hrole : t.roleByCode? entry.role with
      | none =>
        have hrest := applySeedTopups_spec rest h
        refine { hrest with done := ?_ }
        rw [List.forall_mem_cons]
        exact ⟨.inr hrole, hrest.done⟩
      | some role =>
        have hgranted : Sound (t.grant role.id (t.ids entry.points)) := h.grant fun _ hpid => ids_refs hpid
        have hkept : Extends t { t.grant role.id (t.ids entry.points) with seeds := t.seeds ++ [entry.id] } :=
          { extends_grant t role.id (t.ids entry.points) with seeds := fun id hid => List.mem_append.2 (.inl hid) }
        have hrest := @applySeedTopups_spec rest
          { t.grant role.id (t.ids entry.points) with seeds := t.seeds ++ [entry.id] } (hgranted.congr rfl rfl rfl)
        refine ⟨hrest.sound, hkept.trans hrest.kept, hrest.roles, hrest.permissions, hrest.modules, hrest.autoGrant,
          fun g => ?_, ?_⟩
        · rw [hrest.grants, List.exists_mem_cons_iff]
          show g ∈ (t.grant role.id (t.ids entry.points)).rolePermissions ∨ _ ↔ _
          rw [mem_grant, hrole, or_assoc]
          simp only [Option.some.injEq, exists_eq_left']
          rfl
        · rw [List.forall_mem_cons]
          refine ⟨.inl (hrest.kept.seeds _ (List.mem_append.2 (.inr (List.mem_singleton_self _)))), hrest.done⟩

/-- An entry is applied where it is the first of its id that is not recorded and whose role is there. -/
theorem mem_applied {entry : Topup} : ∀ {topups : List Topup} {t : Tables}, entry ∈ (applySeedTopups topups t).2 ↔
    entry.id ∉ t.seeds ∧ (t.roleByCode? entry.role).isSome = true ∧ ∃ before after, topups = before ++ entry :: after ∧
      ∀ e ∈ before, e.id = entry.id → t.roleByCode? e.role = none
  | [], t => by simp [applySeedTopups]
  | first :: rest, t => by
    -- an entry further on stays the first of its id behind one that is not applied, or that has another id
    have hcons : ∀ P : Prop, (first.id = entry.id → t.roleByCode? first.role = none) → first ≠ entry ∨ ¬ P →
        ((P ∧ ∃ before after, rest = before ++ entry :: after ∧ ∀ e ∈ before, e.id = entry.id → t.roleByCode? e.role = none) ↔
          P ∧ ∃ before after, first :: rest = before ++ entry :: after ∧
            ∀ e ∈ before, e.id = entry.id → t.roleByCode? e.role = none) := by
      intro P hfirst hne
      refine and_congr_right fun hP => ⟨?_, ?_⟩
      · rintro ⟨before, after, rfl, hbefore⟩
        exact ⟨first :: before, after, rfl, List.forall_mem_cons.2 ⟨hfirst, hbefore⟩⟩
      · rintro ⟨before, after, heq, hbefore⟩
        cases before with
        | nil => exact absurd (List.cons.inj heq).1 (hne.resolve_right (not_not_intro hP))
        | cons e before =>
          obtain ⟨-, hrest⟩ := List.cons.inj heq
          exact ⟨before, after, hrest, fun e' he' => hbefore e' (List.mem_cons_of_mem _ he')⟩
    rw [applySeedTopups]
    split
    · rename_i hseen
      rw [mem_applied, ← and_assoc, ← and_assoc]
      by_cases hid : first.id = entry.id
      · rw [hid] at hseen
        simp [hseen]
      · exact hcons _ (fun heq => absurd heq hid) (.inl fun heq => hid (heq ▸ rfl))
    · rename_i hnew
      cases hrole : t.roleByCode? first.role with
      | none =>
        rw [mem_applied, ← and_assoc, ← and_assoc]
        refine hcons _ (fun _ => hrole) ?_
        by_cases heq : first = entry
        · refine .inr fun hboth => ?_
          rw [← heq, hrole] at hboth
          exact Bool.false_ne_true hboth.2
        · exact .inl heq
      | some role =>
        have hrest := @mem_applied entry rest { t.grant role.id (t.ids first.points) with seeds := t.seeds ++ [first.id] }
        rw [List.mem_cons, hrest]
        by_cases hid : first.id = entry.id
        · constructor
          · rintro (rfl | ⟨hnot, -⟩)
            · refine ⟨hnew, by rw [hrole]; rfl, [], rest, rfl, fun _ he => absurd he List.not_mem_nil⟩
            · exact absurd (List.mem_append.2 (.inr (List.mem_singleton.2 hid.symm))) hnot
          · rintro ⟨-, -, before, after, heq, hbefore⟩
            cases before with
            | nil => exact .inl (List.cons.inj heq).1.symm
            | cons e before =>
              obtain ⟨rfl, -⟩ := List.cons.inj heq
              rw [hbefore first (List.mem_cons_self ..) hid] at hrole
              cases hrole
        · have hseeds : entry.id ∉ t.seeds ++ [first.id] ↔ entry.id ∉ t.seeds := by
            rw [List.mem_append, List.mem_singleton, not_or]
            exact and_iff_left fun heq => hid heq.symm
          have hne : first ≠ entry := fun heq => hid (heq ▸ rfl)
          rw [or_iff_right fun heq => hne heq.symm]
          show entry.id ∉ t.seeds ++ [first.id] ∧ _ ↔ _
          rw [hseeds, ← and_assoc, ← and_assoc]
          exact hcons _ (fun heq => absurd heq hid) (.inl hne)

/-- Where every entry is recorded or its role is missing, none is applied. -/
theorem applySeedTopups_self : ∀ {topups : List Topup} {t : Tables},
    (∀ entry ∈ topups, entry.id ∈ t.seeds ∨ t.roleByCode? entry.role = none) → applySeedTopups topups t = (t, [])
  | [], _, _ => rfl
  | first :: rest, t, hall => by
    rw [List.forall_mem_cons] at hall
    rw [applySeedTopups]
    split
    · exact applySeedTopups_self hall.2
    · rename_i hnew
      rw [hall.1.resolve_left hnew]
      exact applySeedTopups_self hall.2

/-! ## A whole boot -/

/-- What a boot has done before the top-ups. -/
structure Prepared (r : Release) (t t' : Tables) : Prop where
  sound : Sound t'
  kept : Extends t t'
  seeds : t'.seeds = t.seeds
  shaped : ∀ b ∈ builtinRoles, Shaped t' b
  codes : ∀ role ∈ t'.roles, role.code ∈ t.roles.map (·.code) ∨ role.code ∈ builtinRoles.map (·.code)
  points : ∀ p ∈ t'.permissions, p ∈ t.permissions ∨ p.code ∈ r.catalog.entries.map Prod.fst
  declared : ∀ code ∈ r.catalog.entries.map Prod.fst, ∃ p, t'.permission? code = some p ∧ t'.modules.has p.id = true
  admin : ∀ role, t'.roleByCode? adminRole = some role → ∀ pid ∈ t'.permissions.map (·.id),
    RolePermission.mk role.id pid ∈ t'.rolePermissions
  /-- Where the built-in roles were there, only the admin is granted anything. -/
  grants : (∀ b ∈ builtinRoles, (t.roleByCode? b.code).isSome = true) → ∀ g ∈ t'.rolePermissions, g ∈ t.rolePermissions ∨
    ∃ role, t'.roleByCode? adminRole = some role ∧ g.roleId = role.id

theorem Shaped.congr {b : BuiltinRole} (h : Shaped t b) {t' : Tables} (hroles : t'.roles = t.roles)
    (hauto : t'.autoGrant = t.autoGrant) : Shaped t' b := by
  obtain ⟨role, hrole, hrest⟩ := h
  exact ⟨role, by rw [hroles]; exact hrole, by rw [hauto]; exact hrest⟩

theorem permission?_congr {t' : Tables} (h : t'.permissions = t.permissions) (code : String) :
    t'.permission? code = t.permission? code := by
  unfold Db.permission?
  rw [h]

theorem roleByCode?_congr {t' : Tables} (h : t'.roles = t.roles) (code : String) : t'.roleByCode? code = t.roleByCode? code := by
  unfold Db.roleByCode?
  rw [h]

theorem beforeTopups_spec (h : Sound t) (r : Release) : Prepared r t (beforeTopups r t) := by
  obtain ⟨hsound, hsynced⟩ := syncPermissions_spec h r.catalog
  obtain ⟨hsound', hroles, hshaped, -⟩ := @syncRoles_spec builtinRoles (fun _ hb => hb) (by decide) _ hsound
  obtain ⟨hsound'', hkept, hrolesEq, hpermissions, hmodules, hseeds, hauto, hgrants⟩ := topUpAdmin_spec hsound'
  refine ⟨hsound'', (hsynced.kept.trans hroles.kept).trans hkept, ?_, fun b hb => (hshaped b hb).congr hrolesEq hauto,
    fun role hrole => ?_, fun p hp => ?_, fun code hcode => ?_, fun role hrole pid hpid => ?_, fun hpresent g hg => ?_⟩
  · exact hseeds.trans (hroles.seeds.trans hsynced.seeds)
  · have hcode := hroles.codes role (by rw [← hrolesEq]; exact hrole)
    rwa [hsynced.roles] at hcode
  · exact hsynced.points p (by rw [← hroles.permissions, ← hpermissions]; exact hp)
  · obtain ⟨p, hp, hmodule⟩ := hsynced.declared code hcode
    refine ⟨p, ?_, ?_⟩
    · exact (permission?_congr (hpermissions.trans hroles.permissions) code).trans hp
    · show (beforeTopups r t).modules.has p.id = true
      unfold beforeTopups
      rw [hmodules, hroles.modules]
      exact hmodule
  · refine (hgrants _).2 (.inr ⟨role, ?_, rfl, ?_⟩)
    · exact (roleByCode?_congr hrolesEq adminRole).symm.trans hrole
    · rw [← hpermissions]
      exact hpid
  · rcases (hgrants g).1 hg with hold | ⟨role, hrole, hid, -⟩
    · left
      rw [(syncRoles_grants fun b hb => ?_).1, hsynced.grants] at hold
      · exact hold
      · rw [roleByCode?_congr hsynced.roles]
        exact hpresent b hb
    · exact .inr ⟨role, (roleByCode?_congr hrolesEq adminRole).trans hrole, hid⟩

theorem Shaped.roleByCode? (h : Sound t) {b : BuiltinRole} (hb : Shaped t b) : (t.roleByCode? b.code).isSome = true := by
  obtain ⟨role, hrole, hcode, -⟩ := hb
  rw [← hcode, h.roleByCode?_of_mem hrole]
  rfl

/-- A boot finds nothing to do where it has been before. -/
theorem bootstrap_bootstrap (h : Sound t) (r : Release) : bootstrap r (bootstrap r t) = bootstrap r t := by
  have hbefore := beforeTopups_spec h r
  have hafter := applySeedTopups_spec r.topups hbefore.sound
  change ToppedUp r.topups (beforeTopups r t) (bootstrap r t) _ at hafter
  generalize bootstrap r t = u at hafter ⊢
  have hshaped : ∀ b ∈ builtinRoles, Shaped u b := fun b hb => (hbefore.shaped b hb).congr hafter.roles hafter.autoGrant
  have hpoints : syncPermissions r.catalog u = u := by
    refine syncPermissions_self fun code hcode => ?_
    rw [permission?_congr hafter.permissions, hafter.modules]
    exact hbefore.declared code hcode
  have hadmin : topUpAdmin u = u := by
    have hthere := (hshaped ⟨adminRole, true, false, false⟩ (by decide)).roleByCode? hafter.sound
    obtain ⟨role, hrole⟩ := Option.isSome_iff_exists.1 hthere
    refine topUpAdmin_self hrole fun pid hpid => ?_
    rw [hafter.permissions] at hpid
    rw [roleByCode?_congr hafter.roles] at hrole
    exact hafter.kept.grants _ (hbefore.admin role hrole pid hpid)
  have hsame : beforeTopups r u = u := by
    unfold beforeTopups
    rw [hpoints, syncRoles_self hafter.sound hshaped, hadmin]
  have hdone : ∀ entry ∈ r.topups, entry.id ∈ u.seeds ∨ u.roleByCode? entry.role = none := fun entry hentry => by
    rw [roleByCode?_congr hafter.roles]
    exact hafter.done entry hentry
  rw [bootstrap, hsame, applySeedTopups_self hdone]

end OpenFish.Authz
