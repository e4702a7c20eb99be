/-
What a boot leaves of the RBAC tables: it only ever adds to them, and what it adds comes from a new built-in role, from the
admin's claim to every point, or from a top-up.
-/
import OpenFish.Authz.Seeding

namespace OpenFish.Authz

open Lib

/-! ## Adding -/

/-- Nothing is removed: a role keeps its id and its code, everything else stays as it is. -/
structure Extends (t t' : Tables) : Prop where
  users : t'.users = t.users
  roles : ∀ r ∈ t.roles, ∃ r' ∈ t'.roles, r'.id = r.id ∧ r'.code = r.code
  permissions : ∀ p ∈ t.permissions, p ∈ t'.permissions
  userRoles : t'.userRoles = t.userRoles
  grants : ∀ g ∈ t.rolePermissions, g ∈ t'.rolePermissions
  seeds : ∀ id ∈ t.seeds, id ∈ t'.seeds

theorem Extends.refl (t : Tables) : Extends t t :=
  ⟨rfl, fun r hr => ⟨r, hr, rfl, rfl⟩, fun _ hp => hp, rfl, fun _ hg => hg, fun _ hid => hid⟩

theorem Extends.trans {t t' t'' : Tables} (h : Extends t t') (h' : Extends t' t'') : Extends t t'' where
  users := h'.users.trans h.users
  roles r hr := by
    obtain ⟨r', hr', hid, hcode⟩ := h.roles r hr
    obtain ⟨r'', hr'', hid', hcode'⟩ := h'.roles r' hr'
    exact ⟨r'', hr'', hid'.trans hid, hcode'.trans hcode⟩
  permissions p hp := h'.permissions p (h.permissions p hp)
  userRoles := h'.userRoles.trans h.userRoles
  grants g hg := h'.grants g (h.grants g hg)
  seeds id hid := h'.seeds id (h.seeds id hid)

theorem extends_foldl {β : Type} {f : Tables → β → Tables} (hf : ∀ t b, Extends t (f t b)) :
    ∀ (bs : List β) (t : Tables), Extends t (bs.foldl f t)
  | [], t => .refl t
  | b :: bs, t => (hf t b).trans (extends_foldl hf bs (f t b))

theorem mem_grant {t : Tables} {roleId : Nat} {wanted : List Nat} {g : RolePermission} :
    g ∈ (t.grant roleId wanted).rolePermissions ↔ g ∈ t.rolePermissions ∨ g.roleId = roleId ∧ g.permissionId ∈ wanted := by
  unfold Tables.grant
  rw [List.mem_append, List.mem_map]
  constructor
  · rintro (hg | ⟨pid, hpid, rfl⟩)
    · exact .inl hg
    · exact .inr ⟨rfl, List.mem_dedup.1 (List.mem_filter.1 hpid).1⟩
  · rintro (hg | ⟨rfl, hpid⟩)
    · exact .inl hg
    · by_cases hold : g ∈ t.rolePermissions
      · exact .inl hold
      · exact .inr ⟨g.permissionId, List.mem_filter.2 ⟨List.mem_dedup.2 hpid, decide_eq_true hold⟩, rfl⟩

theorem extends_grant (t : Tables) (roleId : Nat) (wanted : List Nat) : Extends t (t.grant roleId wanted) where
  users := rfl
  roles r hr := ⟨r, hr, rfl, rfl⟩
  permissions _ hp := hp
  userRoles := rfl
  grants _ hg := mem_grant.2 (.inl hg)
  seeds _ hid := hid

/-- What is held already is not granted again. -/
theorem grant_self {t : Tables} {roleId : Nat} {wanted : List Nat}
    (h : ∀ pid ∈ wanted, RolePermission.mk roleId pid ∈ t.rolePermissions) : t.grant roleId wanted = t := by
  have hnone : (wanted.dedup.filter fun pid => RolePermission.mk roleId pid ∉ t.rolePermissions) = [] := by
    rw [List.filter_eq_nil_iff]
    intro pid hpid hnew
    exact of_decide_eq_true hnew (h pid (List.mem_dedup.1 hpid))
  unfold Tables.grant
  rw [hnone, List.map_nil, List.append_nil]

/-! ## Rows and their codes -/

theorem lt_next {n : Nat} {l : List Nat} (h : n ∈ l) : n < l.foldl max 0 + 1 := by
  have hall : ∀ (l : List Nat) (m : Nat), m ≤ l.foldl max m ∧ ∀ n ∈ l, n ≤ l.foldl max m := by
    intro l
    induction l with
    | nil => exact fun m => ⟨le_rfl, fun n hn => absurd hn List.not_mem_nil⟩
    | cons a l ih =>
      intro m
      obtain ⟨hle, hrest⟩ := ih (max m a)
      rw [List.foldl_cons, List.forall_mem_cons]
      exact ⟨le_trans (le_max_left _ _) hle, le_trans (le_max_right _ _) hle, hrest⟩
  exact Nat.lt_succ_of_le ((hall l 0).2 n h)

/-- The keys are unique, and every grant is of a point there is. -/
structure Sound (t : Tables) : Prop where
  roleIds : (t.roles.map (·.id)).Nodup
  roleCodes : (t.roles.map (·.code)).Nodup
  pointIds : (t.permissions.map (·.id)).Nodup
  pointCodes : (t.permissions.map (·.code)).Nodup
  refs : ∀ g ∈ t.rolePermissions, g.permissionId ∈ t.permissions.map (·.id)

theorem sound_empty : Sound .empty :=
  ⟨List.nodup_nil, List.nodup_nil, List.nodup_nil, List.nodup_nil, fun _ hg => absurd hg List.not_mem_nil⟩

section rows

variable {α : Type} {key : α → String} {l : List α}

theorem find?_key_some {k : String} {a : α} (h : (l.find? fun a => key a = k) = some a) : a ∈ l ∧ key a = k :=
  ⟨List.mem_of_find?_eq_some h, by simpa using List.find?_some h⟩

theorem find?_key_none {k : String} : (l.find? fun a => key a = k) = none ↔ k ∉ l.map key := by
  simp [List.find?_eq_none]

theorem find?_key_of_mem (hnodup : (l.map key).Nodup) {a : α} (ha : a ∈ l) : (l.find? fun b => key b = key a) = some a := by
  cases hfound : l.find? fun b => key b = key a with
  | none => exact absurd (List.mem_map.2 ⟨a, ha, rfl⟩) (find?_key_none.1 hfound)
  | some b =>
    obtain ⟨hb, heq⟩ := find?_key_some hfound
    rw [List.inj_on_of_nodup_map hnodup hb ha heq]

variable {t : Tables}

theorem Sound.role_of_id (h : Sound t) {r r' : Role} (hr : r ∈ t.roles) (hr' : r' ∈ t.roles) (hid : r.id = r'.id) : r = r' :=
  List.inj_on_of_nodup_map h.roleIds hr hr' hid

theorem Sound.point_of_id (h : Sound t) {p p' : Permission} (hp : p ∈ t.permissions) (hp' : p' ∈ t.permissions)
    (hid : p.id = p'.id) : p = p' :=
  List.inj_on_of_nodup_map h.pointIds hp hp' hid

theorem roleByCode?_some {code : String} {r : Role} (h : t.roleByCode? code = some r) : r ∈ t.roles ∧ r.code = code :=
  find?_key_some h

theorem roleByCode?_none {code : String} : t.roleByCode? code = none ↔ code ∉ t.roles.map (·.code) := find?_key_none

theorem Sound.roleByCode?_of_mem (h : Sound t) {r : Role} (hr : r ∈ t.roles) : t.roleByCode? r.code = some r :=
  find?_key_of_mem h.roleCodes hr

theorem permission?_some {code : String} {p : Permission} (h : t.permission? code = some p) : p ∈ t.permissions ∧ p.code = code :=
  find?_key_some h

theorem permission?_none {code : String} : t.permission? code = none ↔ code ∉ t.permissions.map (·.code) := find?_key_none

theorem Sound.permission?_of_mem (h : Sound t) {p : Permission} (hp : p ∈ t.permissions) : t.permission? p.code = some p :=
  find?_key_of_mem h.pointCodes hp

theorem Sound.mem_ids (h : Sound t) {codes : List String} {p : Permission} (hp : p ∈ t.permissions) :
    p.id ∈ t.ids codes ↔ p.code ∈ codes := by
  unfold Tables.ids
  constructor
  · intro hmem
    obtain ⟨p', hp', hid⟩ := List.mem_map.1 hmem
    obtain ⟨code, hcode, hsome⟩ := List.mem_filterMap.1 hp'
    obtain ⟨hin, heq⟩ := permission?_some hsome
    rw [← h.point_of_id hin hp hid, heq]
    exact hcode
  · intro hcode
    exact List.mem_map.2 ⟨p, List.mem_filterMap.2 ⟨p.code, hcode, h.permission?_of_mem hp⟩, rfl⟩

theorem ids_refs {codes : List String} {pid : Nat} (h : pid ∈ t.ids codes) : pid ∈ t.permissions.map (·.id) := by
  obtain ⟨p, hp, rfl⟩ := List.mem_map.1 h
  obtain ⟨code, -, hsome⟩ := List.mem_filterMap.1 hp
  exact List.mem_map.2 ⟨p, (permission?_some hsome).1, rfl⟩

theorem Sound.grant (h : Sound t) {roleId : Nat} {wanted : List Nat} (hrefs : ∀ pid ∈ wanted, pid ∈ t.permissions.map (·.id)) :
    Sound (t.grant roleId wanted) where
  roleIds := h.roleIds
  roleCodes := h.roleCodes
  pointIds := h.pointIds
  pointCodes := h.pointCodes
  refs g hg := by
    rcases mem_grant.1 hg with hold | ⟨-, hwanted⟩
    · exact h.refs g hold
    · exact hrefs _ hwanted

/-- Only the rows count, not the columns beside them. -/
theorem Sound.congr (h : Sound t) {t' : Tables} (hroles : t'.roles = t.roles) (hpermissions : t'.permissions = t.permissions)
    (hgrants : t'.rolePermissions = t.rolePermissions) : Sound t' := by
  refine ⟨?_, ?_, ?_, ?_, ?_⟩
  · rw [hroles]; exact h.roleIds
  · rw [hroles]; exact h.roleCodes
  · rw [hpermissions]; exact h.pointIds
  · rw [hpermissions]; exact h.pointCodes
  · rw [hgrants, hpermissions]; exact h.refs

theorem Sound.addRole (h : Sound t) {r : Role} (hid : r.id = t.nextRoleId) (hcode : t.roleByCode? r.code = none) {t' : Tables}
    (hroles : t'.roles = t.roles ++ [r]) (hpermissions : t'.permissions = t.permissions)
    (hgrants : t'.rolePermissions = t.rolePermissions) : Sound t' := by
  refine ⟨?_, ?_, ?_, ?_, ?_⟩
  · rw [hroles, List.map_append, List.map_singleton]
    refine List.nodup_append.2 ⟨h.roleIds, List.nodup_singleton _, fun a ha b hb => ?_⟩
    rw [List.mem_singleton.1 hb, hid]
    exact Nat.ne_of_lt (lt_next ha)
  · rw [hroles, List.map_append, List.map_singleton]
    refine List.nodup_append.2 ⟨h.roleCodes, List.nodup_singleton _, fun a ha b hb heq => ?_⟩
    rw [List.mem_singleton.1 hb] at heq
    exact roleByCode?_none.1 hcode (heq ▸ ha)
  · rw [hpermissions]; exact h.pointIds
  · rw [hpermissions]; exact h.pointCodes
  · rw [hgrants, hpermissions]; exact h.refs

end rows

/-! ## The points -/

/-- The points of these codes are declared; nothing but points and their modules is touched. -/
structure Synced (codes : List String) (t t' : Tables) : Prop where
  kept : Extends t t'
  roles : t'.roles = t.roles
  grants : t'.rolePermissions = t.rolePermissions
  seeds : t'.seeds = t.seeds
  autoGrant : t'.autoGrant = t.autoGrant
  found : ∀ code p, t.permission? code = some p → t'.permission? code = some p
  labelled : ∀ id, t.modules.has id = true → t'.modules.has id = true
  points : ∀ p ∈ t'.permissions, p ∈ t.permissions ∨ p.code ∈ codes
  declared : ∀ code ∈ codes, ∃ p, t'.permission? code = some p ∧ t'.modules.has p.id = true

theorem Synced.nil (t : Tables) : Synced [] t t :=
  ⟨.refl t, rfl, rfl, rfl, rfl, fun _ _ h => h, fun _ h => h, fun _ hp => .inl hp, fun _ h => absurd h List.not_mem_nil⟩

theorem Synced.append {codes codes' : List String} {t t' t'' : Tables} (h : Synced codes t t') (h' : Synced codes' t' t'') :
    Synced (codes ++ codes') t t'' where
  kept := h.kept.trans h'.kept
  roles := h'.roles.trans h.roles
  grants := h'.grants.trans h.grants
  seeds := h'.seeds.trans h.seeds
  autoGrant := h'.autoGrant.trans h.autoGrant
  found code p hp := h'.found code p (h.found code p hp)
  labelled id hid := h'.labelled id (h.labelled id hid)
  points p hp := by
    rcases h'.points p hp with hold | hnew
    · exact (h.points p hold).imp_right fun hcode => List.mem_append.2 (.inl hcode)
    · exact .inr (List.mem_append.2 (.inr hnew))
  declared code hcode := by
    rcases List.mem_append.1 hcode with hfirst | hsecond
    · obtain ⟨p, hp, hmodule⟩ := h.declared code hfirst
      exact ⟨p, h'.found code p hp, h'.labelled _ hmodule⟩
    · exact h'.declared code hsecond

/-- One point is declared: it is added, or its row is there and has a module in the end. -/
theorem syncPermission_spec {t : Tables} (h : Sound t) (e : String × String) :
    Sound (syncPermission t e) ∧ Synced [e.1] t (syncPermission t e) := by
  unfold syncPermission
  cases hfound : t.permission? e.1 with
  | none =>
    have hfind : ∀ code, (t.permissions ++ [Permission.mk t.nextPermissionId e.1]).find? (fun p => p.code = code) =
        (t.permission? code).or (if e.1 = code then some (Permission.mk t.nextPermissionId e.1) else none) := fun code => by
      rw [List.find?_append]
      congr 1
      by_cases hcode : e.1 = code <;> simp [hcode]
    refine ⟨⟨h.roleIds, h.roleCodes, ?_, ?_, fun g hg => ?_⟩,
      ⟨⟨rfl, fun r hr => ⟨r, hr, rfl, rfl⟩, fun p hp => List.mem_append.2 (.inl hp), rfl, fun _ hg => hg, fun _ hid => hid⟩,
        rfl, rfl, rfl, rfl, fun code p hp => ?_, fun id hid => Dict.has_set.2 (.inr hid), fun p hp => ?_, fun code hcode => ?_⟩⟩
    · rw [List.map_append, List.map_singleton]
      refine List.nodup_append.2 ⟨h.pointIds, List.nodup_singleton _, fun a ha b hb => ?_⟩
      rw [List.mem_singleton.1 hb]
      exact Nat.ne_of_lt (lt_next ha)
    · rw [List.map_append, List.map_singleton]
      refine List.nodup_append.2 ⟨h.pointCodes, List.nodup_singleton _, fun a ha b hb heq => ?_⟩
      have hcode : a = e.1 := heq.trans (List.mem_singleton.1 hb)
      exact permission?_none.1 hfound (hcode ▸ ha)
    · rw [List.map_append]
      exact List.mem_append.2 (.inl (h.refs g hg))
    · exact (hfind code).trans (by rw [hp, Option.some_or])
    · rcases List.mem_append.1 hp with hold | hnew
      · exact .inl hold
      · rw [List.mem_singleton.1 hnew]
        exact .inr (List.mem_singleton_self _)
    · rw [List.mem_singleton.1 hcode]
      exact ⟨_, (hfind e.1).trans (by rw [hfound, Option.none_or, if_pos rfl]), Dict.has_set.2 (.inl rfl)⟩
  | some row =>
    simp only
    split
    · rename_i hmodule
      refine ⟨h, .refl t, rfl, rfl, rfl, rfl, fun _ _ hp => hp, fun _ hid => hid, fun _ hp => .inl hp, fun code hcode => ?_⟩
      rw [List.mem_singleton.1 hcode]
      exact ⟨row, hfound, hmodule⟩
    · refine ⟨h.congr rfl rfl rfl,
        ⟨rfl, fun r hr => ⟨r, hr, rfl, rfl⟩, fun _ hp => hp, rfl, fun _ hg => hg, fun _ hid => hid⟩,
        rfl, rfl, rfl, rfl, fun _ _ hp => hp, fun id hid => Dict.has_set.2 (.inr hid), fun _ hp => .inl hp, fun code hcode => ?_⟩
      rw [List.mem_singleton.1 hcode]
      exact ⟨row, hfound, Dict.has_set.2 (.inl rfl)⟩

theorem syncPermissions_spec {t : Tables} (h : Sound t) (catalog : Dict String String) :
    Sound (syncPermissions catalog t) ∧ Synced (catalog.entries.map Prod.fst) t (syncPermissions catalog t) := by
  unfold syncPermissions
  generalize catalog.entries = entries
  induction entries generalizing t with
  | nil => exact ⟨h, .nil t⟩
  | cons e entries ih =>
    obtain ⟨hsound, hfirst⟩ := syncPermission_spec h e
    obtain ⟨hsound', hrest⟩ := ih hsound
    exact ⟨hsound', hfirst.append hrest⟩

/-- Where everything is declared nothing is left to do. -/
theorem syncPermissions_self {t : Tables} {catalog : Dict String String}
    (h : ∀ code ∈ catalog.entries.map Prod.fst, ∃ p, t.permission? code = some p ∧ t.modules.has p.id = true) :
    syncPermissions catalog t = t := by
  unfold syncPermissions
  generalize catalog.entries = entries at h
  induction entries with
  | nil => rfl
  | cons e entries ih =>
    rw [List.map_cons, List.forall_mem_cons] at h
    obtain ⟨⟨p, hp, hmodule⟩, hrest⟩ := h
    have hself : syncPermission t e = t := by
      unfold syncPermission
      rw [hp]
      simp only
      rw [if_pos hmodule]
    rw [List.foldl_cons, hself, ih hrest]

end OpenFish.Authz
