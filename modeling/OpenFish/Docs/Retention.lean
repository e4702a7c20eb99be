/-
What a document store keeps while its operations run side by side: every row refers to an object, a revision to the bytes it
records, and what a save committed is there under its revision until its document is deleted. An object is owned by the call that
wrote it until a row refers to it, and is cleared only when no row does.
-/
import OpenFish.Docs.Interleaving

namespace OpenFish.Docs

open Lib

variable {τ : Type} {h : Host τ} {s s' : Tables} {call call' : Call}

/-! ## References -/

/-- A row that refers to an object. -/
inductive Ref
  | revision (documentId number : Nat)
  | asset (documentId assetId : Nat)
  deriving DecidableEq, Repr

/-- What a row records, if it is there. -/
def Tables.body? (s : Tables) : Ref → Option Stored
  | .revision documentId number => (s.revisions.get? (documentId, number)).map (·.body)
  | .asset documentId assetId => ((s.assets.get? assetId).filter (·.documentId = documentId)).map (·.body)

/-- The rows that may refer to a key: those of a document, one of an asset, or none. -/
inductive Scope
  | document (id : Nat)
  | asset (id : Nat)
  | nothing

def Scope.Covers : Scope → Ref → Prop
  | .document id, .revision documentId _ | .document id, .asset documentId _ => documentId = id
  | .asset id, .asset _ assetId => assetId = id
  | _, _ => False

/-- The object that a call wrote and no row refers to yet. -/
def Call.pending? : Call → Option (Nat × ByteArray)
  | .saving draft key => some (key, draft.content.toUTF8)
  | .seeking upload key | .assigning upload key _ => some (key, upload.data)
  | _ => none

/-- The key of a call: of the object it wrote, or of the revision it committed. -/
def Call.key? : Call → Option Nat
  | .saving _ key | .saved _ key | .seeking _ key | .assigning _ key _ => some key
  | _ => none

/-- The keys that a call read or is going to clear, each with the rows that may refer to it. -/
def Call.held : Call → List (Nat × Scope)
  | .assigning _ _ found => found.toList.map fun e => (e.2.key, .asset e.1)
  | .collectingAssets documentId keys | .dropping documentId keys => keys.map fun key => (key, .document documentId)
  | .detaching assetId key => [(key, .asset assetId)]
  | .clearing keys _ => keys.map fun key => (key, .nothing)
  | _ => []

/-! ## What is kept -/

/-- What a row records is of its object. -/
def Exact (h : Host τ) (s : Tables) (ref : Ref) : Prop :=
  ∀ b data, s.body? ref = some b → s.objects.get? b.key = some data → b = stored h b.key data

/-- Every row refers to an object, no two to the same one, and the row of a document to its current revision's; what a revision
records is of its object. -/
structure Intact (h : Host τ) (s : Tables) : Prop where
  backed : ∀ {ref b}, s.body? ref = some b → ∃ data, s.objects.get? b.key = some data
  exact : ∀ {id n}, Exact h s (.revision id n)
  once : ∀ {ref ref' b b'}, s.body? ref = some b → s.body? ref' = some b' → b.key = b'.key → ref = ref'
  fresh : ∀ {key data}, s.objects.get? key = some data → key < s.nextKey
  current : ∀ {id row}, s.documents.get? id = some row →
    ∃ r, s.revisions.get? (id, row.revision) = some r ∧ r.body.key = row.body.key

/-- What a save committed is there, unless it went with its document. -/
def Tables.Keeps (s : Tables) (draft : Draft) (key : Nat) : Prop :=
  (∃ r, s.revisions.get? (draft.id, draft.revision) = some r ∧ r.body.key = key ∧
    s.objects.get? key = some draft.content.toUTF8) ∨ key ∈ s.dropped

/-- A call is right about what it wrote, read and committed. -/
structure Meets (s : Tables) (call : Call) : Prop where
  pending : ∀ {key data}, call.pending? = some (key, data) →
    s.objects.get? key = some data ∧ (∀ {ref b}, s.body? ref = some b → b.key ≠ key) ∧ ∀ e ∈ call.held, e.1 ≠ key
  held : ∀ {e}, e ∈ call.held → e.1 < s.nextKey ∧ ∀ {ref b}, s.body? ref = some b → b.key = e.1 → e.2.Covers ref
  below : ∀ {key}, call.key? = some key → key < s.nextKey
  kept : ∀ {draft key}, call = .saved draft key → s.Keeps draft key

/-- Two calls have different keys, and neither holds what the other wrote. -/
structure Apart (call call' : Call) : Prop where
  keys : ∀ {key}, call.key? = some key → call'.key? ≠ some key
  held : ∀ {key data}, call.pending? = some (key, data) → ∀ e ∈ call'.held, e.1 ≠ key

/-- What a step may change that other calls rely on: the rows refer to nothing new but the object of its call, objects go that
its call held for nothing, and revisions only with their document. -/
structure Change (call : Call) (s s' : Tables) : Prop where
  keys : s.nextKey ≤ s'.nextKey
  refs : ∀ {ref b}, s'.body? ref = some b → s.body? ref = some b ∨ ∃ data, call.pending? = some (b.key, data)
  objects : ∀ {key data}, s.objects.get? key = some data → s'.objects.get? key = some data ∨ (key, Scope.nothing) ∈ call.held
  revisions : ∀ {id n r}, s.revisions.get? (id, n) = some r → s'.revisions.get? (id, n) = some r ∨ r.body.key ∈ s'.dropped
  dropped : ∀ {key}, key ∈ s.dropped → key ∈ s'.dropped

/-- A step of a call: what it changes, what it leaves, and where the keys come from that the call has now. -/
structure Moved (h : Host τ) (s : Tables) (call : Call) (s' : Tables) (call' : Call) : Prop where
  change : Change call s s'
  intact : Intact h s'
  meets : Meets s' call'
  keys : ∀ {key}, call'.key? = some key → call.key? = some key ∨ key = s.nextKey
  pending : ∀ {key data}, call'.pending? = some (key, data) → (∃ data', call.pending? = some (key, data')) ∨ key = s.nextKey
  held : ∀ {e}, e ∈ call'.held → (∃ scope, (e.1, scope) ∈ call.held) ∨ (∃ data, call.pending? = some (e.1, data)) ∨
    ∃ ref b, s.body? ref = some b ∧ b.key = e.1

theorem Call.key?_of_pending? {key : Nat} {data : ByteArray} (h : call.pending? = some (key, data)) : call.key? = some key := by
  cases call <;> simp_all [Call.pending?, Call.key?]

theorem Change.refl (call : Call) (s : Tables) : Change call s s :=
  ⟨Nat.le_refl _, .inl, .inl, .inl, fun h => h⟩

/-- What another call relies on is still so after a step. -/
theorem Meets.kept_by (hchange : Change call s s') (hmeets : Meets s call) (hother : Meets s call') (hapart : Apart call call')
    (hapart' : Apart call' call) : Meets s' call' where
  pending := by
    intro key data hp
    obtain ⟨hobject, hrefs, hheld⟩ := hother.pending hp
    refine ⟨?_, fun {ref b} hb => ?_, hheld⟩
    · exact (hchange.objects hobject).resolve_right fun hgone => hapart'.held hp _ hgone rfl
    · rcases hchange.refs hb with hb | ⟨data', hown⟩
      · exact hrefs hb
      · rintro rfl
        exact hapart.keys (Call.key?_of_pending? hown) (Call.key?_of_pending? hp)
  held := by
    intro e he
    obtain ⟨hlt, hcovers⟩ := hother.held he
    refine ⟨Nat.lt_of_lt_of_le hlt hchange.keys, fun {ref b} hb hkey => ?_⟩
    rcases hchange.refs hb with hb | ⟨data', hown⟩
    · exact hcovers hb hkey
    · exact absurd hkey.symm (hapart.held hown e he)
  below hkey := Nat.lt_of_lt_of_le (hother.below hkey) hchange.keys
  kept := by
    intro draft key hsaved
    rcases hother.kept hsaved with ⟨r, hr, hkey, hobject⟩ | hdropped
    · rcases hchange.revisions hr with hr' | hdropped
      · refine .inl ⟨r, hr', hkey, (hchange.objects hobject).resolve_right fun hgone => ?_⟩
        have hbody : s.body? (.revision draft.id draft.revision) = some r.body := by rw [Tables.body?, hr]; rfl
        exact (hmeets.held hgone).2 hbody hkey
      · exact .inr (hkey ▸ hdropped)
    · exact .inr (hchange.dropped hdropped)

/-- The calls stay apart after a step of one of them. -/
theorem Moved.apart (hmoved : Moved h s call s' call') {other : Call} (hmeets : Meets s other) (hapart : Apart call other)
    (hapart' : Apart other call) : Apart call' other ∧ Apart other call' := by
  have hkeys {key : Nat} (hkey : call'.key? = some key) : other.key? ≠ some key := by
    rcases hmoved.keys hkey with hkey | rfl
    · exact hapart.keys hkey
    · exact fun hother => Nat.lt_irrefl _ (hmeets.below hother)
  refine ⟨⟨hkeys, fun {key data} hp e he => ?_⟩, ⟨fun {key} hother hkey => hkeys hkey hother, fun {key data} hp e he => ?_⟩⟩
  · rcases hmoved.pending hp with ⟨data', hp'⟩ | rfl
    · exact hapart.held hp' e he
    · exact Nat.ne_of_lt (hmeets.held he).1
  · rcases hmoved.held he with ⟨scope, hold⟩ | ⟨data', hown⟩ | ⟨ref, b, hb, hkey⟩
    · exact hapart'.held hp (e.1, scope) hold
    · rintro rfl
      exact hapart.keys (Call.key?_of_pending? hown) (Call.key?_of_pending? hp)
    · exact hkey ▸ (hmeets.pending hp).2.1 hb

/-! ## Steps that write no row -/

/-- A call that has no key and holds none. -/
def Call.idle : Call → Bool
  | .saving .. | .saved .. | .seeking .. | .assigning .. | .collectingAssets .. | .dropping .. | .detaching .. | .clearing .. => false
  | _ => true

theorem Call.idle_iff (hidle : call.idle = true) :
    call.pending? = none ∧ call.key? = none ∧ call.held = [] ∧ ∀ draft key, call ≠ .saved draft key := by
  cases call <;> first | exact absurd hidle Bool.false_ne_true | exact ⟨rfl, rfl, rfl, fun _ _ h => by cases h⟩

theorem Meets.of_idle (s : Tables) (hidle : call.idle = true) : Meets s call := by
  obtain ⟨hpending, hkey, hheld, hsaved⟩ := call.idle_iff hidle
  refine ⟨fun hp => ?_, fun he => ?_, fun hk => ?_, fun hs => absurd hs (hsaved _ _)⟩
  · rw [hpending] at hp
    cases hp
  · rw [hheld] at he
    cases he
  · rw [hkey] at hk
    cases hk

theorem moved_idle (hs : Intact h s) (hidle : call'.idle = true) : Moved h s call s call' := by
  obtain ⟨hpending, hkey, hheld, -⟩ := call'.idle_iff hidle
  refine ⟨.refl call s, hs, .of_idle s hidle, fun hk => ?_, fun hp => ?_, fun he => ?_⟩
  · rw [hkey] at hk
    cases hk
  · rw [hpending] at hp
    cases hp
  · rw [hheld] at he
    cases he

theorem opened_idle (h : Host τ) (s : Tables) (op : Op) : (opened h s op).idle = true := by
  cases op <;> unfold opened Call.ofExcept <;> dsimp only <;> split <;> first | rfl | (split <;> rfl)

/-- A call that clears keys which nothing refers to. -/
theorem moved_clearing {keys : List Nat} {outcome : Outcome} (hs' : Intact h s') (hchange : Change call s s')
    (hkeys : ∀ key ∈ keys, key < s'.nextKey ∧ ∀ {ref b}, s'.body? ref = some b → b.key ≠ key)
    (hfrom : ∀ key ∈ keys, (∃ scope, (key, scope) ∈ call.held) ∨ ∃ data, call.pending? = some (key, data)) :
    Moved h s call s' (.clearing keys outcome) := by
  refine ⟨hchange, hs', ⟨fun hp => (by cases hp), fun {e} he => ?_, fun hk => (by cases hk), fun hsaved => (by cases hsaved)⟩,
    fun hk => (by cases hk), fun hp => (by cases hp), fun {e} he => ?_⟩
  · obtain ⟨key, hkey, rfl⟩ := List.mem_map.1 he
    exact ⟨(hkeys key hkey).1, fun hb heq => absurd heq ((hkeys key hkey).2 hb)⟩
  · obtain ⟨key, hkey, rfl⟩ := List.mem_map.1 he
    exact (hfrom key hkey).imp_right .inl

theorem moved_put {data : ByteArray} (hs : Intact h s) (hpending : call'.pending? = some (s.nextKey, data))
    (hkey : call'.key? = some s.nextKey) (hheld : call'.held = []) (hsaved : ∀ draft key, call' ≠ .saved draft key) :
    Moved h s call (s.put data) call' := by
  have hunused {ref : Ref} {b : Stored} (hb : s.body? ref = some b) : b.key < s.nextKey := by
    obtain ⟨bytes, hobject⟩ := hs.backed hb
    exact hs.fresh hobject
  have hobjects {key : Nat} {bytes : ByteArray} (hobject : s.objects.get? key = some bytes) :
      (s.put data).objects.get? key = some bytes := by
    rw [Tables.put, Dict.get?_set, if_neg (Nat.ne_of_lt (hs.fresh hobject))]
    exact hobject
  refine ⟨⟨Nat.le_succ _, .inl, fun hobject => .inl (hobjects hobject), .inl, fun h => h⟩,
    ⟨fun hb => ?_, fun {id n} b bytes hb hobject => ?_, hs.once, fun hobject => ?_, hs.current⟩,
    ⟨fun hp => ?_, fun he => ?_, fun hk => ?_, fun h => absurd h (hsaved _ _)⟩, fun hk => ?_, fun hp => ?_, fun he => ?_⟩
  · obtain ⟨bytes, hobject⟩ := hs.backed hb
    exact ⟨bytes, hobjects hobject⟩
  · have hb : s.body? (.revision id n) = some b := hb
    obtain ⟨bytes', hobject'⟩ := hs.backed hb
    rw [hobjects hobject'] at hobject
    exact hs.exact _ _ hb (hobject'.trans hobject)
  · rw [Tables.put, Dict.get?_set] at hobject
    split at hobject
    · rename_i heq
      exact heq ▸ Nat.lt_succ_self _
    · exact Nat.lt_succ_of_lt (hs.fresh hobject)
  · rw [hpending] at hp
    cases hp
    refine ⟨by rw [Tables.put, Dict.get?_set, if_pos rfl], fun hb => Nat.ne_of_lt (hunused hb), fun e he => ?_⟩
    rw [hheld] at he
    cases he
  · rw [hheld] at he
    cases he
  · rw [hkey] at hk
    cases hk
    exact Nat.lt_succ_self _
  · rw [hkey] at hk
    exact .inr (Option.some.inj hk).symm
  · rw [hpending] at hp
    cases hp
    exact .inr rfl
  · rw [hheld] at he
    cases he

/-- An object goes that nothing refers to. -/
theorem moved_clear {key : Nat} {keys : List Nat} {outcome : Outcome} (hs : Intact h s)
    (hmeets : Meets s (.clearing (key :: keys) outcome)) :
    Moved h s (.clearing (key :: keys) outcome) { s with objects := s.objects.erase key } (.clearing keys outcome) := by
  have hunused {k : Nat} (hk : k ∈ key :: keys) : k < s.nextKey ∧ ∀ {ref b}, s.body? ref = some b → b.key ≠ k := by
    obtain ⟨hlt, hcovers⟩ := hmeets.held (List.mem_map.2 ⟨k, hk, rfl⟩)
    exact ⟨hlt, fun hb heq => hcovers hb heq⟩
  refine moved_clearing ⟨fun hb => ?_, fun {id n} b bytes hb hobject => ?_, hs.once, fun hobject => ?_, hs.current⟩
    ⟨Nat.le_refl _, .inl, fun {k data} hobject => ?_, .inl, fun h => h⟩
    (fun k hk => hunused (List.mem_cons_of_mem _ hk))
    fun k hk => .inl ⟨.nothing, List.mem_map.2 ⟨k, List.mem_cons_of_mem _ hk, rfl⟩⟩
  · obtain ⟨bytes, hobject⟩ := hs.backed hb
    refine ⟨bytes, ?_⟩
    rw [Dict.get?_erase, if_neg ((hunused (List.mem_cons_self ..)).2 hb)]
    exact hobject
  · have hb : s.body? (.revision id n) = some b := hb
    rw [Dict.get?_erase, if_neg ((hunused (List.mem_cons_self ..)).2 hb)] at hobject
    exact hs.exact _ _ hb hobject
  · rw [Dict.get?_erase] at hobject
    split at hobject
    · cases hobject
    · exact hs.fresh hobject
  · by_cases heq : k = key
    · exact .inr (heq ▸ List.mem_cons_self ..)
    · exact .inl (by rw [Dict.get?_erase, if_neg heq]; exact hobject)

/-! ## Commits -/

/-- What the commit of a draft leaves. -/
def Tables.withRevision (s : Tables) (d : Draft) (row : DocumentRow) (body : Stored) : Tables :=
  { s with
    documents := s.documents.set d.id row
    revisions := s.revisions.set (d.id, d.revision) { title := d.title, body }
    born := d.id :: s.born }

theorem commitSave_cases {draft : Draft} {key : Nat} (hcommit : s.commitSave h draft key = some s') :
    ∃ row, s.rowFor draft (stored h key draft.content.toUTF8) = some row ∧ s.revisions.get? (draft.id, draft.revision) = none ∧
      s' = s.withRevision draft row (stored h key draft.content.toUTF8) := by
  unfold Tables.commitSave at hcommit
  dsimp only at hcommit
  split at hcommit
  · rename_i row hrow hnone
    exact ⟨row, hrow, hnone, (Option.some.inj hcommit).symm⟩
  · cases hcommit

/-- The row of a document after a commit. -/
theorem rowFor_cases {draft : Draft} {body : Stored} {row : DocumentRow} (hrow : s.rowFor draft body = some row) :
    row.revision = draft.revision ∧ row.body.key = body.key := by
  unfold Tables.rowFor at hrow
  split at hrow
  · split at hrow
    · cases hrow
      exact ⟨rfl, rfl⟩
    · cases hrow
  · obtain ⟨before, -, rfl⟩ := Option.map_eq_some_iff.1 hrow
    exact ⟨rfl, rfl⟩

/-- A commit refers to the object of its call, which nothing referred to. -/
theorem moved_save {draft : Draft} {key : Nat} (hs : Intact h s) (hmeets : Meets s (.saving draft key))
    (hcommit : s.commitSave h draft key = some s') : Moved h s (.saving draft key) s' (.saved draft key) := by
  obtain ⟨row, hrow, hnone, rfl⟩ := commitSave_cases hcommit
  obtain ⟨hrevision, hkey⟩ := rowFor_cases hrow
  obtain ⟨hobject, hunused, -⟩ := hmeets.pending rfl
  -- a body is that of the new revision, or it was there before
  have hbody {ref : Ref} {b : Stored} (hb : (s.withRevision draft row (stored h key draft.content.toUTF8)).body? ref = some b) :
      (ref = .revision draft.id draft.revision ∧ b = stored h key draft.content.toUTF8) ∨ s.body? ref = some b := by
    cases ref with
    | revision id n =>
      rw [Tables.body?, Tables.withRevision, Dict.get?_set] at hb
      split at hb
      · rename_i heq
        cases heq
        exact .inl ⟨rfl, (Option.some.inj hb).symm⟩
      · exact .inr hb
    | asset id assetId => exact .inr hb
  have hkept {id n : Nat} {r : RevisionRow} (hr : s.revisions.get? (id, n) = some r) :
      (s.withRevision draft row (stored h key draft.content.toUTF8)).revisions.get? (id, n) = some r := by
    rw [Tables.withRevision, Dict.get?_set, if_neg]
    · exact hr
    · rintro heq
      rw [heq, hnone] at hr
      cases hr
  have hnew : (s.withRevision draft row (stored h key draft.content.toUTF8)).revisions.get? (draft.id, draft.revision) =
      some ⟨draft.title, stored h key draft.content.toUTF8⟩ := by rw [Tables.withRevision, Dict.get?_set, if_pos rfl]
  refine ⟨⟨Nat.le_refl _, fun hb => ?_, .inl, fun hr => .inl (hkept hr), fun h => h⟩, ⟨fun hb => ?_, fun _ _ hb hdata => ?_,
    fun hb hb' heq => ?_, hs.fresh, fun {id row'} hrow' => ?_⟩, ⟨fun hp => (by cases hp), fun he => (by cases he), fun hk => ?_,
    fun hsaved => ?_⟩, fun hk => .inl hk, fun hp => (by cases hp), fun he => (by cases he)⟩
  · rcases hbody hb with ⟨-, rfl⟩ | hb
    · exact .inr ⟨_, rfl⟩
    · exact .inl hb
  · rcases hbody hb with ⟨-, rfl⟩ | hb
    · exact ⟨_, hobject⟩
    · exact hs.backed hb
  · rcases hbody hb with ⟨-, rfl⟩ | hb
    · rw [Option.some.inj (hobject.symm.trans hdata)]
      rfl
    · exact hs.exact _ _ hb hdata
  · rcases hbody hb with ⟨rfl, rfl⟩ | hb <;> rcases hbody hb' with ⟨rfl, rfl⟩ | hb'
    · rfl
    · exact absurd heq.symm (hunused hb')
    · exact absurd heq (hunused hb)
    · exact hs.once hb hb' heq
  · rw [Tables.withRevision, Dict.get?_set] at hrow'
    split at hrow'
    · rename_i heq
      cases hrow'
      exact ⟨_, by rw [heq, hrevision]; exact hnew, hkey.symm⟩
    · obtain ⟨r, hr, hrest⟩ := hs.current hrow'
      exact ⟨r, hkept hr, hrest⟩
  · exact hmeets.below hk
  · cases hsaved
    exact .inl ⟨_, hnew, rfl, hobject⟩

/-- The row of an asset that a commit of `save_asset` leaves: new under its id, or in the place of the one that was there. -/
theorem commitAsset_cases {u : Upload} {key id : Nat} {found : Option (Nat × Stored)}
    (hcommit : s.commitAsset h u key id found = some s') :
    ∃ assetId row, s' = { s with assets := s.assets.set assetId row } ∧ row.body.key = key ∧
      ((found = none ∧ s.assets.get? assetId = none ∧ row.body = stored h key u.data) ∨
        ∃ old before, found = some (assetId, old) ∧ s.assets.get? assetId = some before ∧
          row.documentId = before.documentId ∧ row.body = old.assigned (stored h key u.data) before.body) := by
  unfold Tables.commitAsset at hcommit
  split at hcommit
  · rename_i assetId old
    obtain ⟨before, hbefore, rfl⟩ := Option.map_eq_some_iff.1 hcommit
    exact ⟨assetId, _, rfl, rfl, .inr ⟨old, before, rfl, hbefore, rfl, rfl⟩⟩
  · split at hcommit
    · rename_i hfree
      exact ⟨id, _, (Option.some.inj hcommit).symm, rfl, .inl ⟨rfl, Option.isNone_iff_eq_none.1 hfree.2.1, rfl⟩⟩
    · cases hcommit

/-- A row of an asset refers to the object of its call, and to the superseded one no more. -/
theorem moved_assign {u : Upload} {key id : Nat} {found : Option (Nat × Stored)} (hs : Intact h s)
    (hmeets : Meets s (.assigning u key found)) (hcommit : s.commitAsset h u key id found = some s') :
    Moved h s (.assigning u key found) s' (.clearing ((found.map (·.2.key)).toList.filter (· ≠ key)) .committed) := by
  obtain ⟨assetId, row, rfl, hbody, hfound⟩ := commitAsset_cases hcommit
  have hsame {a : Nat} {old : Stored} (ha : found = some (a, old)) : a = assetId := by
    rcases hfound with ⟨hnone, -⟩ | ⟨old', -, hsome, -⟩
    · rw [hnone] at ha
      cases ha
    · rw [hsome] at ha
      cases ha
      rfl
  obtain ⟨hobject, hunused, -⟩ := hmeets.pending rfl
  -- a body is the new one, or it is an old one of something else
  have hrefs {ref : Ref} {b : Stored} (hb : Tables.body? { s with assets := s.assets.set assetId row } ref = some b) :
      (ref = .asset row.documentId assetId ∧ b.key = key) ∨ (s.body? ref = some b ∧ ∀ d, ref ≠ .asset d assetId) := by
    cases ref with
    | revision id n => exact .inr ⟨hb, fun d h => by cases h⟩
    | asset d a =>
      rw [Tables.body?, Dict.get?_set] at hb
      split at hb
      · rename_i heq
        obtain ⟨row', hrow', rfl⟩ := Option.map_eq_some_iff.1 hb
        obtain ⟨hrow', hd⟩ := Option.filter_eq_some_iff.1 hrow'
        cases hrow'
        exact .inl ⟨by rw [heq, of_decide_eq_true hd], hbody⟩
      · rename_i hne
        exact .inr ⟨hb, fun d' heq => hne (by cases heq; rfl)⟩
  refine moved_clearing ⟨fun hb => ?_, fun {d n} => show Exact h s (.revision d n) from hs.exact, fun hb hb' heq => ?_, hs.fresh,
    hs.current⟩ ⟨Nat.le_refl _, fun hb => ?_, .inl, .inl, fun h => h⟩ (fun old hold => ?_) fun old hold => ?_
  · rcases hrefs hb with ⟨-, hkey⟩ | ⟨hb, -⟩
    · exact ⟨_, hkey ▸ hobject⟩
    · exact hs.backed hb
  · rcases hrefs hb with ⟨rfl, hkey⟩ | ⟨hb, -⟩ <;> rcases hrefs hb' with ⟨rfl, hkey'⟩ | ⟨hb', -⟩
    · rfl
    · exact absurd (heq.symm.trans hkey) (hunused hb')
    · exact absurd (heq.trans hkey') (hunused hb)
    · exact hs.once hb hb' heq
  · rcases hrefs hb with ⟨-, hkey⟩ | ⟨hb, -⟩
    · exact .inr ⟨_, by rw [hkey]; rfl⟩
    · exact .inl hb
  · obtain ⟨hold, hne⟩ := List.mem_filter.1 hold
    obtain ⟨⟨a, old'⟩, hsome, rfl⟩ := Option.map_eq_some_iff.1 (Option.mem_toList.1 hold)
    obtain ⟨hlt, hcovers⟩ := hmeets.held (e := (old'.key, .asset a)) (List.mem_map.2 ⟨(a, old'), Option.mem_toList.2 hsome, rfl⟩)
    refine ⟨hlt, fun {ref b} hb heq => ?_⟩
    rcases hrefs hb with ⟨-, hkey⟩ | ⟨hb, hother⟩
    · exact absurd (heq.symm.trans hkey) (of_decide_eq_true hne)
    · have hcover := hcovers hb heq
      cases ref with
      | revision => exact hcover
      | asset d a' =>
        refine hother d (congrArg (Ref.asset d) ?_)
        exact (show a' = a from hcover).trans (hsame hsome)
  · obtain ⟨hold, -⟩ := List.mem_filter.1 hold
    obtain ⟨⟨a, old'⟩, hsome, rfl⟩ := Option.map_eq_some_iff.1 (Option.mem_toList.1 hold)
    exact .inl ⟨.asset a, List.mem_map.2 ⟨(a, old'), Option.mem_toList.2 hsome, rfl⟩⟩

/-- An object that was not committed is cleared. -/
theorem moved_discard {key : Nat} {data : ByteArray} (hs : Intact h s) (hmeets : Meets s call)
    (hpending : call.pending? = some (key, data)) : Moved h s call s (.clearing [key] .raised) :=
  moved_clearing hs (.refl call s)
    (fun k hk => by
      rw [List.mem_singleton.1 hk]
      exact ⟨hmeets.below (Call.key?_of_pending? hpending), (hmeets.pending hpending).2.1⟩)
    fun k hk => .inr ⟨data, by rw [List.mem_singleton.1 hk]; exact hpending⟩

/-- The rows of a document go, and nothing refers to the keys that were read of them. -/
theorem mem_revisionKeys {id n : Nat} {r : RevisionRow} (hr : s.revisions.get? (id, n) = some r) :
    r.body.key ∈ s.revisionKeys id :=
  List.mem_map.2 ⟨((id, n), r), List.mem_filter.2 ⟨Dict.get?_eq_some.1 hr, decide_eq_true rfl⟩, rfl⟩

theorem moved_drop {id : Nat} {keys : List Nat} (hs : Intact h s) (hmeets : Meets s (.dropping id keys)) :
    Moved h s (.dropping id keys) (s.drop id) (.clearing keys .committed) := by
  have hrefs {ref : Ref} {b : Stored} (hb : (s.drop id).body? ref = some b) :
      s.body? ref = some b ∧ ¬ (Scope.document id).Covers ref := by
    cases ref with
    | revision d n =>
      obtain ⟨r, hr, rfl⟩ := Option.map_eq_some_iff.1 hb
      obtain ⟨hr, hd⟩ := Option.filter_eq_some_iff.1 ((Dict.get?_keep _ _ _).symm.trans hr)
      exact ⟨by rw [Tables.body?, hr]; rfl, show d ≠ id from of_decide_eq_true hd⟩
    | asset d a =>
      obtain ⟨row, hrow, rfl⟩ := Option.map_eq_some_iff.1 hb
      obtain ⟨hrow, hd⟩ := Option.filter_eq_some_iff.1 hrow
      obtain ⟨hrow, hkeep⟩ := Option.filter_eq_some_iff.1 ((Dict.get?_keep _ _ _).symm.trans hrow)
      refine ⟨by rw [Tables.body?, hrow, Option.filter_some, if_pos hd]; rfl, fun hcovers => ?_⟩
      exact of_decide_eq_true hkeep ((of_decide_eq_true hd).trans hcovers)
  have hkept {d n : Nat} {r : RevisionRow} (hne : d ≠ id) (hr : s.revisions.get? (d, n) = some r) :
      (s.drop id).revisions.get? (d, n) = some r :=
    (Dict.get?_keep _ _ _).trans (by rw [hr, Option.filter_some, if_pos (decide_eq_true hne)])
  refine moved_clearing ⟨fun hb => hs.backed (hrefs hb).1, fun _ _ hb hdata => hs.exact _ _ (hrefs hb).1 hdata,
    fun hb hb' => hs.once (hrefs hb).1 (hrefs hb').1, hs.fresh, fun {d row} hrow => ?_⟩
    ⟨Nat.le_refl _, fun hb => .inl (hrefs hb).1, .inl, fun {d n r} hr => ?_, fun h => List.mem_append_right _ h⟩
    (fun key hkey => ?_) fun key hkey => .inl ⟨.document id, List.mem_map.2 ⟨key, hkey, rfl⟩⟩
  · rw [Tables.drop, Dict.get?_erase] at hrow
    split at hrow
    · cases hrow
    · rename_i hne
      obtain ⟨r, hr, hrest⟩ := hs.current hrow
      exact ⟨r, hkept hne hr, hrest⟩
  · by_cases hd : d = id
    · subst hd
      exact .inr (List.mem_append_left _ (mem_revisionKeys hr))
    · exact .inl (hkept hd hr)
  · obtain ⟨hlt, hcovers⟩ := hmeets.held (e := (key, .document id)) (List.mem_map.2 ⟨key, hkey, rfl⟩)
    exact ⟨hlt, fun hb heq => (hrefs hb).2 (hcovers (hrefs hb).1 heq)⟩

/-- The row of an asset goes by its id. -/
theorem moved_detach {assetId key : Nat} (hs : Intact h s) (hmeets : Meets s (.detaching assetId key)) :
    Moved h s (.detaching assetId key) { s with assets := s.assets.erase assetId } (.clearing [key] .committed) := by
  have hrefs {ref : Ref} {b : Stored} (hb : Tables.body? { s with assets := s.assets.erase assetId } ref = some b) :
      s.body? ref = some b ∧ ¬ (Scope.asset assetId).Covers ref := by
    cases ref with
    | revision d n => exact ⟨hb, not_false⟩
    | asset d a =>
      rw [Tables.body?, Dict.get?_erase] at hb
      split at hb
      · cases hb
      · rename_i hne
        exact ⟨hb, hne⟩
  refine moved_clearing ⟨fun hb => hs.backed (hrefs hb).1, fun _ _ hb hdata => hs.exact _ _ (hrefs hb).1 hdata,
    fun hb hb' => hs.once (hrefs hb).1 (hrefs hb').1, hs.fresh, hs.current⟩
    ⟨Nat.le_refl _, fun hb => .inl (hrefs hb).1, .inl, .inl, fun h => h⟩ (fun k hk => ?_)
    fun k hk => .inl ⟨.asset assetId, by rw [List.mem_singleton.1 hk]; exact List.mem_singleton_self _⟩
  obtain ⟨hlt, hcovers⟩ := hmeets.held (e := (key, .asset assetId)) (List.mem_singleton_self _)
  rw [List.mem_singleton.1 hk]
  exact ⟨hlt, fun hb heq => (hrefs hb).2 (hcovers (hrefs hb).1 heq)⟩

/-! ## Reads -/

/-- A call that reads keys of rows, each of which only that row refers to. -/
theorem moved_read (hs : Intact h s) (hmeets : Meets s call) (hpending : call'.pending? = call.pending?)
    (hkey : call'.key? = call.key?) (hsaved : ∀ draft key, call' ≠ .saved draft key)
    (hheld : ∀ e ∈ call'.held, e ∈ call.held ∨ ∃ ref b, s.body? ref = some b ∧ b.key = e.1 ∧ e.2.Covers ref) :
    Moved h s call s call' := by
  refine ⟨.refl call s, hs, ⟨fun {key data} hp => ?_, fun {e} he => ?_, fun hk => hmeets.below (hkey ▸ hk),
    fun h => absurd h (hsaved _ _)⟩, fun hk => .inl (hkey ▸ hk), fun hp => .inl ⟨_, hpending ▸ hp⟩, fun {e} he => ?_⟩
  · obtain ⟨hobject, hunused, hheldOld⟩ := hmeets.pending (hpending ▸ hp)
    refine ⟨hobject, hunused, fun e he => ?_⟩
    rcases hheld e he with hold | ⟨ref, b, hb, hkey, -⟩
    · exact hheldOld e hold
    · exact hkey ▸ hunused hb
  · rcases hheld e he with hold | ⟨ref, b, hb, hkey, hcovers⟩
    · exact hmeets.held hold
    · obtain ⟨bytes, hobject⟩ := hs.backed hb
      refine ⟨hkey ▸ hs.fresh hobject, fun {ref' b'} hb' hkey' => ?_⟩
      rw [hs.once hb' hb (hkey'.trans hkey.symm)]
      exact hcovers
  · rcases hheld e he with hold | ⟨ref, b, hb, hkey, -⟩
    · exact .inl ⟨e.2, hold⟩
    · exact .inr (.inr ⟨ref, b, hb, hkey⟩)

theorem body?_findAsset {documentId assetId : Nat} {name : String} {row : AssetRow}
    (hfound : s.findAsset documentId name = some (assetId, row)) : s.body? (.asset documentId assetId) = some row.body := by
  have hmem := List.mem_of_find?_eq_some hfound
  have hrow := List.find?_some hfound
  rw [Tables.body?, Dict.get?_eq_some.2 hmem, Option.filter_some, if_pos]
  · rfl
  · exact decide_eq_true (of_decide_eq_true hrow).1

theorem body?_of_mem_revisionKeys {documentId key : Nat} (hkey : key ∈ s.revisionKeys documentId) :
    ∃ n b, s.body? (.revision documentId n) = some b ∧ b.key = key := by
  obtain ⟨⟨⟨d, n⟩, r⟩, hmem, rfl⟩ := List.mem_map.1 hkey
  obtain ⟨hmem, hd⟩ := List.mem_filter.1 hmem
  have hd : d = documentId := of_decide_eq_true hd
  refine ⟨n, r.body, ?_, rfl⟩
  rw [Tables.body?, ← hd, Dict.get?_eq_some.2 hmem]
  rfl

theorem body?_of_mem_assetKeys {documentId key : Nat} (hkey : key ∈ s.assetKeys documentId) :
    ∃ a b, s.body? (.asset documentId a) = some b ∧ b.key = key := by
  obtain ⟨⟨a, row⟩, hmem, rfl⟩ := List.mem_map.1 hkey
  obtain ⟨hmem, hd⟩ := List.mem_filter.1 hmem
  refine ⟨a, row.body, ?_, rfl⟩
  rw [Tables.body?, Dict.get?_eq_some.2 hmem, Option.filter_some, if_pos hd]
  rfl

/-! ## Steps -/

/-- Every step that is answered. -/
theorem moved_answered (hs : Intact h s) (hmeets : Meets s call) (reply : Reply) :
    Moved h s call (answered h s reply call).1 (answered h s reply call).2 := by
  cases call with
  | reading op => exact moved_idle hs (opened_idle h s op)
  | flushing place title content =>
    simp only [answered]
    split <;> exact moved_idle hs rfl
  | storing draft => exact moved_put hs rfl rfl rfl fun _ _ h => by cases h
  | saving draft key =>
    simp only [answered]
    split
    · rename_i hcommit
      exact moved_save hs hmeets hcommit
    · exact moved_discard hs hmeets rfl
  | saved draft key => exact ⟨.refl _ s, hs, hmeets, .inl, fun hp => .inl ⟨_, hp⟩, fun he => by cases he⟩
  | uploading upload => exact moved_put hs rfl rfl rfl fun _ _ h => by cases h
  | seeking upload key =>
    refine moved_read hs hmeets rfl rfl (fun _ _ h => by cases h) fun e he => .inr ?_
    -- the key to delete is that of the row it has found
    obtain ⟨⟨a, old⟩, hfound, rfl⟩ := List.mem_map.1 he
    obtain ⟨⟨a', row⟩, hfind, heq⟩ := Option.map_eq_some_iff.1 (Option.mem_toList.1 hfound)
    cases heq
    exact ⟨_, _, body?_findAsset hfind, rfl, rfl⟩
  | assigning upload key found =>
    simp only [answered]
    split
    · rename_i hcommit
      exact moved_assign hs hmeets hcommit
    · exact moved_discard hs hmeets rfl
  | collecting documentId =>
    refine moved_read hs hmeets rfl rfl (fun _ _ h => by cases h) fun e he => .inr ?_
    obtain ⟨key, hkey, rfl⟩ := List.mem_map.1 he
    obtain ⟨n, b, hb, rfl⟩ := body?_of_mem_revisionKeys hkey
    exact ⟨_, b, hb, rfl, rfl⟩
  | collectingAssets documentId keys =>
    refine moved_read hs hmeets rfl rfl (fun _ _ h => by cases h) fun e he => ?_
    obtain ⟨key, hkey, rfl⟩ := List.mem_map.1 he
    rcases List.mem_append.1 hkey with hkey | hkey
    · exact .inl (List.mem_map.2 ⟨key, hkey, rfl⟩)
    · obtain ⟨a, b, hb, rfl⟩ := body?_of_mem_assetKeys hkey
      exact .inr ⟨_, b, hb, rfl, rfl⟩
  | dropping documentId keys => exact moved_drop hs hmeets
  | finding documentId name =>
    simp only [answered]
    split
    · rename_i hfind
      refine moved_read hs hmeets rfl rfl (fun _ _ h => by cases h) fun e he => .inr ?_
      rw [List.mem_singleton.1 he]
      exact ⟨_, _, body?_findAsset hfind, rfl, rfl⟩
    · exact moved_idle hs rfl
  | detaching assetId key => exact moved_detach hs hmeets
  | clearing keys outcome =>
    cases keys with
    | nil => exact moved_idle hs rfl
    | cons key keys => exact moved_clear hs hmeets
  | ended outcome => exact moved_idle hs rfl

theorem moved_refused (hs : Intact h s) (hmeets : Meets s call) : Moved h s call s (refused call) := by
  cases call with
  | saving => exact moved_discard hs hmeets rfl
  | assigning => exact moved_discard hs hmeets rfl
  | saved => exact ⟨.refl _ s, hs, hmeets, .inl, fun hp => .inl ⟨_, hp⟩, fun he => by cases he⟩
  | _ => exact moved_idle hs rfl

/-! ## Runs -/

/-- What holds at every moment: the store is intact, every call is right, and they are apart. -/
structure Safe (h : Host τ) (scene : Scene Tables Call) : Prop where
  intact : Intact h scene.shared
  calls : ∀ {i : Nat} {call}, scene.calls[i]? = some call → Meets scene.shared call
  apart : ∀ {i j : Nat} {call call'}, i ≠ j → scene.calls[i]? = some call → scene.calls[j]? = some call' → Apart call call'

theorem Apart.of_idle (hidle : call.idle = true) (other : Call) : Apart call other ∧ Apart other call := by
  obtain ⟨hpending, hkey, hheld, -⟩ := call.idle_iff hidle
  refine ⟨⟨fun hk => ?_, fun hp => ?_⟩, ⟨fun _ hk => ?_, fun _ e he => ?_⟩⟩
  · rw [hkey] at hk
    cases hk
  · rw [hpending] at hp
    cases hp
  · rw [hkey] at hk
    cases hk
  · rw [hheld] at he
    cases he

theorem Safe.begin {scene : Scene Tables Call} (hs : Safe h scene) (op : Op) :
    Safe h ((editors h).next scene (.begin op)) := by
  have hidle : (Call.reading op).idle = true := rfl
  have hapart := Apart.of_idle hidle
  refine ⟨hs.intact, fun hcall => ?_, fun hne hcall hcall' => ?_⟩
  · rcases getElem?_append_cases hcall with ⟨-, rfl⟩ | hcall
    · exact .of_idle _ rfl
    · exact hs.calls hcall
  · rcases getElem?_append_cases hcall with ⟨hi, rfl⟩ | hcall
    · exact (hapart _).1
    · rcases getElem?_append_cases hcall' with ⟨-, rfl⟩ | hcall'
      · exact (hapart _).2
      · exact hs.apart hne hcall hcall'

theorem Safe.moved {scene : Scene Tables Call} {i : Nat} (hs : Safe h scene) (hcall : scene.calls[i]? = some call)
    (hmoved : Moved h scene.shared call s' call') : Safe h ⟨s', scene.calls.set i call'⟩ := by
  have hother {j : Nat} {other : Call} (hne : j ≠ i) (hj : scene.calls[j]? = some other) :
      Apart call' other ∧ Apart other call' :=
    hmoved.apart (hs.calls hj) (hs.apart (Ne.symm hne) hcall hj) (hs.apart hne hj hcall)
  refine ⟨hmoved.intact, fun hj => ?_, fun hne hj hk => ?_⟩
  · rcases getElem?_set_cases hj with ⟨-, rfl⟩ | ⟨hne, hj⟩
    · exact hmoved.meets
    · exact Meets.kept_by hmoved.change (hs.calls hcall) (hs.calls hj) (hs.apart (Ne.symm hne) hcall hj) (hs.apart hne hj hcall)
  · rcases getElem?_set_cases hj with ⟨rfl, rfl⟩ | ⟨hji, hj'⟩ <;> rcases getElem?_set_cases hk with ⟨rfl, rfl⟩ | ⟨hki, hk'⟩
    · exact absurd rfl hne
    · exact (hother hki hk').1
    · exact (hother hji hj').2
    · exact hs.apart hne hj' hk'

theorem Safe.next {scene : Scene Tables Call} (hs : Safe h scene) (m : Move Op Reply Empty) : Safe h ((editors h).next scene m) := by
  cases m with
  | begin op => exact hs.begin op
  | step i reply =>
    cases hcall : scene.calls[i]? with
    | none => rwa [Program.next_none _ hcall]
    | some call =>
      rw [Program.next_step _ hcall]
      by_cases hok : reply.ok = true
      · simp only [editors, if_pos hok]
        exact hs.moved hcall (moved_answered hs.intact (hs.calls hcall) reply)
      · simp only [editors, if_neg hok]
        exact hs.moved hcall (moved_refused hs.intact (hs.calls hcall))
  | other e => exact e.elim

theorem safe_throughout (h : Host τ) (moves : List (Move Op Reply Empty)) : Safe h ((editors h).machine.state moves) :=
  Machine.invariant (P := fun _ scene => Safe h scene)
    ⟨⟨fun {ref b} hb => (by cases ref <;> cases hb), fun _ _ hb => (by cases hb), fun {ref _ _ _} hb => (by cases ref <;> cases hb),
      fun hobject => (by cases hobject), fun hrow => (by cases hrow)⟩, fun hcall => (by cases hcall), fun _ hcall => (by cases hcall)⟩
    (fun _ _ m hs => hs.next m) moves

/-- Every row names an object, a revision one of the size and the digest that it records, and the row of a document that of its
current revision; what a save committed is there, unless it went with its document; and no two saves are committed as one
revision of an id, unless one of them went with its document. -/
structure Retained (h : Host τ) (scene : Scene Tables Call) : Prop where
  backed : ∀ ref b, scene.shared.body? ref = some b → (scene.shared.objects.get? b.key).isSome = true
  exact : ∀ id n r data, scene.shared.revisions.get? (id, n) = some r → scene.shared.objects.get? r.body.key = some data →
    r.body.size = data.size ∧ r.body.sha256 = h.sha256 data
  current : ∀ id row, scene.shared.documents.get? id = some row →
    ∃ r, scene.shared.revisions.get? (id, row.revision) = some r ∧ r.body.key = row.body.key
  kept : ∀ (i : Nat) draft key, scene.calls[i]? = some (.saved draft key) → scene.shared.Keeps draft key
  separate : ∀ (i j : Nat) draft key draft' key', i ≠ j → scene.calls[i]? = some (.saved draft key) →
    scene.calls[j]? = some (.saved draft' key') → draft.id = draft'.id → draft.revision = draft'.revision →
      key ∈ scene.shared.dropped ∨ key' ∈ scene.shared.dropped

theorem Safe.retained {scene : Scene Tables Call} (hs : Safe h scene) : Retained h scene where
  backed ref b hb := by
    obtain ⟨data, hobject⟩ := hs.intact.backed hb
    rw [hobject]
    rfl
  exact id n r data hr hdata := by
    have hbody : scene.shared.body? (.revision id n) = some r.body := by rw [Tables.body?, hr]; rfl
    rw [hs.intact.exact _ _ hbody hdata]
    exact ⟨rfl, rfl⟩
  current _ _ := hs.intact.current
  kept i draft key hcall := (hs.calls hcall).kept rfl
  separate i j draft key draft' key' hne hi hj hid hrevision := by
    rcases (hs.calls hi).kept rfl with ⟨r, hr, hkey, -⟩ | hdropped
    · rcases (hs.calls hj).kept rfl with ⟨r', hr', hkey', -⟩ | hdropped
      · rw [← hid, ← hrevision, hr] at hr'
        cases hr'
        exact absurd (congrArg some (hkey'.symm.trans hkey)) ((hs.apart hne hi hj).keys rfl)
      · exact .inr hdropped
    · exact .inl hdropped

/-- Whatever operations run side by side, however their steps interleave, and whichever of them the database or the store
refuses or never come. -/
theorem retained_throughout (h : Host τ) (moves : List (Move Op Reply Empty)) :
    (editors h).machine.AllStates (fun _ scene => Retained h scene) moves :=
  have hall : (editors h).machine.AllSteps (fun _ _ _ => True) moves := .of_forall (p := fun _ => True) fun _ _ => trivial
  hall.allStates fun moves _ => (safe_throughout h moves).retained

end OpenFish.Docs
