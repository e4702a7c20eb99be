/-
Whenever no upload is in progress, `compute_sha256` answers the SHA-256 of the stored bytes, in every interleaving
in which no digest of other bytes is recorded behind the back of the last upload.
-/
import OpenFish.Packages.DigestCache

namespace OpenFish.Packages

open Lib

variable {contentOf : Stamp → List UInt8} {sha256 : List UInt8 → String}

/-! ## What the claim is about -/

/-- The call is an upload that has begun and not come to its end. -/
def DigestCall.uploading : DigestCall → Bool
  | .arriving _ | .renamed _ | .recording .. | .noting .. => true
  | _ => false

/-- No upload is in progress. -/
def Quiet (s : Scene Shelf DigestCall) : Prop := ∀ k ∈ s.calls, k.uploading = false

instance (s : Scene Shelf DigestCall) : Decidable (Quiet s) := inferInstanceAs (Decidable (∀ k ∈ s.calls, _))

/-- No upload has been in progress since the moment the run had `n` calls. -/
def Calm (tree : Tree contentOf sha256) (n : ℕ) : List (Move DigestRequest Bool Stamp) → Prop
  | [] => n = 0
  | m :: ms => Quiet ((digests tree).machine.state (m :: ms)) ∧
      (n = ((digests tree).machine.state (m :: ms)).calls.length ∨ Calm tree n ms)

instance Calm.decidable {tree : Tree contentOf sha256} {n : ℕ} : ∀ ms, Decidable (Calm tree n ms)
  | [] => inferInstanceAs (Decidable (n = 0))
  | m :: ms =>
    haveI : Decidable (Calm tree n ms) := Calm.decidable ms
    inferInstanceAs (Decidable (Quiet ((digests tree).machine.state (m :: ms)) ∧
      (n = ((digests tree).machine.state (m :: ms)).calls.length ∨ Calm tree n ms)))

variable (contentOf sha256) in
/-- The SHA-256 of the stored bytes. -/
def served (s : Shelf) : Option String := s.file.map fun st => sha256 (contentOf st)

/-- What a call has answered that began and ended while no upload was in progress is the SHA-256 of the stored
bytes, and it has failed only where nothing is stored. -/
def Advertised (tree : Tree contentOf sha256) (ms : List (Move DigestRequest Bool Stamp)) : Prop :=
  ∀ n, Calm tree n ms → ∀ i, n ≤ i →
    (∀ digest, ((digests tree).machine.state ms).calls[i]? = some (.returned digest) →
      served contentOf sha256 ((digests tree).machine.state ms).shared = some digest) ∧
    (((digests tree).machine.state ms).calls[i]? = some .failed → ((digests tree).machine.state ms).shared.file = none)

/-! ## The condition -/

/-- The digest that the call's next step caches, and for which stat. -/
def DigestCall.records (contentOf : Stamp → List UInt8) (sha256 : List UInt8 → String) :
    DigestCall → Option (Stamp × String)
  | .recording st cur => some (cur, sha256 (contentOf st))
  | .adopting cur digest | .trusting cur digest => some (cur, digest)
  | .keeping cur opened => some (cur, sha256 (contentOf opened))
  | _ => none

/-- The digest of a sidecar in the legacy form. -/
def Shelf.legacy (s : Shelf) : Option String :=
  match s.sidecar.bind readSidecar with
  | some (none, digest) => some digest
  | _ => none

/-- The upload of the stored bytes that is still to record their digest. -/
def DigestCall.fixes (file : Option Stamp) : DigestCall → Bool
  | .renamed st => file = some st
  | .recording st cur => cur = st ∧ file = some st
  | _ => false

/-- Some upload is still to record the digest of the stored bytes. -/
def Fixing (s : Scene Shelf DigestCall) : Prop := ∃ (i : ℕ) (k : DigestCall), s.calls[i]? = some k ∧ k.fixes s.shared.file = true

/-- The step caches no digest of other bytes for the stat of the stored ones, unless their upload is still to record
their own; and when an upload's sidecar is refused, another upload is in progress, or no sidecar of other bytes in
the legacy form is left there. -/
def RecordsRight (contentOf : Stamp → List UInt8) (sha256 : List UInt8 → String) (s : Scene Shelf DigestCall) :
    Move DigestRequest Bool Stamp → Prop
  | .step i accepted => ∀ k, s.calls[i]? = some k →
    (∀ cur digest, k.records contentOf sha256 = some (cur, digest) → s.shared.file = some cur →
      served contentOf sha256 s.shared = some digest ∨ Fixing s) ∧
    ∀ st cur, k = .noting st cur → accepted = false →
      (∀ digest, s.shared.legacy = some digest → served contentOf sha256 s.shared = some digest) ∨
        ∃ (j : ℕ) (l : DigestCall), j ≠ i ∧ s.calls[j]? = some l ∧ l.uploading = true
  | _ => True

/-! ## What a step does to the shelf -/

theorem legacy_of_unreadable {s : Shelf} {text : String} (h : s.sidecar = some text) (hread : readSidecar text = none) :
    s.legacy = none := by
  rw [Shelf.legacy, h, Option.bind_some, hread]

/-- No sidecar that the code writes is in the legacy form. -/
theorem legacy_writeSidecar (s : Shelf) (st : Stamp) (digest : String) (accepted : Bool) :
    (s.writeSidecar st digest accepted).legacy = if accepted then none else s.legacy := by
  cases accepted with
  | false => rfl
  | true => exact legacy_of_unreadable rfl (readSidecar_sidecarText st digest)

variable (contentOf sha256) in
/-- What a step does to the shelf: a rename, one recorded digest, one sidecar, an invalidation's half, or nothing. -/
inductive Touches (s : Shelf) (k : DigestCall) (accepted : Bool) : Shelf → Prop
  | file (st : Stamp) (arriving : k = .arriving st) : Touches s k accepted { s with file := some st }
  | cache (st : Stamp) (digest : String) (records : k.records contentOf sha256 = some (st, digest)) :
      Touches s k accepted (s.remember st digest)
  | sidecar (st : Stamp) (digest : String) : Touches s k accepted (s.writeSidecar st digest accepted)
  | forgotten (forgetting : k = .forgetting) : Touches s k accepted { s with cache := fun _ => none }
  | unlinked : Touches s k accepted { s with sidecar := none }
  | nothing (upload : ∀ st cur, k ≠ .noting st cur) : Touches s k accepted s

variable (contentOf sha256) in
theorem digestStep_touches (s : Shelf) (k : DigestCall) (accepted : Bool) :
    Touches contentOf sha256 s k accepted (digestStep contentOf sha256 s k accepted).1 := by
  cases k with
  | arriving st => exact .file st rfl
  | recording st cur => exact .cache cur _ rfl
  | adopting cur digest => exact .cache cur digest rfl
  | trusting cur digest => exact .cache cur digest rfl
  | keeping cur opened => exact .cache cur _ rfl
  | noting st cur => exact .sidecar cur _
  | writing cur digest => exact .sidecar cur digest
  | forgetting => exact .forgotten rfl
  | unlinking =>
    simp only [digestStep]
    split
    · exact .unlinked
    · exact .nothing nofun
  | renamed | statting | looking | peeking | opening | hashing =>
    simp only [digestStep]
    split <;> exact .nothing nofun
  | stored | returned | failed | forgotten => exact .nothing nofun

section
variable {s s' : Shelf} {k : DigestCall} {accepted : Bool}
  (h : Touches contentOf sha256 s k accepted s')
include h

/-- Only an upload's rename touches the file. -/
theorem Touches.file_eq (hk : ∀ st, k ≠ .arriving st) : s'.file = s.file := by
  cases h with
  | file st arriving => exact absurd arriving (hk st)
  | sidecar st digest => unfold Shelf.writeSidecar; split <;> rfl
  | cache | forgotten | unlinked | nothing => rfl

/-- A cached digest was cached before, or is the one the call records. -/
theorem Touches.cached {t : Stamp} {d : String} (hd : s'.cache t = some d) :
    s.cache t = some d ∨ k.records contentOf sha256 = some (t, d) := by
  cases h with
  | cache st digest records =>
    unfold Shelf.remember at hd
    dsimp only at hd
    split at hd
    · rename_i ht
      cases hd
      rw [ht]
      exact .inr records
    · exact .inl hd
  | sidecar st digest =>
    unfold Shelf.writeSidecar at hd
    split at hd <;> exact .inl hd
  | forgotten => cases hd
  | file | unlinked | nothing => exact .inl hd

/-- A sidecar in the legacy form was there before, and is gone after an upload's own. -/
theorem Touches.legacy {d : String} (hd : s'.legacy = some d) :
    s.legacy = some d ∧ ∀ st cur, k = .noting st cur → accepted = false := by
  cases h with
  | sidecar st digest =>
    rw [legacy_writeSidecar] at hd
    cases accepted with
    | false => exact ⟨hd, fun _ _ _ => rfl⟩
    | true => cases hd
  | unlinked => cases hd
  | file st arriving => exact ⟨hd, fun _ _ hk => (by rw [arriving] at hk; cases hk)⟩
  | cache st digest records => exact ⟨hd, fun _ _ hk => (by rw [hk] at records; cases records)⟩
  | forgotten forgetting => exact ⟨hd, fun _ _ hk => (by rw [hk] at forgetting; cases forgetting)⟩
  | nothing upload => exact ⟨hd, fun st cur hk => absurd hk (upload st cur)⟩

end

/-! ## The invariant -/

/-- Some upload is in progress. -/
def Uploading (s : Scene Shelf DigestCall) : Prop := ∃ (i : ℕ) (k : DigestCall), s.calls[i]? = some k ∧ k.uploading = true

theorem Quiet.not_uploading {s : Scene Shelf DigestCall} (h : Quiet s) : ¬ Uploading s := by
  rintro ⟨i, k, hi, hk⟩
  rw [h k (List.mem_of_getElem? hi)] at hk
  cases hk

theorem fixes_uploading {k : DigestCall} {file : Option Stamp} (h : k.fixes file = true) : k.uploading = true := by
  cases k with
  | renamed | recording => rfl
  | arriving | noting | stored | statting | looking | peeking | adopting | trusting | opening | hashing | keeping
  | writing | returned | failed | forgetting | unlinking | forgotten => cases h

theorem Quiet.not_fixing {s : Scene Shelf DigestCall} (h : Quiet s) : ¬ Fixing s := fun ⟨i, k, hi, hk⟩ =>
  h.not_uploading ⟨i, k, hi, fixes_uploading hk⟩

/-- What is wrong about the stored bytes, an upload in progress is still to put right. -/
structure Kept (contentOf : Stamp → List UInt8) (sha256 : List UInt8 → String) (s : Scene Shelf DigestCall) : Prop where
  cache : ∀ cur digest, s.shared.file = some cur → s.shared.cache cur = some digest →
    served contentOf sha256 s.shared = some digest ∨ Fixing s
  legacy : ∀ digest, s.shared.legacy = some digest → s.shared.file ≠ none →
    served contentOf sha256 s.shared = some digest ∨ Uploading s

variable (contentOf sha256) in
theorem served_eq_of_file {s s' : Shelf} (h : s'.file = s.file) : served contentOf sha256 s' = served contentOf sha256 s := by
  rw [served, served, h]

theorem kept_start (tree : Tree contentOf sha256) : Kept contentOf sha256 ⟨(digests tree).start, []⟩ := by
  refine ⟨fun cur digest _ h => (by cases h), fun digest h hfile => .inl ?_⟩
  obtain ⟨st, hst⟩ := Option.ne_none_iff_exists'.1 hfile
  have hlegacy : tree.sidecar.bind readSidecar = some (none, digest) := by
    change (match tree.sidecar.bind readSidecar with
      | some (none, digest) => some digest
      | _ => none) = some digest at h
    split at h
    · rename_i d heq
      rw [heq]
      cases h
      rfl
    · cases h
  rw [tree.legacy digest hlegacy st hst, served, hst]
  rfl

section
variable {tree : Tree contentOf sha256} {s : Scene Shelf DigestCall} {i : ℕ} {k : DigestCall} {accepted : Bool}

variable (tree accepted) in
/-- The upload of the stored bytes stays on its way to recording their digest, unless it records it now. -/
theorem Fixing.step (h : Fixing s) (hi : s.calls[i]? = some k) (hk : ∀ st, k ≠ .arriving st) :
    Fixing ((digests tree).next s (.step i accepted)) ∨ ∃ st, k = .recording st st ∧ s.shared.file = some st := by
  obtain ⟨j, l, hj, hl⟩ := h
  rw [Program.next_step _ hi]
  have hfile : (digestStep contentOf sha256 s.shared k accepted).1.file = s.shared.file :=
    (digestStep_touches contentOf sha256 s.shared k accepted).file_eq hk
  by_cases hji : j = i
  · subst hji
    rw [hi] at hj
    cases hj
    cases k with
    | renamed st =>
      have hst : s.shared.file = some st := of_decide_eq_true hl
      refine .inl ⟨j, .recording st st, ?_, ?_⟩
      · have hlt := (List.getElem?_eq_some_iff.1 hi).1
        refine (List.getElem?_set_self hlt).trans ?_
        show some (digestStep contentOf sha256 s.shared (.renamed st) accepted).2 = _
        simp only [digestStep, hst]
      · show decide _ = true
        rw [show ((digests tree).step s.shared (.renamed st) accepted).1.file = s.shared.file from hfile, hst]
        exact decide_eq_true ⟨rfl, rfl⟩
    | recording st cur =>
      obtain ⟨rfl, hst⟩ := of_decide_eq_true hl
      exact .inr ⟨_, rfl, hst⟩
    | arriving | noting | stored | statting | looking | peeking | adopting | trusting | opening | hashing | keeping
    | writing | returned | failed | forgetting | unlinking | forgotten => cases hl
  · refine .inl ⟨j, l, (List.getElem?_set_ne (Ne.symm hji)).trans hj, ?_⟩
    show l.fixes (digestStep contentOf sha256 s.shared k accepted).1.file = true
    rw [hfile]
    exact hl

/-- A step other than a rename keeps the invariant. -/
theorem Kept.step (h : Kept contentOf sha256 s) (hi : s.calls[i]? = some k) (hk : ∀ st, k ≠ .arriving st)
    (hok : RecordsRight contentOf sha256 s (.step i accepted)) :
    Kept contentOf sha256 ((digests tree).next s (.step i accepted)) := by
  have htouches := digestStep_touches contentOf sha256 s.shared k accepted
  have hfile := htouches.file_eq hk
  have hserved := served_eq_of_file contentOf sha256 hfile
  obtain ⟨hrecords, hnoting⟩ := hok k hi
  have hlt := (List.getElem?_eq_some_iff.1 hi).1
  constructor
  · intro cur digest hcur hd
    rw [Program.next_step _ hi] at hcur hd
    have hbefore : served contentOf sha256 s.shared = some digest ∨ Fixing s := by
      rcases htouches.cached hd with hd | hrec
      · exact h.cache cur digest (hfile.symm.trans hcur) hd
      · exact hrecords cur digest hrec (hfile.symm.trans hcur)
    rcases hbefore with hright | hfixing
    · refine .inl ?_
      rw [Program.next_step _ hi]
      exact hserved.trans hright
    · rcases hfixing.step tree accepted hi hk with hfixing | ⟨st, rfl, hst⟩
      · exact .inr hfixing
      · -- the upload of the stored bytes records their digest
        have heq : st = cur := by
          have := hst.symm.trans (hfile.symm.trans hcur)
          cases this
          rfl
        subst heq
        have hd : (if st = st then some (sha256 (contentOf st)) else s.shared.cache st) = some digest := hd
        rw [if_pos rfl] at hd
        refine .inl ?_
        rw [Program.next_step _ hi]
        refine hserved.trans ?_
        rw [served, hst]
        exact hd
  · intro digest hd hne
    rw [Program.next_step _ hi] at hd hne
    obtain ⟨hlegacy, hrefused⟩ := htouches.legacy hd
    replace hne : s.shared.file ≠ none := fun hnone => hne (hfile.trans hnone)
    rw [Program.next_step _ hi]
    show served contentOf sha256 (digestStep contentOf sha256 s.shared k accepted).1 = _ ∨ _
    rw [hserved]
    rcases h.legacy digest hlegacy hne with hright | ⟨j, l, hj, hl⟩
    · exact .inl hright
    by_cases hji : j = i
    · subst hji
      rw [hi] at hj
      cases hj
      have hself : ∀ {k'}, (digestStep contentOf sha256 s.shared k accepted).2 = k' →
          (s.calls.set j ((digests tree).step s.shared k accepted).2)[j]? = some k' := fun h =>
        (List.getElem?_set_self hlt).trans (congrArg some h)
      cases k with
      | arriving st => exact absurd rfl (hk st)
      | renamed st =>
        obtain ⟨cur, hcur⟩ := Option.ne_none_iff_exists'.1 hne
        exact .inr ⟨j, .recording st cur, hself (by simp only [digestStep, hcur]), rfl⟩
      | recording st cur => exact .inr ⟨j, .noting st cur, hself rfl, rfl⟩
      | noting st cur =>
        rcases hnoting st cur rfl (hrefused st cur rfl) with hright | ⟨j', l', hj', hl', hup⟩
        · exact .inl (hright digest hlegacy)
        · exact .inr ⟨j', l', (List.getElem?_set_ne (Ne.symm hj')).trans hl', hup⟩
      | stored | statting | looking | peeking | adopting | trusting | opening | hashing | keeping | writing
      | returned | failed | forgetting | unlinking | forgotten => cases hl
    · exact .inr ⟨j, l, (List.getElem?_set_ne (Ne.symm hji)).trans hj, hl⟩

/-- A rename brings an upload that is still to record the digest of the bytes it stores. -/
theorem kept_arriving {st : Stamp} (hi : s.calls[i]? = some (.arriving st)) :
    Kept contentOf sha256 ((digests tree).next s (.step i accepted)) := by
  have hlt := (List.getElem?_eq_some_iff.1 hi).1
  rw [Program.next_step _ hi]
  have hself : (s.calls.set i ((digests tree).step s.shared (.arriving st) accepted).2)[i]? = some (.renamed st) :=
    List.getElem?_set_self hlt
  exact ⟨fun _ _ _ _ => .inr ⟨i, _, hself, decide_eq_true rfl⟩, fun _ _ _ => .inr ⟨i, _, hself, rfl⟩⟩

end

theorem kept_next {tree : Tree contentOf sha256} {s : Scene Shelf DigestCall} (h : Kept contentOf sha256 s)
    (m : Move DigestRequest Bool Stamp) (hok : RecordsRight contentOf sha256 s m) :
    Kept contentOf sha256 ((digests tree).next s m) := by
  cases m with
  | begin a =>
    have hold : ∀ {i : ℕ} {k : DigestCall}, s.calls[i]? = some k →
        (s.calls ++ [(digests tree).enter s.shared a])[i]? = some k := fun hi =>
      (List.getElem?_append_left (List.getElem?_eq_some_iff.1 hi).1).trans hi
    refine ⟨fun cur digest hcur hd => (h.cache cur digest hcur hd).imp_right ?_,
      fun digest hd hne => (h.legacy digest hd hne).imp_right ?_⟩
    · rintro ⟨i, k, hi, hk⟩
      exact ⟨i, k, hold hi, hk⟩
    · rintro ⟨i, k, hi, hk⟩
      exact ⟨i, k, hold hi, hk⟩
  | step i accepted =>
    cases hi : s.calls[i]? with
    | none => rw [Program.next_none _ hi]; exact h
    | some k =>
      by_cases hk : ∃ st, k = .arriving st
      · obtain ⟨st, rfl⟩ := hk
        exact kept_arriving hi
      · exact h.step hi (fun st hst => hk ⟨st, hst⟩) hok
  | other st =>
    refine ⟨fun cur digest hcur hd => h.cache cur digest hcur ?_, h.legacy⟩
    change (if cur = st then none else s.shared.cache cur) = some digest at hd
    split at hd
    · cases hd
    · exact hd

/-! ## Reads while nothing is uploaded -/

/-- What a call of a calm stretch has seen is the stored file, and what it has found its digest. -/
def Sound (contentOf : Stamp → List UInt8) (sha256 : List UInt8 → String) (s : Shelf) : DigestCall → Prop
  | .looking cur | .peeking cur | .opening cur => s.file = some cur
  | .adopting _ digest | .writing _ digest | .returned digest => served contentOf sha256 s = some digest
  | .hashing cur opened => s.file = some cur ∧ s.file = some opened
  | .keeping _ opened => s.file = some opened
  | .trusting .. => False
  | .failed => s.file = none
  | .arriving _ | .renamed _ | .recording .. | .noting .. | .stored | .statting | .forgetting | .unlinking
  | .forgotten => True

theorem Sound.of_file {s s' : Shelf} (hfile : s'.file = s.file) {k : DigestCall} (h : Sound contentOf sha256 s k) :
    Sound contentOf sha256 s' k := by
  have hserved := served_eq_of_file contentOf sha256 hfile
  unfold Sound at h ⊢
  rw [hfile, hserved]
  exact h

/-- A step of a read keeps it sound where cache and sidecar tell the truth about the stored bytes. -/
theorem Sound.step {s : Shelf} {k : DigestCall} (h : Sound contentOf sha256 s k) (accepted : Bool)
    (hcache : ∀ cur digest, s.file = some cur → s.cache cur = some digest → served contentOf sha256 s = some digest)
    (hlegacy : ∀ digest, s.legacy = some digest → s.file ≠ none → served contentOf sha256 s = some digest)
    (hk : ∀ st, k ≠ .arriving st) :
    Sound contentOf sha256 (digestStep contentOf sha256 s k accepted).1 (digestStep contentOf sha256 s k accepted).2 := by
  refine Sound.of_file ((digestStep_touches contentOf sha256 s k accepted).file_eq hk) ?_
  cases k with
  | statting =>
    simp only [digestStep]
    split
    · rename_i hnone
      exact hnone
    · rename_i cur hcur
      exact hcur
  | looking cur =>
    simp only [digestStep]
    split
    · rename_i digest hd
      exact hcache cur digest h hd
    · exact h
  | peeking cur =>
    have hcur : s.file = some cur := h
    simp only [digestStep]
    split
    · rename_i digest hsidecar
      refine hlegacy digest ?_ (by rw [hcur]; nofun)
      rw [Shelf.legacy, hsidecar]
    · rename_i stamp digest hsidecar
      obtain ⟨text, -, htext⟩ := Option.bind_eq_some_iff.1 hsidecar
      rw [if_neg (readSidecar_stamp htext cur)]
      exact h
    · exact h
  | adopting cur digest => exact h
  | trusting cur digest => exact h.elim
  | opening cur =>
    simp only [digestStep]
    split
    · rename_i hnone
      exact hnone
    · rename_i opened hopened
      exact ⟨h, hopened⟩
  | hashing cur opened =>
    simp only [digestStep]
    split
    · rename_i digest hd
      exact hcache cur digest h.1 hd
    · exact h.2
  | keeping cur opened =>
    show served contentOf sha256 s = some _
    rw [served, show s.file = some opened from h]
    rfl
  | writing cur digest => exact h
  | returned digest => exact h
  | arriving st => exact absurd rfl (hk st)
  | renamed st => simp only [digestStep]; split <;> trivial
  | failed => exact h
  | recording | noting | stored | forgetting | unlinking | forgotten => trivial

theorem quiet_of_calm {tree : Tree contentOf sha256} {n : ℕ} {ms : List (Move DigestRequest Bool Stamp)}
    (h : Calm tree n ms) : Quiet ((digests tree).machine.state ms) := by
  cases ms with
  | nil => exact fun k hk => absurd hk List.not_mem_nil
  | cons m ms => exact h.1

/-- The calls of a calm stretch are sound throughout it. -/
theorem sound_of_calm {tree : Tree contentOf sha256} {n : ℕ} : ∀ {ms : List (Move DigestRequest Bool Stamp)},
    (digests tree).machine.AllSteps (fun _ => RecordsRight contentOf sha256) ms → Calm tree n ms →
    ∀ (i : ℕ) (k : DigestCall), n ≤ i → ((digests tree).machine.state ms).calls[i]? = some k →
      Sound contentOf sha256 ((digests tree).machine.state ms).shared k
  | [], _, _, i, k, _, hi => by simp at hi
  | m :: ms, hok, hcalm, i, k, hle, hi => by
    rcases hcalm.2 with rfl | hbefore
    · have := (List.getElem?_eq_some_iff.1 hi).1
      omega
    have ih := sound_of_calm hok.2 hbefore
    have hquiet := quiet_of_calm hbefore
    have hkept : Kept contentOf sha256 ((digests tree).machine.state ms) :=
      Machine.AllSteps.invariant (P := fun _ s => Kept contentOf sha256 s) (kept_start tree)
        (fun _ s m h hm => kept_next h m hm) hok.2
    rw [Machine.state_cons, Program.machine_step] at hi ⊢
    generalize (digests tree).machine.state ms = s at ih hquiet hkept hi ⊢
    cases m with
    | begin a =>
      rcases getElem?_append_cases hi with ⟨-, rfl⟩ | hi
      · cases a <;> trivial
      · exact ih i k hle hi
    | step j accepted =>
      cases hj : s.calls[j]? with
      | none =>
        rw [Program.next_none _ hj] at hi ⊢
        exact ih i k hle hi
      | some l =>
        rw [Program.next_step _ hj] at hi ⊢
        have harriving : ∀ st, l ≠ .arriving st := by
          rintro st rfl
          exact hquiet.not_uploading ⟨j, _, hj, rfl⟩
        rcases getElem?_set_cases hi with ⟨rfl, rfl⟩ | ⟨-, hi⟩
        · exact (ih i l hle hj).step accepted
            (fun cur digest hcur hd => (hkept.cache cur digest hcur hd).resolve_right hquiet.not_fixing)
            (fun digest hd hne => (hkept.legacy digest hd hne).resolve_right hquiet.not_uploading) harriving
        · exact (ih i k hle hi).of_file ((digestStep_touches contentOf sha256 s.shared l accepted).file_eq harriving)
    | other st => exact (ih i k hle hi).of_file rfl

/-- The advertised digest is that of the stored bytes in every run whose steps record no digest of other bytes
behind the back of the last upload. -/
theorem advertised_of_recordsRight (tree : Tree contentOf sha256) {ms : List (Move DigestRequest Bool Stamp)}
    (h : (digests tree).machine.AllSteps (fun _ => RecordsRight contentOf sha256) ms) : Advertised tree ms :=
  fun _ hcalm i hle => ⟨fun _ hi => sound_of_calm h hcalm i _ hle hi, fun hi => sound_of_calm h hcalm i _ hle hi⟩

/-! ## Two uploads of one file -/

def oneByte (st : Stamp) : List UInt8 := [UInt8.ofNat st.mtimeNs]

/-- Tells the contents `[1]` and `[2]` apart, and is a digest on both. -/
def shortDigest (bytes : List UInt8) : String := String.ofList (List.replicate hexLen (if bytes = [1] then 'a' else 'b'))

/-- An empty tree. -/
def noFile : Tree oneByte shortDigest := ⟨none, none, fun _ h => (by cases h)⟩

/-- A read while nothing is uploaded. -/
def thenRead : List (Move DigestRequest Bool Stamp) := [.step 2 true, .step 2 true, .begin .computeSha256]

/-- The second upload comes after the first one has come to its end. -/
def inTurn : List (Move DigestRequest Bool Stamp) :=
  [.step 1 true, .step 1 true, .step 1 true, .step 1 true, .begin (.upload ⟨2, 1⟩), .step 0 true, .step 0 true,
    .step 0 true, .step 0 true, .begin (.upload ⟨1, 1⟩)]

/-- The second upload's rename and its record come between the first one's rename and its stat. -/
def overtaken : List (Move DigestRequest Bool Stamp) :=
  [.step 0 true, .step 0 true, .step 0 true, .step 1 true, .step 1 true, .step 1 true, .step 1 true, .step 0 true,
    .begin (.upload ⟨2, 1⟩), .begin (.upload ⟨1, 1⟩)]

/-- An accepted step meets the condition when it caches nothing but the digest of the stored bytes. -/
theorem recordsRight_of_served {s : Scene Shelf DigestCall} {i : ℕ}
    (h : ∀ p ∈ s.calls[i]?.bind (DigestCall.records contentOf sha256), served contentOf sha256 s.shared = some p.2) :
    RecordsRight contentOf sha256 s (.step i true) := by
  rintro k hk
  refine ⟨fun cur digest hrec _ => .inl (h (cur, digest) ?_), fun _ _ _ h => (by cases h)⟩
  rw [hk]
  exact hrec

/-- One upload after the other meets the condition, and the read answers the second one's digest. -/
theorem advertised_of_recordsRight_inTurn :
    Advertised noFile (thenRead ++ inTurn) ∧ Calm noFile 2 (thenRead ++ inTurn) ∧
      ((digests noFile).machine.state (thenRead ++ inTurn)).calls[2]? = some (.returned (shortDigest [2])) := by
  refine ⟨advertised_of_recordsRight noFile ⟨?_, ?_, trivial, ?_, ?_, ?_, ?_, trivial, ?_, ?_, ?_, ?_, trivial, trivial⟩,
    by decide +kernel, by decide +kernel⟩
  all_goals exact recordsRight_of_served (by decide +kernel)

/-- After `overtaken` the read answers the digest of the first upload's bytes, and the file holds the second one's. -/
theorem overtaken_not_advertised : ¬ Advertised noFile (thenRead ++ overtaken) := by
  intro h
  have hcalm : Calm noFile 2 (thenRead ++ overtaken) := by decide +kernel
  have hread : ((digests noFile).machine.state (thenRead ++ overtaken)).calls[2]? =
      some (.returned (shortDigest [1])) := by decide +kernel
  have hserved := (h 2 hcalm 2 le_rfl).1 _ hread
  exact absurd hserved (by decide +kernel)

end OpenFish.Packages
