/-
The PyPI upload route of `routes/pypi.py`: an existence check, the validation, the stream into a temporary
file, a second existence check and the rename into place, for any number of uploads side by side. A published
file is immutable exactly as long as no upload is renamed onto a file that came up since its second check.
-/
import OpenFish.Lib.Interleave

namespace OpenFish.Packages

open Lib

abbrev Bytes := List UInt8

/-- `STORAGE__ON_DUPLICATE`. -/
inductive DuplicatePolicy
  | conflict
  | overwrite
  | skip
  deriving DecidableEq, Repr

def DuplicatePolicy.allowsOverwrite (policy : DuplicatePolicy) : Bool := policy == .overwrite

def DuplicatePolicy.skipsExisting (policy : DuplicatePolicy) : Bool := policy == .skip

def maxNameBytes : Nat := 255

/-- `safe_name`, over werkzeug's `secure_filename`. -/
def safeName (secureFilename : String → String) (filename : String) : Option String :=
  let name := secureFilename filename
  if name = "" then none
  else if maxNameBytes < name.utf8ByteSize then none
  else some name

/-- The packages directory. -/
abbrev Files := String → Option Bytes

inductive Answer
  /-- "No file selected" or "Invalid filename". -/
  | badRequest
  /-- The verdict of `validate_file`. -/
  | refused
  /-- The stream broke off, and the request with it. -/
  | failed
  /-- `skip`: a success that leaves the stored file untouched. -/
  | skipped
  /-- `conflict`: 400 for twine, 409 for the others. -/
  | exists
  | stored
  deriving DecidableEq, Repr

/-- `_existing_upload_response`. -/
def existingUploadResponse (policy : DuplicatePolicy) : Answer :=
  if policy.skipsExisting then .skipped else .exists

structure Upload where
  filename : String
  content : Bytes
  deriving DecidableEq, Repr

/-- Where an upload stands, with the name its file is stored under once that is known. -/
inductive Call
  | checking (u : Upload)
  | validating (u : Upload) (name : String)
  | streaming (u : Upload) (name : String)
  | rechecking (u : Upload) (name : String)
  | moving (u : Upload) (name : String)
  | answered (u : Upload) (name : String) (answer : Answer)
  deriving DecidableEq, Repr

variable (secureFilename : String → String) (policy : DuplicatePolicy)

/-- One step of an upload; `passes` says how the validation and the stream go. -/
def uploadStep (files : Files) (k : Call) (passes : Bool) : Files × Call :=
  match k with
  | .checking u =>
    if u.filename = "" then (files, .answered u "" .badRequest)
    else
      match safeName secureFilename u.filename with
      | none => (files, .answered u "" .badRequest)
      | some name =>
        if (files name).isSome ∧ policy.allowsOverwrite = false then
          (files, .answered u name (existingUploadResponse policy))
        else (files, .validating u name)
  | .validating u name => (files, if passes then .streaming u name else .answered u name .refused)
  | .streaming u name => (files, if passes then .rechecking u name else .answered u name .failed)
  | .rechecking u name =>
    if (files name).isSome ∧ policy.allowsOverwrite = false then
      (files, .answered u name (existingUploadResponse policy))
    else (files, .moving u name)
  | .moving u name => (fun n => if n = name then some u.content else files n, .answered u name .stored)
  | .answered u name answer => (files, .answered u name answer)

/-- Any number of uploads over a packages directory as it stood. -/
def uploads (files : Files) : Program Files Call Upload Bool Empty where
  start := files
  enter _ u := .checking u
  step := uploadStep secureFilename policy
  other files _ := files

variable {secureFilename : String → String} {policy : DuplicatePolicy} {files : Files}

/-- What was answered as stored is still there, byte for byte, and by one upload only. -/
structure Immutable (s : Scene Files Call) : Prop where
  kept : ∀ (i : Nat) (u : Upload) (name : String), s.calls[i]? = some (.answered u name .stored) →
    s.shared name = some u.content
  once : ∀ (i j : Nat) (u v : Upload) (name : String), s.calls[i]? = some (.answered u name .stored) →
    s.calls[j]? = some (.answered v name .stored) → i = j

/-- A rename finds nothing under its name. -/
def RenamesOntoNothing (s : Scene Files Call) : Move Upload Bool Empty → Prop
  | .step i _ => ∀ u name, s.calls[i]? = some (.moving u name) → s.shared name = none
  | _ => True

/-- What an upload about to be renamed finds under its name has been stored by another one meanwhile. -/
def StoredMeanwhile (s : Scene Files Call) : Prop :=
  ∀ (i : Nat) (u : Upload) (name : String), s.calls[i]? = some (.moving u name) → s.shared name ≠ none →
    ∃ (j : Nat) (v : Upload), s.calls[j]? = some (.answered v name .stored)

/-- What a step does to the directory and to the call: the rename stores the file and answers so; no other
step touches a file or is answered as stored. -/
theorem uploadStep_cases (files : Files) (k : Call) (passes : Bool) :
    (∃ u name, k = .moving u name ∧
      uploadStep secureFilename policy files k passes =
        (fun n => if n = name then some u.content else files n, .answered u name .stored)) ∨
    ((∀ u name, k ≠ .moving u name) ∧ (uploadStep secureFilename policy files k passes).1 = files ∧
      (∀ u name, (uploadStep secureFilename policy files k passes).2 = .answered u name .stored →
        k = .answered u name .stored) ∧
      ∀ u name, (uploadStep secureFilename policy files k passes).2 = .moving u name →
        ¬ ((files name).isSome ∧ policy.allowsOverwrite = false)) := by
  have hexisting : existingUploadResponse policy ≠ .stored := by
    unfold existingUploadResponse
    split <;> simp
  cases k with
  | moving u name => exact .inl ⟨u, name, rfl, rfl⟩
  | checking u =>
    refine .inr ⟨fun _ _ h => (nomatch h), ?_⟩
    simp only [uploadStep]
    split
    · exact ⟨rfl, fun _ _ h => (nomatch h), fun _ _ h => (nomatch h)⟩
    · split
      · exact ⟨rfl, fun _ _ h => (nomatch h), fun _ _ h => (nomatch h)⟩
      · split
        · refine ⟨rfl, fun _ _ h => ?_, fun _ _ h => (nomatch h)⟩
          rw [Call.answered.injEq] at h
          exact absurd h.2.2 hexisting
        · exact ⟨rfl, fun _ _ h => (nomatch h), fun _ _ h => (nomatch h)⟩
  | validating u name =>
    refine .inr ⟨fun _ _ h => (nomatch h), rfl, ?_⟩
    cases passes <;> exact ⟨fun _ _ h => (nomatch h), fun _ _ h => (nomatch h)⟩
  | streaming u name =>
    refine .inr ⟨fun _ _ h => (nomatch h), rfl, ?_⟩
    cases passes <;> exact ⟨fun _ _ h => (nomatch h), fun _ _ h => (nomatch h)⟩
  | rechecking u name =>
    refine .inr ⟨fun _ _ h => (nomatch h), ?_⟩
    simp only [uploadStep]
    split
    · refine ⟨rfl, fun _ _ h => ?_, fun _ _ h => (nomatch h)⟩
      rw [Call.answered.injEq] at h
      exact absurd h.2.2 hexisting
    · rename_i hfree
      refine ⟨rfl, fun _ _ h => (nomatch h), fun _ _ h => ?_⟩
      cases h
      exact hfree
  | answered u name answer => exact .inr ⟨fun _ _ h => (nomatch h), rfl, fun _ _ h => h, fun _ _ h => (nomatch h)⟩

/-- What an upload about to be renamed finds under its name was stored meanwhile: its second check found
nothing there. -/
theorem storedMeanwhile_next (hpolicy : policy ≠ .overwrite) {s : Scene Files Call} (hs : StoredMeanwhile s)
    (m : Move Upload Bool Empty) : StoredMeanwhile ((uploads secureFilename policy files).next s m) := by
  have hforbids : policy.allowsOverwrite = false := by
    cases policy <;> first | rfl | exact absurd rfl hpolicy
  cases m with
  | begin u =>
    intro i v name hi hfile
    rcases getElem?_append_cases hi with ⟨-, h⟩ | hi
    · cases h
    · obtain ⟨j, w, hj⟩ := hs i v name hi hfile
      exact ⟨j, w, (List.getElem?_append_left (List.getElem?_eq_some_iff.1 hj).1).trans hj⟩
  | step i passes =>
    cases hi : s.calls[i]? with
    | none => rw [Program.next_none _ hi]; exact hs
    | some k =>
      rw [Program.next_step _ hi]
      show StoredMeanwhile ⟨(uploadStep secureFilename policy s.shared k passes).1,
        s.calls.set i (uploadStep secureFilename policy s.shared k passes).2⟩
      have hlt := (List.getElem?_eq_some_iff.1 hi).1
      intro j v name hj hfile
      rcases @uploadStep_cases secureFilename policy s.shared k passes with
        ⟨u, name', rfl, hstep⟩ | ⟨-, hfiles, hanswer, hmoves⟩
      · rw [hstep] at hj hfile ⊢
        rcases getElem?_set_cases hj with ⟨-, h⟩ | ⟨hne, hj⟩
        · cases h
        · by_cases hname : name = name'
          · subst hname
            exact ⟨i, u, List.getElem?_set_self hlt⟩
          · simp only [if_neg hname] at hfile
            obtain ⟨l, w, hl⟩ := hs j v name hj hfile
            refine ⟨l, w, ?_⟩
            have hil : i ≠ l := by
              rintro rfl
              rw [hi] at hl
              cases hl
            rw [List.getElem?_set_ne hil, hl]
      · rw [hfiles] at hfile ⊢
        rcases getElem?_set_cases hj with ⟨-, h⟩ | ⟨hne, hj⟩
        · -- the second check of this call would have found the file
          refine absurd ⟨?_, hforbids⟩ (hmoves v name h.symm)
          exact Option.isSome_iff_ne_none.2 hfile
        · obtain ⟨l, w, hl⟩ := hs j v name hj hfile
          by_cases hil : l = i
          · subst hil
            rw [hi] at hl
            cases hl
            exact ⟨l, w, by rw [List.getElem?_set_self hlt]; rfl⟩
          · exact ⟨l, w, by rw [List.getElem?_set_ne (Ne.symm hil), hl]⟩
  | other e => cases e

/-- A step of an immutable directory keeps it so exactly when it renames onto nothing. -/
theorem immutable_next {s : Scene Files Call} (himm : Immutable s) (hmean : StoredMeanwhile s)
    (m : Move Upload Bool Empty) :
    Immutable ((uploads secureFilename policy files).next s m) ↔ RenamesOntoNothing s m := by
  cases m with
  | begin u =>
    refine iff_of_true ?_ trivial
    have hback : ∀ {i : ℕ} {v : Upload} {name : String},
        (s.calls ++ [Call.checking u])[i]? = some (Call.answered v name .stored) →
          s.calls[i]? = some (Call.answered v name .stored) := by
      intro i v name hi
      rcases getElem?_append_cases hi with ⟨-, h⟩ | hi
      · cases h
      · exact hi
    exact ⟨fun i v name hi => himm.kept i v name (hback hi),
      fun i j v w name hi hj => himm.once i j v w name (hback hi) (hback hj)⟩
  | step i passes =>
    cases hi : s.calls[i]? with
    | none =>
      rw [Program.next_none _ hi]
      exact iff_of_true himm fun u name h => by rw [hi] at h; cases h
    | some k =>
      rw [Program.next_step _ hi]
      show Immutable ⟨(uploadStep secureFilename policy s.shared k passes).1,
        s.calls.set i (uploadStep secureFilename policy s.shared k passes).2⟩ ↔ _
      have hlt := (List.getElem?_eq_some_iff.1 hi).1
      rcases @uploadStep_cases secureFilename policy s.shared k passes with
        ⟨u, name, rfl, hstep⟩ | ⟨hmoves, hfiles, hanswer, -⟩
      · rw [hstep]
        constructor
        · -- whoever stored the file meanwhile is answered as stored too
          intro h v name' hv
          rw [hi] at hv
          cases hv
          by_contra hfile
          obtain ⟨j, w, hj⟩ := hmean i u name hi hfile
          have hij : i ≠ j := by
            rintro rfl
            rw [hi] at hj
            cases hj
          refine hij (h.once i j u w name (List.getElem?_set_self hlt) ?_)
          exact (List.getElem?_set_ne hij).trans hj
        · intro h
          have hnone := h u name hi
          have hfresh : ∀ {j : ℕ} {v : Upload}, s.calls[j]? ≠ some (Call.answered v name .stored) := by
            intro j v hj
            have := himm.kept j v name hj
            rw [hnone] at this
            cases this
          refine ⟨fun j v name' hj => ?_, fun j l v w name' hj hl => ?_⟩
          · rcases getElem?_set_cases hj with ⟨-, heq⟩ | ⟨-, hj'⟩
            · cases heq
              exact if_pos rfl
            · have hne : name' ≠ name := by
                rintro rfl
                exact hfresh hj'
              exact (if_neg hne).trans (himm.kept j v name' hj')
          · rcases getElem?_set_cases hj with ⟨rfl, heq⟩ | ⟨-, hj'⟩ <;>
              rcases getElem?_set_cases hl with ⟨rfl, heq'⟩ | ⟨-, hl'⟩
            · rfl
            · cases heq
              exact absurd hl' hfresh
            · cases heq'
              exact absurd hj' hfresh
            · exact himm.once j l v w name' hj' hl'
      · rw [hfiles]
        refine iff_of_true ?_ fun u name h => ?_
        · have hback : ∀ {j : ℕ} {v : Upload} {name : String},
              (s.calls.set i (uploadStep secureFilename policy s.shared k passes).2)[j]? =
                some (Call.answered v name .stored) → s.calls[j]? = some (Call.answered v name .stored) := by
            intro j v name hj
            rcases getElem?_set_cases hj with ⟨rfl, h⟩ | ⟨-, hj⟩
            · rw [hi, hanswer v name h.symm]
            · exact hj
          exact ⟨fun j v name hj => himm.kept j v name (hback hj),
            fun j l v w name hj hl => himm.once j l v w name (hback hj) (hback hl)⟩
        · rw [hi] at h
          cases h
          exact absurd rfl (hmoves u name)
  | other e => cases e

/-- Published files are immutable in a run exactly as long as no upload is renamed onto a file. -/
theorem immutable_iff_renamesOntoNothing (secureFilename : String → String) (policy : DuplicatePolicy)
    (hpolicy : policy ≠ .overwrite) (files : Files) (ms : List (Move Upload Bool Empty)) :
    (uploads secureFilename policy files).machine.AllStates (fun _ => Immutable) ms ↔
      (uploads secureFilename policy files).machine.AllSteps (fun _ => RenamesOntoNothing) ms := by
  have hmean : ∀ ms, StoredMeanwhile ((uploads secureFilename policy files).machine.state ms) :=
    Machine.invariant (P := fun _ => StoredMeanwhile) (fun i u name hi => by simp at hi)
      fun _ s m hs => storedMeanwhile_next hpolicy hs m
  refine Machine.allStates_iff_allSteps ⟨fun i u name hi => by simp at hi, fun i j u v name hi => by simp at hi⟩
    (fun ms m hs => ?_) ms
  exact immutable_next hs (hmean ms) m

/-! ## Two uploads of one name -/

/-- Two uploads of one file name, and a directory without it. -/
def twiceAtOnce : List (Move Upload Bool Empty) :=
  let stepped (i : ℕ) : List (Move Upload Bool Empty) := List.replicate 4 (.step i true)
  [.step 1 true, .step 0 true] ++ stepped 1 ++ stepped 0 ++
    [.begin ⟨"a-1.0.tar.gz", [2]⟩, .begin ⟨"a-1.0.tar.gz", [1]⟩]

/-- One upload is stored before the other one's second check. -/
def oneAfterTheOther : List (Move Upload Bool Empty) :=
  let stepped (i : ℕ) : List (Move Upload Bool Empty) := List.replicate 4 (.step i true)
  stepped 1 ++ [.step 0 true] ++ stepped 0 ++ [.begin ⟨"a-1.0.tar.gz", [2]⟩, .begin ⟨"a-1.0.tar.gz", [1]⟩]

theorem immutable_iff_renamesOntoNothing_oneAfterTheOther : DuplicatePolicy.conflict ≠ .overwrite ∧
    ((uploads id .conflict fun _ => none).machine.AllStates (fun _ => Immutable) oneAfterTheOther ↔
      (uploads id .conflict fun _ => none).machine.AllSteps (fun _ => RenamesOntoNothing) oneAfterTheOther) :=
  ⟨by decide, immutable_iff_renamesOntoNothing id .conflict (by decide) _ _⟩

/-- Both uploads pass their second check before either is renamed, and both are answered as stored. -/
theorem twiceAtOnce_not_immutable :
    ¬ (uploads id .conflict fun _ => none).machine.AllStates (fun _ => Immutable) twiceAtOnce := by
  intro h
  have hfirst : ((uploads id .conflict fun _ => none).machine.state twiceAtOnce).calls[0]? =
      some (.answered ⟨"a-1.0.tar.gz", [1]⟩ "a-1.0.tar.gz" .stored) := by decide
  have hsecond : ((uploads id .conflict fun _ => none).machine.state twiceAtOnce).calls[1]? =
      some (.answered ⟨"a-1.0.tar.gz", [2]⟩ "a-1.0.tar.gz" .stored) := by decide
  exact absurd (h.now.once 0 1 _ _ _ hfirst hsecond) (by decide)

end OpenFish.Packages
