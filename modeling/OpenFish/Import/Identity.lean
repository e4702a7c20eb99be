/-
The identity of an imported repository is its namespace path alone: the host is no part of it, and in
the name of the mirror a slash and two underscores look the same. Two sources are kept apart exactly
when their paths differ however `__` is read.
-/
import OpenFish.Import.Jobs

namespace OpenFish.Import

open Lib

variable (py : Urllib)

/-! ## What the claim is about -/

/-- Where a URL says its repository is: the host, and the port as it is written. -/
def authority (sourceUrl : String) : String × Option String :=
  let raw := rawSource sourceUrl
  if scpLike raw then (py.lower (splitScp raw).1, none)
  else
    match urlparseBy py raw with
    | .ok parsed => (py.lower ((parsed.hostnameBy py).getD ""), parsed.port)
    | .error _ => ("", none)

/-- Two URLs name the repository of one path on one host. -/
def SameRepository (u v : String) (s t : RepoSource) : Prop :=
  authority py u = authority py v ∧ s.slug = t.slug

abbrev Event := CreateArgs × Except String ImportJob

/-- Calls for different repositories attach their jobs to different rows, under different names of the
mirror. -/
def Apart (e e' : Event) : Prop :=
  ∀ s job s' job', parseSourceBy py e.1.sourceUrl = .ok s → e.2 = .ok job →
    parseSourceBy py e'.1.sourceUrl = .ok s' → e'.2 = .ok job' → ¬ SameRepository py e.1.sourceUrl e'.1.sourceUrl s s' →
    job.repoId ≠ job'.repoId ∧ forgejoName s ≠ forgejoName s'

/-- One character before a text in which every `__` before a letter or a digit reads as a slash. -/
def readStep (c : Char) (l : List Char) : List Char :=
  match l with
  | d :: a :: rest => if c = '_' ∧ d = '_' ∧ a.isAlphanum then '/' :: a :: rest else c :: l
  | _ => c :: l

/-- A namespace path in which every `__` before a letter or a digit reads as a slash. -/
def readJoined (path : String) : List Char := path.toList.foldr readStep []

/-- The slug of the row a call is sent to: the row its caller names, if there is one, or the row of the
namespace path. -/
def sentTo (q : Repos) (a : CreateArgs) (source : RepoSource) : String :=
  match (a.repoId.filter (· ≠ 0)).bind q.get? with
  | some repo => repo.slug
  | none => source.slug

/-- A call for another repository than an earlier one is sent to another slug than the row of the earlier
one has, and its path reads otherwise. -/
def ReadsApart (h : List Event) (q : Repos) (a : CreateArgs) : Prop :=
  ∀ s skipTo, a.checked py = .ok (s, skipTo) →
    ∀ e ∈ h, ∀ s' job', parseSourceBy py e.1.sourceUrl = .ok s' → e.2 = .ok job' →
      ¬ SameRepository py a.sourceUrl e.1.sourceUrl s s' →
      (q.get? job'.repoId).map (·.slug) ≠ some (sentTo q a s) ∧ readJoined s.slug ≠ readJoined s'.slug

variable {py}

/-! ## Joined names -/

/-- A path with two underscores for every slash. -/
def join (l : List Char) : List Char := l.flatMap fun c => if c = '/' then ['_', '_'] else [c]

/-- Every slash stands before a letter or a digit. -/
def SlashesLead : List Char → Prop
  | [] => True
  | c :: l => (c = '/' → l.head?.any Char.isAlphanum = true) ∧ SlashesLead l

theorem slash_not_alphanum {c : Char} (h : c.isAlphanum = true) : c ≠ '/' ∧ c ≠ '_' := by
  constructor <;> rintro rfl <;> exact absurd h (by decide)

theorem readStep_cons {c d a : Char} {rest : List Char} :
    readStep c (d :: a :: rest) =
      if c = '_' ∧ d = '_' ∧ a.isAlphanum then '/' :: a :: rest else c :: d :: a :: rest := rfl

theorem readStep_of_ne {c : Char} (hc : c ≠ '_') (l : List Char) : readStep c l = c :: l := by
  unfold readStep
  split
  · rw [if_neg fun h => hc h.1]
  · rfl

/-- A joined name reads as its path. -/
theorem read_join {l : List Char} (h : SlashesLead l) : (join l).foldr readStep [] = l.foldr readStep [] := by
  induction l with
  | nil => rfl
  | cons c l ih =>
    have hl := ih h.2
    by_cases hc : c = '/'
    · -- the separator stands before a letter or a digit, so it reads as a slash again
      obtain ⟨a, rest, rfl, ha⟩ : ∃ a rest, l = a :: rest ∧ a.isAlphanum = true := by
        cases l with
        | nil => exact absurd (h.1 hc) (by simp)
        | cons a rest => exact ⟨a, rest, rfl, by simpa using h.1 hc⟩
      obtain ⟨has, hau⟩ := slash_not_alphanum ha
      have hread : ∀ m : List Char, (a :: m).foldr readStep [] = a :: m.foldr readStep [] := fun m =>
        readStep_of_ne hau _
      have hjoin : join (a :: rest) = a :: join rest := by simp [join, has]
      rw [hjoin, hread, hread] at hl
      have hcons : join (c :: a :: rest) = '_' :: '_' :: a :: join rest := by simp [join, hc, has]
      have hone : readStep '_' (a :: rest.foldr readStep []) = '_' :: a :: rest.foldr readStep [] := by
        cases rest.foldr readStep [] with
        | nil => rfl
        | cons b t => rw [readStep_cons, if_neg fun h => hau h.2.1]
      have hslash : readStep c (a :: rest.foldr readStep []) = '/' :: a :: rest.foldr readStep [] := by
        rw [hc]; exact readStep_of_ne (by decide) _
      rw [hcons, List.foldr_cons, List.foldr_cons, hread, hl, List.foldr_cons, hread, hslash, hone, readStep_cons,
        if_pos ⟨rfl, rfl, ha⟩]
    · have hcons : join (c :: l) = c :: join l := by simp [join, hc]
      rw [hcons, List.foldr_cons, List.foldr_cons, hl]

/-- Reading a name keeps what it joins to. -/
theorem join_read (l : List Char) : join (l.foldr readStep []) = join l := by
  induction l with
  | nil => rfl
  | cons c l ih =>
    have hcons : ∀ m : List Char, join (c :: m) = (if c = '/' then ['_', '_'] else [c]) ++ join m := fun m => rfl
    rw [List.foldr_cons, hcons l, ← ih]
    generalize l.foldr readStep [] = r
    unfold readStep
    split
    · rename_i d a rest
      split
      · rename_i h
        obtain ⟨rfl, rfl, -⟩ := h
        simp [join]
      · exact hcons _
    · exact hcons r

/-- Two names whose slashes lead are joined alike exactly if they read alike. -/
theorem join_inj_iff {l l' : List Char} (h : SlashesLead l) (h' : SlashesLead l') :
    join l = join l' ↔ l.foldr readStep [] = l'.foldr readStep [] := by
  constructor
  · intro heq
    rw [← read_join h, ← read_join h', heq]
  · intro heq
    rw [← join_read l, ← join_read l', heq]

theorem slashesLead_append {l m : List Char} (hl : '/' ∉ l) (hm : SlashesLead m) : SlashesLead (l ++ m) := by
  induction l with
  | nil => exact hm
  | cons c l ih =>
    exact ⟨fun hc => absurd (hc ▸ List.mem_cons_self ..) hl, ih fun h => hl (List.mem_cons_of_mem _ h)⟩

theorem slashesLead_intercalate {parts : List (List Char)}
    (h : ∀ p ∈ parts, p.head?.any Char.isAlphanum = true ∧ '/' ∉ p) : SlashesLead (List.intercalate ['/'] parts) := by
  induction parts with
  | nil => trivial
  | cons p rest ih =>
    have hp := h p (List.mem_cons_self ..)
    have hrest := ih fun q hq => h q (List.mem_cons_of_mem _ hq)
    cases rest with
    | nil =>
      rw [List.intercalate_singleton, ← List.append_nil p]
      exact slashesLead_append hp.2 trivial
    | cons q rest =>
      rw [List.intercalate_cons_cons, List.append_assoc]
      refine slashesLead_append hp.2 ⟨fun _ => ?_, hrest⟩
      have hq := (h q (List.mem_cons_of_mem _ (List.mem_cons_self ..))).1
      cases q with
      | nil => simp at hq
      | cons a q => cases rest <;> simpa using hq

/-! ## Accepted paths -/

theorem segmentMatches_elim {s : String} (h : segmentMatches s = true) :
    s.toList.head?.any Char.isAlphanum = true ∧ '/' ∉ s.toList := by
  unfold segmentMatches at h
  dsimp only at h
  rw [Bool.and_eq_true, List.all_eq_true] at h
  obtain ⟨hhead, hall⟩ := h
  have hslash : ∀ l : List Char, (∀ c ∈ l, (c.isAlphanum || decide (c ∈ ['.', '_', '-'])) = true) → '/' ∉ l :=
    fun l hl hmem => absurd (hl '/' hmem) (by decide)
  by_cases hn : s.toList.getLast? = some '\n'
  · rw [if_pos hn] at hhead hall
    obtain ⟨body, hbody⟩ := List.getLast?_eq_some_iff.1 hn
    rw [hbody, List.dropLast_concat] at hhead hall
    rw [hbody]
    refine ⟨?_, fun hmem => ?_⟩
    · cases body with
      | nil => simp at hhead
      | cons a body => simpa using hhead
    · rcases List.mem_append.1 hmem with hmem | hmem
      · exact hslash body hall hmem
      · exact absurd hmem (by decide)
  · rw [if_neg hn] at hhead hall
    exact ⟨hhead, hslash _ hall⟩

theorem splitNamespace_ok {path namespacePath owner name : String}
    (h : splitNamespace path = .ok (namespacePath, owner, name)) :
    namespacePath ≠ "" ∧ SlashesLead namespacePath.toList := by
  unfold splitNamespace at h
  dsimp only at h
  split at h
  · cases h
  · split at h
    · rename_i hall
      cases h
      generalize hparts : (Text.split '/' path |>.filter (· ≠ "")).dropLast ++ _ = parts at hall ⊢
      have hseg : ∀ p ∈ parts.map String.toList, p.head?.any Char.isAlphanum = true ∧ '/' ∉ p := by
        intro p hp
        obtain ⟨s, hs, rfl⟩ := List.mem_map.1 hp
        exact segmentMatches_elim (List.all_eq_true.1 hall s hs)
      have hlead : SlashesLead (String.intercalate "/" parts).toList := by
        rw [String.toList_intercalate]
        exact slashesLead_intercalate hseg
      refine ⟨fun hempty => ?_, hlead⟩
      have hne : parts ≠ [] := by rw [← hparts]; simp
      obtain ⟨p, rest, rfl⟩ := List.exists_cons_of_ne_nil hne
      have hp := (hseg p.toList (by simp)).1
      have hlen := congrArg (·.toList) hempty
      simp only [String.toList_intercalate, List.map_cons] at hlen
      cases hpl : p.toList with
      | nil => rw [hpl] at hp; simp at hp
      | cons a t =>
        rw [hpl] at hlen
        cases rest <;> simp [List.intercalate_cons_cons] at hlen
    · cases h

theorem parseSource_ok {u : String} {s : RepoSource} (h : parseSourceBy py u = .ok s) :
    ∃ path owner name, splitNamespace path = .ok (s.path, owner, name) := by
  have hsource : ∀ {scheme host path : String}, repoSource scheme host path = .ok s →
      ∃ path owner name, splitNamespace path = .ok (s.path, owner, name) := by
    intro scheme host path hs
    unfold repoSource at hs
    cases hn : splitNamespace path with
    | error e => rw [hn] at hs; cases hs
    | ok t =>
      rw [hn] at hs
      cases hs
      exact ⟨path, _, _, hn⟩
  unfold parseSourceBy at h
  dsimp only at h
  split at h
  · cases h
  · split at h
    · exact hsource h
    · cases hp : urlparseBy py (rawSource u) with
      | error e => rw [hp] at h; cases h
      | ok parsed =>
        rw [hp] at h
        replace h : (if parsed.scheme ∉ ["http", "https", "git", "ssh"] then _ else _) = Except.ok s := h
        split at h
        · cases h
        · split at h
          · cases h
          · exact hsource h

/-- The slug of an accepted source is its path, whose slashes lead. -/
theorem slug_ok {u : String} {s : RepoSource} (h : parseSourceBy py u = .ok s) : SlashesLead s.slug.toList := by
  obtain ⟨path, owner, name, hn⟩ := parseSource_ok h
  obtain ⟨hne, hlead⟩ := splitNamespace_ok hn
  rw [RepoSource.slug, if_neg hne]; exact hlead

theorem forgejoName_eq_iff {u v : String} {s t : RepoSource} (hs : parseSourceBy py u = .ok s)
    (ht : parseSourceBy py v = .ok t) : forgejoName s = forgejoName t ↔ readJoined s.slug = readJoined t.slug := by
  rw [forgejoName, forgejoName, String.ofList_inj]
  exact join_inj_iff (slug_ok hs) (slug_ok ht)

/-! ## One call -/

theorem checked_source {a : CreateArgs} {s : RepoSource} {skipTo : Option Phase} (h : a.checked py = .ok (s, skipTo)) :
    parseSourceBy py a.sourceUrl = .ok s := by
  unfold CreateArgs.checked at h
  cases hp : parseSourceBy py a.sourceUrl with
  | error e => rw [hp] at h; cases h
  | ok source =>
    rw [hp] at h
    replace h : (if a.mode ∉ ["code", "code+issues", "issues"] then _ else _) = Except.ok (s, skipTo) := h
    split at h
    · cases h
    · split at h
      · cases h; rfl
      · split at h
        · cases h; rfl
        · cases h

/-- The row a call is attached to has the slug it is sent to, and the other rows keep theirs. -/
theorem attach_spec (a : CreateArgs) (s : RepoSource) (q : Repos) :
    (((attach a.repoId s.slug a.now q).2.get? (attach a.repoId s.slug a.now q).1.id).map (·.slug) =
        some (sentTo q a s)) ∧
      ∀ i r, q.get? i = some r → (attach a.repoId s.slug a.now q).2.get? i = some r := by
  unfold attach
  split
  · rename_i repo hf
    refine ⟨?_, fun i r hr => hr⟩
    unfold findRepo at hf
    unfold sentTo
    cases hn : (a.repoId.filter (· ≠ 0)).bind q.get? with
    | some named =>
      rw [hn] at hf; cases hf
      obtain ⟨k, -, hk⟩ := Option.bind_eq_some_iff.1 hn
      obtain ⟨hmem, hid⟩ := Repos.get?_eq_some.1 hk
      rw [Repos.get?_eq_some.2 ⟨hmem, rfl⟩, Option.map_some]
    | none =>
      rw [hn] at hf
      obtain ⟨hmem, hslug⟩ := Repos.bySlug_eq_some.1 hf
      rw [Repos.get?_eq_some.2 ⟨hmem, rfl⟩, Option.map_some, hslug]
  · rename_i hf
    have hnone : (a.repoId.filter (· ≠ 0)).bind q.get? = none := by
      unfold findRepo at hf
      split at hf
      · cases hf
      · rename_i hn; exact hn
    refine ⟨?_, fun i r hr => ?_⟩
    · dsimp only
      rw [Repos.get?_add, if_pos (by rfl), Option.map_some, sentTo, hnone]; rfl
    · dsimp only
      rw [Repos.get?_add, if_neg, hr]
      rintro rfl
      rw [Repos.get?, Table.get?_next] at hr; cases hr

/-- What a call does: it is refused and changes nothing, or its job is attached to a row of the slug it
is sent to, and every row that was there keeps its slug. -/
theorem createJob_cases (py : Urllib) (a : CreateArgs) (q : Repos) :
    (∃ e, a.checked py = .error e ∧ createJob py a q = (.error e, q)) ∨
      ∃ s skipTo job, a.checked py = .ok (s, skipTo) ∧ (createJob py a q).1 = .ok job ∧
        ((createJob py a q).2.get? job.repoId).map (·.slug) = some (sentTo q a s) ∧
        ∀ i r, q.get? i = some r → ((createJob py a q).2.get? i).map (·.slug) = some r.slug := by
  unfold createJob
  cases hc : a.checked py with
  | error e => exact .inl ⟨e, rfl, rfl⟩
  | ok p =>
    obtain ⟨s, skipTo⟩ := p
    obtain ⟨hslug, hkeep⟩ := attach_spec a s q
    refine .inr ⟨s, skipTo, _, rfl, rfl, ?_, fun i r hr => ?_⟩
    · dsimp only
      rw [Repos.slug_assign]; exact hslug
    · dsimp only
      rw [Repos.slug_assign, hkeep i r hr]; rfl

/-- Every job of a history has its row. -/
def Rowed (h : List Event) (q : Repos) : Prop := ∀ e ∈ h, ∀ job, e.2 = .ok job → ∃ r, q.get? job.repoId = some r

theorem rowed_step (py : Urllib) (h : List Event) (q : Repos) (a : CreateArgs) (hi : Rowed h q) :
    Rowed ((a, (createJob py a q).1) :: h) (createJob py a q).2 := by
  intro e he job hjob
  rcases createJob_cases py a q with ⟨err, -, heq⟩ | ⟨s, skipTo, job', -, hans, hrow, hkeep⟩
  · rw [heq] at he ⊢
    rcases List.mem_cons.1 he with rfl | he
    · cases hjob
    · exact hi e he job hjob
  · rcases List.mem_cons.1 he with rfl | he
    · rw [hans] at hjob; cases hjob
      obtain ⟨r, hr, -⟩ := Option.map_eq_some_iff.1 hrow
      exact ⟨r, hr⟩
    · obtain ⟨r, hr⟩ := hi e he job hjob
      obtain ⟨r', hr', -⟩ := Option.map_eq_some_iff.1 (hkeep _ r hr)
      exact ⟨r', hr'⟩

theorem rowed (py : Urllib) (repos : Repos) (cs : List CreateArgs) :
    Rowed ((importJobs py repos).log cs) ((importJobs py repos).state cs) :=
  Machine.invariant (M := importJobs py repos) (fun e he => by cases he) (rowed_step py) cs

/-- From a history of sources kept apart, a call leads to another exactly when it reads apart from all
earlier ones. -/
theorem apart_step {h : List Event} {q : Repos} {a : CreateArgs} (hi : Rowed h q) (hap : h.Pairwise (Apart py)) :
    ((a, (createJob py a q).1) :: h).Pairwise (Apart py) ↔ ReadsApart py h q a := by
  rw [List.pairwise_cons, and_iff_left hap]
  rcases createJob_cases py a q with ⟨err, hc, heq⟩ | ⟨s, skipTo, job, hc, hans, hrow, hkeep⟩
  · refine iff_of_true (fun e _ => ?_) fun s skipTo hs => by rw [hc] at hs; cases hs
    intro s job s' job' _ hjob
    rw [heq] at hjob; cases hjob
  · have hs := checked_source hc
    obtain ⟨mine, hmine, hslug⟩ := Option.map_eq_some_iff.1 hrow
    -- the row of an earlier job is another one exactly if its slug is another one
    have hids : ∀ e ∈ h, ∀ job', e.2 = .ok job' →
        (job.repoId ≠ job'.repoId ↔ (q.get? job'.repoId).map (·.slug) ≠ some (sentTo q a s)) := by
      intro e he job' hjob'
      obtain ⟨r, hr⟩ := hi e he job' hjob'
      obtain ⟨r', hr', hslug'⟩ := Option.map_eq_some_iff.1 (hkeep _ r hr)
      rw [not_iff_not, hr, Option.map_some, Option.some.injEq]
      constructor
      · intro hid
        rw [hid, hr'] at hmine; cases hmine
        exact hslug'.symm.trans hslug
      · intro heq
        exact Repos.eq_of_slug hmine hr' (by rw [hslug, hslug', heq])
    constructor
    · intro hall s₀ skip₀ hc₀ e he s' job' hs' hjob' hne
      rw [hc] at hc₀; cases hc₀
      have hae := hall e he s job s' job'
      dsimp only at hae
      obtain ⟨hrowne, hname⟩ := hae hs hans hs' hjob' hne
      exact ⟨(hids e he job' hjob').1 hrowne, fun heq => hname ((forgejoName_eq_iff hs hs').2 heq)⟩
    · intro hok e he s₀ job₀ s' job' hs₀ hans₀ hs' hjob' hne
      dsimp only at hs₀ hans₀ hne
      rw [hs] at hs₀; cases hs₀
      rw [hans] at hans₀; cases hans₀
      obtain ⟨hslugne, hread⟩ := hok s skipTo hc e he s' job' hs' hjob' hne
      exact ⟨(hids e he job' hjob').2 hslugne, fun heq => hread ((forgejoName_eq_iff hs hs').1 heq)⟩

/-! ## Every run -/

/-- Two different sources are two different repositories: throughout a run of any calls, on any version of Python
and any table of repositories, different sources are attached to different rows and named differently, if and
only if each call reads apart from all earlier ones of other sources. -/
theorem apart_iff_readsApart (py : Urllib) (repos : Repos) (cs : List CreateArgs) :
    (importJobs py repos).AllStates (fun h _ => h.Pairwise (Apart py)) cs ↔
      (importJobs py repos).AllSteps (ReadsApart py) cs :=
  Machine.allStates_iff_allSteps List.Pairwise.nil (fun cs _ hap => apart_step (rowed py repos cs) hap) cs

/-- A call that leaves its row to its path is attached to the row of the path. -/
theorem createJob_of_default {a : CreateArgs} {q : Repos} {s : RepoSource} (hs : parseSourceBy py a.sourceUrl = .ok s)
    (hm : a.mode = "code+issues") (hr : a.repoId = none) (hk : a.skipTo = none) :
    a.checked py = .ok (s, none) ∧ sentTo q a s = s.slug ∧
      ∃ job, (createJob py a q).1 = .ok job ∧ ((createJob py a q).2.get? job.repoId).map (·.slug) = some s.slug := by
  have hchecked : a.checked py = .ok (s, none) := by
    simp [CreateArgs.checked, hs, hm, hk, bind, Except.bind, pure, Except.pure]
  have hsent : sentTo q a s = s.slug := by rw [sentTo, hr]; rfl
  refine ⟨hchecked, hsent, ?_⟩
  rcases createJob_cases py a q with ⟨e, hc, -⟩ | ⟨s', skipTo, job, hc, hans, hrow, -⟩
  · rw [hchecked] at hc; cases hc
  · rw [hchecked] at hc; cases hc
    exact ⟨job, hans, by rw [hrow, hsent]⟩

/-- Two calls that leave their rows to paths that read alike are not kept apart. -/
theorem not_apart_of_read {a b : CreateArgs} {repos : Repos} {s t : RepoSource}
    (hs : parseSourceBy py b.sourceUrl = .ok s) (ht : parseSourceBy py a.sourceUrl = .ok t)
    (hb : b.mode = "code+issues" ∧ b.repoId = none ∧ b.skipTo = none)
    (ha : a.mode = "code+issues" ∧ a.repoId = none ∧ a.skipTo = none)
    (hne : ¬ SameRepository py b.sourceUrl a.sourceUrl s t) (hread : readJoined s.slug = readJoined t.slug) :
    ¬ (importJobs py repos).AllStates (fun h _ => h.Pairwise (Apart py)) [b, a] := by
  intro h
  obtain ⟨-, -, job, hjob, -⟩ := createJob_of_default (q := repos) ht ha.1 ha.2.1 ha.2.2
  obtain ⟨hc, -, -⟩ := createJob_of_default (q := (createJob py a repos).2) hs hb.1 hb.2.1 hb.2.2
  have hpair : [(b, (createJob py b (createJob py a repos).2).1), (a, (createJob py a repos).1)].Pairwise (Apart py) := h.now
  have hrowed : Rowed [(a, (createJob py a repos).1)] (createJob py a repos).2 := rowed py repos [a]
  have hok := (apart_step hrowed (List.pairwise_singleton _ _)).1 hpair
  have hread' := hok s none hc (a, (createJob py a repos).1) (List.mem_singleton_self _) t job
  dsimp only at hread'
  exact (hread' ht hjob hne).2 hread

def noRepos : Repos := ⟨Table.empty, List.nodup_nil⟩

/-- One path on two hosts. -/
def twoHosts : List CreateArgs :=
  [{ sourceUrl := "https://y.io/o/n", now := 1 }, { sourceUrl := "https://x.io/o/n", now := 0 }]

/-- Two paths that differ above the last segment and are joined alike. -/
def twoGroups : List CreateArgs :=
  [{ sourceUrl := "https://x.io/a/b__c/n", now := 1 }, { sourceUrl := "https://x.io/a__b/c/n", now := 0 }]

/-- The sources of `twoHosts` share a row, and those of `twoGroups` a name. -/
theorem twoHosts_twoGroups_not_apart :
    ¬ (importJobs .ascii noRepos).AllStates (fun h _ => h.Pairwise (Apart .ascii)) twoHosts ∧
      ¬ (importJobs .ascii noRepos).AllStates (fun h _ => h.Pairwise (Apart .ascii)) twoGroups := by
  have hx : parseSourceBy .ascii "https://x.io/o/n" = .ok ⟨"x.io", "o", "n", "https://x.io/o/n.git", "o/n", .git⟩ := by
    decide +kernel
  have hy : parseSourceBy .ascii "https://y.io/o/n" = .ok ⟨"y.io", "o", "n", "https://y.io/o/n.git", "o/n", .git⟩ := by
    decide +kernel
  have hupper : parseSourceBy .ascii "https://x.io/a__b/c/n" =
      .ok ⟨"x.io", "c", "n", "https://x.io/a__b/c/n.git", "a__b/c/n", .git⟩ := by decide +kernel
  have hlower : parseSourceBy .ascii "https://x.io/a/b__c/n" =
      .ok ⟨"x.io", "b__c", "n", "https://x.io/a/b__c/n.git", "a/b__c/n", .git⟩ := by decide +kernel
  have hhosts : authority .ascii "https://y.io/o/n" ≠ authority .ascii "https://x.io/o/n" := by decide +kernel
  constructor
  · exact not_apart_of_read hy hx ⟨rfl, rfl, rfl⟩ ⟨rfl, rfl, rfl⟩ (fun h => hhosts h.1) rfl
  · refine not_apart_of_read hlower hupper ⟨rfl, rfl, rfl⟩ ⟨rfl, rfl, rfl⟩ (fun h => ?_) (by decide +kernel)
    exact absurd h.2 (by decide +kernel)

end OpenFish.Import
