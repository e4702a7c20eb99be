/-
`ingest` as an account of what was reported: under every digest the findings of a repository hold what the entries
with that digest add up to, one row made by the first of them and a count of them all.
-/
import OpenFish.Findings.Activation
import OpenFish.Findings.Ledger
import Mathlib.Data.List.ReduceOption
import Mathlib.Data.List.Forall2

namespace OpenFish.Findings

open Lib

/-! ## Identities -/

/-- What tells findings apart: the first three fields trimmed, the context key as given. -/
structure Identity where
  ruleId : String
  filePath : String
  symbol : String
  contextKey : String
  deriving DecidableEq, Repr

def Entry.identity (e : Entry) : Identity :=
  ⟨Text.strip (text e.ruleId ""), Text.strip (text e.filePath ""), Text.strip (text e.symbol ""), text e.contextKey ""⟩

/-- The string that is hashed. -/
def Identity.canonical (i : Identity) : String := fingerprintInput i.ruleId i.filePath i.symbol i.contextKey

def Entry.digest (sha256 : String → String) (e : Entry) : String := sha256 e.identity.canonical

/-- The separator stands in none of the fields it follows. -/
structure Identity.Separable (i : Identity) : Prop where
  ruleId : '\x00' ∉ i.ruleId.toList
  filePath : '\x00' ∉ i.filePath.toList
  symbol : '\x00' ∉ i.symbol.toList

theorem toList_canonical (i : Identity) : i.canonical.toList =
    i.ruleId.toList ++ '\x00' :: (i.filePath.toList ++ '\x00' :: (i.symbol.toList ++ '\x00' :: i.contextKey.toList)) := by
  rw [Identity.canonical, fingerprintInput, String.toList_intercalate]
  simp [List.intercalate_cons_cons]

theorem append_separator_inj {c : Char} {l l' rest rest' : List Char} (h : c ∉ l) (h' : c ∉ l')
    (heq : l ++ c :: rest = l' ++ c :: rest') : l = l' ∧ rest = rest' := by
  have hsplit : Text.splitFirst [c] (l ++ c :: rest) = some (l, rest) := Text.splitFirst_singleton h
  rw [heq, Text.splitFirst_singleton h'] at hsplit
  cases hsplit
  exact ⟨rfl, rfl⟩

/-- Without the separator in the fields the canonical string is the identity. -/
theorem canonical_inj {i j : Identity} (hi : i.Separable) (hj : j.Separable) : i.canonical = j.canonical ↔ i = j := by
  constructor
  · intro h
    have hlist := congrArg String.toList h
    rw [toList_canonical, toList_canonical] at hlist
    obtain ⟨hrule, hlist⟩ := append_separator_inj hi.ruleId hj.ruleId hlist
    obtain ⟨hfile, hlist⟩ := append_separator_inj hi.filePath hj.filePath hlist
    obtain ⟨hsymbol, hcontext⟩ := append_separator_inj hi.symbol hj.symbol hlist
    cases i
    cases j
    simp only [String.toList_inj] at hrule hfile hsymbol hcontext
    rw [hrule, hfile, hsymbol, hcontext]
  · rintro rfl
    rfl

/-! ## The account -/

/-- What is accounted of a finding. -/
structure Account where
  ruleId : String
  filePath : String
  symbol : String
  seenCount : Nat
  deriving DecidableEq, Repr

def Finding.account (f : Finding) : Account := ⟨f.ruleId, f.filePath, f.symbol, f.seenCount⟩

/-- The findings of a repository with a digest. -/
def under (repo : Nat) (digest : String) (st : Store) : List Finding :=
  st.findings.rows.filter fun f => f.repoId == repo && f.fingerprint == digest

/-- What some entries of one digest add up to: the row of the first, seen as often as there are entries. -/
def addUp : List Entry → List Account
  | [] => []
  | e :: es => [⟨e.identity.ruleId, e.identity.filePath, e.identity.symbol, es.length + 1⟩]

/-- Under every digest a repository has what the entries carried into it add up to. -/
def Accounted (sha256 : String → String) (repo : Nat) (carried : List Entry) (st : Store) : Prop :=
  ∀ digest, (under repo digest st).map Finding.account = addUp (carried.filter fun e => e.digest sha256 == digest)

theorem addUp_append (es : List Entry) (e : Entry) :
    addUp (es ++ [e]) = match addUp es with
      | [] => addUp [e]
      | a :: _ => [{ a with seenCount := a.seenCount + 1 }] := by
  cases es with
  | nil => rfl
  | cons first rest => simp [addUp]

theorem mem_under {repo : Nat} {digest : String} {st : Store} {f : Finding} :
    f ∈ under repo digest st ↔ f ∈ st.findings.rows ∧ f.repoId = repo ∧ f.fingerprint = digest := by
  simp [under]

theorem head?_under (repo : Nat) (digest : String) (st : Store) :
    (under repo digest st).head? = st.byFingerprint repo digest :=
  List.head?_filter ..

/-- Assignments that leave the account of every finding alone. -/
theorem under_assign (st : Store) (id : Nat) {f : Finding → Finding} (hf : ∀ r, key (f r) = key r) (repo : Nat)
    (digest : String) (hs : ∀ r, SameFinding r (f r)) :
    under repo digest (st.assign id f hf) =
      (under repo digest st).map fun r => if r.id == id then f r else r := by
  show (st.findings.rows.map _).filter _ = _
  rw [List.filter_map]
  congr 1
  refine List.filter_congr fun r _ => ?_
  dsimp only [Function.comp]
  split
  · rw [(hs r).repoId, (hs r).fingerprint]
  · rfl

theorem account_assign {st : Store} {id : Nat} {f : Finding → Finding} (hf : ∀ r, key (f r) = key r) (repo : Nat)
    (digest : String) (hs : ∀ r, SameFinding r (f r)) (ha : ∀ r, (f r).account = r.account) :
    (under repo digest (st.assign id f hf)).map Finding.account = (under repo digest st).map Finding.account := by
  rw [under_assign _ _ hf repo digest hs, List.map_map]
  refine List.map_congr_left fun r _ => ?_
  dsimp only [Function.comp]
  split
  · exact ha r
  · rfl

/-- Events and links are no part of the account. -/
theorem under_of_findings {st st' : Store} (h : st'.findings = st.findings) (repo : Nat) (digest : String) :
    under repo digest st' = under repo digest st := by
  rw [under, h, under]

theorem under_addFinding (st : Store) {mk : Nat → Finding} (hmk : ∀ k, key (mk k) = k) (repo : Nat) (digest : String) :
    under repo digest (st.addFinding mk hmk) = under repo digest st ++
      if (mk st.findings.next).repoId = repo ∧ (mk st.findings.next).fingerprint = digest then
        [mk st.findings.next] else [] := by
  have hsingle : [mk st.findings.next].filter (fun f => f.repoId == repo && f.fingerprint == digest) =
      if (mk st.findings.next).repoId = repo ∧ (mk st.findings.next).fingerprint = digest then
        [mk st.findings.next] else [] := by
    simp [List.filter_singleton]
  rw [← hsingle]
  exact List.filter_append ..

/-! ## One entry -/

/-- What an entry does to the account of a repository: under its own digest a new row, or one more observation. -/
def addEntry (e : Entry) : List Account → List Account
  | [] => addUp [e]
  | a :: _ => [{ a with seenCount := a.seenCount + 1 }]

/-- The effect of one entry: in its repository its digest has it added, and nothing else is accounted differently. -/
structure Adds (sha256 : String → String) (repo : Nat) (e : Entry) (st st' : Store) : Prop where
  own : (under repo (e.digest sha256) st').map Finding.account =
    addEntry e ((under repo (e.digest sha256) st).map Finding.account)
  others : ∀ repo' digest, ¬ (repo' = repo ∧ digest = e.digest sha256) →
    (under repo' digest st').map Finding.account = (under repo' digest st).map Finding.account

theorem sameFinding_setReopened (r : Finding) : SameFinding r (setReopened r) := ⟨rfl, rfl, rfl, rfl, rfl⟩

theorem sameFinding_setOpen (r : Finding) : SameFinding r (setOpen r) := ⟨rfl, rfl, rfl, rfl, rfl⟩

/-- Whatever becomes of its status, a finding that is matched is accounted one observation more. -/
theorem account_matchEntry {a : IngestArgs} {entry : Entry} {existing : Finding} {t t' : Tally} {st st' : Store}
    (h : matchEntry a entry existing t st = (.ok t', st')) (repo : Nat) (digest : String) :
    (under repo digest st').map Finding.account = (under repo digest st).map fun r =>
      if r.id == existing.id then { r.account with seenCount := r.seenCount + 1 } else r.account := by
  have hseen : (under repo digest (st.assign existing.id (setObserved a.runId entry) fun _ => rfl)).map
      Finding.account = (under repo digest st).map fun r =>
        if r.id == existing.id then { r.account with seenCount := r.seenCount + 1 } else r.account := by
    have hassign := under_assign st existing.id (f := setObserved a.runId entry)
      (fun _ => rfl) repo digest fun r => (noted_setObserved a.runId entry r).toSameFinding
    refine (congrArg (List.map Finding.account) hassign).trans ?_
    rw [List.map_map]
    refine List.map_congr_left fun r _ => ?_
    dsimp only [Function.comp]
    split <;> rfl
  unfold matchEntry at h
  dsimp only at h
  cases hs : existing.status with
  | «open» | fixed => rw [hs] at h; cases h; exact hseen
  | stale =>
    rw [hs] at h
    cases h
    exact (account_assign (f := setOpen) (fun _ => rfl) repo digest sameFinding_setOpen fun _ => rfl).trans hseen
  | acknowledged | wontfix =>
    rw [hs] at h
    dsimp only at h
    split at h
    · cases h
    · cases h; exact hseen
    · cases h
      exact (account_assign (f := setReopened) (fun _ => rfl) repo digest sameFinding_setReopened fun _ => rfl).trans hseen

theorem ingestEntry_adds {sha256 : String → String} {a : IngestArgs} {repo : Nat} {e : Entry} {t t' : Tally}
    {st st' : Store} (h : ingestEntry sha256 a repo e t st = (.ok t', st'))
    (hone : (under repo (e.digest sha256) st).length ≤ 1) : Adds sha256 repo e st st' := by
  unfold ingestEntry at h
  dsimp only at h
  split at h
  · cases h
  · have hhead := head?_under repo (e.digest sha256) st
    split at h
    · rename_i hnone
      have hnil : under repo (e.digest sha256) st = [] := List.head?_eq_none_iff.1 (hhead.trans hnone)
      split at h
      · cases h
      · rename_i level _
        cases h
        have hnew := under_addFinding st (fun _ => rfl : ∀ k, key (newFinding repo (e.digest sha256)
          e.identity.ruleId e.identity.filePath e.identity.symbol level a.runId e k) = k)
        refine ⟨?_, fun repo' digest hne => ?_⟩
        · refine (congrArg (List.map Finding.account) (hnew repo (e.digest sha256))).trans ?_
          rw [hnil, if_pos ⟨rfl, rfl⟩]
          rfl
        · refine (congrArg (List.map Finding.account) (hnew repo' digest)).trans ?_
          rw [if_neg fun hat => hne ⟨hat.1.symm, hat.2.symm⟩, List.append_nil]
    · rename_i existing hsome
      have hsome : st.byFingerprint repo (e.digest sha256) = some existing := hsome
      have hmatched := account_matchEntry h
      have hexisting := mem_under.1 (List.mem_of_head? (hhead.trans hsome))
      -- no other finding has the digest
      have honly : under repo (e.digest sha256) st = [existing] := by
        cases hl : under repo (e.digest sha256) st with
        | nil =>
          rw [hl, hsome] at hhead
          cases hhead
        | cons f rest =>
          rw [hl] at hone
          rw [hl, hsome] at hhead
          cases hhead
          rw [List.length_eq_zero_iff.1 (Nat.le_zero.1 (Nat.le_of_succ_le_succ hone))]
      refine ⟨?_, fun repo' digest hne => ?_⟩
      · rw [hmatched, honly, List.map_singleton, if_pos (beq_self_eq_true _)]
        rfl
      · rw [hmatched]
        refine List.map_congr_left fun r hr => if_neg fun hid => hne ?_
        have hr := mem_under.1 hr
        have : r = existing := Table.eq_of_key hr.1 hexisting.1 (by simpa using hid)
        rw [← hr.2.1, ← hr.2.2, this]
        exact hexisting.2

theorem length_addUp_le (es : List Entry) : (addUp es).length ≤ 1 := by
  cases es <;> simp [addUp]

theorem Accounted.length_under {sha256 : String → String} {repo : Nat} {carried : List Entry} {st : Store}
    (h : Accounted sha256 repo carried st) (digest : String) : (under repo digest st).length ≤ 1 := by
  rw [← List.length_map Finding.account, h digest]
  exact length_addUp_le _

/-- What has been carried into each repository, after some more entries into one of them. -/
def carryInto (carried : Nat → List Entry) (repo : Nat) (entries : List Entry) (r : Nat) : List Entry :=
  if r = repo then carried r ++ entries else carried r

theorem carryInto_append (carried : Nat → List Entry) (repo : Nat) (es es' : List Entry) :
    carryInto (carryInto carried repo es) repo es' = carryInto carried repo (es ++ es') := by
  funext r
  unfold carryInto
  by_cases hr : r = repo
  · rw [if_pos hr, if_pos hr, if_pos hr, List.append_assoc]
  · rw [if_neg hr, if_neg hr, if_neg hr]

theorem Accounted.adds {sha256 : String → String} {repo : Nat} {e : Entry} {carried : Nat → List Entry}
    {st st' : Store} (h : ∀ r, Accounted sha256 r (carried r) st) (hadds : Adds sha256 repo e st st') (r : Nat) :
    Accounted sha256 r (carryInto carried repo [e] r) st' := by
  intro digest
  unfold carryInto
  by_cases hr : r = repo
  · subst hr
    rw [if_pos rfl, List.filter_append]
    by_cases hdigest : digest = e.digest sha256
    · subst hdigest
      rw [hadds.own, h r]
      have hself : [e].filter (fun e' => e'.digest sha256 == e.digest sha256) = [e] := by simp
      rw [hself, addUp_append]
      rfl
    · have hnone : [e].filter (fun e' => e'.digest sha256 == digest) = [] := by
        simpa using fun heq => hdigest heq.symm
      rw [hnone, List.append_nil, hadds.others r digest fun hat => hdigest hat.2]
      exact h r digest
  · rw [if_neg hr, hadds.others r digest fun hat => hr hat.1]
    exact h r digest

/-! ## What stays of a finding -/

/-- Every finding of the first state is one of the second, with its identity and its level. -/
def Keeps (st st' : Store) : Prop := ∀ f ∈ st.findings.rows, ∃ f' ∈ st'.findings.rows, SameFinding f f'

theorem SameFinding.refl (f : Finding) : SameFinding f f := ⟨rfl, rfl, rfl, rfl, rfl⟩

theorem SameFinding.trans {f g k : Finding} (h : SameFinding f g) (h' : SameFinding g k) : SameFinding f k :=
  ⟨h'.id.trans h.id, h'.repoId.trans h.repoId, h'.fingerprint.trans h.fingerprint, h'.ruleId.trans h.ruleId,
    h'.level.trans h.level⟩

theorem Keeps.refl (st : Store) : Keeps st st := fun f hf => ⟨f, hf, .refl f⟩

theorem Keeps.trans {st st' st'' : Store} (h : Keeps st st') (h' : Keeps st' st'') : Keeps st st'' := by
  intro f hf
  obtain ⟨g, hg, hfg⟩ := h f hf
  obtain ⟨k, hk, hgk⟩ := h' g hg
  exact ⟨k, hk, hfg.trans hgk⟩

theorem Change.keeps {st st' : Store} (hc : Change st st') : Keeps st st' := by
  intro f hf
  cases hc with
  | noted id g hg hn =>
    refine ⟨if f.id == id then g f else f, mem_assign.2 ⟨f, hf, rfl⟩, ?_⟩
    split
    · exact (hn f).toSameFinding
    · exact .refl f
  | opened mk hmk t => exact ⟨f, (mem_addFinding hmk).2 (.inl hf), .refl f⟩
  | moved r g hg t hr hm =>
    have hrow : (if f.id == r.id then g f else f) ∈ (st.assign r.id g hg).findings.rows := mem_assign.2 ⟨f, hf, rfl⟩
    refine ⟨_, hrow, ?_⟩
    split
    · rename_i hid
      have : f = r := Table.eq_of_key hf (finding?_mem hr).1 (by simpa using hid)
      subst this
      exact hm.toSameFinding
    · exact .refl f
  | aside => exact ⟨f, hf, .refl f⟩

theorem Evolves.keeps {st st' : Store} (h : Evolves st st') : Keeps st st' := by
  induction h with
  | refl => exact .refl st
  | tail _ hc ih => exact ih.trans hc.keeps

theorem Evolves.repos {st st' : Store} (h : Evolves st st') : st'.repos = st.repos := by
  induction h with
  | refl => rfl
  | tail _ hc ih => cases hc <;> exact ih

/-! ## A batch -/

/-- The id is that of the finding of an entry. -/
def Names (sha256 : String → String) (repo : Nat) (st : Store) (e : Entry) (id : Nat) : Prop :=
  ∃ f ∈ under repo (e.digest sha256) st, f.id = id

theorem Names.keeps {sha256 : String → String} {repo : Nat} {st st' : Store} {e : Entry} {id : Nat}
    (h : Names sha256 repo st e id) (hk : Keeps st st') : Names sha256 repo st' e id := by
  obtain ⟨f, hf, rfl⟩ := h
  have hf := mem_under.1 hf
  obtain ⟨f', hf', hsame⟩ := hk f hf.1
  exact ⟨f', mem_under.2 ⟨hf', hsame.repoId.trans hf.2.1, hsame.fingerprint.trans hf.2.2⟩, hsame.id⟩

/-- What the tally says of some more entries. -/
structure Tallies (sha256 : String → String) (repo : Nat) (st : Store) (entries : List Entry) (t t' : Tally) : Prop where
  counts : t'.created + t'.matched = t.created + t.matched + entries.length
  ids : ∃ ids, t'.seenIds = t.seenIds ++ ids ∧ List.Forall₂ (Names sha256 repo st) entries ids

theorem matchEntry_tallies {sha256 : String → String} {a : IngestArgs} {repo : Nat} {e : Entry} {existing : Finding}
    {t t' : Tally} {st st' : Store} (hx : existing ∈ under repo (e.digest sha256) st)
    (h : matchEntry a e existing t st = (.ok t', st')) : Tallies sha256 repo st' [e] t t' := by
  have hkeeps : Keeps st st' := by
    have hev := matchEntry_evolves a e t (mem_under.1 hx).1
    rw [h] at hev
    exact hev.keeps
  have hnames : List.Forall₂ (Names sha256 repo st') [e] [existing.id] :=
    .cons (Names.keeps ⟨existing, hx, rfl⟩ hkeeps) .nil
  unfold matchEntry at h
  dsimp only at h
  cases hs : existing.status with
  | «open» | fixed | stale => rw [hs] at h; cases h; exact ⟨by simp; omega, [existing.id], rfl, hnames⟩
  | acknowledged | wontfix =>
    rw [hs] at h
    dsimp only at h
    split at h
    · cases h
    · cases h; exact ⟨by simp; omega, [existing.id], rfl, hnames⟩
    · cases h; exact ⟨by simp; omega, [existing.id], rfl, hnames⟩

theorem ingestEntry_tallies {sha256 : String → String} {a : IngestArgs} {repo : Nat} {e : Entry} {t t' : Tally}
    {st st' : Store} (h : ingestEntry sha256 a repo e t st = (.ok t', st')) : Tallies sha256 repo st' [e] t t' := by
  unfold ingestEntry at h
  dsimp only at h
  split at h
  · cases h
  · split at h
    · split at h
      · cases h
      · rename_i level _
        cases h
        refine ⟨by simp; omega, [st.findings.next], rfl, .cons ⟨?_, mem_under.2 ⟨?_, ?_, ?_⟩, ?_⟩ .nil⟩
        · exact newFinding repo (e.digest sha256) e.identity.ruleId e.identity.filePath e.identity.symbol level a.runId
            e st.findings.next
        · exact (mem_addFinding fun _ => rfl).2 (.inr rfl)
        · rfl
        · rfl
        · rfl
    · rename_i existing hsome
      refine matchEntry_tallies (List.mem_of_head? ?_) h
      exact (head?_under repo (e.digest sha256) st).trans hsome

theorem ingestEntries_tallies {sha256 : String → String} {a : IngestArgs} {repo : Nat} (entries : List Entry)
    {t t' : Tally} {st st' : Store} (h : ingestEntries sha256 a repo entries t st = (.ok t', st')) :
    Tallies sha256 repo st' entries t t' := by
  induction entries generalizing t st with
  | nil => cases h; exact ⟨rfl, [], (List.append_nil _).symm, .nil⟩
  | cons e entries ih =>
    unfold ingestEntries at h
    split at h
    · cases h
    · rename_i t₁ st₁ he
      have hrest := ih h
      have hfirst := ingestEntry_tallies he
      obtain ⟨ids, hids, hnames⟩ := hrest.ids
      obtain ⟨ids₁, hids₁, hnames₁⟩ := hfirst.ids
      have hkeeps : Keeps st₁ st' := by
        have hev := ingestEntries_evolves sha256 a repo entries t₁ st₁
        rw [h] at hev
        exact hev.keeps
      refine ⟨?_, ids₁ ++ ids, by rw [hids, hids₁, List.append_assoc], ?_⟩
      · rw [hrest.counts, hfirst.counts, List.length_singleton, List.length_cons]
        omega
      · exact List.rel_append (hnames₁.imp fun _ _ hn => hn.keeps hkeeps) hnames

theorem ingestEntries_accounted {sha256 : String → String} {a : IngestArgs} {repo : Nat} (entries : List Entry)
    {carried : Nat → List Entry} {t t' : Tally} {st st' : Store}
    (h : ingestEntries sha256 a repo entries t st = (.ok t', st')) (hacc : ∀ r, Accounted sha256 r (carried r) st)
    (r : Nat) : Accounted sha256 r (carryInto carried repo entries r) st' := by
  induction entries generalizing t st carried with
  | nil =>
    cases h
    unfold carryInto
    rw [List.append_nil, ite_self]
    exact hacc r
  | cons e entries ih =>
    unfold ingestEntries at h
    split at h
    · cases h
    · rename_i t₁ st₁ he
      have hadds := ingestEntry_adds he ((hacc repo).length_under _)
      have hrest := ih h (Accounted.adds hacc hadds)
      rw [carryInto_append, List.singleton_append] at hrest
      exact hrest

theorem applyEscalation_account (a : IngestArgs) (repo : Nat) (exclude : List Nat) (st : Store) (r : Nat)
    (digest : String) : (under r digest (applyEscalation a repo exclude st).2).map Finding.account =
      (under r digest st).map Finding.account := by
  unfold applyEscalation
  split
  · rfl
  · dsimp only
    generalize overThreshold _ _ _ = rows
    generalize a.clock exclude.length = now
    induction rows generalizing st with
    | nil => rfl
    | cons row rows ih =>
      refine (ih (escalate a.runId now st row)).trans ?_
      exact account_assign (f := setReopened) (fun _ => rfl) r digest sameFinding_setReopened fun _ => rfl

/-- A batch that returns answers for every entry, in their order. -/
structure BatchAnswer (sha256 : String → String) (repo : Nat) (entries : List Entry) (t : Tally) (st : Store) :
    Prop where
  counts : t.created + t.matched = entries.length
  findingIds : List.Forall₂ (Names sha256 repo st) entries t.seenIds

/-- What a batch does that returns. -/
theorem ingest_returns {sha256 : String → String} {a : IngestArgs} {findings : List (Option Entry)} {repo : Nat}
    {st : Store} {t : Tally} (hrepo : resolveRepoId st.repos a.repo = .ok repo)
    (h : (ingest sha256 a findings st).1 = .ok t) :
    BatchAnswer sha256 repo findings.reduceOption t (ingest sha256 a findings st).2 ∧
      ∀ carried, (∀ r, Accounted sha256 r (carried r) st) →
        ∀ r, Accounted sha256 r (carryInto carried repo findings.reduceOption r) (ingest sha256 a findings st).2 := by
  unfold ingest at h ⊢
  rw [hrepo] at h ⊢
  dsimp only at h ⊢
  split at h
  · cases h
  · rename_i hrun
    rw [if_neg hrun]
    cases hentries : ingestEntries sha256 a repo findings.reduceOption {} st with
    | mk result st' =>
      rw [hentries] at h
      cases result with
      | error e => cases h
      | ok t' =>
        dsimp only at h ⊢
        cases h
        have htallies := ingestEntries_tallies _ hentries
        obtain ⟨ids, hids, hnames⟩ := htallies.ids
        have hkeeps := (applyEscalation_evolves a repo t'.seenIds st').keeps
        refine ⟨⟨?_, ?_⟩, fun carried hacc r digest => ?_⟩
        · simpa using htallies.counts
        · have hseen : List.Forall₂ (Names sha256 repo st') findings.reduceOption t'.seenIds := by
            rw [hids]
            exact hnames
          exact hseen.imp fun _ _ hn => hn.keeps fun f hf => hkeeps f hf
        · refine (applyEscalation_account a repo t'.seenIds st' r digest).trans ?_
          exact ingestEntries_accounted _ hentries hacc r digest

/-! ## Every run -/

/-- A call of `ingest` or of `decide`. -/
inductive Request
  | ingest (args : IngestArgs) (findings : List (Option Entry))
  | decide (args : DecideArgs)

def Request.op : Request → Op
  | .ingest a findings => .ingest a findings
  | .decide a => .decide a

/-- Nothing was raised. -/
def Answer.returned : Answer → Bool
  | .ingested result => result.isOk
  | .decided result => result.isOk
  | .watched result => result.isOk

/-- A call as its callers make it: they commit when it returns, and close the session when it raises. -/
def serve (sha256 : String → String) (st : Store) (r : Request) : Answer × Store :=
  step sha256 st ⟨r.op, (perform sha256 st r.op).1.returned⟩

/-- Empty findings over some runs and repositories, then any such calls. -/
def requests (sha256 : String → String) (runs : Table ReviewRun) (repos : List Repo) :
    Machine Store Request Answer :=
  ⟨(findings sha256 runs repos).start, serve sha256⟩

/-- The entries a call carried into a repository. -/
def entriesInto (repos : List Repo) (repo : Nat) : Request × Answer → List Entry
  | (.ingest a findings, .ingested (.ok _)) =>
    if (resolveRepoId repos a.repo).toOption = some repo then findings.reduceOption else []
  | _ => []

/-- The entries carried into a repository by the calls of a log, the oldest first. -/
def carried (repos : List Repo) (repo : Nat) (log : List (Request × Answer)) : List Entry :=
  (log.reverse.map (entriesInto repos repo)).flatten

theorem serve_evolves (sha256 : String → String) (st : Store) (r : Request) : Evolves st (serve sha256 st r).2 :=
  step_evolves sha256 st _

theorem decide_account (a : DecideArgs) (st : Store) (repo : Nat) (digest : String) :
    (under repo digest (Findings.decide a st).2).map Finding.account = (under repo digest st).map Finding.account := by
  unfold Findings.decide
  split
  · rfl
  · split
    · rfl
    · rename_i to_ reason _
      refine account_assign (f := setDecided a to_) (setDecided_id a to_) repo digest (sameFinding_setDecided a to_) fun r => ?_
      unfold setDecided; dsimp only; split <;> rfl

theorem carried_cons (repos : List Repo) (repo : Nat) (call : Request × Answer) (log : List (Request × Answer)) :
    carried repos repo (call :: log) = carried repos repo log ++ entriesInto repos repo call := by
  simp [carried]

/-- A batch that returned is committed. -/
theorem serve_ingest_ok {sha256 : String → String} {a : IngestArgs} {findings : List (Option Entry)} {st : Store}
    {t : Tally} (h : (ingest sha256 a findings st).1 = .ok t) :
    serve sha256 st (.ingest a findings) = (.ingested (.ok t), (ingest sha256 a findings st).2) := by
  have hperform : perform sha256 st (.ingest a findings) = (.ingested (.ok t), (ingest sha256 a findings st).2) :=
    Prod.ext (congrArg Answer.ingested h) rfl
  unfold serve step Request.op
  dsimp only
  rw [hperform]
  rfl

/-- A batch that raised is not. -/
theorem serve_ingest_error {sha256 : String → String} {a : IngestArgs} {findings : List (Option Entry)} {st : Store}
    {e : FindingsError} (h : (ingest sha256 a findings st).1 = .error e) :
    serve sha256 st (.ingest a findings) = (.ingested (.error e), st) := by
  have hperform : perform sha256 st (.ingest a findings) = (.ingested (.error e), (ingest sha256 a findings st).2) :=
    Prod.ext (congrArg Answer.ingested h) rfl
  unfold serve step Request.op
  dsimp only
  rw [hperform]
  rfl

theorem serve_decide_account (sha256 : String → String) (a : DecideArgs) (st : Store) (repo : Nat) (digest : String) :
    (under repo digest (serve sha256 st (.decide a)).2).map Finding.account =
      (under repo digest st).map Finding.account := by
  show (under repo digest (if _ then (Findings.decide a st).2 else st)).map Finding.account = _
  split
  · exact decide_account a st repo digest
  · rfl

theorem serve_accounted {sha256 : String → String} {repos : List Repo} {log : List (Request × Answer)} {st : Store}
    (hrepos : st.repos = repos) (h : ∀ repo, Accounted sha256 repo (carried repos repo log) st) (r : Request)
    (repo : Nat) : Accounted sha256 repo (carried repos repo ((r, (serve sha256 st r).1) :: log))
      (serve sha256 st r).2 := by
  rw [carried_cons]
  cases r with
  | decide a =>
    have hnone : entriesInto repos repo (.decide a, (serve sha256 st (.decide a)).1) = [] := rfl
    rw [hnone, List.append_nil]
    exact fun digest => (serve_decide_account sha256 a st repo digest).trans (h repo digest)
  | ingest a findings =>
    cases hresult : (ingest sha256 a findings st).1 with
    | error e =>
      rw [serve_ingest_error hresult]
      show Accounted sha256 repo (_ ++ []) st
      rw [List.append_nil]
      exact h repo
    | ok t =>
      rw [serve_ingest_ok hresult]
      obtain ⟨into, hinto⟩ : ∃ into, resolveRepoId st.repos a.repo = .ok into := by
        cases hr : resolveRepoId st.repos a.repo with
        | ok into => exact ⟨into, rfl⟩
        | error e =>
          unfold ingest at hresult
          rw [hr] at hresult
          cases hresult
      have hacc := (ingest_returns hinto hresult).2 _ h repo
      have hcarry : carried repos repo log ++ entriesInto repos repo (.ingest a findings, .ingested (.ok t)) =
          carryInto (fun r => carried repos r log) into findings.reduceOption repo := by
        unfold entriesInto carryInto
        dsimp only
        have hsome : (Except.ok into : Except FindingsError Nat).toOption = some into := rfl
        rw [← hrepos, hinto, hsome]
        by_cases hrepo : repo = into
        · subst hrepo
          rw [if_pos rfl, if_pos rfl]
        · rw [if_neg fun heq => hrepo (Option.some.inj heq).symm, if_neg hrepo, List.append_nil]
      rw [hcarry]
      exact hacc

theorem requests_accounted (sha256 : String → String) (runs : Table ReviewRun) (repos : List Repo)
    (rs : List Request) (repo : Nat) :
    Accounted sha256 repo (carried repos repo ((requests sha256 runs repos).log rs))
      ((requests sha256 runs repos).state rs) := by
  have h := Machine.invariant (M := requests sha256 runs repos)
    (P := fun log st => st.repos = repos ∧ ∀ repo, Accounted sha256 repo (carried repos repo log) st)
    ⟨rfl, fun _ _ => rfl⟩ (fun log st r hP => ?_) rs
  · exact h.2 repo
  · exact ⟨(serve_evolves sha256 st r).repos.trans hP.1, serve_accounted hP.1 hP.2 r⟩

theorem requests_keeps (sha256 : String → String) (runs : Table ReviewRun) (repos : List Repo) (later rs : List Request) :
    Keeps ((requests sha256 runs repos).state rs) ((requests sha256 runs repos).state (later ++ rs)) := by
  induction later with
  | nil => exact .refl _
  | cons r later ih => exact ih.trans (serve_evolves sha256 _ r).keeps

/-- The findings of a repository as an account of the entries carried into it: each of them has one row, seen as often
as there are entries of its canonical string, and every row is that of such an entry. -/
structure ExactAccount (sha256 : String → String) (repo : Nat) (carried : List Entry) (st : Store) : Prop where
  one : ∀ e ∈ carried, ∃ f, under repo (e.digest sha256) st = [f] ∧
    f.seenCount = carried.countP fun e' => e'.identity.canonical == e.identity.canonical
  reported : ∀ f ∈ st.findings.rows, f.repoId = repo → ∃ e ∈ carried, f.fingerprint = e.digest sha256 ∧
    f.ruleId = e.identity.ruleId ∧ f.filePath = e.identity.filePath ∧ f.symbol = e.identity.symbol

theorem Accounted.exact {sha256 : String → String} (hinj : Function.Injective sha256) {repo : Nat}
    {carried : List Entry} {st : Store} (h : Accounted sha256 repo carried st) : ExactAccount sha256 repo carried st := by
  refine ⟨fun e he => ?_, fun f hf hrepo => ?_⟩
  · have hat := h (e.digest sha256)
    cases hes : carried.filter fun e' => e'.digest sha256 == e.digest sha256 with
    | nil => exact absurd (beq_self_eq_true _) (List.filter_eq_nil_iff.1 hes e he)
    | cons first rest =>
      rw [hes] at hat
      obtain ⟨f, hf, haccount⟩ := List.map_eq_singleton_iff.1 hat
      refine ⟨f, hf, ?_⟩
      have hcount : f.seenCount = (first :: rest).length := congrArg Account.seenCount haccount
      rw [hcount, ← hes, ← List.countP_eq_length_filter]
      refine List.countP_congr fun e' _ => ?_
      simp only [beq_iff_eq, Entry.digest, hinj.eq_iff]
  · have hat := h f.fingerprint
    have hmem : f.account ∈ addUp (carried.filter fun e => e.digest sha256 == f.fingerprint) :=
      hat ▸ List.mem_map_of_mem (mem_under.2 ⟨hf, hrepo, rfl⟩)
    cases hes : carried.filter fun e => e.digest sha256 == f.fingerprint with
    | nil => rw [hes] at hmem; cases hmem
    | cons first rest =>
      rw [hes] at hmem
      have haccount := List.mem_singleton.1 hmem
      have hfirst := List.mem_filter.1 (hes ▸ List.mem_cons_self .. : first ∈ carried.filter _)
      exact ⟨first, hfirst.1, (by simpa using hfirst.2 : first.digest sha256 = f.fingerprint).symm,
        congrArg Account.ruleId haccount, congrArg Account.filePath haccount, congrArg Account.symbol haccount⟩

/-- An entry `ingest` does not refuse. -/
def Entry.Valid (e : Entry) : Prop :=
  e.identity.ruleId ≠ "" ∧ e.identity.filePath ≠ "" ∧ e.identity.symbol ≠ "" ∧ (normalizeLevel e.level).isOk = true

/-- The probe answers whatever it is asked. -/
def ProbeAnswers (a : IngestArgs) : Prop :=
  ∀ adapter, a.driftAdapter = some adapter → ∀ path symbol base head, (adapter path symbol base head).isOk = true

theorem driftReason_returns {f : Finding} {ctx : ReactivationContext}
    (h : ∀ adapter, ctx.driftAdapter = some adapter → ∀ path symbol base head,
      (adapter path symbol base head).isOk = true) : (driftReason f ctx).isOk = true := by
  unfold driftReason
  cases truthy ctx.stopReason with
  | true => rfl
  | false =>
    cases hd : ctx.drift with
    | some drift => rcases drift with ⟨_ | anchor, changed, detail⟩ <;> rfl
    | none =>
      cases ha : ctx.driftAdapter with
      | none => rfl
      | some adapter =>
        cases ctx.base with
        | none => rfl
        | some base =>
          cases ctx.head with
          | none => rfl
          | some head =>
            by_cases hempty : base = "" ∨ head = ""
            · simp only [if_pos hempty]
              rfl
            · simp only [if_neg hempty]
              have hok := h adapter ha f.filePath f.symbol base head
              cases hanswer : adapter f.filePath f.symbol base head with
              | error e => rw [hanswer] at hok; cases hok
              | ok drift => rcases drift with ⟨_ | anchor, changed, detail⟩ <;> rfl

theorem shouldReactivate_returns (f : Finding) (ctx : ReactivationContext) (now : Time)
    (hs : severityRaised ctx.previousSeverity ctx.currentSeverity = false)
    (h : ∀ adapter, ctx.driftAdapter = some adapter → ∀ path symbol base head,
      (adapter path symbol base head).isOk = true) : (shouldReactivate f ctx now).isOk = true := by
  cases hc : countExceeds ctx with
  | true => rw [shouldReactivate_counted hc]; rfl
  | false =>
    rw [shouldReactivate_uncounted hs hc]
    have hok := driftReason_returns (f := f) h
    cases hd : driftReason f ctx with
    | error e => rw [hd] at hok; cases hok
    | ok drift => rfl

theorem ingestEntry_returns (sha256 : String → String) {a : IngestArgs} (ha : ProbeAnswers a) (repo : Nat) {e : Entry}
    (he : e.Valid) (t : Tally) (st : Store) : (ingestEntry sha256 a repo e t st).1.isOk = true := by
  obtain ⟨hrule, hfile, hsymbol, hlevel⟩ := he
  unfold ingestEntry
  dsimp only
  rw [if_neg (by rintro (h | h | h); exacts [hrule h, hfile h, hsymbol h])]
  split
  · cases hl : normalizeLevel e.level with
    | error _ => rw [hl] at hlevel; cases hlevel
    | ok level => rfl
  · rename_i existing _
    unfold matchEntry
    dsimp only
    cases existing.status with
    | «open» | fixed | stale => rfl
    | acknowledged | wontfix =>
      dsimp only
      generalize hctx : reactivationContext a existing _ = ctx
      have hok := shouldReactivate_returns existing ctx (a.clock t.seenIds.length)
        (hctx ▸ rfl) (hctx ▸ ha)
      cases hr : shouldReactivate existing ctx (a.clock t.seenIds.length) with
      | error _ => rw [hr] at hok; cases hok
      | ok reason => cases reason <;> rfl

theorem ingestEntries_returns (sha256 : String → String) {a : IngestArgs} (ha : ProbeAnswers a) (repo : Nat)
    {entries : List Entry} (he : ∀ e ∈ entries, e.Valid) (t : Tally) (st : Store) :
    (ingestEntries sha256 a repo entries t st).1.isOk = true := by
  induction entries generalizing t st with
  | nil => rfl
  | cons e entries ih =>
    have hok := ingestEntry_returns sha256 ha repo (he e (List.mem_cons_self ..)) t st
    unfold ingestEntries
    cases hr : ingestEntry sha256 a repo e t st with
    | mk result st' =>
      rw [hr] at hok
      cases result with
      | error _ => cases hok
      | ok t' => exact ih (fun e' he' => he e' (List.mem_cons_of_mem _ he')) t' st'

/-- A batch of valid entries for a repository and a run there are returns. -/
theorem ingest_valid_returns (sha256 : String → String) {a : IngestArgs} {findings : List (Option Entry)} {st : Store}
    (ha : ProbeAnswers a) (hrepo : (resolveRepoId st.repos a.repo).isOk = true)
    (hrun : ∀ id, a.runId = some id → (st.runs.get? id).isSome = true) (he : ∀ e ∈ findings.reduceOption, e.Valid) :
    (ingest sha256 a findings st).1.isOk = true := by
  unfold ingest
  cases hr : resolveRepoId st.repos a.repo with
  | error _ => rw [hr] at hrepo; cases hrepo
  | ok repo =>
    dsimp only
    have hsome : ¬ (a.runId.isSome = true ∧ (a.runId.bind st.runs.get?).isNone = true) := by
      rintro ⟨hid, hnone⟩
      obtain ⟨id, hid⟩ := Option.isSome_iff_exists.1 hid
      have hfound := hrun id hid
      rw [hid, Option.bind_some] at hnone
      rw [Option.isNone_iff_eq_none.1 hnone] at hfound
      cases hfound
    rw [if_neg hsome]
    have hok := ingestEntries_returns sha256 ha repo he {} st
    cases hentries : ingestEntries sha256 a repo findings.reduceOption {} st with
    | mk result st' =>
      rw [hentries] at hok
      cases result with
      | error _ => cases hok
      | ok t => rfl

/-- Ingest identity and accounting, with the digest taken as injective. After any batches, into any repositories, and
decisions: each entry carried into a repository has exactly one row there, seen as often as entries of its canonical
string were carried in, and every row is that of an entry. The next batch that returns counts and names its entries in
their order, and one of valid entries returns. No later call changes the identity or the level of a row. Between fields
without the separator the canonical string is the identity. -/
theorem ingest_exact (sha256 : String → String) (hinj : Function.Injective sha256) (runs : Table ReviewRun)
    (repos : List Repo) (rs : List Request) :
    let st := (requests sha256 runs repos).state rs
    (∀ repo, ExactAccount sha256 repo (carried repos repo ((requests sha256 runs repos).log rs)) st) ∧
      (∀ a findings repo t, resolveRepoId repos a.repo = .ok repo → (ingest sha256 a findings st).1 = .ok t →
        BatchAnswer sha256 repo findings.reduceOption t (ingest sha256 a findings st).2) ∧
      (∀ a findings, ProbeAnswers a → (resolveRepoId repos a.repo).isOk = true →
        (∀ id, a.runId = some id → (st.runs.get? id).isSome = true) → (∀ e ∈ findings.reduceOption, e.Valid) →
        (ingest sha256 a findings st).1.isOk = true) ∧
      (∀ later, Keeps st ((requests sha256 runs repos).state (later ++ rs))) ∧
      ∀ i j : Identity, i.Separable → j.Separable → (i.canonical = j.canonical ↔ i = j) := by
  intro st
  have hrepos : st.repos = repos := Machine.invariant (M := requests sha256 runs repos)
    (P := fun _ st => st.repos = repos) rfl (fun _ s r h => (serve_evolves sha256 s r).repos.trans h) rs
  refine ⟨fun repo => (requests_accounted sha256 runs repos rs repo).exact hinj, fun a findings repo t hrepo h => ?_,
    fun a findings ha hrepo hrun he => ?_, fun later => requests_keeps sha256 runs repos later rs,
    fun _ _ => canonical_inj⟩
  · exact (ingest_returns (hrepos.symm ▸ hrepo) h).1
  · exact ingest_valid_returns sha256 ha (hrepos.symm ▸ hrepo) hrun he

/-- Two findings of one rule, one of them reported twice. -/
def threeReports : List Request :=
  let e : Entry := { ruleId := some ⟨"r", true⟩, filePath := some ⟨"a.py", true⟩, symbol := some ⟨"f", true⟩ }
  [.ingest { repo := .id 1, runId := none, clock := fun _ => 0 }
    [some e, some { e with symbol := some ⟨"g", true⟩ }, some { e with ruleId := some ⟨" r ", true⟩ }]]

theorem ingest_exact_threeReports : Function.Injective (id : String → String) ∧
    ExactAccount id 1 (carried [] 1 ((requests id Table.empty []).log threeReports))
      ((requests id Table.empty []).state threeReports) :=
  ⟨Function.injective_id, (ingest_exact id Function.injective_id Table.empty [] threeReports).1 1⟩

example : (((requests id Table.empty []).state threeReports).findings.rows.map (·.seenCount)) = [2, 1] := by
  decide +kernel

/-- One row for each identity carried into the repository, the whole of it counted. -/
def OneRowPerIdentity (repo : Nat) (carried : List Entry) (st : Store) : Prop :=
  (st.findings.rows.filter (·.repoId == repo)).length = (carried.map Entry.identity).dedup.length

/-- A batch with a separator inside a rule id in one entry and inside a path in the other. -/
def separatorInside : List Request :=
  [.ingest { repo := .id 1, runId := none, clock := fun _ => 0 }
    [some { ruleId := some ⟨"r\x00a", true⟩, filePath := some ⟨"b", true⟩, symbol := some ⟨"c", true⟩,
            level := some ⟨"debt", true⟩ },
      some { ruleId := some ⟨"r", true⟩, filePath := some ⟨"a\x00b", true⟩, symbol := some ⟨"c", true⟩,
             level := some ⟨"debt", true⟩ }]]

/-- Two identities with one canonical string are one finding. -/
theorem separatorInside_one_row :
    ¬ OneRowPerIdentity 1 (carried [] 1 ((requests id Table.empty []).log separatorInside))
      ((requests id Table.empty []).state separatorInside) := by
  unfold OneRowPerIdentity
  decide +kernel

end OpenFish.Findings
