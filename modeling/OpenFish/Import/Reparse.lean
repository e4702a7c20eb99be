/-
What `parse_source` makes of the web URL of a source it accepted: `_step_validate` stores that URL, and the later
phases parse it again.
-/
import OpenFish.Import.Identity
import OpenFish.Import.Resume

namespace OpenFish.Import

open Lib

variable (py : Urllib)

/-! ## What the claim is about -/

/-- The source is parsed from its web URL again. -/
def Reparsed (r : RepoSource) : Prop :=
  ∃ r', parseSourceBy py r.webUrl = .ok r' ∧ r'.host = r.host ∧ r'.slug = r.slug ∧ r'.cloneUrl = r.cloneUrl

def schemeText (raw : String) : String :=
  if scpLike raw then "https" else match urlparse raw with
    | .ok parsed => parsed.scheme
    | .error _ => ""

/-- The host as a URL writes it. -/
def hostText (raw : String) : String :=
  if scpLike raw then (splitScp raw).1 else match urlparse raw with
    | .ok parsed => parsed.hostinfo.1
    | .error _ => ""

def pathText (raw : String) : String :=
  if scpLike raw then (splitScp raw).2 else match urlparse raw with
    | .ok parsed => parsed.path
    | .error _ => ""

/-- Where a network location ends, and what is taken out of a URL. -/
def cutChars : List Char := ['/', '?', '#', '\t', '\n', '\r']

/-- A host that can stand in a URL as it is, without a port and without brackets. -/
structure PlainHost (host : String) : Prop where
  chars : ∀ c ∈ cutChars ++ ['@', '[', ']', ':'], c ∉ host.toList
  nfkc : checkNetloc host = true

/-- A path without a line feed, whose last segment ends in `.git` once at most. -/
structure PlainPath (path : String) : Prop where
  line : '\n' ∉ path.toList
  once : Text.endsWith ".git.git" (((Text.split '/' path).filter (· ≠ "")).getLastD "") = false

/-- A URL whose host and path can be written again, whose scheme is not `git`, and whose host in the scp-like form,
where it is taken as it is, is one in lower case. -/
structure Restorable (url : String) : Prop where
  scheme : schemeText (rawSource url) ≠ "git"
  host : PlainHost (hostText (rawSource url))
  path : PlainPath (pathText (rawSource url))
  verbatim : scpLike (rawSource url) = true →
    hostText (rawSource url) ≠ "" ∧ py.lower (hostText (rawSource url)) = hostText (rawSource url)

variable {py}

/-! ## What is accepted -/

theorem lower_hostname (parsed : ParseResult) :
    py.lower ((parsed.hostnameBy py).getD "") = py.lower parsed.hostinfo.1 := by
  unfold ParseResult.hostnameBy
  by_cases hempty : parsed.hostinfo.1 = ""
  · rw [if_pos hempty, hempty]; rfl
  · rw [if_neg hempty]
    obtain ⟨-, hp⟩ | ⟨name, zone, -, heq, hp⟩ := Text.partition_cases '%' parsed.hostinfo.1
    · rw [hp]
      exact py.lower_lower _
    · have hpercent : String.singleton '%' = "%" := rfl
      rw [hp, heq, hpercent]
      dsimp only [Option.getD_some]
      rw [py.lower_percent, py.lower_percent, py.lower_lower]

/-- The parts of a path, without `.git` behind the last one. -/
def nameParts (path : String) : List String :=
  ((Text.split '/' path).filter (· ≠ "")).dropLast ++ [stripDotGit (((Text.split '/' path).filter (· ≠ "")).getLastD "")]

theorem splitNamespace_eq_ok {path namespacePath owner name : String} :
    splitNamespace path = .ok (namespacePath, owner, name) ↔
      2 ≤ (nameParts path).length ∧ (∀ p ∈ nameParts path, segmentMatches p = true) ∧
        namespacePath = String.intercalate "/" (nameParts path) ∧ owner = (nameParts path).dropLast.getLastD "" ∧
        name = (nameParts path).getLastD "" := by
  have hlen : 2 ≤ (nameParts path).length ↔ ¬ ((Text.split '/' path).filter (· ≠ "")).length < 2 := by
    rw [nameParts, List.length_append, List.length_dropLast, List.length_singleton]
    omega
  rw [hlen]
  unfold splitNamespace
  dsimp only
  rw [← nameParts]
  split
  · rename_i hshort
    constructor
    · intro h; cases h
    · intro h; exact absurd hshort h.1
  · rename_i hlong
    split
    · rename_i hall
      have hall' : ∀ p ∈ nameParts path, segmentMatches p = true := List.all_eq_true.1 hall
      simp only [Except.ok.injEq, Prod.mk.injEq]
      constructor
      · rintro ⟨rfl, rfl, rfl⟩
        exact ⟨hlong, hall', rfl, rfl, rfl⟩
      · rintro ⟨-, -, rfl, rfl, rfl⟩
        exact ⟨rfl, rfl, rfl⟩
    · rename_i hnot
      have hnot' : ¬ ∀ p ∈ nameParts path, segmentMatches p = true := fun h => hnot (List.all_eq_true.2 h)
      simp [hnot']

theorem urlparse_of_by {url : String} {parsed : ParseResult} (h : urlparseBy py url = .ok parsed) :
    urlparse url = .ok parsed := by
  unfold urlparseBy at h
  unfold urlparse
  dsimp only at h ⊢
  split at h
  · cases h
  · rename_i hbrackets
    rw [if_neg hbrackets]
    split at h
    · cases h
    · exact h

/-- What no part of an accepted URL has, since it is cut there or taken out. -/
structure Cut (parsed : ParseResult) : Prop where
  netloc : ∀ c ∈ cutChars, c ∉ parsed.netloc.toList
  nfkc : checkNetloc parsed.netloc = true
  brackets : '[' ∈ parsed.netloc.toList ↔ ']' ∈ parsed.netloc.toList
  path : '\n' ∉ parsed.path.toList

theorem splitScheme_subset (url : String) : (splitScheme url).2.toList ⊆ url.toList := by
  unfold splitScheme
  obtain ⟨-, h⟩ | ⟨head, tail, -, heq, h⟩ := Text.partition_cases ':' url
  · rw [h]
    exact List.Subset.refl _
  · rw [h]
    dsimp only
    split
    · rw [heq, String.toList_append]
      exact List.subset_append_right _ _
    · exact List.Subset.refl _

theorem splitNetloc_spec (url : String) :
    (∀ c ∈ ['/', '?', '#'], c ∉ (splitNetloc url).1.toList) ∧ (splitNetloc url).1.toList ⊆ url.toList ∧
      (splitNetloc url).2.toList ⊆ url.toList := by
  unfold splitNetloc
  split
  · simp only [String.toList_ofList]
    refine ⟨fun c hc hmem => ?_, fun c hc => ?_, fun c hc => ?_⟩
    · simpa [hc] using List.mem_takeWhile_imp hmem
    · exact List.mem_of_mem_drop ((List.takeWhile_prefix _).subset hc)
    · exact List.mem_of_mem_drop ((List.dropWhile_suffix _).subset hc)
  · exact ⟨by simp, by simp, List.Subset.refl _⟩

theorem dropParams_subset (path : String) : (dropParams path).toList ⊆ path.toList := by
  intro c hc
  rw [dropParams, String.toList_ofList, List.mem_append] at hc
  rcases hc with hc | hc
  · exact (List.rdropWhile_prefix _ _).subset hc
  · exact (List.rtakeWhile_suffix _ _).subset ((List.takeWhile_prefix _).subset hc)

theorem urlparse_cut {url : String} {parsed : ParseResult} (h : urlparse url = .ok parsed) : Cut parsed := by
  unfold urlparse at h
  dsimp only at h
  generalize hcleaned : Text.removeChar '\n' _ = cleaned at h
  have hclean : ∀ c ∈ ['\t', '\n', '\r'], c ∉ cleaned.toList := by
    intro c hc
    rw [← hcleaned]
    simp only [Text.removeChar, String.toList_ofList, List.mem_filter]
    simp only [List.mem_cons, List.not_mem_nil, or_false] at hc
    rcases hc with rfl | rfl | rfl <;> simp
  obtain ⟨hdelims, hnetloc, hpath⟩ := splitNetloc_spec (splitScheme cleaned).2
  have hscheme := splitScheme_subset cleaned
  split at h
  · cases h
  · rename_i hbrackets
    split at h
    · cases h
    · rename_i hnfkc
      cases h
      constructor
      · intro c hc hmem
        rcases List.mem_append.1 (show c ∈ ['/', '?', '#'] ++ ['\t', '\n', '\r'] from hc) with hc | hc
        · exact hdelims c hc hmem
        · exact hclean c hc (hscheme (hnetloc hmem))
      · simpa using hnfkc
      · simpa using hbrackets
      · intro hmem
        refine hclean '\n' (by simp) (hscheme (hpath ?_))
        have hcut : '\n' ∈ (Text.partition '?' (Text.partition '#' (splitNetloc (splitScheme cleaned).2).2).1).1.toList := by
          dsimp only at hmem
          split at hmem
          · exact dropParams_subset _ hmem
          · exact hmem
        exact Text.partition_fst_subset _ _ (Text.partition_fst_subset _ _ hcut)

theorem hostinfo_cases (parsed : ParseResult) :
    '@' ∉ parsed.hostinfo.1.toList ∧ parsed.hostinfo.1.toList ⊆ parsed.netloc.toList ∧
      ('@' ∉ parsed.netloc.toList →
        ('[' ∈ parsed.netloc.toList → ']' ∉ parsed.hostinfo.1.toList) ∧
          ('[' ∉ parsed.netloc.toList → ':' ∉ parsed.hostinfo.1.toList) ∧
          ('[' ∉ parsed.netloc.toList → ':' ∉ parsed.netloc.toList → parsed.hostinfo.1 = parsed.netloc)) := by
  have hat := Text.not_mem_afterLast '@' parsed.netloc
  have hsub := Text.afterLast_subset '@' parsed.netloc
  unfold ParseResult.hostinfo
  dsimp only
  generalize hinfo : Text.afterLast '@' parsed.netloc = info at hat hsub ⊢
  have hwhole (h : '@' ∉ parsed.netloc.toList) : info = parsed.netloc := by
    rw [← hinfo, Text.afterLast_of_not_mem h]
  obtain ⟨hnot, hp⟩ | ⟨head, tail, -, heq, hp⟩ := Text.partition_cases '[' info
  · have hfst := Text.partition_fst_subset ':' info
    rw [hp]
    refine ⟨fun h => hat (hfst h), fun c hc => hsub (hfst hc), fun h => ⟨fun hmem => ?_, fun _ => ?_, fun _ hcolon => ?_⟩⟩
    · exact absurd (hwhole h ▸ hmem) hnot
    · exact Text.not_mem_partition_fst ':' info
    · rw [hwhole h]
      dsimp only
      rw [Text.partition_of_not_mem hcolon]
  · have hfst := Text.partition_fst_subset ']' tail
    have htail : tail.toList ⊆ info.toList := by
      rw [heq, String.toList_append]
      exact List.subset_append_right _ _
    have hmem : '[' ∈ info.toList := by
      rw [heq, String.toList_append, String.toList_append, String.toList_singleton]
      simp
    rw [hp]
    refine ⟨fun h => hat (htail (hfst h)), fun c hc => hsub (htail (hfst hc)), fun h => ⟨fun _ => ?_, ?_, ?_⟩⟩
    · exact Text.not_mem_partition_fst ']' tail
    · exact fun hbracket => absurd (hwhole h ▸ hmem) hbracket
    · exact fun hbracket => absurd (hwhole h ▸ hmem) hbracket

/-- An accepted URL is one of its host, as it is written or in lower case, and its path. -/
theorem accepted_scp {u : String} {r : RepoSource} (hscp : scpLike (rawSource u) = true)
    (h : parseSourceBy py u = .ok r) :
    repoSource (schemeText (rawSource u)) (hostText (rawSource u)) (pathText (rawSource u)) = .ok r := by
  unfold parseSourceBy at h
  dsimp only at h
  split at h
  · cases h
  · rwa [schemeText, hostText, pathText, if_pos hscp, if_pos hscp, if_pos hscp]

theorem accepted_url {u : String} {r : RepoSource} (hscp : ¬ scpLike (rawSource u) = true)
    (h : parseSourceBy py u = .ok r) :
    ∃ parsed, urlparse (rawSource u) = .ok parsed ∧ schemeText (rawSource u) = parsed.scheme ∧
      hostText (rawSource u) = parsed.hostinfo.1 ∧ pathText (rawSource u) = parsed.path ∧
      parsed.scheme ∈ ["http", "https", "git", "ssh"] ∧ py.lower parsed.hostinfo.1 ≠ "" ∧
      repoSource parsed.scheme (py.lower parsed.hostinfo.1) parsed.path = .ok r := by
  unfold parseSourceBy at h
  dsimp only at h
  split at h
  · cases h
  · cases hp : urlparseBy py (rawSource u) with
    | error e => rw [hp] at h; cases h
    | ok parsed =>
      rw [hp] at h
      replace h : (if parsed.scheme ∉ ["http", "https", "git", "ssh"] then _ else _) = Except.ok r := h
      have hurl := urlparse_of_by hp
      split at h
      · cases h
      · rename_i hscheme
        rw [lower_hostname] at h
        split at h
        · cases h
        · rename_i hhost
          refine ⟨parsed, hurl, ?_, ?_, ?_, not_not.1 hscheme, hhost, h⟩
          · rw [schemeText, if_neg hscp, hurl]
          · rw [hostText, if_neg hscp, hurl]
          · rw [pathText, if_neg hscp, hurl]

/-- The parts of an accepted path. -/
structure Parts (parts : List String) : Prop where
  two : 2 ≤ parts.length
  segments : ∀ p ∈ parts, segmentMatches p = true

theorem Parts.ne_nil {parts : List String} (h : Parts parts) : parts ≠ [] := by
  rintro rfl
  exact absurd h.two (by decide)

theorem Parts.slash {parts : List String} (h : Parts parts) : ∀ p ∈ parts, '/' ∉ p.toList :=
  fun p hp => (segmentMatches_elim (h.segments p hp)).2

/-- What a scheme, a host and a path make. -/
structure Makes (scheme server path : String) (r : RepoSource) : Prop where
  host : r.host = server
  slug : r.slug = String.intercalate "/" (nameParts path)
  cloneUrl : r.cloneUrl =
    (if scheme ∈ ["http", "https", "ssh"] then "https" else scheme) ++ "://" ++ server ++ "/" ++
      String.intercalate "/" (nameParts path) ++ ".git"

theorem repoSource_ok {scheme host path : String} {r : RepoSource} (h : repoSource scheme host path = .ok r) :
    Parts (nameParts path) ∧ Makes scheme host path r := by
  unfold repoSource at h
  cases hn : splitNamespace path with
  | error e => rw [hn] at h; cases h
  | ok t =>
    obtain ⟨namespacePath, owner, name⟩ := t
    obtain ⟨htwo, hsegments, hpath, -, -⟩ := splitNamespace_eq_ok.1 hn
    have hne := (splitNamespace_ok hn).1
    rw [hn] at h
    cases h
    exact ⟨⟨htwo, hsegments⟩, rfl, by rw [← hpath]; exact if_neg hne, by rw [← hpath]⟩

theorem repoSource_of_parts {path : String} (h : Parts (nameParts path)) (scheme host : String) :
    ∃ r, repoSource scheme host path = .ok r := by
  have hn := splitNamespace_eq_ok.2 ⟨h.two, h.segments, rfl, rfl, rfl⟩
  unfold repoSource
  rw [hn]
  exact ⟨_, rfl⟩

theorem nameParts_slash {parts : List String} (h : Parts parts) :
    nameParts ("/" ++ String.intercalate "/" parts) = parts.dropLast ++ [stripDotGit (parts.getLastD "")] := by
  have hsplit : (Text.split '/' ("/" ++ String.intercalate "/" parts)).filter (· ≠ "") = parts := by
    have hcons : "/" ++ String.intercalate "/" parts = String.intercalate (String.singleton '/') ("" :: parts) := by
      obtain ⟨p, rest, rfl⟩ := List.exists_cons_of_ne_nil h.ne_nil
      rw [← String.toList_inj]
      simp [String.toList_intercalate]
    rw [hcons, Text.split_intercalate]
    · rw [List.filter_cons_of_neg (by simp), List.filter_eq_self]
      intro p hp
      have hhead := (segmentMatches_elim (h.segments p hp)).1
      refine decide_eq_true fun hempty => ?_
      rw [hempty] at hhead
      exact absurd hhead (by decide)
    · intro p hp
      rcases List.mem_cons.1 hp with rfl | hp
      · simp
      · exact h.slash p hp
    · simp
  rw [nameParts, hsplit]

/-! ## The web URL -/

/-- The characters of a namespace path without a line feed. -/
def isPathChar (c : Char) : Bool := c.isAlphanum || c ∈ ['.', '_', '-', '/']

theorem isPathChar_elim {c : Char} (h : isPathChar c = true) :
    Text.isSpace c = false ∧ c ∉ ['#', '?', ';', '\t', '\n', '\r'] := by
  have hrange : 45 ≤ c.toNat ∧ c.toNat ≤ 57 ∨ 65 ≤ c.toNat ∧ c.toNat ≤ 122 ∧ c.toNat ≠ 96 := by
    simp only [isPathChar, Char.isAlphanum, isAlpha_eq, Bool.or_eq_true, decide_eq_true_eq, List.mem_cons,
      List.not_mem_nil, or_false, isUpper_iff, isLower_iff] at h
    rcases h with ((h | h) | h) | rfl | rfl | rfl | rfl
    · omega
    · omega
    · have := Text.range_of_isDigit h
      omega
    all_goals decide
  constructor
  · have hne (n : ℕ) (hn : n < 45 ∨ 122 < n) : c.toNat ≠ n := by omega
    simp [Text.isSpace, hne]
  · intro hmem
    simp only [List.mem_cons, List.not_mem_nil, or_false] at hmem
    rcases hmem with rfl | rfl | rfl | rfl | rfl | rfl <;> exact absurd hrange (by decide)

theorem segment_isPathChar {s : String} (h : segmentMatches s = true) (hline : '\n' ∉ s.toList) :
    ∀ c ∈ s.toList, isPathChar c = true := by
  intro c hc
  unfold segmentMatches at h
  dsimp only at h
  rw [if_neg fun hlast => hline (List.mem_of_getLast? hlast), Bool.and_eq_true, List.all_eq_true] at h
  have hchar := h.2 c hc
  simp only [Bool.or_eq_true, decide_eq_true_eq, List.mem_cons, List.not_mem_nil, or_false] at hchar
  rw [isPathChar, Bool.or_eq_true, decide_eq_true_eq]
  exact hchar.imp_right fun h => by simp only [List.mem_cons, List.not_mem_nil, or_false]; tauto

theorem mem_intercalate {sep : Char} {c : Char} {parts : List String}
    (h : c ∈ (String.intercalate (String.singleton sep) parts).toList) : c = sep ∨ ∃ p ∈ parts, c ∈ p.toList := by
  induction parts with
  | nil => simp at h
  | cons p rest ih =>
    cases rest with
    | nil =>
      right
      simpa using h
    | cons q rest =>
      rw [String.intercalate_cons_cons, String.toList_append, String.toList_append, String.toList_singleton, List.append_assoc,
        List.mem_append, List.mem_append, List.mem_singleton] at h
      rcases h with h | rfl | h
      · exact .inr ⟨p, List.mem_cons_self .., h⟩
      · exact .inl rfl
      · exact (ih h).imp_right fun ⟨s, hs, hc⟩ => ⟨s, List.mem_cons_of_mem _ hs, hc⟩

theorem mem_intercalate_of_mem {sep : Char} {c : Char} {p : String} {parts : List String} (hp : p ∈ parts)
    (hc : c ∈ p.toList) : c ∈ (String.intercalate (String.singleton sep) parts).toList := by
  rw [String.toList_intercalate]
  exact (Text.infix_intercalate _ (List.mem_map_of_mem hp)).subset hc

/-- A text at the start of a URL that neither a fragment nor white space ends is kept. -/
theorem rawSource_lead {lead : String} (hhash : '#' ∉ lead.toList) (hhead : lead.toList.head?.any Text.isSpace = false)
    (hlast : lead.toList.getLast?.any Text.isSpace = false) (hne : lead ≠ "") (x : String) :
    ∃ y, rawSource (lead ++ x) = lead ++ y := by
  have hstrip (x : String) : ∃ y, Text.strip (lead ++ x) = lead ++ y := by
    obtain ⟨c, rest, hlead⟩ := List.exists_cons_of_ne_nil (l := lead.toList) (by simpa using hne)
    have hfront : (lead ++ x).toList.dropWhile Text.isSpace = lead.toList ++ x.toList := by
      rw [hlead] at hhead
      rw [String.toList_append, hlead, List.cons_append, List.dropWhile_cons_of_neg (by simpa using hhead)]
    have hback : (lead.toList ++ x.toList).rdropWhile Text.isSpace = lead.toList ++ x.toList.rdropWhile Text.isSpace := by
      have hkeep : lead.toList.rdropWhile Text.isSpace = lead.toList := by
        rw [List.rdropWhile_eq_self_iff]
        intro hl
        rw [List.getLast?_eq_some_getLast hl] at hlast
        simpa using hlast
      rw [List.rdropWhile, List.reverse_append, List.dropWhile_append]
      split
      · rename_i hall
        have hnil : x.toList.rdropWhile Text.isSpace = [] := by
          rw [List.rdropWhile, List.isEmpty_iff.1 hall]; rfl
        rw [hnil, List.append_nil]
        exact hkeep
      · rw [List.reverse_append, List.reverse_reverse]; rfl
    refine ⟨String.ofList (x.toList.rdropWhile Text.isSpace), ?_⟩
    rw [Text.strip, hfront, hback, ← String.toList_inj]
    simp
  have hcut (x : String) : ∃ y, (Text.partition '#' (lead ++ x)).1 = lead ++ y := by
    obtain ⟨-, hp⟩ | ⟨head, tail, -, heq, hp⟩ := Text.partition_cases '#' (lead ++ x)
    · exact ⟨x, by rw [hp]⟩
    · -- the first `#` stands behind the text
      have hlist : lead.toList ++ x.toList = head.toList ++ '#' :: tail.toList := by
        have := congrArg String.toList heq
        simpa using this
      obtain ⟨y, hy⟩ : lead.toList <+: head.toList := by
        rcases List.append_eq_append_iff.1 hlist with ⟨y, hy, -⟩ | ⟨y, hy, hrest⟩
        · exact ⟨y, hy.symm⟩
        · cases y with
          | nil => exact ⟨[], by rw [hy]; simp⟩
          | cons c y =>
            have hc := (List.cons.inj hrest).1
            exact absurd (by rw [hy, ← hc]; simp) hhash
      refine ⟨String.ofList y, ?_⟩
      rw [hp, ← String.toList_inj]
      simp [hy]
  obtain ⟨x₁, h₁⟩ := hstrip x
  obtain ⟨x₂, h₂⟩ := hcut x₁
  obtain ⟨x₃, h₃⟩ := hstrip x₂
  exact ⟨x₃, by rw [rawSource, h₁, h₂, h₃]⟩

theorem not_scpLike_lead {scheme : String} (h : scheme ∈ ["https", "git"]) (x : String) :
    scpLike (rawSource (scheme ++ "://" ++ x)) = false := by
  obtain ⟨y, hy⟩ : ∃ y, rawSource (scheme ++ "://" ++ x) = scheme ++ "://" ++ y := by
    simp only [List.mem_cons, List.not_mem_nil, or_false] at h
    rcases h with rfl | rfl
    · exact rawSource_lead (by decide) (by decide) (by decide) (by decide) x
    · exact rawSource_lead (by decide) (by decide) (by decide) (by decide) x
  have hinfix : "://".toList <:+: (scheme ++ "://" ++ y).toList := by
    refine ⟨scheme.toList, y.toList, ?_⟩
    simp
  rw [hy, scpLike, Text.contains_of_infix hinfix]
  rfl

/-- `web_url` of a source with a host. -/
def webAddress (host slug : String) : String := "https://" ++ host ++ "/" ++ slug

section web

variable {host slug : String}

theorem toList_webAddress (host slug : String) :
    (webAddress host slug).toList = 'h' :: ("ttps://".toList ++ host.toList ++ '/' :: slug.toList) := by
  simp [webAddress]

theorem rawSource_web (hhash : '#' ∉ host.toList) (hslug : ∀ c ∈ slug.toList, isPathChar c = true) (hne : slug ≠ "") :
    rawSource (webAddress host slug) = webAddress host slug := by
  have hstrip : Text.strip (webAddress host slug) = webAddress host slug := by
    have hne' : slug.toList ≠ [] := by simpa using hne
    apply Text.strip_of_ends
    · rw [toList_webAddress]; rfl
    · have hlast : (webAddress host slug).toList.getLast? = some (slug.toList.getLast hne') := by
        rw [toList_webAddress, ← List.cons_append, List.append_cons, List.getLast?_append_of_ne_nil _ hne',
          List.getLast?_eq_some_getLast hne']
      rw [hlast, Option.any_some]
      exact (isPathChar_elim (hslug _ (List.getLast_mem hne'))).1
  have hfragment : '#' ∉ (webAddress host slug).toList := by
    rw [toList_webAddress]
    have hpath : '#' ∉ slug.toList := fun h => (isPathChar_elim (hslug _ h)).2 (by simp)
    simp [hhash, hpath]
  rw [rawSource, hstrip, Text.partition_of_not_mem hfragment, hstrip]

theorem scpLike_web (host slug : String) : scpLike (webAddress host slug) = false := by
  have hinfix : "://".toList <:+: (webAddress host slug).toList := by
    refine ⟨"https".toList, host.toList ++ '/' :: slug.toList, ?_⟩
    rw [toList_webAddress]
    simp
  rw [scpLike, Text.contains_of_infix hinfix]
  rfl

theorem splitScheme_web (host slug : String) :
    splitScheme (webAddress host slug) = ("https", "//" ++ host ++ "/" ++ slug) := by
  have hweb : webAddress host slug = "https" ++ String.singleton ':' ++ ("//" ++ host ++ "/" ++ slug) := by
    rw [← String.toList_inj, toList_webAddress]
    simp
  unfold splitScheme
  rw [hweb, Text.partition_append (by decide)]
  rfl

theorem splitNetloc_web (slug : String) (hcut : ∀ c ∈ ['/', '?', '#'], c ∉ host.toList) :
    splitNetloc ("//" ++ host ++ "/" ++ slug) = (host, "/" ++ slug) := by
  have htext : ("//" ++ host ++ "/" ++ slug).toList = '/' :: '/' :: (host.toList ++ '/' :: slug.toList) := by simp
  have hkept (c : Char) (hc : c ∈ host.toList) : decide (c ∉ ['/', '?', '#']) = true :=
    decide_eq_true fun h => hcut c h hc
  have hslash : Text.startsWith "//" ("//" ++ host ++ "/" ++ slug) = true := by
    rw [Text.startsWith, htext]
    rfl
  unfold splitNetloc
  have hdrop : List.drop 2 ('/' :: '/' :: (host.toList ++ '/' :: slug.toList)) = host.toList ++ '/' :: slug.toList := rfl
  rw [if_pos hslash, htext]
  dsimp only
  have htail : String.ofList ('/' :: slug.toList) = "/" ++ slug := by
    rw [← String.toList_inj]
    simp
  rw [hdrop, List.takeWhile_append_of_pos hkept, List.dropWhile_append_of_pos hkept, List.takeWhile_cons_of_neg (by simp),
    List.dropWhile_cons_of_neg (by simp), List.append_nil, String.ofList_toList, htail]

theorem path_web (hslug : ∀ c ∈ slug.toList, isPathChar c = true) :
    (Text.partition '?' (Text.partition '#' ("/" ++ slug)).1).1 = "/" ++ slug ∧ dropParams ("/" ++ slug) = "/" ++ slug := by
  have hnot (c : Char) (hc : c ∈ ['#', '?', ';']) : c ∉ ("/" ++ slug).toList := by
    have htext : ("/" ++ slug).toList = '/' :: slug.toList := by simp
    rw [htext, List.mem_cons]
    rintro (rfl | hmem)
    · exact absurd hc (by decide)
    · exact (isPathChar_elim (hslug c hmem)).2 (List.mem_append_left ['\t', '\n', '\r'] hc)
  refine ⟨?_, ?_⟩
  · rw [Text.partition_of_not_mem (hnot '#' (by simp)), Text.partition_of_not_mem (hnot '?' (by simp))]
  · have hall : (("/" ++ slug).toList.rtakeWhile (· ≠ '/')).takeWhile (· ≠ ';') =
        ("/" ++ slug).toList.rtakeWhile (· ≠ '/') := by
      rw [List.takeWhile_eq_self_iff]
      intro c hc
      exact decide_eq_true fun heq => hnot ';' (by simp) (heq ▸ (List.rtakeWhile_suffix _ _).subset hc)
    rw [dropParams, hall, List.rdropWhile_append_rtakeWhile, String.ofList_toList]

theorem clean_web (hcut : ∀ c ∈ ['\t', '\n', '\r'], c ∉ host.toList) (hslug : ∀ c ∈ slug.toList, isPathChar c = true) :
    Text.removeChar '\n' (Text.removeChar '\r' (Text.removeChar '\t'
      (String.ofList ((webAddress host slug).toList.dropWhile fun c => decide (c.toNat ≤ 0x20))))) =
        webAddress host slug := by
  have hhead : (webAddress host slug).toList.dropWhile (fun c => decide (c.toNat ≤ 0x20)) =
      (webAddress host slug).toList := by
    rw [toList_webAddress, List.dropWhile_cons_of_neg (by decide)]
  have hnot (c : Char) (hc : c ∈ ['\t', '\n', '\r']) : c ∉ (webAddress host slug).toList := by
    have hpath : c ∉ slug.toList := fun hmem =>
      (isPathChar_elim (hslug c hmem)).2 (List.mem_append_right ['#', '?', ';'] hc)
    have hscheme : c ∉ ['h', 't', 't', 'p', 's', ':', '/', '/', '/'] := by
      simp only [List.mem_cons, List.not_mem_nil, or_false] at hc
      rcases hc with rfl | rfl | rfl <;> decide
    rw [toList_webAddress]
    simp at hscheme ⊢
    tauto
  rw [hhead, String.ofList_toList, Text.removeChar_of_not_mem (hnot _ (by simp)),
    Text.removeChar_of_not_mem (hnot _ (by simp)), Text.removeChar_of_not_mem (hnot _ (by simp))]

theorem urlparseBy_web (py : Urllib) (hcut : ∀ c ∈ cutChars, c ∉ host.toList)
    (hslug : ∀ c ∈ slug.toList, isPathChar c = true) :
    (∀ parsed, urlparseBy py (webAddress host slug) = .ok parsed → parsed = ⟨"https", host, "/" ++ slug⟩) ∧
      ('[' ∉ host.toList → ']' ∉ host.toList → checkNetloc host = true →
        urlparseBy py (webAddress host slug) = .ok ⟨"https", host, "/" ++ slug⟩) := by
  obtain ⟨hpath, hparams⟩ := path_web hslug
  have hclean := clean_web (fun c hc => hcut c (List.mem_append_right ['/', '?', '#'] hc)) hslug
  have hnetloc := splitNetloc_web slug fun c hc => hcut c (List.mem_append_left ['\t', '\n', '\r'] hc)
  have hhttps : "https" ∈ usesParams := by decide
  unfold urlparseBy
  simp only [hclean, splitScheme_web, hnetloc, hpath, if_pos hhttps, hparams]
  constructor
  · intro parsed h
    split at h
    · cases h
    · split at h
      · cases h
      · split at h
        · cases h
        · cases h; rfl
  · intro hopen hclose hnfkc
    simp [hopen, hclose, hnfkc]

end web

/-! ## Paths -/

theorem endsWith_iff {tail s : String} : Text.endsWith tail s = true ↔ ∃ a, s = a ++ tail := by
  rw [Text.endsWith, List.isSuffixOf_iff_suffix]
  constructor
  · rintro ⟨a, ha⟩
    refine ⟨String.ofList a, ?_⟩
    rw [← String.toList_inj, ← ha]
    simp
  · rintro ⟨a, rfl⟩
    rw [String.toList_append]
    exact List.suffix_append _ _

theorem stripDotGit_append (a : String) : stripDotGit (a ++ ".git") = a := by
  have hlen : (a ++ ".git").toList.length - 4 = a.toList.length := by
    rw [String.toList_append, List.length_append]
    exact Nat.add_sub_cancel _ 4
  rw [stripDotGit, if_pos (endsWith_iff.2 ⟨a, rfl⟩), hlen, String.toList_append, List.take_left, String.ofList_toList]

theorem stripDotGit_of_not {s : String} (h : Text.endsWith ".git" s = false) : stripDotGit s = s := by
  rw [stripDotGit, h, if_neg (by decide)]

/-- Stripping twice is stripping once exactly if the name does not end in `.git` twice. -/
theorem stripDotGit_idem_iff (s : String) :
    stripDotGit (stripDotGit s) = stripDotGit s ↔ Text.endsWith ".git.git" s = false := by
  have htwice : (".git.git" : String) = ".git" ++ ".git" := rfl
  have hself (a : String) : stripDotGit a = a ↔ Text.endsWith ".git" a = false := by
    refine ⟨fun h => ?_, stripDotGit_of_not⟩
    rw [← Bool.not_eq_true, endsWith_iff]
    rintro ⟨b, rfl⟩
    rw [stripDotGit_append] at h
    have hlen := congrArg (fun s : String => s.toList.length) h
    simp at hlen
  cases hs : Text.endsWith ".git" s with
  | false =>
    have hnot : Text.endsWith ".git.git" s = false := by
      rw [← Bool.not_eq_true, endsWith_iff]
      rintro ⟨b, rfl⟩
      rw [htwice, ← String.append_assoc] at hs
      rw [endsWith_iff.2 ⟨_, rfl⟩] at hs
      cases hs
    rw [stripDotGit_of_not hs, hnot, stripDotGit_of_not hs]
    simp
  | true =>
    obtain ⟨a, rfl⟩ := endsWith_iff.1 hs
    rw [stripDotGit_append, hself, ← Bool.not_eq_true, ← Bool.not_eq_true, endsWith_iff, endsWith_iff, htwice]
    refine not_congr (exists_congr fun b => ?_)
    rw [← String.append_assoc]
    constructor
    · rintro rfl; rfl
    · intro h
      have := stripDotGit_append (b ++ ".git")
      rw [← h, stripDotGit_append] at this
      exact this

theorem stripDotGit_subset (s : String) : (stripDotGit s).toList ⊆ s.toList := by
  unfold stripDotGit
  split
  · rw [String.toList_ofList]
    exact List.take_subset _ _
  · exact List.Subset.refl _

theorem mem_stripDotGit {c : Char} (hc : c ∉ ['.', 'g', 'i', 't']) {s : String} (h : c ∈ s.toList) :
    c ∈ (stripDotGit s).toList := by
  cases hs : Text.endsWith ".git" s with
  | false => rwa [stripDotGit_of_not hs]
  | true =>
    obtain ⟨a, rfl⟩ := endsWith_iff.1 hs
    rw [String.toList_append, List.mem_append] at h
    rw [stripDotGit_append]
    exact h.resolve_right hc

theorem mem_split {sep c : Char} {s p : String} (hp : p ∈ Text.split sep s) (hc : c ∈ p.toList) : c ∈ s.toList := by
  rw [← Text.intercalate_split sep s]
  exact mem_intercalate_of_mem hp hc

/-- The namespace path has a line feed exactly if the path has one. -/
theorem line_nameParts (path : String) :
    '\n' ∈ (String.intercalate "/" (nameParts path)).toList ↔ '\n' ∈ path.toList := by
  generalize hfull : (Text.split '/' path).filter (· ≠ "") = full
  have hparts : nameParts path = full.dropLast ++ [stripDotGit (full.getLastD "")] := by rw [nameParts, hfull]
  have hmem (p : String) : p ∈ full ↔ p ∈ Text.split '/' path ∧ p ≠ "" := by
    rw [← hfull, List.mem_filter, decide_eq_true_eq]
  have hsep : "/" = String.singleton '/' := rfl
  rw [hparts, hsep]
  constructor
  · intro h
    obtain h | ⟨p, hp, hc⟩ := mem_intercalate h
    · exact absurd h (by decide)
    · rcases List.mem_append.1 hp with hp | hp
      · exact mem_split ((hmem p).1 (List.dropLast_subset _ hp)).1 hc
      · rw [List.mem_singleton.1 hp] at hc
        have hc' := stripDotGit_subset _ hc
        cases hlast : full.getLast? with
        | none =>
          rw [List.getLastD_eq_getLast?, hlast] at hc'
          exact absurd hc' (by decide)
        | some last =>
          rw [List.getLastD_eq_getLast?, hlast] at hc'
          exact mem_split ((hmem last).1 (List.mem_of_getLast? hlast)).1 hc'
  · intro h
    rw [← Text.intercalate_split '/' path] at h
    obtain h | ⟨p, hp, hc⟩ := mem_intercalate h
    · exact absurd h (by decide)
    · have hne : p ≠ "" := by rintro rfl; exact absurd hc (by decide)
      have hfullp := (hmem p).2 ⟨hp, hne⟩
      obtain ⟨front, last, rfl⟩ := (List.eq_nil_or_concat' full).resolve_left (List.ne_nil_of_mem hfullp)
      rw [List.dropLast_concat]
      rcases List.mem_append.1 hfullp with hp | hp
      · exact mem_intercalate_of_mem (List.mem_append_left _ hp) hc
      · rw [List.mem_singleton.1 hp] at hc
        refine mem_intercalate_of_mem (List.mem_append_right _ (List.mem_singleton_self _)) ?_
        rw [List.getLastD_concat]
        exact mem_stripDotGit (by decide) hc

/-! ## Parsing again -/

theorem webUrl_eq {r : RepoSource} {scheme server path : String} (h : Makes scheme server path r) (hne : server ≠ "") :
    r.webUrl = webAddress server (String.intercalate "/" (nameParts path)) := by
  rw [RepoSource.webUrl, h.host, h.slug, if_neg hne]
  rfl

/-- The web URL of an accepted source is not of the scp-like form. -/
theorem not_scpLike_webUrl {r : RepoSource} {scheme server path : String} (h : Makes scheme server path r)
    (hscheme : scheme ∈ ["http", "https", "git", "ssh"]) : scpLike (rawSource r.webUrl) = false := by
  by_cases hne : server = ""
  · have hclone : ∃ s ∈ ["https", "git"], ∃ x, r.webUrl = s ++ "://" ++ x := by
      rw [RepoSource.webUrl, h.host, if_pos hne, h.cloneUrl]
      simp only [String.append_assoc]
      simp only [List.mem_cons, List.not_mem_nil, or_false] at hscheme
      rcases hscheme with rfl | rfl | rfl | rfl
      · exact ⟨"https", by simp, _, rfl⟩
      · exact ⟨"https", by simp, _, rfl⟩
      · exact ⟨"git", by simp, _, rfl⟩
      · exact ⟨"https", by simp, _, rfl⟩
    obtain ⟨s, hs, x, hx⟩ := hclone
    rw [hx]
    exact not_scpLike_lead hs x
  · have hweb : r.webUrl = "https" ++ "://" ++ (server ++ "/" ++ String.intercalate "/" (nameParts path)) := by
      rw [webUrl_eq h hne, webAddress, ← String.toList_inj]
      simp
    rw [hweb]
    exact not_scpLike_lead (by simp) _

theorem slug_pathChars {path : String} (h : Parts (nameParts path)) (hline : '\n' ∉ path.toList) :
    ∀ c ∈ (String.intercalate "/" (nameParts path)).toList, isPathChar c = true := by
  have hsep : "/" = String.singleton '/' := rfl
  rw [← line_nameParts] at hline
  rw [hsep] at hline ⊢
  intro c hc
  obtain rfl | ⟨p, hp, hcp⟩ := mem_intercalate hc
  · decide
  · exact segment_isPathChar (h.segments p hp) (fun hn => hline (mem_intercalate_of_mem hp hn)) c hcp

theorem slug_ne_empty {parts : List String} (h : Parts parts) : String.intercalate "/" parts ≠ "" := by
  obtain ⟨p, rest, rfl⟩ := List.exists_cons_of_ne_nil h.ne_nil
  have hhead := (segmentMatches_elim (h.segments p (List.mem_cons_self ..))).1
  intro hempty
  have hsep : "/" = String.singleton '/' := rfl
  cases hp : p.toList with
  | nil => rw [hp] at hhead; cases hhead
  | cons c _ =>
    have hmem : c ∈ (String.intercalate "/" (p :: rest)).toList := by
      rw [hsep]
      exact mem_intercalate_of_mem (List.mem_cons_self ..) (by rw [hp]; exact List.mem_cons_self ..)
    rw [hempty] at hmem
    exact absurd hmem (by simp)

theorem slug_inj {parts parts' : List String} (h : Parts parts) (h' : Parts parts') :
    String.intercalate "/" parts = String.intercalate "/" parts' ↔ parts = parts' := by
  have hsep : "/" = String.singleton '/' := rfl
  constructor
  · intro heq
    rw [hsep] at heq
    rw [← Text.split_intercalate h.slash h.ne_nil, heq, Text.split_intercalate h'.slash h'.ne_nil]
  · rintro rfl; rfl

/-- The parts of the namespace path are split off again, and `.git` is dropped from the last one again. -/
theorem nameParts_again {path : String} (h : Parts (nameParts path)) :
    nameParts ("/" ++ String.intercalate "/" (nameParts path)) = nameParts path ↔
      Text.endsWith ".git.git" (((Text.split '/' path).filter (· ≠ "")).getLastD "") = false := by
  rw [nameParts_slash h, ← stripDotGit_idem_iff]
  generalize hfull : (Text.split '/' path).filter (· ≠ "") = full
  have hparts : nameParts path = full.dropLast ++ [stripDotGit (full.getLastD "")] := by rw [nameParts, hfull]
  rw [hparts, List.dropLast_concat, List.getLastD_concat, List.append_right_inj, List.singleton_inj]

/-- What is parsed of the web URL, once its host and its path have nothing that is cut there. -/
theorem parse_web {host slug : String} (hcut : ∀ c ∈ cutChars, c ∉ host.toList)
    (hslug : ∀ c ∈ slug.toList, isPathChar c = true) (hne : slug ≠ "") {r : RepoSource}
    (h : parseSourceBy py (webAddress host slug) = .ok r) :
    Cut ⟨"https", host, "/" ++ slug⟩ ∧
      repoSource "https" (py.lower (ParseResult.hostinfo ⟨"https", host, "/" ++ slug⟩).1) ("/" ++ slug) = .ok r := by
  have hraw := rawSource_web (hcut '#' (by decide)) hslug hne
  obtain ⟨parsed, hparsed, -, -, -, -, -, hr⟩ :=
    accepted_url (by rw [hraw, scpLike_web]; exact Bool.false_ne_true) h
  have hcutParsed := urlparse_cut hparsed
  rw [hraw, ← urlparseBy_ascii] at hparsed
  cases (urlparseBy_web Urllib.ascii hcut hslug).1 parsed hparsed
  exact ⟨hcutParsed, hr⟩

section core

variable {scheme server path : String} {r : RepoSource}

theorem caseless_cut : ∀ c ∈ cutChars ++ ['@', '[', ']', ':'], caseless c = true :=
  List.all_eq_true.1 (show (cutChars ++ ['@', '[', ']', ':']).all caseless = true by decide)

theorem checkNetloc_lower (s : String) : checkNetloc (py.lower s) = checkNetloc s := by
  rw [Bool.eq_iff_iff, checkNetloc, checkNetloc, List.all_eq_true, List.all_eq_true]
  have hnotSafe {c : Char} (h : ¬ decide (c.toNat ∉ [0x2047, 0x2048, 0x2049, 0x2100, 0x2101, 0x2105, 0x2106, 0x2a74,
      0xfe13, 0xfe16, 0xfe55, 0xfe56, 0xfe5f, 0xfe6b, 0xff03, 0xff0f, 0xff1a, 0xff1f, 0xff20]) = true) :
      caseless c = true := by
    rw [decide_eq_true_eq, not_not] at h
    rw [caseless, Bool.or_eq_true, decide_eq_true_eq]
    exact .inr h
  constructor
  · intro h c hc
    by_contra hbad
    exact hbad (h c ((py.mem_lower s c (hnotSafe hbad)).2 hc))
  · intro h c hc
    by_contra hbad
    exact hbad (h c ((py.mem_lower s c (hnotSafe hbad)).1 hc))

theorem plainHost_lower (py : Urllib) (s : String) : PlainHost (py.lower s) ↔ PlainHost s := by
  have hchars (c : Char) (hc : c ∈ cutChars ++ ['@', '[', ']', ':']) := not_congr (py.mem_lower s c (caseless_cut c hc))
  constructor
  · rintro ⟨h, hn⟩
    exact ⟨fun c hc => (hchars c hc).1 (h c hc), by rwa [checkNetloc_lower] at hn⟩
  · rintro ⟨h, hn⟩
    exact ⟨fun c hc => (hchars c hc).2 (h c hc), by rwa [checkNetloc_lower]⟩

/-- A web URL of a plain host and a plain path is taken as it is. -/
theorem parse_plain {host slug : String} (hhost : PlainHost host) (hlower : py.lower host = host) (hne : host ≠ "")
    (hslug : ∀ c ∈ slug.toList, isPathChar c = true) (hslugNe : slug ≠ "") :
    parseSourceBy py (webAddress host slug) = repoSource "https" host ("/" ++ slug) := by
  have hcut : ∀ c ∈ cutChars, c ∉ host.toList := fun c hc => hhost.chars c (List.mem_append_left _ hc)
  have hat : '@' ∉ host.toList := hhost.chars '@' (by decide)
  have hopen : '[' ∉ host.toList := hhost.chars '[' (by decide)
  have hclose : ']' ∉ host.toList := hhost.chars ']' (by decide)
  have hcolon : ':' ∉ host.toList := hhost.chars ':' (by decide)
  have hraw := rawSource_web (hcut '#' (by decide)) hslug hslugNe
  have hurl := (urlparseBy_web py hcut hslug).2 hopen hclose hhost.nfkc
  have hinfo : (ParseResult.hostinfo ⟨"https", host, "/" ++ slug⟩).1 = host :=
    ((hostinfo_cases _).2.2 hat).2.2 hopen hcolon
  have htext : webAddress host slug ≠ "" := by
    intro hempty
    have hlist := congrArg String.toList hempty
    rw [toList_webAddress] at hlist
    cases hlist
  have hscheme : "https" ∈ ["http", "https", "git", "ssh"] := by decide
  have hbind {α β : Type} (a : α) (f : α → Except String β) : (Except.ok a >>= f) = f a := rfl
  unfold parseSourceBy
  dsimp only
  rw [hraw, if_neg htext, scpLike_web, if_neg Bool.false_ne_true, hurl]
  rw [hbind]
  dsimp only
  rw [if_neg (not_not.2 hscheme), lower_hostname, hinfo, hlower, if_neg hne]

/-- A source parsed of its web URL has a host and a path that nothing is cut from. -/
theorem reparsed_elim (hparts : Parts (nameParts path)) (hmakes : Makes scheme server path r)
    (hscheme : scheme ∈ ["http", "https", "git", "ssh"]) (h : Reparsed py r) :
    scheme ≠ "git" ∧ PlainHost server ∧ PlainPath path ∧ server ≠ "" ∧ py.lower server = server := by
  obtain ⟨r', hr', hhost, hslug, hclone⟩ := h
  have hscp := not_scpLike_webUrl hmakes hscheme
  obtain ⟨parsed, hparsed, -, -, -, -, hne, hagain⟩ := accepted_url (by rw [hscp]; exact Bool.false_ne_true) hr'
  obtain ⟨hparts', hmakes'⟩ := repoSource_ok hagain
  have hserver : py.lower parsed.hostinfo.1 = server := hmakes'.host.symm.trans (hhost.trans hmakes.host)
  have hpath : nameParts parsed.path = nameParts path :=
    (slug_inj hparts' hparts).1 (hmakes'.slug.symm.trans (hslug.trans hmakes.slug))
  have hcut := urlparse_cut hparsed
  have hline : '\n' ∉ path.toList := by
    rw [← line_nameParts, ← hpath, line_nameParts]
    exact hcut.path
  have hserverCut : ∀ c ∈ cutChars, c ∉ server.toList := by
    intro c hc hmem
    rw [← hserver, py.mem_lower _ _ (caseless_cut c (List.mem_append_left _ hc))] at hmem
    exact hcut.netloc c hc ((hostinfo_cases parsed).2.1 hmem)
  have hat : '@' ∉ server.toList := by
    rw [← hserver, py.mem_lower _ _ (by decide)]
    exact (hostinfo_cases parsed).1
  -- so the host is the whole network location of the web URL
  rw [hserver] at hne
  rw [webUrl_eq hmakes hne] at hr'
  obtain ⟨hcutWeb, hweb⟩ := parse_web hserverCut (slug_pathChars hparts hline) (slug_ne_empty hparts) hr'
  obtain ⟨hpartsWeb, hmakesWeb⟩ := repoSource_ok hweb
  have hlower : py.lower (ParseResult.hostinfo ⟨"https", server, "/" ++ String.intercalate "/" (nameParts path)⟩).1 =
      server :=
    hmakesWeb.host.symm.trans (hhost.trans hmakes.host)
  obtain ⟨-, -, hinfo⟩ := hostinfo_cases ⟨"https", server, "/" ++ String.intercalate "/" (nameParts path)⟩
  obtain ⟨hbracketed, hport, hwhole⟩ := hinfo hat
  have hopen : '[' ∉ server.toList := fun hmem => by
    have hclose := hcutWeb.brackets.1 hmem
    dsimp only at hclose
    rw [← hlower, py.mem_lower _ _ (by decide)] at hclose
    exact hbracketed hmem hclose
  have hclose : ']' ∉ server.toList := fun hmem => hopen (hcutWeb.brackets.2 hmem)
  have hcolon : ':' ∉ server.toList := fun hmem => by
    rw [← hlower, py.mem_lower _ _ (by decide)] at hmem
    exact hport hopen hmem
  refine ⟨?_, ⟨?_, hcutWeb.nfkc⟩, ⟨hline, ?_⟩, hne, ?_⟩
  · rintro rfl
    have hhead := congrArg (fun s : String => s.toList.head?) (hmakesWeb.cloneUrl.symm.trans (hclone.trans hmakes.cloneUrl))
    simp at hhead
  · intro c hc
    rcases List.mem_append.1 hc with hc | hc
    · exact hserverCut c hc
    · simp only [List.mem_cons, List.not_mem_nil, or_false] at hc
      rcases hc with rfl | rfl | rfl | rfl
      · exact hat
      · exact hopen
      · exact hclose
      · exact hcolon
  · exact (nameParts_again hparts).1
      ((slug_inj hpartsWeb hparts).1 (hmakesWeb.slug.symm.trans (hslug.trans hmakes.slug)))
  · have hhostinfo := hwhole hopen hcolon
    rw [hhostinfo] at hlower
    exact hlower

theorem reparsed_intro (hparts : Parts (nameParts path)) (hmakes : Makes scheme server path r)
    (hscheme : scheme ∈ ["http", "https", "git", "ssh"]) (hgit : scheme ≠ "git") (hhost : PlainHost server)
    (hpath : PlainPath path) (hne : server ≠ "") (hlower : py.lower server = server) : Reparsed py r := by
  have hslug := slug_pathChars hparts hpath.line
  have hslugNe := slug_ne_empty hparts
  have hagain := (nameParts_again hparts).2 hpath.once
  obtain ⟨r', hr'⟩ := repoSource_of_parts (by rw [hagain]; exact hparts) "https" server
  obtain ⟨-, hmakes'⟩ := repoSource_ok hr'
  refine ⟨r', ?_, hmakes'.host.trans hmakes.host.symm, ?_, ?_⟩
  · rw [webUrl_eq hmakes hne, parse_plain hhost hlower hne hslug hslugNe]
    exact hr'
  · exact hmakes'.slug.trans ((congrArg _ hagain).trans hmakes.slug.symm)
  · have hclone : (if scheme ∈ ["http", "https", "ssh"] then "https" else scheme) = "https" := by
      refine if_pos ?_
      simp only [List.mem_cons, List.not_mem_nil, or_false] at hscheme
      rcases hscheme with rfl | rfl | rfl | rfl
      · decide
      · decide
      · exact absurd rfl hgit
      · decide
    have hclone' : (if "https" ∈ ["http", "https", "ssh"] then "https" else "https") = "https" := if_pos (by decide)
    rw [hmakes'.cloneUrl, hmakes.cloneUrl, hagain, hclone, hclone']

end core

/-- The source of an accepted URL is parsed of its own web URL again exactly if the URL has a host and a path that can be
written again, no `git` scheme, and no capital in the host of the scp-like form. -/
theorem reparsed_iff (py : Urllib) {u : String} {r : RepoSource} (h : parseSourceBy py u = .ok r) :
    Reparsed py r ↔ Restorable py u := by
  by_cases hscp : scpLike (rawSource u) = true
  · have hr := accepted_scp hscp h
    have hscheme : schemeText (rawSource u) = "https" := by rw [schemeText, if_pos hscp]
    obtain ⟨hparts, hmakes⟩ := repoSource_ok hr
    have hallowed : schemeText (rawSource u) ∈ ["http", "https", "git", "ssh"] := by rw [hscheme]; decide
    constructor
    · intro hre
      obtain ⟨hgit, hhost, hpath, hne, hlower⟩ := reparsed_elim hparts hmakes hallowed hre
      exact ⟨hgit, hhost, hpath, fun _ => ⟨hne, hlower⟩⟩
    · rintro ⟨hgit, hhost, hpath, hverbatim⟩
      obtain ⟨hne, hlower⟩ := hverbatim hscp
      exact reparsed_intro hparts hmakes hallowed hgit hhost hpath hne hlower
  · obtain ⟨parsed, -, hscheme, hhostText, hpathText, hallowed, hne, hr⟩ := accepted_url hscp h
    obtain ⟨hparts, hmakes⟩ := repoSource_ok hr
    constructor
    · intro hre
      obtain ⟨hgit, hhost, hpath, -, -⟩ := reparsed_elim hparts hmakes hallowed hre
      refine ⟨by rwa [hscheme], ?_, by rwa [hpathText], fun hs => absurd hs hscp⟩
      rw [hhostText, ← plainHost_lower py]
      exact hhost
    · rintro ⟨hgit, hhost, hpath, -⟩
      rw [hscheme] at hgit
      rw [hhostText, ← plainHost_lower py] at hhost
      rw [hpathText] at hpath
      exact reparsed_intro hparts hmakes hallowed hgit hhost hpath hne (py.lower_lower _)

theorem httpsSource_reparsed :
    Reparsed Urllib.ascii ⟨"h", "o", "n", "https://h/o/n.git", "o/n", .git⟩ ↔ Restorable Urllib.ascii "https://h/o/n" :=
  reparsed_iff Urllib.ascii (by decide +kernel)

/-- A `git` URL is cloned over `https` once it has been stored. -/
theorem gitSource_not_reparsed :
    ¬ ∀ u r, parseSourceBy Urllib.ascii u = .ok r → Reparsed Urllib.ascii r := by
  intro hall
  have hparsed : parseSourceBy Urllib.ascii "git://h/o/n" = .ok ⟨"h", "o", "n", "git://h/o/n.git", "o/n", .git⟩ := by
    decide +kernel
  have hagain : parseSourceBy Urllib.ascii "https://h/o/n" = .ok ⟨"h", "o", "n", "https://h/o/n.git", "o/n", .git⟩ := by
    decide +kernel
  have hweb : RepoSource.webUrl ⟨"h", "o", "n", "git://h/o/n.git", "o/n", .git⟩ = "https://h/o/n" := by decide +kernel
  obtain ⟨r', hr', -, -, hclone⟩ := hall _ _ hparsed
  rw [hweb, hagain] at hr'
  rw [← Except.ok.inj hr'] at hclone
  exact absurd hclone (by decide +kernel)

/-- What an import that goes on from a stored URL needs: the web URL is parsed as often as it is read. -/
theorem parsesThrough_of_restorable {u : String} {r : RepoSource} (h : parseSource u = .ok r)
    (hu : Restorable Urllib.ascii u) : ParsesThrough u := by
  obtain ⟨r', hr', hhost, hslug, hclone⟩ := (reparsed_iff Urllib.ascii (by rwa [parseSourceBy_ascii])).2 hu
  rw [parseSourceBy_ascii] at hr'
  have hweb : r'.webUrl = r.webUrl := by rw [RepoSource.webUrl, RepoSource.webUrl, hhost, hslug, hclone]
  have hfixed : webForm r.webUrl = r.webUrl := (webForm_of_ok hr').trans hweb
  intro n
  cases n with
  | zero => exact ⟨r, h⟩
  | succ n =>
    rw [Function.iterate_succ_apply, webForm_of_ok h, Function.iterate_fixed hfixed]
    exact ⟨r', hr'⟩

end OpenFish.Import
