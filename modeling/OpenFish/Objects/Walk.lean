/-
The walk of a bucket: against any server that lists what is there, in whatever pages, it ends, it reports every object and
every implied directory once, and a directory before anything under it.
-/
import OpenFish.Lib.Delimited
import OpenFish.Objects.Stores

namespace OpenFish.Objects

open Lib
open Lib.Delimited (IsGroup Group Direct Dir)

/-! ## A conforming server -/

/-- The pages of a prefix, from that of a token on. -/
inductive Chain (list : Listing) (start : String) : Option String → List Page → Prop
  | last {token : Option String} (h : (list start token).next = none) : Chain list start token [list start token]
  | more {token : Option String} {next : String} {pages : List Page} (h : (list start token).next = some next)
      (hnext : next ≠ "") (rest : Chain list start (some next) pages) : Chain list start token (list start token :: pages)

/-- The characters of the keys that a bucket has. -/
def Keys (objects : Bucket) (k : List Char) : Prop := ∃ key, objects.has key = true ∧ key.toList = k

/-- The pages of a prefix are finitely many; together they show its groups and its direct keys with their sizes, each
once or more often. -/
structure Conforms (list : Listing) (objects : Bucket) : Prop where
  pages : ∀ start, ∃ pages, Chain list start none pages ∧
    (∀ common, (∃ page ∈ pages, common ∈ page.prefixes) ↔ Group '/' (Keys objects) start.toList common.toList) ∧
    ∀ key n, (∃ page ∈ pages, (key, n) ∈ page.contents) ↔
      Direct '/' start.toList key.toList ∧ ∃ data, objects.get? key = some data ∧ data.length = n

/-! ## What a walk reports -/

/-- The directories among the entries. -/
def dirKeys (out : List ObjectInfo) : List String := (out.filter (·.isDir)).map (·.key)

/-- The files among them. -/
def fileKeys (out : List ObjectInfo) : List String := (out.filter (!·.isDir)).map (·.key)

def Seen.add (seen : Seen) (out : List ObjectInfo) : Seen := ⟨seen.dirs ++ dirKeys out, seen.keys ++ fileKeys out⟩

@[simp] theorem dirKeys_append (out out' : List ObjectInfo) : dirKeys (out ++ out') = dirKeys out ++ dirKeys out' := by
  simp [dirKeys]

@[simp] theorem fileKeys_append (out out' : List ObjectInfo) : fileKeys (out ++ out') = fileKeys out ++ fileKeys out' := by
  simp [fileKeys]

theorem Seen.add_append (seen : Seen) (out out' : List ObjectInfo) : seen.add (out ++ out') = (seen.add out).add out' := by
  simp [Seen.add]

theorem mem_dirKeys {out : List ObjectInfo} {name : String} : name ∈ dirKeys out ↔ ∃ e ∈ out, e.isDir = true ∧ e.key = name := by
  simp [dirKeys, and_assoc]

theorem mem_fileKeys {out : List ObjectInfo} {key : String} : key ∈ fileKeys out ↔ ∃ e ∈ out, e.isDir = false ∧ e.key = key := by
  simp [fileKeys, and_assoc]

section Walk

variable (objects : Bucket) (root : String)

/-- The entries of a walk under a prefix: new ones, of directories and objects that there are, and a directory stands
before what is under it. -/
structure Reports (p : List Char) (seen : Seen) (out : List ObjectInfo) (seen' : Seen) : Prop where
  seen_eq : seen' = seen.add out
  dirs_nodup : seen.dirs.Nodup → seen'.dirs.Nodup
  keys_nodup : seen.keys.Nodup → seen'.keys.Nodup
  dirs_sound : ∀ e ∈ out, e.isDir = true → e.size = 0 ∧ Dir '/' (Keys objects) p (root.toList ++ e.key.toList ++ ['/'])
  keys_sound : ∀ e ∈ out, e.isDir = false → e.key ≠ "" ∧ p <+: root.toList ++ e.key.toList ∧
    ∃ data, objects.get? (root ++ e.key) = some data ∧ data.length = e.size
  ordered : ∀ a e b, out = a ++ e :: b → ∀ name : String, name.toList ++ ['/'] <+: e.key.toList →
    name ∈ seen.dirs ∨ name ∈ dirKeys a

/-- Everything under a directory has been reported. -/
structure Complete (q : List Char) (seen : Seen) : Prop where
  dirs : ∀ name : String, Dir '/' (Keys objects) q (root.toList ++ name.toList ++ ['/']) → name ∈ seen.dirs
  keys : ∀ key : String, key ≠ "" → objects.has (root ++ key) = true → q <+: root.toList ++ key.toList → key ∈ seen.keys

/-- A directory under the prefix that has been reported is complete. -/
def Settled (p : List Char) (seen : Seen) : Prop :=
  ∀ name : String, Dir '/' (Keys objects) p (root.toList ++ name.toList ++ ['/']) → name ∈ seen.dirs →
    Complete objects root (root.toList ++ name.toList ++ ['/']) seen

/-- The directories on the way to the prefix have been reported. -/
def Entered (p : List Char) (seen : Seen) : Prop :=
  ∀ name : String, root.toList ++ name.toList ++ ['/'] <+: p → name ∈ seen.dirs

/-- No directory that the keys imply has an empty last name. -/
def Tidy : Prop :=
  ∀ y, Dir '/' (Keys objects) root.toList (root.toList ++ y ++ ['/']) → y ≠ [] ∧ y.getLast? ≠ some '/'

variable {objects root} {p : List Char} {seen seen' seen'' : Seen} {out out' : List ObjectInfo}

theorem Reports.nil : Reports objects root p seen [] seen where
  seen_eq := by simp [Seen.add, dirKeys, fileKeys]
  dirs_nodup h := h
  keys_nodup h := h
  dirs_sound e he := by cases he
  keys_sound e he := by cases he
  ordered a e b h := absurd h (by simp)

theorem Reports.append (h : Reports objects root p seen out seen') (h' : Reports objects root p seen' out' seen'') :
    Reports objects root p seen (out ++ out') seen'' where
  seen_eq := by rw [Seen.add_append, ← h.seen_eq, h'.seen_eq]
  dirs_nodup hseen := h'.dirs_nodup (h.dirs_nodup hseen)
  keys_nodup hseen := h'.keys_nodup (h.keys_nodup hseen)
  dirs_sound e he := (List.mem_append.1 he).elim (h.dirs_sound e) (h'.dirs_sound e)
  keys_sound e he := (List.mem_append.1 he).elim (h.keys_sound e) (h'.keys_sound e)
  ordered a e b heq name hname := by
    rcases List.append_eq_append_iff.1 heq with ⟨more, ha, hout'⟩ | ⟨more, hout, hb⟩
    · rcases h'.ordered more e b hout' name hname with hseen | hmore
      · rw [h.seen_eq, Seen.add, List.mem_append] at hseen
        rw [ha, dirKeys_append, List.mem_append]
        exact hseen.imp_right Or.inl
      · rw [ha, dirKeys_append, List.mem_append]
        exact .inr (.inr hmore)
    · cases more with
      | nil =>
        rw [List.append_nil] at hout
        rcases h'.ordered [] e b hb.symm name hname with hseen | hmore
        · rw [h.seen_eq, Seen.add, List.mem_append, hout] at hseen
          exact hseen
        · simp [dirKeys] at hmore
      | cons e' more =>
        obtain ⟨rfl, -⟩ := List.cons.inj hb
        exact h.ordered a e more hout name hname

theorem Reports.weaken {c : List Char} (h : Reports objects root c seen out seen') (hpc : p <+: c) :
    Reports objects root p seen out seen' where
  seen_eq := h.seen_eq
  dirs_nodup := h.dirs_nodup
  keys_nodup := h.keys_nodup
  dirs_sound e he hdir := (h.dirs_sound e he hdir).imp_right fun hq => hq.weaken hpc
  keys_sound e he hfile := (h.keys_sound e he hfile).imp_right fun hk => hk.imp_left hpc.trans
  ordered := h.ordered

theorem Complete.mono {q : List Char} (h : Complete objects root q seen) (hreports : Reports objects root p seen out seen') :
    Complete objects root q seen' where
  dirs name hname := by
    rw [hreports.seen_eq]
    exact List.mem_append_left _ (h.dirs name hname)
  keys key hne hhas hpre := by
    rw [hreports.seen_eq]
    exact List.mem_append_left _ (h.keys key hne hhas hpre)

theorem Entered.mono (h : Entered root p seen) {r : List Char} (hreports : Reports objects root r seen out seen') :
    Entered root p seen' := fun name hname => by
  rw [hreports.seen_eq]
  exact List.mem_append_left _ (h name hname)

/-! ## One directory -/

theorem toList_dropFirst (n : Nat) (s : String) : (dropFirst n s).toList = s.toList.drop n := String.toList_ofList

/-- What stands for a common prefix is its name. -/
theorem child_of_dir (htidy : Tidy objects root) {common : String} (h : Dir '/' (Keys objects) root.toList common.toList) :
    root.toList ++ (Text.rstrip '/' (dropFirst root.length common)).toList ++ ['/'] = common.toList := by
  obtain ⟨⟨y, hy⟩, hkey⟩ := h
  have hname : (Text.rstrip '/' (dropFirst root.length common)).toList = y := by
    rw [Text.rstrip, String.toList_ofList, toList_dropFirst, hy, List.append_assoc, ← String.length_toList, List.drop_left,
      List.rdropWhile_concat, if_pos (by simp)]
    rw [List.rdropWhile_eq_self_iff]
    intro hne
    have hlast := (htidy y ⟨⟨y, rfl⟩, by rw [← hy]; exact hkey⟩).2
    simpa [List.getLast?_eq_some_getLast hne] using hlast
  rw [hname, hy]

section Directory

variable {common entry : String}

/-- Where a new directory is entered: it is reported first, and then what is below it. -/
theorem Reports.directory (hgroup : Group '/' (Keys objects) p common.toList)
    (hchild : root.toList ++ entry.toList ++ ['/'] = common.toList) (hentered : Entered root p seen)
    (hnew : entry ∉ seen.dirs)
    (h : Reports objects root common.toList { seen with dirs := seen.dirs ++ [entry] } out seen') :
    Reports objects root p seen (⟨entry, true, 0⟩ :: out) seen' := by
  have hbelow := h.weaken hgroup.1.isPrefix
  have hdirs : ∀ out' : List ObjectInfo, dirKeys (⟨entry, true, 0⟩ :: out') = entry :: dirKeys out' := fun out' => by
    simp [dirKeys]
  have hkeys : fileKeys (⟨entry, true, 0⟩ :: out) = fileKeys out := by simp [fileKeys]
  refine ⟨?_, fun hnodup => ?_, h.keys_nodup, ?_, ?_, ?_⟩
  · rw [h.seen_eq, Seen.add, Seen.add, hdirs, hkeys]
    simp
  · refine h.dirs_nodup ?_
    rw [List.nodup_append]
    refine ⟨hnodup, List.nodup_singleton _, fun name hname name' hname' heq => hnew ?_⟩
    rw [List.mem_singleton.1 hname'] at heq
    exact heq ▸ hname
  · intro e he hdir
    rcases List.mem_cons.1 he with rfl | he
    · exact ⟨rfl, by rw [hchild]; exact hgroup.dir⟩
    · exact hbelow.dirs_sound e he hdir
  · intro e he hfile
    rcases List.mem_cons.1 he with rfl | he
    · cases hfile
    · exact hbelow.keys_sound e he hfile
  · intro a e b heq name hname
    cases a with
    | nil =>
      obtain ⟨rfl, -⟩ := List.cons.inj heq
      obtain ⟨x, hx, hcommon⟩ := hgroup.1
      -- the way to it ends before the last name, so it is one to the prefix
      have hpx : p ++ x = root.toList ++ entry.toList := by
        rw [← hchild] at hcommon
        exact (List.append_cancel_right hcommon).symm
      have hpre : root.toList ++ name.toList ++ ['/'] <+: p ++ x := by
        rw [hpx, List.append_assoc]
        exact (List.prefix_append_right_inj _).2 hname
      exact .inl (hentered name (Delimited.prefix_of_not_mem hx hpre))
    | cons e' a =>
      obtain ⟨rfl, hrest⟩ := List.cons.inj heq
      rcases h.ordered a e b hrest name hname with hseen | hmem
      · rcases List.mem_append.1 hseen with hseen | hseen
        · exact .inl hseen
        · rw [List.mem_singleton.1 hseen, hdirs]
          exact .inr (List.mem_cons_self ..)
      · rw [hdirs]
        exact .inr (List.mem_cons_of_mem _ hmem)

/-- The directory itself is on the way to what is under it. -/
theorem Entered.child (hgroup : Group '/' (Keys objects) p common.toList)
    (hchild : root.toList ++ entry.toList ++ ['/'] = common.toList) (hentered : Entered root p seen) :
    Entered root common.toList { seen with dirs := seen.dirs ++ [entry] } := by
  intro name hname
  obtain ⟨x, hx, hcommon⟩ := hgroup.1
  rw [hcommon] at hname
  rcases List.prefix_concat_iff.1 hname with heq | hpre
  · rw [← hcommon, ← hchild] at heq
    have hname : name = entry := String.toList_injective
      (List.append_cancel_left (List.append_cancel_right heq))
    rw [hname]
    exact List.mem_append_right _ (List.mem_singleton_self _)
  · exact List.mem_append_left _ (hentered name (Delimited.prefix_of_not_mem hx hpre))

theorem Settled.child (hgroup : Group '/' (Keys objects) p common.toList)
    (hchild : root.toList ++ entry.toList ++ ['/'] = common.toList) (hsettled : Settled objects root p seen) :
    Settled objects root common.toList { seen with dirs := seen.dirs ++ [entry] } := by
  intro name hdir hname
  rcases List.mem_append.1 hname with hname | hname
  · have hcomplete := hsettled name (hdir.weaken hgroup.1.isPrefix) hname
    exact ⟨fun name' h => List.mem_append_left _ (hcomplete.dirs name' h), hcomplete.keys⟩
  · have hlong := hdir.length_lt
    rw [List.mem_singleton.1 hname, hchild] at hlong
    exact absurd hlong (Nat.lt_irrefl _)

/-- After it and what is below it, everything that has been reported under the prefix is complete again. -/
theorem Settled.after (hchild : root.toList ++ entry.toList ++ ['/'] = common.toList) (hsettled : Settled objects root p seen)
    (h : Reports objects root p seen (⟨entry, true, 0⟩ :: out) seen')
    (hbelow : Reports objects root common.toList { seen with dirs := seen.dirs ++ [entry] } out seen')
    (hcomplete : Complete objects root common.toList seen') : Settled objects root p seen' := by
  intro name hdir hname
  rw [hbelow.seen_eq, Seen.add] at hname
  rcases List.mem_append.1 hname with hname | hname
  · rcases List.mem_append.1 hname with hname | hname
    · exact (hsettled name hdir hname).mono h
    · rw [List.mem_singleton.1 hname, hchild]
      exact hcomplete
  · -- the directory is below the new one
    obtain ⟨e, he, hisDir, rfl⟩ := mem_dirKeys.1 hname
    have hunder := (hbelow.dirs_sound e he hisDir).2
    obtain ⟨⟨y, hy⟩, -⟩ := hunder
    have hpre : common.toList <+: root.toList ++ e.key.toList ++ ['/'] := ⟨y ++ ['/'], by rw [hy, List.append_assoc]⟩
    exact ⟨fun name' h' => hcomplete.dirs name' (h'.weaken hpre),
      fun key hne hhas hk => hcomplete.keys key hne hhas (hpre.trans hk)⟩

end Directory

/-! ## One page -/

theorem append_dropFirst {k : String} (h : root.toList <+: k.toList) : root ++ dropFirst root.length k = k := by
  obtain ⟨x, hx⟩ := h
  apply String.toList_injective
  rw [String.toList_append, toList_dropFirst, ← hx, ← String.length_toList, List.drop_left]

/-- A key that is listed under the prefix is new, or it has been reported. -/
theorem reportKeys_spec (hroot : root.toList <+: p) (items : List (String × Nat))
    (hitems : ∀ item ∈ items, Direct '/' p item.1.toList ∧ ∃ data, objects.get? item.1 = some data ∧ data.length = item.2)
    (seen : Seen) (hentered : Entered root p seen) :
    Reports objects root p seen (reportKeys root.length items seen).1 (reportKeys root.length items seen).2 ∧
      (reportKeys root.length items seen).2.dirs = seen.dirs ∧
      ∀ item ∈ items, dropFirst root.length item.1 ≠ "" →
        dropFirst root.length item.1 ∈ (reportKeys root.length items seen).2.keys := by
  induction items generalizing seen with
  | nil => exact ⟨.nil, rfl, fun item hitem => by cases hitem⟩
  | cons item items ih =>
    obtain ⟨⟨⟨x, hx, hkey⟩, data, hdata, hlength⟩, hrest⟩ := List.forall_mem_cons.1 hitems
    have hpre : root.toList <+: item.1.toList := by
      rw [hkey]
      exact hroot.trans (List.prefix_append p x)
    rw [reportKeys]
    dsimp only
    by_cases hold : dropFirst root.length item.1 = "" ∨ dropFirst root.length item.1 ∈ seen.keys
    · -- the key is the prefix itself, or it was reported
      rw [if_pos hold]
      obtain ⟨hreports, hdirs, hmem⟩ := ih hrest seen hentered
      refine ⟨hreports, hdirs, List.forall_mem_cons.2 ⟨fun hne => ?_, hmem⟩⟩
      rw [hreports.seen_eq]
      exact List.mem_append_left _ (hold.resolve_left hne)
    · rw [if_neg hold]
      rw [not_or] at hold
      obtain ⟨hreports, hdirs, hmem⟩ :=
        ih hrest { seen with keys := seen.keys ++ [dropFirst root.length item.1] } fun name hname => hentered name hname
      have hfirst : Reports objects root p seen [⟨dropFirst root.length item.1, false, item.2⟩]
          { seen with keys := seen.keys ++ [dropFirst root.length item.1] } := by
        refine ⟨by simp [Seen.add, dirKeys, fileKeys], id, fun hnodup => ?_, ?_, ?_, ?_⟩
        · rw [List.nodup_append]
          refine ⟨hnodup, List.nodup_singleton _, fun key hmem key' hmem' heq => hold.2 ?_⟩
          rw [List.mem_singleton.1 hmem'] at heq
          exact heq ▸ hmem
        · intro e he hdir
          rw [List.mem_singleton.1 he] at hdir
          cases hdir
        · intro e he hfile
          rw [List.mem_singleton.1 he]
          refine ⟨hold.1, ?_, data, by rw [append_dropFirst hpre]; exact hdata, hlength⟩
          rw [← String.toList_append, append_dropFirst hpre, hkey]
          exact List.prefix_append p x
        · -- a key right under the prefix enters no directory
          intro a e b heq name hname
          have hone : e = ⟨dropFirst root.length item.1, false, item.2⟩ := by
            have hmem : e ∈ [(⟨dropFirst root.length item.1, false, item.2⟩ : ObjectInfo)] := by
              rw [heq]
              exact List.mem_append_right _ (List.mem_cons_self ..)
            exact List.mem_singleton.1 hmem
          rw [hone] at hname
          have hway : root.toList ++ name.toList ++ ['/'] <+: p ++ x := by
            rw [← hkey, ← append_dropFirst hpre, String.toList_append, List.append_assoc]
            exact (List.prefix_append_right_inj _).2 hname
          exact .inl (hentered name (Delimited.prefix_of_not_mem hx hway))
      refine ⟨hfirst.append hreports, hdirs, List.forall_mem_cons.2 ⟨fun _ => ?_, hmem⟩⟩
      rw [hreports.seen_eq]
      exact List.mem_append_left _ (List.mem_append_right _ (List.mem_singleton_self _))

variable (list : Listing)

/-- With enough fuel, and with whatever more, the walk of a prefix ends with everything under it reported. -/
def Walks (objects : Bucket) (root start : String) (seen : Seen) : Prop :=
  ∃ fuel out seen', (∀ fuel', fuel ≤ fuel' → walkPrefix list root.length fuel' start none seen = some (out, seen')) ∧
    Reports objects root start.toList seen out seen' ∧ Complete objects root start.toList seen'

variable {list}

/-- The common prefixes of a page, each of which can be walked. -/
theorem reportDirs_spec (htidy : Tidy objects root) (hroot : root.toList <+: p)
    (hbelow : ∀ common : String, Group '/' (Keys objects) p common.toList → ∀ seen,
      Settled objects root common.toList seen → Entered root common.toList seen → Walks list objects root common seen)
    (commons : List String) (hcommons : ∀ common ∈ commons, Group '/' (Keys objects) p common.toList) (seen : Seen)
    (hsettled : Settled objects root p seen) (hentered : Entered root p seen) :
    ∃ fuel out seen', (∀ fuel', fuel ≤ fuel' → reportDirs root.length
        (fun common seen => walkPrefix list root.length fuel' common none seen) commons seen = some (out, seen')) ∧
      Reports objects root p seen out seen' ∧ Settled objects root p seen' ∧
      ∀ common ∈ commons, Text.rstrip '/' (dropFirst root.length common) ∈ seen'.dirs := by
  induction commons generalizing seen with
  | nil => exact ⟨0, [], seen, fun _ _ => rfl, .nil, hsettled, fun common h => by cases h⟩
  | cons common commons ih =>
    obtain ⟨hgroup, hrest⟩ := List.forall_mem_cons.1 hcommons
    have hchild := child_of_dir htidy (hgroup.dir.weaken hroot)
    by_cases hold : Text.rstrip '/' (dropFirst root.length common) ∈ seen.dirs
    · obtain ⟨fuel, out, seen', hruns, hreports, hsettled', hmem⟩ := ih hrest seen hsettled hentered
      refine ⟨fuel, out, seen', fun fuel' hfuel => ?_, hreports, hsettled', List.forall_mem_cons.2 ⟨?_, hmem⟩⟩
      · rw [reportDirs, if_pos hold]
        exact hruns fuel' hfuel
      · rw [hreports.seen_eq]
        exact List.mem_append_left _ hold
    · obtain ⟨fuel₁, below, seen₁, hwalk, hunder, hcomplete⟩ :=
        hbelow common hgroup _ (hsettled.child hgroup hchild) (hentered.child hgroup hchild)
      have hdir := Reports.directory hgroup hchild hentered hold hunder
      have hsettled₁ := hsettled.after hchild hdir hunder hcomplete
      obtain ⟨fuel₂, more, seen', hruns, hreports, hsettled', hmem⟩ := ih hrest seen₁ hsettled₁ (hentered.mono hdir)
      refine ⟨max fuel₁ fuel₂, _ :: below ++ more, seen', fun fuel' hfuel => ?_, hdir.append hreports, hsettled',
        List.forall_mem_cons.2 ⟨?_, hmem⟩⟩
      · rw [reportDirs, if_neg hold]
        rw [hwalk fuel' ((le_max_left ..).trans hfuel), Option.bind_some, hruns fuel' ((le_max_right ..).trans hfuel)]
        rfl
      · rw [hreports.seen_eq, hdir.seen_eq]
        exact List.mem_append_left _ (List.mem_append_right _ (mem_dirKeys.2 ⟨_, List.mem_cons_self .., rfl, rfl⟩))

/-! ## All pages of a prefix -/

theorem Settled.mono (h : Settled objects root p seen) (hreports : Reports objects root p seen out seen')
    (hdirs : seen'.dirs = seen.dirs) : Settled objects root p seen' := fun name hdir hname =>
  (h name hdir (hdirs ▸ hname)).mono hreports

/-- What a page shows has been reported. -/
structure Shown (root : String) (page : Page) (seen : Seen) : Prop where
  dirs : ∀ common ∈ page.prefixes, Text.rstrip '/' (dropFirst root.length common) ∈ seen.dirs
  keys : ∀ item ∈ page.contents, dropFirst root.length item.1 ≠ "" → dropFirst root.length item.1 ∈ seen.keys

theorem Shown.mono {page : Page} (h : Shown root page seen) (hreports : Reports objects root p seen out seen') :
    Shown root page seen' := by
  rw [hreports.seen_eq]
  exact ⟨fun common hcommon => List.mem_append_left _ (h.dirs common hcommon),
    fun item hitem hne => List.mem_append_left _ (h.keys item hitem hne)⟩

variable {start : String}

theorem pages_spec (htidy : Tidy objects root) (hroot : root.toList <+: start.toList)
    (hbelow : ∀ common : String, Group '/' (Keys objects) start.toList common.toList → ∀ seen,
      Settled objects root common.toList seen → Entered root common.toList seen → Walks list objects root common seen)
    {token : Option String} {pages : List Page} (hchain : Chain list start token pages)
    (hprefixes : ∀ page ∈ pages, ∀ common ∈ page.prefixes, Group '/' (Keys objects) start.toList common.toList)
    (hcontents : ∀ page ∈ pages, ∀ item ∈ page.contents, Direct '/' start.toList item.1.toList ∧
      ∃ data, objects.get? item.1 = some data ∧ data.length = item.2)
    (seen : Seen) (hsettled : Settled objects root start.toList seen) (hentered : Entered root start.toList seen) :
    ∃ fuel out seen', (∀ fuel', fuel ≤ fuel' → walkPrefix list root.length fuel' start token seen = some (out, seen')) ∧
      Reports objects root start.toList seen out seen' ∧ Settled objects root start.toList seen' ∧
      ∀ page ∈ pages, Shown root page seen' := by
  induction hchain generalizing seen with
  | @last token hnext =>
    obtain ⟨fuel, dirs, seen₁, hruns, hdirs, hsettled₁, hshown⟩ :=
      reportDirs_spec htidy hroot hbelow _ (hprefixes _ (List.mem_singleton_self _)) seen hsettled hentered
    obtain ⟨hkeys, hsame, hlisted⟩ :=
      reportKeys_spec hroot _ (hcontents _ (List.mem_singleton_self _)) seen₁ (hentered.mono hdirs)
    refine ⟨fuel + 1, _, _, fun fuel' hfuel => ?_, hdirs.append hkeys, hsettled₁.mono hkeys hsame,
      fun page hpage => ?_⟩
    · obtain ⟨fuel', rfl⟩ := Nat.exists_eq_add_of_le' hfuel
      rw [show fuel' + (fuel + 1) = fuel' + fuel + 1 by omega, walkPrefix]
      dsimp only
      rw [hruns _ (Nat.le_add_left fuel fuel'), Option.bind_some, hnext]
    · rw [List.mem_singleton.1 hpage]
      refine ⟨fun common hcommon => ?_, hlisted⟩
      rw [hkeys.seen_eq]
      exact List.mem_append_left _ (hshown common hcommon)
  | @more token next pages hnext hne _ ih =>
    obtain ⟨hcommon, hprefixes⟩ := List.forall_mem_cons.1 hprefixes
    obtain ⟨hcontent, hcontents⟩ := List.forall_mem_cons.1 hcontents
    obtain ⟨fuel₁, dirs, seen₁, hruns, hdirs, hsettled₁, hshown⟩ :=
      reportDirs_spec htidy hroot hbelow _ hcommon seen hsettled hentered
    obtain ⟨hkeys, hsame, hlisted⟩ := reportKeys_spec hroot _ hcontent seen₁ (hentered.mono hdirs)
    obtain ⟨fuel₂, more, seen', hwalk, hmore, hsettled', hpages⟩ := ih hprefixes hcontents _
      (hsettled₁.mono hkeys hsame) ((hentered.mono hdirs).mono hkeys)
    have hfirst : Shown root (list start token) (reportKeys root.length (list start token).contents seen₁).2 := by
      refine ⟨fun common hcommon => ?_, hlisted⟩
      rw [hsame]
      exact hshown common hcommon
    refine ⟨max fuel₁ fuel₂ + 1, _, seen', fun fuel' hfuel => ?_, (hdirs.append hkeys).append hmore,
      hsettled', List.forall_mem_cons.2 ⟨hfirst.mono hmore, hpages⟩⟩
    obtain ⟨fuel', rfl⟩ := Nat.exists_eq_add_of_le' hfuel
    rw [show fuel' + (max fuel₁ fuel₂ + 1) = fuel' + max fuel₁ fuel₂ + 1 by omega, walkPrefix]
    dsimp only
    rw [hruns _ (by omega), Option.bind_some, hnext]
    dsimp only
    rw [if_neg hne, hwalk _ (by omega)]
    rfl

/-- A prefix all of whose pages have been reported is complete. -/
theorem complete_of_shown (htidy : Tidy objects root) (hroot : root.toList <+: start.toList) {pages : List Page}
    (hprefixes : ∀ common : String, Group '/' (Keys objects) start.toList common.toList → ∃ page ∈ pages, common ∈ page.prefixes)
    (hcontents : ∀ (key : String) n, Direct '/' start.toList key.toList →
      (∃ data, objects.get? key = some data ∧ data.length = n) → ∃ page ∈ pages, (key, n) ∈ page.contents)
    (hsettled : Settled objects root start.toList seen) (hshown : ∀ page ∈ pages, Shown root page seen) :
    Complete objects root start.toList seen := by
  have hgroups : ∀ c, Group '/' (Keys objects) start.toList c → Complete objects root c seen ∧
      ∀ name : String, root.toList ++ name.toList ++ ['/'] = c → name ∈ seen.dirs := by
    intro c hgroup
    have hc : (String.ofList c).toList = c := String.toList_ofList
    rw [← hc] at hgroup
    obtain ⟨page, hpage, hmem⟩ := hprefixes _ hgroup
    have hchild := child_of_dir htidy (hgroup.dir.weaken hroot)
    have hdir := hgroup.dir
    rw [← hchild] at hdir
    have hcomplete := hsettled _ hdir ((hshown page hpage).dirs _ hmem)
    rw [hchild, hc] at hcomplete
    refine ⟨hcomplete, fun name hname => ?_⟩
    have hlists := hname.trans (hc.symm.trans hchild.symm)
    rw [String.toList_injective (List.append_cancel_left (List.append_cancel_right hlists))]
    exact (hshown page hpage).dirs _ hmem
  constructor
  · intro name hname
    obtain ⟨c, hgroup, heq | hbelow⟩ := Delimited.dir_iff.1 hname
    · exact (hgroups c hgroup).2 name heq
    · exact (hgroups c hgroup).1.dirs name hbelow
  · intro key hne hhas hpre
    have hkey : Keys objects (root.toList ++ key.toList) := ⟨root ++ key, hhas, String.toList_append⟩
    rcases Delimited.direct_or_group hkey hpre with hdirect | ⟨c, hgroup, hunder⟩
    · rw [← String.toList_append] at hdirect
      obtain ⟨data, hdata⟩ := Option.isSome_iff_exists.1 hhas
      obtain ⟨page, hpage, hmem⟩ := hcontents _ _ hdirect ⟨data, hdata, rfl⟩
      have hrel : dropFirst root.length (root ++ key) = key := by
        apply String.toList_injective
        rw [toList_dropFirst, String.toList_append, ← String.length_toList, List.drop_left]
      have hreported := (hshown page hpage).keys _ hmem
      rw [hrel] at hreported
      exact hreported hne
    · exact (hgroups c hgroup).1.keys key hne hhas hunder

/-! ## The whole walk -/

/-- No key is longer. -/
theorem exists_length_bound (objects : Bucket) : ∃ bound, ∀ k, Keys objects k → k.length ≤ bound := by
  refine ⟨((objects.entries.map fun e => e.1.toList.length).foldr max 0), ?_⟩
  rintro k ⟨key, hhas, rfl⟩
  have hmem := Dict.has_iff.1 hhas
  generalize objects.entries = entries at hmem
  induction entries with
  | nil => cases hmem
  | cons e entries ih =>
    rw [List.map_cons, List.foldr_cons]
    rcases List.mem_cons.1 hmem with rfl | hmem
    · exact le_max_left ..
    · exact (ih hmem).trans (le_max_right ..)

theorem walks (hlist : Conforms list objects) (htidy : Tidy objects root) (start : String)
    (hroot : root.toList <+: start.toList) (seen : Seen) (hsettled : Settled objects root start.toList seen)
    (hentered : Entered root start.toList seen) : Walks list objects root start seen := by
  obtain ⟨bound, hbound⟩ := exists_length_bound objects
  -- the groups of a prefix are longer than it, and no longer than the longest key
  induction hn : bound + 1 - start.length using Nat.strong_induction_on generalizing start seen with
  | _ n ih =>
    subst hn
    obtain ⟨pages, hchain, hprefixes, hcontents⟩ := hlist.pages start
    have hbelow : ∀ common : String, Group '/' (Keys objects) start.toList common.toList → ∀ seen,
        Settled objects root common.toList seen → Entered root common.toList seen →
          Walks list objects root common seen := by
      intro common hgroup seen hsettled hentered
      obtain ⟨k, hk, hpre⟩ := hgroup.2
      have hlonger := hgroup.1.length_lt
      have hshort := hpre.length_le.trans (hbound k hk)
      rw [String.length_toList, String.length_toList] at hlonger
      rw [String.length_toList] at hshort
      exact ih _ (by omega) common (hroot.trans hgroup.1.isPrefix) seen hsettled hentered rfl
    obtain ⟨fuel, out, seen', hwalk, hreports, hsettled', hshown⟩ := pages_spec htidy hroot hbelow hchain
      (fun page hpage common hcommon => (hprefixes common).1 ⟨page, hpage, hcommon⟩)
      (fun page hpage item hitem => (hcontents item.1 item.2).1 ⟨page, hpage, hitem⟩) seen hsettled hentered
    exact ⟨fuel, out, seen', hwalk, hreports, complete_of_shown htidy hroot (fun common => (hprefixes common).2)
      (fun key n hdirect hdata => (hcontents key n).2 ⟨hdirect, hdata⟩) hsettled' hshown⟩

/-- The listing of a whole store: every object but one of an empty key, and every implied directory, each once, and a
directory before anything under it. -/
structure Lists (objects : Bucket) (root : String) (out : List ObjectInfo) : Prop where
  once : (out.map fun e => (e.isDir, e.key)).Nodup
  files : ∀ key size, ⟨key, false, size⟩ ∈ out ↔ key ≠ "" ∧ ∃ data, objects.get? (root ++ key) = some data ∧ data.length = size
  dirs : ∀ name size, ⟨name, true, size⟩ ∈ out ↔ size = 0 ∧ ∃ key, objects.has (root ++ name ++ "/" ++ key) = true
  ordered : ∀ a e b, out = a ++ e :: b → ∀ name : String, Text.startsWith (name ++ "/") e.key = true →
    ⟨name, true, 0⟩ ∈ a

theorem nodup_of_reports (h : Reports objects root p {} out seen') : (out.map fun e => (e.isDir, e.key)).Nodup := by
  have hdirs : (dirKeys out).Nodup := by
    have hnodup := h.dirs_nodup List.nodup_nil
    rw [h.seen_eq] at hnodup
    exact hnodup
  have hkeys : (fileKeys out).Nodup := by
    have hnodup := h.keys_nodup List.nodup_nil
    rw [h.seen_eq] at hnodup
    exact hnodup
  clear h
  induction out with
  | nil => exact List.nodup_nil
  | cons e out ih =>
    rw [List.map_cons, List.nodup_cons]
    cases hdir : e.isDir with
    | true =>
      have hcons : dirKeys (e :: out) = e.key :: dirKeys out := by simp [dirKeys, hdir]
      have hsame : fileKeys (e :: out) = fileKeys out := by simp [fileKeys, hdir]
      rw [hcons, List.nodup_cons] at hdirs
      rw [hsame] at hkeys
      refine ⟨fun hmem => hdirs.1 ?_, ih hdirs.2 hkeys⟩
      obtain ⟨e', he', heq⟩ := List.mem_map.1 hmem
      exact mem_dirKeys.2 ⟨e', he', (Prod.mk.inj heq).1, (Prod.mk.inj heq).2⟩
    | false =>
      have hcons : fileKeys (e :: out) = e.key :: fileKeys out := by simp [fileKeys, hdir]
      have hsame : dirKeys (e :: out) = dirKeys out := by simp [dirKeys, hdir]
      rw [hcons, List.nodup_cons] at hkeys
      rw [hsame] at hdirs
      refine ⟨fun hmem => hkeys.1 ?_, ih hdirs hkeys.2⟩
      obtain ⟨e', he', heq⟩ := List.mem_map.1 hmem
      exact mem_fileKeys.2 ⟨e', he', (Prod.mk.inj heq).1, (Prod.mk.inj heq).2⟩

theorem lists_of_reports (h : Reports objects root root.toList {} out seen') (hcomplete : Complete objects root root.toList seen') :
    Lists objects root out := by
  have hseen : seen' = ⟨dirKeys out, fileKeys out⟩ := h.seen_eq
  have hslash : ("/" : String).toList = ['/'] := rfl
  refine ⟨nodup_of_reports h, fun key size => ⟨fun hmem => ?_, ?_⟩, fun name size => ⟨fun hmem => ?_, ?_⟩, ?_⟩
  · obtain ⟨hne, -, hdata⟩ := h.keys_sound _ hmem rfl
    exact ⟨hne, hdata⟩
  · rintro ⟨hne, data, hdata, rfl⟩
    have hreported := hcomplete.keys key hne (by rw [Dict.has, hdata]; rfl) (List.prefix_append _ _)
    rw [hseen] at hreported
    obtain ⟨⟨key', isDir, size⟩, he, hfile, hkey⟩ := mem_fileKeys.1 hreported
    obtain ⟨-, -, data', hdata', hlength⟩ := h.keys_sound _ he hfile
    dsimp only at hfile hkey hdata' hlength
    subst hkey hfile
    rw [hdata] at hdata'
    cases hdata'
    rw [hlength]
    exact he
  · obtain ⟨hzero, -, k, ⟨key, hhas, rfl⟩, z, hz⟩ := h.dirs_sound _ hmem rfl
    refine ⟨hzero, String.ofList z, ?_⟩
    have hkey : root ++ name ++ "/" ++ String.ofList z = key := by
      apply String.toList_injective
      rw [← hz, String.toList_append, String.toList_append, String.toList_append, hslash, String.toList_ofList]
    rw [hkey]
    exact hhas
  · rintro ⟨rfl, key, hhas⟩
    have hdir : Dir '/' (Keys objects) root.toList (root.toList ++ name.toList ++ ['/']) := by
      refine ⟨⟨name.toList, rfl⟩, _, ⟨_, hhas, rfl⟩, key.toList, ?_⟩
      rw [String.toList_append, String.toList_append, String.toList_append, hslash]
    have hreported := hcomplete.dirs name hdir
    rw [hseen] at hreported
    obtain ⟨⟨name', isDir, size⟩, he, hisDir, hname⟩ := mem_dirKeys.1 hreported
    have hzero := (h.dirs_sound _ he hisDir).1
    dsimp only at hisDir hname hzero
    subst hisDir hname hzero
    exact he
  · intro a e b heq name hname
    have hpre : name.toList ++ ['/'] <+: e.key.toList := by
      rw [Text.startsWith, List.isPrefixOf_iff_prefix, String.toList_append, hslash] at hname
      exact hname
    rcases h.ordered a e b heq name hpre with hnil | hmem
    · cases hnil
    · obtain ⟨⟨name', isDir, size⟩, he, hisDir, hname'⟩ := mem_dirKeys.1 hmem
      have hzero := (h.dirs_sound _ (heq ▸ List.mem_append_left _ he) hisDir).1
      dsimp only at hisDir hname' hzero
      subst hisDir hname' hzero
      exact he

/-- Against a conforming server, the walk from a root with tidy keys ends and lists the store. -/
theorem walk_lists (hlist : Conforms list objects) (htidy : Tidy objects root) :
    ∃ fuel out, (∀ fuel', fuel ≤ fuel' →
      (walkPrefix list root.length fuel' root none {}).map Prod.fst = some out) ∧ Lists objects root out := by
  obtain ⟨fuel, out, seen', hwalk, hreports, hcomplete⟩ := walks hlist htidy root (List.prefix_refl _) {}
    (fun name _ hname => by cases hname) fun name hname => by
      have hlong := hname.length_le
      simp only [List.length_append, List.length_singleton] at hlong
      omega
  exact ⟨fuel, out, fun fuel' hfuel => by rw [hwalk fuel' hfuel]; rfl, lists_of_reports hreports hcomplete⟩

end Walk

end OpenFish.Objects
