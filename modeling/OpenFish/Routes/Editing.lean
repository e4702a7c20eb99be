/-
Editing a route: every normaliser takes what it has made for what it is, so that an edit changes the fields its body
names and no other, and a row is read back as the entry that was stored in it, undeclared modalities apart.
-/
import OpenFish.Lib.Effect
import OpenFish.Routes.Entry

namespace OpenFish.Routes

open Lib

/-! ## Texts -/

theorem textOr_str (render : Json → String) (s : String) : (Json.str s).textOr render = s := by
  unfold Json.textOr Json.truthy
  by_cases hs : s = ""
  · simp [hs]
  · simp [hs, Json.text]

@[simp] theorem text_str (host : Host) (s : String) : host.text (.str s) = Text.strip s := by
  rw [Host.text, textOr_str]

@[simp] theorem strip_text (host : Host) (value : Json) : Text.strip (host.text value) = host.text value :=
  Text.strip_strip _

/-- A word that stands as it is in a vocabulary. -/
def plainWord (w : String) : Bool :=
  w ≠ "" ∧ w.toList.all fun c => c.toNat < 128 && c.toLower == c && !Text.isSpace c

theorem plainWord_ne {w : String} (h : plainWord w = true) : w ≠ "" := (of_decide_eq_true h).1

theorem strip_plainWord {w : String} (h : plainWord w = true) : Text.strip w = w := by
  refine Text.strip_of_forall fun c hc => ?_
  have hat := List.all_eq_true.1 (of_decide_eq_true h).2 c hc
  simp only [Bool.and_eq_true, Bool.not_eq_true'] at hat
  exact hat.2

theorem lower_plainWord (host : Host) {w : String} (h : plainWord w = true) : host.unicode.lower w = w := by
  have hat := List.all_eq_true.1 (of_decide_eq_true h).2
  simp only [Bool.and_eq_true, beq_iff_eq, decide_eq_true_eq] at hat
  rw [host.unicode.lower_ascii w fun c hc => (hat c hc).1.1]
  have hmap : w.toList.map Char.toLower = w.toList :=
    (List.map_congr_left fun c hc => (hat c hc).1.2).trans (List.map_id' _)
  rw [hmap, String.ofList_toList]

theorem plainWord_of_mem (vocabulary : List String) (hv : vocabulary.all plainWord = true) {w : String}
    (h : w ∈ vocabulary) : plainWord w = true :=
  List.all_eq_true.1 hv w h

/-! ## One normaliser after the other -/

theorem normalizeProvider_mem {host : Host} {value : Json} {provider : String}
    (h : normalizeProvider host value = .ok provider) : provider ∈ providers := by
  unfold normalizeProvider at h
  dsimp only at h
  split at h
  · rename_i hmem
    exact Except.ok.inj h ▸ hmem
  · cases h

theorem normalizeProvider_self (host : Host) {provider : String} (h : provider ∈ providers) :
    normalizeProvider host (.str provider) = .ok provider := by
  have hplain := plainWord_of_mem providers (by decide) h
  have halias : ∀ p ∈ providers, (providerAliases.lookup p).getD p = p := by decide
  unfold normalizeProvider canonicalProvider
  rw [text_str, strip_plainWord hplain]
  dsimp only
  rw [if_neg (plainWord_ne hplain), lower_plainWord host hplain, halias provider h, if_pos h]

theorem defaultKind_mem (host : Host) (provider : String) : defaultKind host provider ∈ kinds := by
  have hall : ∀ k, defaultKinds.lookup k = some "chat" ∨ defaultKinds.lookup k = none := by
    intro k
    simp only [defaultKinds, List.lookup_cons]
    split
    · exact .inl rfl
    · split
      · exact .inl rfl
      · exact .inr rfl
  unfold defaultKind
  rcases hall (canonicalProvider host (.str provider) "openai") with h | h <;> rw [h] <;> decide

theorem normalizeKind_mem {host : Host} {value : Json} {provider kind : String}
    (h : normalizeKind host value provider = .ok kind) : kind ∈ kinds := by
  unfold normalizeKind at h
  dsimp only at h
  split at h
  · exact Except.ok.inj h ▸ defaultKind_mem host provider
  · split at h
    · rename_i hmem
      exact Except.ok.inj h ▸ hmem
    · cases h

theorem normalizeKind_self (host : Host) {kind : String} (h : kind ∈ kinds) (provider : String) :
    normalizeKind host (.str kind) provider = .ok kind := by
  have hplain := plainWord_of_mem kinds (by decide) h
  unfold normalizeKind
  rw [text_str, strip_plainWord hplain, lower_plainWord host hplain]
  dsimp only
  rw [if_neg (plainWord_ne hplain), if_pos h]

/-- A normaliser that looks at nothing but the stripped text, and answers it. -/
structure Strips (host : Host) (f : Json → Except RouteError String) : Prop where
  text : ∀ v w, host.text v = host.text w → f v = f w
  answer : ∀ v s, f v = .ok s → s = host.text v

theorem Strips.self {host : Host} {f : Json → Except RouteError String} (hf : Strips host f) {value : Json} {s : String}
    (h : f value = .ok s) : f (.str s) = .ok s := by
  have hs := hf.answer value s h
  rw [← h]
  refine hf.text _ _ ?_
  rw [text_str, hs, strip_text]

theorem normalizeName_strips (host : Host) : Strips host (normalizeName host) := by
  refine ⟨fun v w h => by unfold normalizeName; rw [h], fun v s h => ?_⟩
  unfold normalizeName at h
  dsimp only at h
  split at h
  · cases h
  · split at h
    · cases h
    · split at h
      · cases h
      · split at h
        · cases h
        · exact (Except.ok.inj h).symm

theorem normalizeDescription_strips (host : Host) : Strips host (normalizeDescription host) := by
  refine ⟨fun v w h => by unfold normalizeDescription; rw [h], fun v s h => ?_⟩
  unfold normalizeDescription at h
  dsimp only at h
  split at h
  · cases h
  · split at h
    · cases h
    · exact (Except.ok.inj h).symm

theorem normalizeBaseUrl_strips (host : Host) : Strips host (normalizeBaseUrl host) := by
  refine ⟨fun v w h => by unfold normalizeBaseUrl; rw [h], fun v s h => ?_⟩
  unfold normalizeBaseUrl at h
  dsimp only at h
  split at h
  · cases h
  · split at h
    · cases h
    · split at h
      · cases h
      · exact (Except.ok.inj h).symm

/-! ### Paths -/

/-- What `normalize_path` answers. -/
structure StoredPath (path : String) : Prop where
  rooted : Text.startsWith "/" path = true
  stripped : Text.strip path = path

theorem strip_rooted {path : String} (hs : Text.strip path = path) (hne : path ≠ "") :
    Text.strip ("/" ++ path) = "/" ++ path := by
  have hlist : ((path.toList.dropWhile Text.isSpace).rdropWhile Text.isSpace) = path.toList := by
    have := congrArg String.toList hs
    rwa [Text.strip, String.toList_ofList] at this
  have hnil : path.toList ≠ [] := fun h => hne (String.toList_inj.1 (by rw [h]; rfl))
  have hlast : ¬ Text.isSpace (path.toList.getLast hnil) = true := by
    have hself : path.toList.rdropWhile Text.isSpace = path.toList := by
      refine (List.rdropWhile_prefix _ _).eq_of_length_le ?_
      -- nothing is dropped at the end once nothing is dropped at the start
      have hdrop : path.toList.dropWhile Text.isSpace = path.toList := by
        refine (List.dropWhile_suffix _).eq_of_length_le ?_
        have hle := (List.rdropWhile_prefix Text.isSpace (path.toList.dropWhile Text.isSpace)).length_le
        rwa [hlist] at hle
      rw [hdrop] at hlist
      rw [hlist]
    exact List.rdropWhile_eq_self_iff.1 hself hnil
  have hcons : ("/" ++ path).toList = '/' :: path.toList := String.toList_append
  have hdrop : ('/' :: path.toList).dropWhile Text.isSpace = '/' :: path.toList :=
    List.dropWhile_cons_of_neg (by decide)
  have hrdrop : ('/' :: path.toList).rdropWhile Text.isSpace = '/' :: path.toList :=
    List.rdropWhile_eq_self_iff.2 fun _ => by rw [List.getLast_cons hnil]; exact hlast
  rw [Text.strip, hcons, hdrop, hrdrop, ← hcons, String.ofList_toList]

theorem normalizePath_stored (host : Host) (value : Json) (provider : String) :
    StoredPath (normalizePath host value provider) := by
  have hdefault : StoredPath ((defaultPaths.lookup provider).getD "/v1/chat/completions") := by
    simp only [defaultPaths, List.lookup_cons]
    split
    · exact ⟨by decide, by decide⟩
    · split
      · exact ⟨by decide, by decide⟩
      · exact show StoredPath "/v1/chat/completions" from ⟨by decide, by decide⟩
  unfold normalizePath
  dsimp only
  split
  · exact hdefault
  · rename_i hne
    split
    · rename_i hroot
      exact ⟨hroot, strip_text host value⟩
    · refine ⟨?_, strip_rooted (strip_text host value) hne⟩
      unfold Text.startsWith
      rw [String.toList_append]
      rfl

theorem normalizePath_self (host : Host) {path : String} (h : StoredPath path) (provider : String) :
    normalizePath host (.str path) provider = path := by
  have hne : path ≠ "" := by
    rintro rfl
    exact absurd h.rooted (by decide)
  unfold normalizePath
  rw [text_str, h.stripped]
  dsimp only
  rw [if_neg hne, if_pos h.rooted]

/-! ### Aliases -/

/-- What `normalize_aliases` answers. -/
structure StoredAliases (aliases : List String) : Prop where
  nodup : aliases.Nodup
  texts : ∀ text ∈ aliases, Text.strip text = text ∧ text ≠ ""

theorem itemTexts_texts (host : Host) (message : String) (items : List String) :
    itemTexts host message (texts items) = .ok items := by
  have hself : (items.map Json.str).map (Json.textOr host.str) = items := by
    rw [List.map_map]
    exact (List.map_congr_left fun item _ => textOr_str host.str item).trans (List.map_id' _)
  exact congrArg Except.ok hself

theorem distinctTexts_spec (items seen : List String) :
    (distinctTexts seen items).Nodup ∧ ∀ text ∈ distinctTexts seen items,
      text ∉ seen ∧ Text.strip text = text ∧ text ≠ "" := by
  induction items generalizing seen with
  | nil => exact ⟨List.nodup_nil, fun _ h => absurd h List.not_mem_nil⟩
  | cons item items ih =>
    unfold distinctTexts
    dsimp only
    split
    · exact ih seen
    · rename_i hnew
      obtain ⟨hnodup, hrest⟩ := ih (Text.strip item :: seen)
      refine ⟨List.nodup_cons.2 ⟨fun hin => (hrest _ hin).1 (List.mem_cons_self ..), hnodup⟩, fun text htext => ?_⟩
      rcases List.mem_cons.1 htext with rfl | htext
      · exact ⟨fun hseen => hnew (.inr hseen), Text.strip_strip item, fun hempty => hnew (.inl hempty)⟩
      · exact ⟨fun hseen => (hrest text htext).1 (List.mem_cons_of_mem _ hseen), (hrest text htext).2⟩

theorem distinctTexts_self {items seen : List String} (hnodup : items.Nodup)
    (h : ∀ text ∈ items, text ∉ seen ∧ Text.strip text = text ∧ text ≠ "") : distinctTexts seen items = items := by
  induction items generalizing seen with
  | nil => rfl
  | cons item items ih =>
    obtain ⟨hfresh, hnodup⟩ := List.nodup_cons.1 hnodup
    obtain ⟨hseen, hstrip, hne⟩ := h item (List.mem_cons_self ..)
    unfold distinctTexts
    dsimp only
    rw [hstrip, if_neg (by simp [hne, hseen])]
    refine congrArg (item :: ·) (ih hnodup fun text htext => ?_)
    obtain ⟨hseen', htext'⟩ := h text (List.mem_cons_of_mem _ htext)
    refine ⟨fun hin => ?_, htext'⟩
    rcases List.mem_cons.1 hin with rfl | hin
    · exact hfresh htext
    · exact hseen' hin

theorem normalizeAliases_stored {host : Host} {value : Json} {aliases : List String}
    (h : normalizeAliases host value = .ok aliases) : StoredAliases aliases := by
  unfold normalizeAliases at h
  split at h
  · cases h
    exact ⟨List.nodup_nil, fun _ h => absurd h List.not_mem_nil⟩
  · cases hitems : itemTexts host "别名必须是字符串或字符串数组" value with
    | error e => rw [hitems] at h; cases h
    | ok items =>
      rw [hitems] at h
      cases h
      obtain ⟨hnodup, hall⟩ := distinctTexts_spec items []
      exact ⟨hnodup, fun text htext => (hall text htext).2⟩

theorem normalizeAliases_self (host : Host) {aliases : List String} (h : StoredAliases aliases) :
    normalizeAliases host (texts aliases) = .ok aliases := by
  unfold normalizeAliases
  rw [if_neg (show ¬ isBlank (texts aliases) = true from Bool.false_ne_true), itemTexts_texts]
  refine congrArg Except.ok (distinctTexts_self h.nodup fun text htext => ?_)
  exact ⟨List.not_mem_nil, h.texts text htext⟩

/-! ### Capacities -/

def count (number : Option Int) : Json := (number.map Json.int).getD .null

theorem inRange_ok {ceiling n : Int} {label : String} {r : Option Int} (h : inRange ceiling label n = .ok r) :
    r = some n := by
  unfold inRange at h
  split at h
  · cases h; rfl
  · cases h

/-- A capacity is taken for what it is, under every label. -/
theorem positiveTokenCount_self {host : Host} {value : Json} {ceiling : Int} {label : String} {r : Option Int}
    (h : positiveTokenCount host value ceiling label = .ok r) :
    positiveTokenCount host (count r) ceiling label = .ok r := by
  have hself : ∀ n, inRange ceiling label n = .ok r → positiveTokenCount host (count r) ceiling label = .ok r := by
    intro n hn
    have hr := inRange_ok hn
    subst hr
    exact hn
  unfold positiveTokenCount at h
  cases value with
  | null => cases h; rfl
  | int n => exact hself n h
  | str s =>
    dsimp only at h
    split at h
    · cases h; rfl
    · split at h
      · split at h
        · cases h
        · rename_i n _
          exact hself n h
      · cases h
  | bool _ | float _ | arr _ | obj _ => cases h

/-! ### Words of a vocabulary -/

/-- What `wordsNamed` answers: some words of the vocabulary, in its order. -/
def StoredWords (vocabulary words : List String) : Prop := vocabulary.filter (· ∈ words) = words

theorem wordsNamed_stored {host : Host} {vocabulary : List String} {unknown : String → String}
    {items words : List String} (h : wordsNamed host vocabulary unknown items = .ok words) :
    StoredWords vocabulary words := by
  unfold wordsNamed at h
  dsimp only at h
  split at h
  · cases h
  · cases h
    refine List.filter_congr fun word hword => ?_
    simp only [List.mem_filter, hword, true_and, decide_eq_true_eq]

theorem StoredWords.mem {vocabulary words : List String} (h : StoredWords vocabulary words) {word : String}
    (hw : word ∈ words) : word ∈ vocabulary := by
  rw [← h] at hw
  exact List.mem_of_mem_filter hw

theorem wordsNamed_self (host : Host) {vocabulary : List String} (hv : vocabulary.all plainWord = true)
    (unknown : String → String) {words : List String} (h : StoredWords vocabulary words) :
    wordsNamed host vocabulary unknown words = .ok words := by
  have hplain : ∀ word ∈ words, plainWord word = true := fun word hw => plainWord_of_mem _ hv (h.mem hw)
  have hnamed : (words.map fun item => host.unicode.lower (Text.strip item)).filter (· ≠ "") = words := by
    have hmap : (words.map fun item => host.unicode.lower (Text.strip item)) = words := by
      refine (List.map_congr_left fun word hw => ?_).trans (List.map_id' _)
      rw [strip_plainWord (hplain word hw), lower_plainWord host (hplain word hw)]
    rw [hmap, List.filter_eq_self]
    exact fun word hw => decide_eq_true (plainWord_ne (hplain word hw))
  have hknown : words.find? (· ∉ vocabulary) = none :=
    List.find?_eq_none.2 fun word hw => by simpa using h.mem hw
  unfold wordsNamed
  dsimp only
  rw [hnamed, hknown]
  exact congrArg Except.ok h

def modalitiesJson (named : Option (List String)) : Json := (named.map texts).getD .null

/-- What `normalize_modalities` answers: nothing, or some modalities. -/
theorem normalizeModalities_self {host : Host} {value : Json} {named : Option (List String)}
    (h : normalizeModalities host value = .ok named) : normalizeModalities host (modalitiesJson named) = .ok named := by
  unfold normalizeModalities at h
  split at h
  · cases h; rfl
  · obtain ⟨items, -, h⟩ := ok_of_bind h
    obtain ⟨words, hwords, h⟩ := ok_of_bind h
    by_cases hnil : words = []
    · rw [if_pos hnil] at h
      cases h
      rfl
    · rw [if_neg hnil] at h
      cases h
      unfold normalizeModalities
      show (if isBlank (texts words) = true then _ else _) = _
      rw [if_neg (show ¬ isBlank (texts words) = true from Bool.false_ne_true)]
      show (itemTexts host _ (texts words) >>= _) = _
      rw [itemTexts_texts]
      show (wordsNamed host modalities _ words >>= _) = _
      rw [wordsNamed_self host (by decide) _ (wordsNamed_stored hwords)]
      show Except.ok (if words = [] then none else some words) = _
      rw [if_neg hnil]

/-- Undeclared modalities are undeclared as an empty list, too. -/
theorem normalizeModalities_nil (host : Host) : normalizeModalities host (texts []) = .ok none := rfl

theorem normalizeThinkingLevels_stored {host : Host} {value : Json} {efforts : List String}
    (h : normalizeThinkingLevels host value = .ok efforts) : StoredWords thinkingLevels efforts := by
  unfold normalizeThinkingLevels at h
  split at h
  · cases h
    exact show thinkingLevels.filter (· ∈ []) = [] by decide
  · obtain ⟨items, -, h⟩ := ok_of_bind h
    exact wordsNamed_stored h

theorem normalizeThinkingLevels_self (host : Host) {efforts : List String} (h : StoredWords thinkingLevels efforts) :
    normalizeThinkingLevels host (texts efforts) = .ok efforts := by
  unfold normalizeThinkingLevels
  rw [if_neg (show ¬ isBlank (texts efforts) = true from Bool.false_ne_true), itemTexts_texts]
  exact wordsNamed_self host (by decide) _ h

/-! ### Reasoning -/

def formatJson (format : Option String) : Json := (format.map Json.str).getD .null

/-- A dialect that is stored is one of the list, on a route of the OpenAI format. -/
theorem normalizeFormat_stored {host : Host} {value : Json} {provider : String} {format : Option String}
    (h : normalizeFormat host value provider = .ok format) :
    ∀ dialect, format = some dialect → dialect ∈ thinkingFormats ∧ provider = "openai" := by
  unfold normalizeFormat at h
  dsimp only at h
  split at h
  · cases h
    exact fun _ hd => by cases hd
  · split at h
    · cases h
    · rename_i hmem
      split at h
      · cases h
      · rename_i hprovider
        cases h
        intro dialect hd
        cases hd
        exact ⟨not_not.1 hmem, not_not.1 hprovider⟩

/-- A dialect that is stored stays, or is refused for the provider. -/
theorem normalizeFormat_self (host : Host) {format : Option String}
    (h : ∀ dialect, format = some dialect → dialect ∈ thinkingFormats) (provider : String) :
    normalizeFormat host (formatJson format) provider =
      if format = none ∨ provider = "openai" then .ok format
      else .error (.value "思维链方言只适用于 OpenAI 兼容格式；Anthropic 使用原生 thinking 块") := by
  cases format with
  | none =>
    unfold normalizeFormat
    have htext : host.unicode.lower (host.text (formatJson none)) = "" := by
      have hnull : host.text .null = "" := rfl
      show host.unicode.lower (host.text .null) = ""
      rw [hnull, host.unicode.lower_ascii "" (fun c hc => absurd hc (by simp))]
      rfl
    dsimp only
    rw [htext, if_pos rfl, if_pos (.inl rfl)]
  | some dialect =>
    have hmem := h dialect rfl
    have hplain := plainWord_of_mem thinkingFormats (by decide) hmem
    have htext : host.unicode.lower (host.text (formatJson (some dialect))) = dialect := by
      show host.unicode.lower (host.text (.str dialect)) = dialect
      rw [text_str, strip_plainWord hplain, lower_plainWord host hplain]
    unfold normalizeFormat
    dsimp only
    rw [htext, if_neg (plainWord_ne hplain), if_neg (not_not.2 hmem)]
    by_cases hprovider : provider = "openai"
    · rw [if_neg (not_not.2 hprovider), if_pos (.inr hprovider)]
    · rw [if_pos hprovider, if_neg (by simp [hprovider])]

def reasoningJson (reasoning : Option Reasoning) : Json := (reasoning.map (·.json)).getD .null

/-- What `normalize_reasoning` answers. -/
structure StoredReasoning (provider : String) (r : Reasoning) : Prop where
  format : ∀ dialect, r.format = some dialect → dialect ∈ thinkingFormats ∧ provider = "openai"
  efforts : StoredWords thinkingLevels r.efforts
  selectable : r.efforts ≠ [] ∧ r.efforts.all (· = "off") = false

theorem normalizeReasoning_stored {host : Host} {value : Json} {provider : String} {reasoning : Option Reasoning}
    (h : normalizeReasoning host value provider = .ok reasoning) :
    ∀ r, reasoning = some r → StoredReasoning provider r := by
  have hdeclared : ∀ fields, normalizeDeclared host fields provider = .ok reasoning →
      ∀ r, reasoning = some r → StoredReasoning provider r := by
    intro fields h
    unfold normalizeDeclared at h
    split at h
    · obtain ⟨format, hformat, h⟩ := ok_of_bind h
      obtain ⟨efforts, hefforts, h⟩ := ok_of_bind h
      split at h
      · cases h
      · rename_i hnil
        split at h
        · cases h
        · rename_i hoff
          cases h
          intro r hr
          cases hr
          exact ⟨normalizeFormat_stored hformat, normalizeThinkingLevels_stored hefforts, hnil,
            Bool.eq_false_iff.2 hoff⟩
    · cases h
  unfold normalizeReasoning at h
  split at h
  · cases h
    exact fun r hr => by cases hr
  · split at h
    · cases h
      exact fun r hr => by cases hr
    · exact hdeclared _ h
    · cases h

/-- A declaration that is stored stays, or its dialect is refused for the provider. -/
theorem normalizeReasoning_self (host : Host) {provider : String} {r : Reasoning} (h : StoredReasoning provider r)
    (provider' : String) : normalizeReasoning host (reasoningJson (some r)) provider' =
      if r.format = none ∨ provider' = "openai" then .ok (some r)
      else .error (.value "思维链方言只适用于 OpenAI 兼容格式；Anthropic 使用原生 thinking 块") := by
  have hformat := normalizeFormat_self host (fun dialect hd => (h.format dialect hd).1) provider'
  have hefforts := normalizeThinkingLevels_self host h.efforts
  show normalizeDeclared host [("format", formatJson r.format), ("efforts", texts r.efforts)] provider' = _
  unfold normalizeDeclared
  show (normalizeFormat host (formatJson r.format) provider' >>= fun format =>
    normalizeThinkingLevels host (texts r.efforts) >>= _) = _
  rw [hformat, hefforts]
  by_cases hat : r.format = none ∨ provider' = "openai"
  · rw [if_pos hat, if_pos hat]
    show (if r.efforts = [] then _ else if r.efforts.all (· = "off") = true then _ else _) = _
    rw [if_neg h.selectable.1, if_neg (by rw [h.selectable.2]; exact Bool.false_ne_true)]
  · rw [if_neg hat, if_neg hat]
    rfl

/-! ## Building a route -/

/-- The steps of `build_route`, each with what it answers. -/
structure Built (host : Host) (sealer : Seal) (payload existing : Fields) (e : Entry) : Prop where
  provider : normalizeProvider host (payloadField payload existing "provider") = .ok e.provider
  contextWindow : normalizeContextWindow host (payloadField payload existing "context_window") = .ok e.contextWindow
  maxTokens : normalizeMaxTokens host (payloadField payload existing "max_tokens") = .ok e.maxTokens
  capacity : checkCapacity e.contextWindow e.maxTokens = .ok ()
  name : normalizeName host (payloadField payload existing "name") = .ok e.name
  kind : normalizeKind host (payloadField payload existing "kind") e.provider = .ok e.kind
  baseUrl : normalizeBaseUrl host (payloadField payload existing "base_url") = .ok e.baseUrl
  apiKey : resolveApiKey host sealer payload existing = .ok e.apiKey
  model : host.text (payloadField payload existing "model") = e.model
  aliases : normalizeAliases host (payloadField payload existing "aliases") = .ok e.aliases
  path : normalizePath host (payloadField payload existing "path") e.provider = e.path
  enabled : normalizeEnabled host
    ((payload.lookup "enabled").getD ((existing.lookup "enabled").getD (.bool true))) = e.enabled
  description : normalizeDescription host (payloadField payload existing "description") = .ok e.description
  modalities : normalizeModalities host (payloadField payload existing "modalities") = .ok e.modalities
  reasoning : normalizeReasoning host (payloadField payload existing "reasoning") e.provider = .ok e.reasoning

theorem buildRoute_ok_iff {host : Host} {sealer : Seal} {payload existing : Fields} {e : Entry} :
    buildRoute host sealer payload existing = .ok e ↔ Built host sealer payload existing e := by
  constructor
  · intro h
    unfold buildRoute at h
    obtain ⟨provider, hprovider, h⟩ := ok_of_bind h
    obtain ⟨contextWindow, hwindow, h⟩ := ok_of_bind h
    obtain ⟨maxTokens, htokens, h⟩ := ok_of_bind h
    obtain ⟨_, hcapacity, h⟩ := ok_of_bind h
    obtain ⟨name, hname, h⟩ := ok_of_bind h
    obtain ⟨kind, hkind, h⟩ := ok_of_bind h
    obtain ⟨baseUrl, hurl, h⟩ := ok_of_bind h
    obtain ⟨apiKey, hkey, h⟩ := ok_of_bind h
    obtain ⟨aliases, haliases, h⟩ := ok_of_bind h
    obtain ⟨description, hdescription, h⟩ := ok_of_bind h
    obtain ⟨modalities, hmodalities, h⟩ := ok_of_bind h
    obtain ⟨reasoning, hreasoning, h⟩ := ok_of_bind h
    obtain rfl := Except.ok.inj h
    -- the three plain fields: projections of the entry, nothing of the normalisers is to be unfolded
    exact ⟨hprovider, hwindow, htokens, hcapacity, hname, hkind, hurl, hkey, by dsimp only, haliases, by dsimp only,
      by dsimp only, hdescription, hmodalities, hreasoning⟩
  · intro h
    unfold buildRoute
    simp only [h.provider, h.contextWindow, h.maxTokens, h.capacity, h.name, h.kind, h.baseUrl, h.apiKey, h.model,
      h.aliases, h.path, h.enabled, h.description, h.modalities, h.reasoning, bind, Except.bind, pure, Except.pure]

/-- An entry whose every field is what its normaliser makes of it. -/
structure Canonical (host : Host) (e : Entry) : Prop where
  provider : e.provider ∈ providers
  contextWindow : normalizeContextWindow host (count e.contextWindow) = .ok e.contextWindow
  maxTokens : normalizeMaxTokens host (count e.maxTokens) = .ok e.maxTokens
  capacity : checkCapacity e.contextWindow e.maxTokens = .ok ()
  name : normalizeName host (.str e.name) = .ok e.name
  kind : e.kind ∈ kinds
  baseUrl : normalizeBaseUrl host (.str e.baseUrl) = .ok e.baseUrl
  model : Text.strip e.model = e.model
  aliases : StoredAliases e.aliases
  path : StoredPath e.path
  description : normalizeDescription host (.str e.description) = .ok e.description
  modalities : normalizeModalities host (modalitiesJson e.modalities) = .ok e.modalities
  reasoning : ∀ r, e.reasoning = some r → StoredReasoning e.provider r

theorem Built.canonical {host : Host} {sealer : Seal} {payload existing : Fields} {e : Entry}
    (h : Built host sealer payload existing e) : Canonical host e where
  provider := normalizeProvider_mem h.provider
  contextWindow := positiveTokenCount_self h.contextWindow
  maxTokens := positiveTokenCount_self h.maxTokens
  capacity := h.capacity
  name := (normalizeName_strips host).self h.name
  kind := normalizeKind_mem h.kind
  baseUrl := (normalizeBaseUrl_strips host).self h.baseUrl
  model := by rw [← h.model, strip_text]
  aliases := normalizeAliases_stored h.aliases
  path := h.path ▸ normalizePath_stored ..
  description := (normalizeDescription_strips host).self h.description
  modalities := normalizeModalities_self h.modalities
  reasoning := normalizeReasoning_stored h.reasoning

/-! ## Editing -/

theorem payloadField_absent {payload existing : Fields} {key : String} (h : payload.lookup key = none) :
    payloadField payload existing key = Json.get existing key := by
  rw [payloadField, h, Option.getD_none]

/-- Two mappings with the same keys that agree at one of them. -/
theorem get_congr {key : String} {l l' : Fields}
    (h : List.Forall₂ (fun a b => a.1 = b.1 ∧ (a.1 = key → a.2 = b.2)) l l') : Json.get l key = Json.get l' key := by
  unfold Json.get
  induction h with
  | nil => rfl
  | @cons a b l l' hab _ ih =>
    obtain ⟨k, v⟩ := a
    obtain ⟨k', v'⟩ := b
    obtain ⟨hkey, hvalue⟩ := hab
    dsimp only at hkey hvalue
    subst hkey
    rw [List.lookup_cons, List.lookup_cons]
    cases hk : key == k with
    | true => rw [hvalue (beq_iff_eq.1 hk).symm]
    | false => exact ih

/-- What a step makes of a field the body does not have, it makes of the entry's. -/
theorem absent_ok {α : Type} {f : Json → Except RouteError α} {payload existing : Fields} {key : String} {value : Json}
    {r r' : α} (h : f (payloadField payload existing key) = .ok r') (habsent : payload.lookup key = none)
    (hget : Json.get existing key = value) (hself : f value = .ok r) : r' = r := by
  rw [payloadField_absent habsent, hget, hself] at h
  exact (Except.ok.inj h).symm

theorem reasoning_kept {host : Host} {e : Entry} (he : Canonical host e) {provider : String} {reasoning : Option Reasoning}
    (h : normalizeReasoning host (reasoningJson e.reasoning) provider = .ok reasoning) : reasoning = e.reasoning := by
  cases hr : e.reasoning with
  | none =>
    rw [hr] at h
    exact (Except.ok.inj h).symm
  | some r =>
    rw [hr, normalizeReasoning_self host (he.reasoning r hr)] at h
    split at h
    · exact (Except.ok.inj h).symm
    · cases h

/-- A field the body does not have is the entry's. -/
theorem Built.keeps {host : Host} {sealer : Seal} {payload : Fields} {e e' : Entry} (he : Canonical host e)
    (h : Built host sealer payload e.json e') (key : String) (habsent : payload.lookup key = none) :
    Json.get e'.json key = Json.get e.json key := by
  refine get_congr (.cons ⟨rfl, fun hk => ?name⟩ (.cons ⟨rfl, fun hk => ?provider⟩ (.cons ⟨rfl, fun hk => ?kind⟩
    (.cons ⟨rfl, fun hk => ?baseUrl⟩ (.cons ⟨rfl, fun hk => ?apiKey⟩ (.cons ⟨rfl, fun hk => ?model⟩
    (.cons ⟨rfl, fun hk => ?aliases⟩ (.cons ⟨rfl, fun hk => ?path⟩ (.cons ⟨rfl, fun hk => ?enabled⟩
    (.cons ⟨rfl, fun hk => ?description⟩ (.cons ⟨rfl, fun hk => ?contextWindow⟩ (.cons ⟨rfl, fun hk => ?maxTokens⟩
    (.cons ⟨rfl, fun hk => ?modalities⟩ (.cons ⟨rfl, fun hk => ?reasoning⟩ .nil)))))))))))))) <;>
    subst hk
  case name => exact congrArg Json.str (absent_ok h.name habsent rfl he.name)
  case provider =>
    exact congrArg Json.str (absent_ok h.provider habsent rfl (normalizeProvider_self host he.provider))
  case kind =>
    exact congrArg Json.str (absent_ok (f := fun value => normalizeKind host value e'.provider) h.kind habsent rfl
      (normalizeKind_self host he.kind e'.provider))
  case baseUrl => exact congrArg Json.str (absent_ok h.baseUrl habsent rfl he.baseUrl)
  case apiKey =>
    have hkey := h.apiKey
    unfold resolveApiKey at hkey
    rw [habsent] at hkey
    exact congrArg Json.str ((Except.ok.inj hkey).symm.trans (textOr_str host.str e.apiKey))
  case model =>
    have hmodel := h.model
    rw [payloadField_absent habsent] at hmodel
    exact congrArg Json.str (hmodel.symm.trans ((text_str host e.model).trans he.model))
  case aliases => exact congrArg texts (absent_ok h.aliases habsent rfl (normalizeAliases_self host he.aliases))
  case path =>
    have hpath := h.path
    rw [payloadField_absent habsent] at hpath
    exact congrArg Json.str (hpath.symm.trans (normalizePath_self host he.path e'.provider))
  case enabled =>
    have henabled := h.enabled
    rw [habsent] at henabled
    exact congrArg Json.bool henabled.symm
  case description => exact congrArg Json.str (absent_ok h.description habsent rfl he.description)
  case contextWindow => exact congrArg count (absent_ok h.contextWindow habsent rfl he.contextWindow)
  case maxTokens => exact congrArg count (absent_ok h.maxTokens habsent rfl he.maxTokens)
  case modalities => exact congrArg modalitiesJson (absent_ok h.modalities habsent rfl he.modalities)
  case reasoning =>
    have hreasoning := h.reasoning
    rw [payloadField_absent habsent] at hreasoning
    exact congrArg reasoningJson (reasoning_kept he hreasoning)

/-- The envelope is the entry's unless the body has a key to seal. -/
theorem Built.keeps_apiKey {host : Host} {sealer : Seal} {payload : Fields} {e e' : Entry}
    (h : Built host sealer payload e.json e')
    (hkey : payload.lookup "api_key" = none ∨ payload.lookup "api_key" = some .null) : e'.apiKey = e.apiKey := by
  have hat := h.apiKey
  unfold resolveApiKey at hat
  rcases hkey with hkey | hkey
  · rw [hkey] at hat
    exact (Except.ok.inj hat).symm.trans (textOr_str host.str e.apiKey)
  · rw [hkey] at hat
    exact (Except.ok.inj hat).symm.trans (textOr_str host.str e.apiKey)

/-- An edit that names nothing changes nothing. -/
theorem Canonical.built {host : Host} {e : Entry} (he : Canonical host e) (sealer : Seal) :
    Built host sealer [] e.json e where
  provider := normalizeProvider_self host he.provider
  contextWindow := he.contextWindow
  maxTokens := he.maxTokens
  capacity := he.capacity
  name := he.name
  kind := normalizeKind_self host he.kind e.provider
  baseUrl := he.baseUrl
  apiKey := congrArg Except.ok (textOr_str host.str e.apiKey)
  model := (text_str host e.model).trans he.model
  aliases := normalizeAliases_self host he.aliases
  path := normalizePath_self host he.path e.provider
  enabled := rfl
  description := he.description
  modalities := he.modalities
  reasoning := by
    show normalizeReasoning host (reasoningJson e.reasoning) e.provider = _
    cases hr : e.reasoning with
    | none => rfl
    | some r =>
      rw [normalizeReasoning_self host (he.reasoning r hr)]
      refine if_pos ?_
      cases hformat : r.format with
      | none => exact .inl rfl
      | some dialect => exact .inr ((he.reasoning r hr).format dialect hformat).2

/-! ## Storing -/

theorem listed_texts (host : Host) (items : List String) : (Document.json (texts items)).listed host = items := by
  show (items.map Json.str).map (Json.text host.str) = items
  rw [List.map_map]
  exact List.map_id' items

/-- The entry as a row gives it back: undeclared modalities are an empty list. -/
def Entry.readBack (e : Entry) : Entry := { e with modalities := some (e.modalities.getD []) }

theorem entry_apply (host : Host) (row : ModelRoute) (e : Entry) : (row.apply e).entry host = e.readBack.json := by
  have haliases : (row.apply e).aliasList host = e.aliases := listed_texts host e.aliases
  have hmodalities : (row.apply e).modalityList host = e.modalities.getD [] := by
    by_cases hnil : e.modalities.getD [] = []
    · have hcolumn : (row.apply e).modalities = none := if_pos hnil
      rw [ModelRoute.modalityList, hcolumn, hnil]
    · have hcolumn : (row.apply e).modalities = some (.json (texts (e.modalities.getD []))) := if_neg hnil
      rw [ModelRoute.modalityList, hcolumn]
      exact listed_texts host _
  have hreasoning : (row.apply e).reasoningDict = reasoningJson e.reasoning := by
    have hcolumn : (row.apply e).reasoning = e.reasoning.map fun r => Document.json r.json := rfl
    rw [ModelRoute.reasoningDict, hcolumn]
    cases e.reasoning <;> rfl
  unfold ModelRoute.entry
  rw [haliases, hmodalities, hreasoning]
  rfl

theorem get_readBack (e : Entry) {key : String} (hkey : key ≠ "modalities") :
    Json.get e.readBack.json key = Json.get e.json key := by
  refine get_congr (.cons ⟨rfl, fun _ => rfl⟩ (.cons ⟨rfl, fun _ => rfl⟩ (.cons ⟨rfl, fun _ => rfl⟩
    (.cons ⟨rfl, fun _ => rfl⟩ (.cons ⟨rfl, fun _ => rfl⟩ (.cons ⟨rfl, fun _ => rfl⟩ (.cons ⟨rfl, fun _ => rfl⟩
    (.cons ⟨rfl, fun _ => rfl⟩ (.cons ⟨rfl, fun _ => rfl⟩ (.cons ⟨rfl, fun _ => rfl⟩ (.cons ⟨rfl, fun _ => rfl⟩
    (.cons ⟨rfl, fun _ => rfl⟩ (.cons ⟨rfl, fun hk => ?modalities⟩ (.cons ⟨rfl, fun _ => rfl⟩ .nil))))))))))))))
  case modalities => exact absurd hk.symm hkey

/-- An edit cannot tell the entry that was stored from the one that is read back. -/
theorem buildRoute_readBack (host : Host) (sealer : Seal) (payload : Fields) (e : Entry) :
    buildRoute host sealer payload e.readBack.json = buildRoute host sealer payload e.json := by
  have hfield : ∀ key, key ≠ "modalities" →
      payloadField payload e.readBack.json key = payloadField payload e.json key := fun key hkey => by
    rw [payloadField, payloadField, get_readBack e hkey]
  have hmodalities : normalizeModalities host (payloadField payload e.readBack.json "modalities") =
      normalizeModalities host (payloadField payload e.json "modalities") := by
    cases hat : payload.lookup "modalities" with
    | some value => simp only [payloadField, hat, Option.getD_some]
    | none =>
      rw [payloadField_absent hat, payloadField_absent hat]
      show normalizeModalities host (texts (e.modalities.getD [])) = normalizeModalities host (modalitiesJson e.modalities)
      cases e.modalities with
      | none => exact normalizeModalities_nil host
      | some words => rfl
  have hkey : resolveApiKey host sealer payload e.readBack.json = resolveApiKey host sealer payload e.json := by
    unfold resolveApiKey
    rw [get_readBack e (by decide)]
  have henabled : e.readBack.json.lookup "enabled" = e.json.lookup "enabled" := rfl
  simp only [buildRoute, hmodalities, hkey, henabled, hfield "provider" (by decide),
    hfield "context_window" (by decide), hfield "max_tokens" (by decide), hfield "name" (by decide),
    hfield "kind" (by decide), hfield "base_url" (by decide), hfield "model" (by decide), hfield "aliases" (by decide),
    hfield "path" (by decide), hfield "description" (by decide), hfield "reasoning" (by decide)]

/-- Editing a route changes only what the body names. For every entry that `build_route` builds, over whatever it was
laid: an edit that is accepted keeps each field its body does not have, and the envelope of the key where the body has
none or `null`; the empty edit gives the entry itself; and a row it is stored in gives the entry back with undeclared
modalities as an empty list, which no later edit tells from the entry. -/
theorem edit_keeps (host : Host) (sealer₀ sealer : Seal) (payload₀ existing₀ : Fields) (e : Entry)
    (h : buildRoute host sealer₀ payload₀ existing₀ = .ok e) :
    (∀ payload e', buildRoute host sealer payload e.json = .ok e' →
        (∀ key, payload.lookup key = none → Json.get e'.json key = Json.get e.json key) ∧
          (payload.lookup "api_key" = none ∨ payload.lookup "api_key" = some .null → e'.apiKey = e.apiKey)) ∧
      buildRoute host sealer [] e.json = .ok e ∧
      ∀ row : ModelRoute, (row.apply e).entry host = { e with modalities := some (e.modalities.getD []) }.json ∧
        ∀ payload, buildRoute host sealer payload ((row.apply e).entry host) = buildRoute host sealer payload e.json := by
  have he := (buildRoute_ok_iff.1 h).canonical
  refine ⟨fun payload e' h' => ?_, buildRoute_ok_iff.2 (he.built sealer), fun row => ⟨entry_apply host row e, ?_⟩⟩
  · have hbuilt := buildRoute_ok_iff.1 h'
    exact ⟨hbuilt.keeps he, hbuilt.keeps_apiKey⟩
  · intro payload
    rw [entry_apply]
    exact buildRoute_readBack host sealer payload e

/-- Python on a body that is all ASCII text, with a URL of two parts. -/
def asciiHost : Host where
  str _ := ""
  unicode := .ascii
  isDigit s := s ≠ "" ∧ s.toList.all Char.isDigit
  readInt s := .ok (s.toList.foldl (fun n c => 10 * n + (c.toNat - '0'.toNat)) 0)
  urlsplit s := .ok ((Text.split ':' s).headD "", (Text.afterLast '/' s))

/-- A body that declares the required fields only. -/
def requiredFields : Fields :=
  [("name", .str "local"), ("base_url", .str "http://models"), ("description", .str "a model")]

/-- What `build_route` makes of it. -/
def requiredEntry : Entry where
  name := "local"
  provider := "openai"
  kind := "chat"
  baseUrl := "http://models"
  apiKey := ""
  model := ""
  aliases := []
  path := "/v1/chat/completions"
  enabled := true
  description := "a model"
  contextWindow := none
  maxTokens := none
  modalities := none
  reasoning := none

/-- A body with an alias and a capacity. -/
def optionalFields : Fields :=
  requiredFields ++ [("aliases", .arr [.str "small"]), ("context_window", .int 32768), ("max_tokens", .int 4096)]

def optionalEntry : Entry := { requiredEntry with aliases := ["small"], contextWindow := some 32768, maxTokens := some 4096 }

/-- Another description leaves its context window as it is. -/
theorem edit_keeps_optionalEntry : buildRoute asciiHost .ok [] optionalEntry.json = .ok optionalEntry ∧
    ∃ e, buildRoute asciiHost .ok [("description", .str "another")] optionalEntry.json = .ok e ∧
      Json.get e.json "context_window" = .int 32768 := by
  obtain ⟨hedit, hempty, -⟩ := edit_keeps asciiHost .ok .ok optionalFields [] optionalEntry (by decide +kernel)
  have hok : buildRoute asciiHost .ok [("description", .str "another")] optionalEntry.json =
      .ok { optionalEntry with description := "another" } := by decide +kernel
  exact ⟨hempty, _, hok, (hedit _ _ hok).1 "context_window" rfl⟩

/-- A new row. -/
def newRow : ModelRoute where
  name := ""
  provider := "openai"
  kind := "chat"
  baseUrl := ""
  apiKey := ""
  model := ""
  aliases := .json (.arr [])
  path := ""
  enabled := true
  description := ""
  contextWindow := none
  maxTokens := none
  modalities := none
  reasoning := none

/-- Stored in a row, undeclared modalities are not read back as such. -/
theorem requiredEntry_not_readBack : buildRoute asciiHost .ok requiredFields [] = .ok requiredEntry ∧
    (newRow.apply requiredEntry).entry asciiHost ≠ requiredEntry.json := by
  refine ⟨by decide +kernel, fun heq => ?_⟩
  have hat : Json.arr [] = Json.null := congrArg (Json.get · "modalities") heq
  cases hat

end OpenFish.Routes
