/-
The model credential of a run and its masking (`select_route`, `build_model_env`, `mask_secrets` and `_scrub_payload` of
`services/agent_runner.py`, `mask_api_key` of `services/model_routes.py`). A masked secret keeps its last four characters,
and the secrets of a run are masked one after the other; what can still be read of them is proved here.
-/
import OpenFish.Lib.Dict
import OpenFish.Lib.Json
import OpenFish.Lib.Replacing
import OpenFish.Lib.Text

namespace OpenFish.Agent

open Lib

/-! ## The environment of a route -/

/-- A route of the table, with its key. -/
abbrev ModelRoute := List (String × Json)

/-- `select_route`: by name, model or alias, or the first. -/
def selectRoute (render : Json → String) (routes : List ModelRoute) (route : Option String) : Except String ModelRoute :=
  let enabled := routes.filter fun item => ((item.lookup "enabled").getD (.bool true)).truthy
  let names (item : ModelRoute) : List String :=
    (Json.get item "name").textOr render :: (Json.get item "model").textOr render ::
      ((Json.get item "aliases").items?.getD []).map (Json.text render)
  match enabled with
  | [] => .error "模型路由表里没有启用的路由"
  | first :: _ =>
    match route.filter (· ≠ "") with
    | none => .ok first
    | some wanted =>
      match enabled.find? fun item => wanted ∈ names item with
      | some item => .ok item
      | none => .error s!"模型路由表里找不到 {wanted}"

def modelEnvPrefix : String := "OPENFISH_MODEL"

/-- The variables a provider's own kit reads: of its key and of its address. -/
def providerNames : List (String × String × String) :=
  [("openai", "OPENAI_API_KEY", "OPENAI_BASE_URL"), ("anthropic", "ANTHROPIC_API_KEY", "ANTHROPIC_BASE_URL")]

def withKey (apiKey name : String) (env : Dict String String) : Dict String String :=
  if apiKey = "" then env else env.set name apiKey

def buildModelEnv (render : Json → String) (route : ModelRoute) : Dict String String :=
  let field (key : String) : String := (Json.get route key).textOr render
  let provider := if field "provider" = "" then "openai" else field "provider"
  let env := withKey (field "api_key") (modelEnvPrefix ++ "_API_KEY") <| Dict.empty.update
    [(modelEnvPrefix ++ "_PROVIDER", provider), (modelEnvPrefix ++ "_BASE_URL", field "base_url"),
      (modelEnvPrefix ++ "_PATH", field "path"), (modelEnvPrefix ++ "_MODEL", field "model")]
  match providerNames.lookup provider with
  | none => env
  | some (keyName, urlName) => (withKey (field "api_key") keyName env).set urlName (field "base_url")

/-- `resolve_model_env`, of the routes of the table. -/
def resolveModelEnv (render : Json → String) (routes : List ModelRoute) (route : Option String) :
    Except String (Dict String String) :=
  (selectRoute render routes route).map (buildModelEnv render)

/-! ## Masking -/

/-- `mask_api_key`: a hint that a key is set, its last four characters. -/
def maskApiKey (apiKey : String) : Option String :=
  if apiKey = "" then none
  else if apiKey.length ≤ 4 then some (String.ofList (List.replicate apiKey.length '•'))
  else some (String.ofList ("••••".toList ++ apiKey.toList.drop (apiKey.length - 4)))

def secretHints : List String := ["KEY", "TOKEN", "SECRET", "PASSWORD"]

/-- A variable whose value is masked. -/
def secretName (name : String) : Bool := secretHints.any fun hint => Text.contains hint (Text.upper name)

def maskEnv (env : Dict String String) : Dict String String :=
  env.mapVals fun name value => if secretName name && value ≠ "" then (maskApiKey value).getD "••••" else value

/-- `secret_values`. -/
def secretValues (env : Dict String String) : List String :=
  (env.entries.filter fun e => e.2 ≠ "" && secretName e.1).map Prod.snd

/-- One turn of the loop of `mask_secrets`. -/
def maskSecret (text secret : String) : String :=
  if secret = "" then text
  else String.ofList (replace secret.toList ((maskApiKey secret).getD "••••").toList text.toList)

def maskSecrets (text : String) (secrets : List String) : String := secrets.foldl maskSecret text

mutual

/-- `_scrub_payload`: every text is masked, and no key of a dictionary is. -/
def scrubPayload (secrets : List String) : Json → Json
  | .str s => .str (maskSecrets s secrets)
  | .arr items => .arr (scrubItems secrets items)
  | .obj members => .obj (scrubMembers secrets members)
  | v => v

def scrubItems (secrets : List String) : List Json → List Json
  | [] => []
  | v :: vs => scrubPayload secrets v :: scrubItems secrets vs

def scrubMembers (secrets : List String) : List (String × Json) → List (String × Json)
  | [] => []
  | (k, v) :: ms => (k, scrubPayload secrets v) :: scrubMembers secrets ms

end

/-! ## What a mask shows -/

/-- The characters of a secret that its mask shows. -/
def shown (secret : String) : List Char := if secret.length ≤ 4 then [] else secret.toList.drop (secret.length - 4)

/-- No secret could begin in what the mask of one of them shows, and none has the bullet of the masks. -/
structure Hideable (secrets : List String) : Prop where
  bullet : ∀ u ∈ secrets, '•' ∉ u.toList
  apart : ∀ u ∈ secrets, ∀ w ∈ secrets, u ≠ "" → ¬ BeginsIn u.toList (shown w)

instance (secrets : List String) : Decidable (Hideable secrets) :=
  decidable_of_iff ((∀ u ∈ secrets, '•' ∉ u.toList) ∧ ∀ u ∈ secrets, ∀ w ∈ secrets, u ≠ "" → ¬ BeginsIn u.toList (shown w))
    ⟨fun h => ⟨h.1, h.2⟩, fun h => ⟨h.bullet, h.apart⟩⟩

/-- A secret is not read in a text. -/
def Hidden (secret text : String) : Prop := ¬ secret.toList <:+: text.toList

instance (secret text : String) : Decidable (Hidden secret text) := inferInstanceAs (Decidable (¬ _))

theorem maskSecret_eq {secret : String} (hne : secret ≠ "") :
    ∃ mark, mark ≠ [] ∧ (∀ c ∈ mark, c = '•') ∧
      ∀ text, (maskSecret text secret).toList = replace secret.toList (mark ++ shown secret) text.toList := by
  simp only [maskSecret, if_neg hne, String.toList_ofList, maskApiKey, shown]
  split
  · refine ⟨List.replicate secret.length '•', ?_, fun c hc => List.eq_of_mem_replicate hc, fun text => ?_⟩
    · rw [Ne, List.replicate_eq_nil_iff, String.length_eq_zero_iff]
      exact hne
    · rw [Option.getD_some, String.toList_ofList, List.append_nil]
  · refine ⟨"••••".toList, by decide, fun c hc => by simpa using hc, fun text => ?_⟩
    rw [Option.getD_some, String.toList_ofList]

theorem length_shown {secret : String} (hne : secret ≠ "") : (shown secret).length < secret.toList.length := by
  have hpos : 0 < secret.length := Nat.pos_of_ne_zero fun h => hne (String.length_eq_zero_iff.1 h)
  rw [String.length_toList, shown]
  split
  · exact hpos
  · rw [List.length_drop, String.length_toList]
    omega

theorem toList_ne_nil {s : String} (h : s ≠ "") : s.toList ≠ [] := fun hnil => h (String.toList_eq_nil_iff.1 hnil)

theorem hidden_maskSecret_self {secret : String} (hne : secret ≠ "") (hbullet : '•' ∉ secret.toList)
    (hapart : ¬ BeginsIn secret.toList (shown secret)) (text : String) : Hidden secret (maskSecret text secret) := by
  obtain ⟨mark, hmark, hbullets, heq⟩ := maskSecret_eq hne
  intro h
  rw [heq] at h
  rcases infix_replace (toList_ne_nil hne) (toList_ne_nil hne) hmark (fun c hc => hbullets c hc ▸ hbullet) h with
    ⟨piece, -, hnone, hread⟩ | hbegins
  · exact hnone hread
  · exact hapart hbegins

/-- What was hidden stays hidden when another secret is masked. -/
theorem Hidden.maskSecret {u secret text : String} (h : Hidden u text) (hu : u ≠ "") (hbullet : '•' ∉ u.toList)
    (hapart : ¬ BeginsIn u.toList (shown secret)) : Hidden u (maskSecret text secret) := by
  by_cases hne : secret = ""
  · rwa [Agent.maskSecret, if_pos hne]
  · obtain ⟨mark, hmark, hbullets, heq⟩ := maskSecret_eq hne
    intro hread
    rw [heq] at hread
    rcases infix_replace (toList_ne_nil hne) (toList_ne_nil hu) hmark (fun c hc => hbullets c hc ▸ hbullet) hread with
      ⟨piece, hpiece, -, hread⟩ | hbegins
    · exact h (hread.trans hpiece)
    · exact hapart hbegins

theorem Hidden.maskSecrets {u : String} (hu : u ≠ "") (hbullet : '•' ∉ u.toList) : ∀ {secrets : List String} {text : String},
    Hidden u text → (∀ w ∈ secrets, ¬ BeginsIn u.toList (shown w)) → Hidden u (maskSecrets text secrets)
  | [], _, h, _ => h
  | w :: secrets, _, h, hapart => by
    rw [Agent.maskSecrets, List.foldl_cons]
    exact Hidden.maskSecrets hu hbullet (h.maskSecret hu hbullet (hapart w (List.mem_cons_self ..)))
      fun v hv => hapart v (List.mem_cons_of_mem _ hv)

/-- Whatever the order they are masked in, no secret is read in the masked text. -/
theorem hidden_maskSecrets {secrets : List String} {u : String} (hu : u ∈ secrets) (hne : u ≠ "") (hbullet : '•' ∉ u.toList)
    (hapart : ∀ w ∈ secrets, ¬ BeginsIn u.toList (shown w)) (text : String) : Hidden u (maskSecrets text secrets) := by
  obtain ⟨before, after, rfl⟩ := List.append_of_mem hu
  rw [maskSecrets, List.foldl_append, List.foldl_cons]
  refine Hidden.maskSecrets hne hbullet (hidden_maskSecret_self hne hbullet (hapart u hu) _) fun w hw => hapart w ?_
  exact List.mem_append_right _ (List.mem_cons_of_mem _ hw)

/-! ## What the environment of a route hides -/

theorem mem_secretValues {env : Dict String String} {u : String} :
    u ∈ secretValues env ↔ u ≠ "" ∧ ∃ name, env.get? name = some u ∧ secretName name = true := by
  simp only [secretValues, List.mem_map, List.mem_filter, Bool.and_eq_true, decide_eq_true_eq, Dict.get?_eq_some]
  constructor
  · rintro ⟨⟨name, value⟩, ⟨hmem, hne, hname⟩, rfl⟩
    exact ⟨hne, name, hmem, hname⟩
  · rintro ⟨hne, name, hmem, hname⟩
    exact ⟨(name, u), ⟨hmem, hne, hname⟩, rfl⟩

theorem providerNames_secret {provider keyName urlName : String} (h : providerNames.lookup provider = some (keyName, urlName)) :
    urlName ≠ modelEnvPrefix ++ "_API_KEY" ∧ secretName urlName = false := by
  have hmem : (keyName, urlName) ∈ providerNames.map Prod.snd := by
    obtain ⟨before, after, heq, -⟩ := List.lookup_eq_some_iff.1 h
    rw [heq]
    simp
  have hall : ∀ e ∈ providerNames.map Prod.snd, e.2 ≠ modelEnvPrefix ++ "_API_KEY" ∧ secretName e.2 = false := by
    decide +kernel
  exact hall _ hmem

theorem get?_withKey {apiKey other name v : String} {env : Dict String String}
    (h : (withKey apiKey other env).get? name = some v) : v = apiKey ∨ env.get? name = some v := by
  unfold withKey at h
  split at h
  · exact .inr h
  · rw [Dict.get?_set] at h
    split at h
    · exact .inl (Option.some.inj h).symm
    · exact .inr h

theorem get?_withKey_self {apiKey name : String} (hne : apiKey ≠ "") (env : Dict String String) :
    (withKey apiKey name env).get? name = some apiKey := by
  rw [withKey, if_neg hne, Dict.get?_set, if_pos rfl]

/-- The secrets of a route's environment are its key, if it has one. -/
theorem mem_secretValues_buildModelEnv (render : Json → String) (route : ModelRoute) (u : String) :
    u ∈ secretValues (buildModelEnv render route) ↔ u = (Json.get route "api_key").textOr render ∧ u ≠ "" := by
  rw [mem_secretValues, and_comm]
  refine and_congr_left fun hne => ⟨?_, ?_⟩
  · rintro ⟨name, hget, hname⟩
    have hother {other value : String} (h : secretName other = false) (env : Dict String String) :
        (env.set other value).get? name = env.get? name := by
      rw [Dict.get?_set, if_neg]
      rintro rfl
      exact absurd hname (by rw [h]; decide)
    have hfirst {a b c d v : String} (h : (withKey ((Json.get route "api_key").textOr render) (modelEnvPrefix ++ "_API_KEY")
        (Dict.empty.update [(modelEnvPrefix ++ "_PROVIDER", a), (modelEnvPrefix ++ "_BASE_URL", b),
          (modelEnvPrefix ++ "_PATH", c), (modelEnvPrefix ++ "_MODEL", d)])).get? name = some v) :
        v = (Json.get route "api_key").textOr render := by
      refine (get?_withKey h).resolve_right fun h => ?_
      simp only [Dict.update, List.foldl_cons, List.foldl_nil] at h
      rw [hother (by decide +kernel), hother (by decide +kernel), hother (by decide +kernel), hother (by decide +kernel)] at h
      cases h
    unfold buildModelEnv at hget
    dsimp only at hget
    split at hget
    · exact hfirst hget
    · rename_i hnames
      rw [hother (providerNames_secret hnames).2] at hget
      exact (get?_withKey hget).elim id hfirst
  · rintro rfl
    refine ⟨modelEnvPrefix ++ "_API_KEY", ?_, by decide +kernel⟩
    unfold buildModelEnv
    dsimp only
    split
    · exact get?_withKey_self hne _
    · rename_i hnames
      rw [Dict.get?_set, if_neg (providerNames_secret hnames).1.symm, withKey, if_neg hne, Dict.get?_set]
      split
      · rfl
      · exact get?_withKey_self hne _

theorem selectRoute_mem {render : Json → String} {routes : List ModelRoute} {route : Option String} {item : ModelRoute}
    (h : selectRoute render routes route = .ok item) :
    item ∈ routes ∧ ((item.lookup "enabled").getD (.bool true)).truthy = true := by
  unfold selectRoute at h
  dsimp only at h
  split at h
  · cases h
  · rename_i first rest henabled
    have hmem : item ∈ routes.filter fun item => ((item.lookup "enabled").getD (.bool true)).truthy := by
      split at h
      · exact henabled ▸ Except.ok.inj h ▸ List.mem_cons_self ..
      · split at h
        · rename_i hfind
          exact Except.ok.inj h ▸ List.mem_of_find?_eq_some hfind
        · cases h
    exact List.mem_filter.1 hmem

/-- Whatever route a run asks for, the secrets of its environment are at most the key of one route that is enabled. -/
theorem mem_secretValues_resolveModelEnv {render : Json → String} {routes : List ModelRoute} {route : Option String}
    {env : Dict String String} (h : resolveModelEnv render routes route = .ok env) :
    ∃ item ∈ routes, ((item.lookup "enabled").getD (.bool true)).truthy = true ∧
      ∀ u ∈ secretValues env, u = (Json.get item "api_key").textOr render := by
  unfold resolveModelEnv at h
  cases hroute : selectRoute render routes route with
  | error message =>
    rw [hroute] at h
    cases h
  | ok item =>
    rw [hroute] at h
    obtain ⟨hmem, henabled⟩ := selectRoute_mem hroute
    refine ⟨item, hmem, henabled, fun u hu => ?_⟩
    rw [← Except.ok.inj h, mem_secretValues_buildModelEnv] at hu
    exact hu.1

theorem maskApiKey_ne_empty {apiKey : String} (hne : apiKey ≠ "") : (maskApiKey apiKey).getD "••••" ≠ "" := by
  have hlength : 0 < apiKey.length := by
    rw [← String.length_toList]
    exact List.length_pos_iff.2 (toList_ne_nil hne)
  unfold maskApiKey
  rw [if_neg hne]
  split
  · obtain ⟨n, hn⟩ := Nat.exists_eq_succ_of_ne_zero hlength.ne'
    rw [hn, Option.getD_some]
    exact fun h => absurd (congrArg String.toList h) (by simp [List.replicate_succ])
  · exact fun h => absurd (congrArg String.toList h) (by simp)

/-- What may be logged of an environment has the mask of each secret where the secret was. -/
theorem mem_secretValues_maskEnv {env : Dict String String} {u : String} :
    u ∈ secretValues (maskEnv env) ↔ ∃ v ∈ secretValues env, u = (maskApiKey v).getD "••••" := by
  simp only [mem_secretValues, maskEnv, Dict.get?_mapVals, Option.map_eq_some_iff]
  constructor
  · rintro ⟨hne, name, ⟨v, hget, rfl⟩, hname⟩
    rw [hname, Bool.true_and] at hne ⊢
    have hv : v ≠ "" := fun hv => hne (by rw [hv]; rfl)
    exact ⟨v, ⟨hv, name, hget, hname⟩, if_pos (decide_eq_true hv)⟩
  · rintro ⟨v, ⟨hv, name, hget, hname⟩, rfl⟩
    refine ⟨maskApiKey_ne_empty hv, name, ⟨v, hget, ?_⟩, hname⟩
    rw [hname, Bool.true_and, if_pos (decide_eq_true hv)]

mutual

/-- The texts of a value, the keys of its dictionaries left out. -/
def texts : Json → List String
  | .str s => [s]
  | .arr items => textsOfItems items
  | .obj members => textsOfMembers members
  | _ => []

def textsOfItems : List Json → List String
  | [] => []
  | v :: vs => texts v ++ textsOfItems vs

def textsOfMembers : List (String × Json) → List String
  | [] => []
  | (_, v) :: ms => texts v ++ textsOfMembers ms

end

mutual

theorem texts_scrubPayload : ∀ (v : Json) (secrets : List String),
    texts (scrubPayload secrets v) = (texts v).map fun s => maskSecrets s secrets
  | .null, _ | .bool _, _ | .int _, _ | .float _, _ => by simp only [scrubPayload, texts, List.map_nil]
  | .str s, _ => by simp only [scrubPayload, texts, List.map_cons, List.map_nil]
  | .arr items, secrets => by rw [scrubPayload, texts, texts, textsOfItems_scrubItems]
  | .obj members, secrets => by rw [scrubPayload, texts, texts, textsOfMembers_scrubMembers]

theorem textsOfItems_scrubItems : ∀ (vs : List Json) (secrets : List String),
    textsOfItems (scrubItems secrets vs) = (textsOfItems vs).map fun s => maskSecrets s secrets
  | [], _ => by rw [scrubItems, textsOfItems, List.map_nil]
  | v :: vs, secrets => by
    rw [scrubItems, textsOfItems, textsOfItems, List.map_append, texts_scrubPayload v secrets,
      textsOfItems_scrubItems vs secrets]

theorem textsOfMembers_scrubMembers : ∀ (ms : List (String × Json)) (secrets : List String),
    textsOfMembers (scrubMembers secrets ms) = (textsOfMembers ms).map fun s => maskSecrets s secrets
  | [], _ => by rw [scrubMembers, textsOfMembers, List.map_nil]
  | (k, v) :: ms, secrets => by
    rw [scrubMembers, textsOfMembers, textsOfMembers, List.map_append, texts_scrubPayload v secrets,
      textsOfMembers_scrubMembers ms secrets]

end

theorem Hideable.hidden {secrets : List String} (h : Hideable secrets) {u : String} (hu : u ∈ secrets) (hne : u ≠ "")
    (text : String) : Hidden u (maskSecrets text secrets) :=
  hidden_maskSecrets hu hne (h.bullet u hu) (fun w hw => h.apart u hu w hw hne) text

/-- No text of a scrubbed value shows a secret. -/
theorem Hideable.scrubbed {secrets : List String} (h : Hideable secrets) {u : String} (hu : u ∈ secrets) (hne : u ≠ "")
    {v : Json} {s : String} (hs : s ∈ texts (scrubPayload secrets v)) : Hidden u s := by
  rw [texts_scrubPayload] at hs
  obtain ⟨text, -, rfl⟩ := List.mem_map.1 hs
  exact h.hidden hu hne text

/-- The mask of one secret hides it in every text exactly if the secret does not begin in what its own mask shows: one of
more than four characters that ends as it begins is put together again by the text that follows it. -/
theorem maskSecrets_hides_iff (secret : String) (hne : secret ≠ "") (hbullet : '•' ∉ secret.toList) :
    (∀ text, Hidden secret (maskSecrets text [secret])) ↔ ¬ BeginsIn secret.toList (shown secret) := by
  constructor
  · intro hall hbegins
    obtain ⟨mark, hmark, hbullets, heq⟩ := maskSecret_eq hne
    refine (replace_hides_iff (toList_ne_nil hne) hmark (fun c hc => hbullets c hc ▸ hbullet) (length_shown hne)).1
      (fun l hread => ?_) hbegins
    refine hall (String.ofList l) ?_
    rwa [maskSecrets, List.foldl_cons, List.foldl_nil, heq, String.toList_ofList]
  · exact fun hapart text => hidden_maskSecret_self hne hbullet hapart text

theorem token_hidden :
    ¬ BeginsIn "tok-12345".toList (shown "tok-12345") ∧ ∀ text, Hidden "tok-12345" (maskSecrets text ["tok-12345"]) :=
  have happart : ¬ BeginsIn "tok-12345".toList (shown "tok-12345") := by decide
  ⟨happart, (maskSecrets_hides_iff "tok-12345" (by decide) (by decide)).2 happart⟩

end OpenFish.Agent
