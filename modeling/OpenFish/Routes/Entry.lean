/-
A model route as `services/model_routes.py` edits and stores it: the normalisers of its fourteen fields, `build_route`,
and `_entry` and `_apply` between an entry and a row of `models/model_route.py`.

What Python makes a text of, its tables and `urlsplit` are parameters; so is what the sealer answers, which is another
envelope each time.
-/
import OpenFish.Lib.Json
import OpenFish.Lib.Text
import OpenFish.Lib.Unicode
import OpenFish.Routes.Migration
import Mathlib.Data.List.Sort

namespace OpenFish.Routes

open Lib

/-! ## Vocabularies -/

def modalities : List String := ["text", "image", "audio"]

def thinkingFormats : List String :=
  ["openai", "deepseek", "openrouter", "together", "baseten", "zai", "qwen", "chat-template", "qwen-chat-template",
    "string-thinking", "ant-ling"]

def thinkingLevels : List String := ["off", "minimal", "low", "medium", "high", "xhigh", "max"]

def maxName : Nat := 128

def maxDescription : Nat := 500

def maxContextWindow : Int := 10000000

def maxOutputTokens : Int := 4000000

def defaultKinds : List (String × String) := [("openai", "chat"), ("anthropic", "chat")]

def providerAliases : List (String × String) :=
  [("openai", "openai"), ("openai-compatible", "openai"), ("openai_compatible", "openai"),
    ("openai_compat", "openai"), ("anthropic", "anthropic"), ("claude", "anthropic")]

def defaultPaths : List (String × String) := [("openai", "/v1/chat/completions"), ("anthropic", "/v1/messages")]

def reservedNames : List String := ["probe"]

/-- `" / ".join(values)`. -/
def choices (values : List String) : String := String.intercalate " / " values

/-! ## What is not written here -/

structure Host where
  /-- `str(value)` of what is no string. -/
  str : Json → String
  unicode : Unicode
  /-- `text.isdigit()`. -/
  isDigit : String → Bool
  /-- `int(text)`, or what it raises. -/
  readInt : String → Except String Int
  /-- The scheme and the network location that `urlsplit` finds, or what it raises. -/
  urlsplit : String → Except String (String × String)

/-- `ValueError` and `SealingKeyMissing`. -/
inductive RouteError
  | value (message : String)
  | sealingKeyMissing (message : String)
  deriving DecidableEq, Repr

/-- `str(value or "").strip()`. -/
def Host.text (host : Host) (value : Json) : String := Text.strip (value.textOr host.str)

/-! ## Normalisers -/

def canonicalProvider (host : Host) (value : Json) (default : String) : String :=
  let text := host.text value
  if text = "" then default
  else
    let lowered := host.unicode.lower text
    (providerAliases.lookup lowered).getD lowered

def normalizeProvider (host : Host) (value : Json) : Except RouteError String :=
  let provider := canonicalProvider host value "openai"
  if provider ∈ providers then .ok provider
  else .error (.value ("不支持的格式 " ++ host.text value ++ "，可选：" ++ choices providers))

def defaultKind (host : Host) (provider : String) : String :=
  (defaultKinds.lookup (canonicalProvider host (.str provider) "openai")).getD "chat"

def normalizeKind (host : Host) (value : Json) (provider : String) : Except RouteError String :=
  let text := host.unicode.lower (host.text value)
  if text = "" then .ok (defaultKind host provider)
  else if text ∈ kinds then .ok text
  else .error (.value ("不支持的功能 " ++ host.text value ++ "，可选：" ++ choices kinds))

def normalizeName (host : Host) (value : Json) : Except RouteError String :=
  let name := host.text value
  if name = "" then .error (.value "名称不能为空")
  else if maxName < name.length then .error (.value s!"名称不能超过 {maxName} 个字符")
  else if host.unicode.lower name ∈ reservedNames then .error (.value s!"名称 {name} 为系统保留，请换一个")
  else if '/' ∈ name.toList ∨ '\\' ∈ name.toList ∨ name.toList.any (·.toNat < 32) then
    .error (.value "名称不能包含斜杠或控制字符")
  else .ok name

def normalizeDescription (host : Host) (value : Json) : Except RouteError String :=
  let text := host.text value
  if text = "" then .error (.value "描述不能为空")
  else if maxDescription < text.length then .error (.value s!"描述不能超过 {maxDescription} 个字符")
  else .ok text

def normalizeBaseUrl (host : Host) (value : Json) : Except RouteError String :=
  let url := host.text value
  if url = "" then .error (.value "URL 不能为空")
  else
    match host.urlsplit url with
    | .error message => .error (.value message)
    | .ok (scheme, netloc) =>
      if scheme ∉ ["http", "https"] ∨ netloc = "" then
        .error (.value "URL 必须是 http(s)://主机[:端口][/路径] 形式")
      else .ok url

def normalizePath (host : Host) (value : Json) (provider : String) : String :=
  let path := host.text value
  if path = "" then (defaultPaths.lookup provider).getD "/v1/chat/completions"
  else if Text.startsWith "/" path then path
  else "/" ++ path

/-- The items of a list, or of a text with commas, as texts; anything else is refused. -/
def itemTexts (host : Host) (message : String) : Json → Except RouteError (List String)
  | .str s => .ok (Text.split ',' s)
  | .arr items => .ok (items.map (Json.textOr host.str))
  | _ => .error (.value message)

/-- `value in (None, "")`. -/
def isBlank : Json → Bool
  | .null => true
  | .str s => s = ""
  | _ => false

/-- The items, stripped, without blanks and without those seen. -/
def distinctTexts (seen : List String) : List String → List String
  | [] => []
  | item :: items =>
    let text := Text.strip item
    if text = "" ∨ text ∈ seen then distinctTexts seen items else text :: distinctTexts (text :: seen) items

def normalizeAliases (host : Host) (value : Json) : Except RouteError (List String) :=
  if isBlank value then .ok []
  else (itemTexts host "别名必须是字符串或字符串数组" value).map (distinctTexts [])

/-- `1 <= number <= ceiling`. -/
def inRange (ceiling : Int) (label : String) (number : Int) : Except RouteError (Option Int) :=
  if 1 ≤ number ∧ number ≤ ceiling then .ok (some number)
  else .error (.value s!"{label} 必须在 1..{ceiling} 之间")

/-- `_positive_token_count`. -/
def positiveTokenCount (host : Host) (value : Json) (ceiling : Int) (label : String) :
    Except RouteError (Option Int) :=
  match value with
  | .null => .ok none
  | .int n => inRange ceiling label n
  | .str s =>
    if s = "" then .ok none
    else if host.isDigit (Text.strip s) then
      match host.readInt (Text.strip s) with
      | .error message => .error (.value message)
      | .ok n => inRange ceiling label n
    else .error (.value s!"{label} 必须是正整数")
  | _ => .error (.value s!"{label} 必须是正整数")

def normalizeContextWindow (host : Host) (value : Json) : Except RouteError (Option Int) :=
  positiveTokenCount host value maxContextWindow "context_window"

def normalizeMaxTokens (host : Host) (value : Json) : Except RouteError (Option Int) :=
  positiveTokenCount host value maxOutputTokens "max_tokens"

/-- The words of a vocabulary that some texts name, in its order; the first text that names none of them is refused. -/
def wordsNamed (host : Host) (vocabulary : List String) (unknown : String → String) (texts : List String) :
    Except RouteError (List String) :=
  let named := (texts.map fun item => host.unicode.lower (Text.strip item)).filter (· ≠ "")
  match named.find? (· ∉ vocabulary) with
  | some word => .error (.value (unknown word))
  | none => .ok (vocabulary.filter (· ∈ named))

def normalizeModalities (host : Host) (value : Json) : Except RouteError (Option (List String)) :=
  if isBlank value then .ok none
  else do
    let texts ← itemTexts host "modalities 必须是字符串或字符串数组" value
    let named ← wordsNamed host modalities
      (fun word => s!"不支持的模态 {word}，可选：" ++ choices modalities) texts
    -- `or None`
    return if named = [] then none else some named

/-- `_normalize_thinking_levels`. -/
def normalizeThinkingLevels (host : Host) (value : Json) : Except RouteError (List String) :=
  if isBlank value then .ok []
  else do
    let texts ← itemTexts host "reasoning.efforts 必须是字符串数组" value
    wordsNamed host thinkingLevels
      (fun word => s!"不支持的思维链档位 {word}，可选：" ++ choices thinkingLevels) texts

structure Reasoning where
  format : Option String
  efforts : List String
  deriving DecidableEq, Repr

/-- The dialect of a declaration, if it names one. -/
def normalizeFormat (host : Host) (value : Json) (provider : String) : Except RouteError (Option String) :=
  let dialect := host.unicode.lower (host.text value)
  if dialect = "" then .ok none
  else if dialect ∉ thinkingFormats then
    .error (.value (s!"不支持的思维链方言 {dialect}，可选：" ++ choices thinkingFormats))
  else if provider ≠ "openai" then
    .error (.value "思维链方言只适用于 OpenAI 兼容格式；Anthropic 使用原生 thinking 块")
  else .ok (some dialect)

/-- The fields of a declaration, once it is an object. -/
def normalizeDeclared (host : Host) (fields : List (String × Json)) (provider : String) :
    Except RouteError (Option Reasoning) :=
  match (fields.map (·.1)).filter (· ∉ ["format", "efforts"]) with
  | [] => do
    let format ← normalizeFormat host (Json.get fields "format") provider
    let efforts ← normalizeThinkingLevels host (Json.get fields "efforts")
    if efforts = [] then
      .error (.value "reasoning.efforts 不能为空；不声明思维链请留空整个 reasoning 字段")
    else if efforts.all (· = "off") then .error (.value "reasoning.efforts 至少要有一个 off 以外的档位")
    else .ok (some ⟨format, efforts⟩)
  | unknown =>
    .error (.value ("reasoning 含未知字段：" ++ String.intercalate ", " (unknown.insertionSort (· ≤ ·))))

def normalizeReasoning (host : Host) (value : Json) (provider : String) : Except RouteError (Option Reasoning) :=
  if isBlank value then .ok none
  else
    match value with
    | .obj [] => .ok none
    | .obj fields => normalizeDeclared host fields provider
    | _ => .error (.value "reasoning 必须是 JSON 对象")

def normalizeEnabled (host : Host) : Json → Bool
  | .bool b => b
  | .null => true
  | .str s => host.unicode.lower (Text.strip s) ∉ ["", "0", "false", "no", "off"]
  | value => value.truthy

/-- `is_header_safe`: a word of printable ASCII. -/
def isHeaderSafe (value : String) : Bool :=
  value ≠ "" ∧ value.toList.all fun c => 0x21 ≤ c.toNat ∧ c.toNat ≤ 0x7e

def normalizeApiKey (host : Host) (value : Json) : Except RouteError String :=
  let text := host.text value
  if text = "" then .ok ""
  else if isHeaderSafe text then .ok text
  else .error (.value "api_key 不能包含空格、制表符、控制字符或非 ASCII 字符")

/-- What the sealer makes of a key, or its refusal. -/
abbrev Seal := String → Except RouteError String

def sealApiKey (host : Host) (sealer : Seal) (value : Json) : Except RouteError String := do
  let text ← normalizeApiKey host value
  if text = "" then return "" else sealer text

/-! ## `build_route` -/

/-- The mappings: a request body, and an entry it is laid over. -/
abbrev Fields := List (String × Json)

/-- A field of the body where it has it, even as `null`, and of the entry otherwise. -/
def payloadField (payload existing : Fields) (key : String) : Json :=
  (payload.lookup key).getD (Json.get existing key)

def resolveApiKey (host : Host) (sealer : Seal) (payload existing : Fields) : Except RouteError String :=
  match payload.lookup "api_key" with
  | none | some .null => .ok ((Json.get existing "api_key").textOr host.str)
  | some value => sealApiKey host sealer value

/-- What `build_route` builds. -/
structure Entry where
  name : String
  provider : String
  kind : String
  baseUrl : String
  apiKey : String
  model : String
  aliases : List String
  path : String
  enabled : Bool
  description : String
  contextWindow : Option Int
  maxTokens : Option Int
  modalities : Option (List String)
  reasoning : Option Reasoning
  deriving DecidableEq, Repr

def checkCapacity (contextWindow maxTokens : Option Int) : Except RouteError Unit :=
  match contextWindow, maxTokens with
  | some window, some tokens =>
    if window < tokens then .error (.value "max_tokens 不能大于 context_window") else .ok ()
  | _, _ => .ok ()

def buildRoute (host : Host) (sealer : Seal) (payload existing : Fields) : Except RouteError Entry := do
  let field := payloadField payload existing
  let provider ← normalizeProvider host (field "provider")
  let contextWindow ← normalizeContextWindow host (field "context_window")
  let maxTokens ← normalizeMaxTokens host (field "max_tokens")
  checkCapacity contextWindow maxTokens
  let name ← normalizeName host (field "name")
  let kind ← normalizeKind host (field "kind") provider
  let baseUrl ← normalizeBaseUrl host (field "base_url")
  let apiKey ← resolveApiKey host sealer payload existing
  let model := host.text (field "model")
  let aliases ← normalizeAliases host (field "aliases")
  let path := normalizePath host (field "path") provider
  let enabled := normalizeEnabled host ((payload.lookup "enabled").getD ((existing.lookup "enabled").getD (.bool true)))
  let description ← normalizeDescription host (field "description")
  let modalities ← normalizeModalities host (field "modalities")
  let reasoning ← normalizeReasoning host (field "reasoning") provider
  return { name, provider, kind, baseUrl, apiKey, model, aliases, path, enabled, description, contextWindow, maxTokens,
           modalities, reasoning }

/-! ## Entries as mappings and rows -/

def texts (items : List String) : Json := .arr (items.map .str)

def Reasoning.json (r : Reasoning) : Json :=
  .obj [("format", (r.format.map .str).getD .null), ("efforts", texts r.efforts)]

def Entry.json (e : Entry) : Fields :=
  [("name", .str e.name), ("provider", .str e.provider), ("kind", .str e.kind), ("base_url", .str e.baseUrl),
    ("api_key", .str e.apiKey), ("model", .str e.model), ("aliases", texts e.aliases), ("path", .str e.path),
    ("enabled", .bool e.enabled), ("description", .str e.description),
    ("context_window", (e.contextWindow.map .int).getD .null), ("max_tokens", (e.maxTokens.map .int).getD .null),
    ("modalities", (e.modalities.map texts).getD .null), ("reasoning", (e.reasoning.map (·.json)).getD .null)]

/-- A text column that holds JSON: the value `json.loads` reads, or a text it refuses. -/
inductive Document
  | json (value : Json)
  | corrupt (text : String)
  deriving Repr

/-- A row of `model_routes`: the columns that `_entry` and `_apply` handle. -/
structure ModelRoute where
  name : String
  provider : String
  kind : String
  baseUrl : String
  apiKey : String
  model : String
  aliases : Document
  path : String
  enabled : Bool
  description : String
  contextWindow : Option Int
  maxTokens : Option Int
  modalities : Option Document
  reasoning : Option Document
  deriving Repr

/-- `[str(item) for item in parsed] if isinstance(parsed, list) else []`. -/
def Document.listed (host : Host) : Document → List String
  | .json (.arr items) => items.map (Json.text host.str)
  | _ => []

def ModelRoute.aliasList (host : Host) (row : ModelRoute) : List String := row.aliases.listed host

def ModelRoute.modalityList (host : Host) (row : ModelRoute) : List String :=
  match row.modalities with
  | none => []
  | some document => document.listed host

def ModelRoute.reasoningDict (row : ModelRoute) : Json :=
  match row.reasoning with
  | some (.json (.obj fields)) => .obj fields
  | _ => .null

def ModelRoute.setAliases (row : ModelRoute) (values : List String) : ModelRoute :=
  { row with aliases := .json (texts values) }

/-- An empty list clears the column. -/
def ModelRoute.setModalities (row : ModelRoute) (values : Option (List String)) : ModelRoute :=
  { row with modalities := if values.getD [] = [] then none else some (.json (texts (values.getD []))) }

def ModelRoute.setReasoning (row : ModelRoute) (reasoning : Option Reasoning) : ModelRoute :=
  { row with reasoning := reasoning.map fun r => .json r.json }

/-- `_entry`. -/
def ModelRoute.entry (host : Host) (row : ModelRoute) : Fields :=
  [("name", .str row.name), ("provider", .str row.provider), ("kind", .str row.kind), ("base_url", .str row.baseUrl),
    ("api_key", .str row.apiKey), ("model", .str row.model), ("aliases", texts (row.aliasList host)),
    ("path", .str row.path), ("enabled", .bool row.enabled), ("description", .str row.description),
    ("context_window", (row.contextWindow.map .int).getD .null), ("max_tokens", (row.maxTokens.map .int).getD .null),
    ("modalities", texts (row.modalityList host)), ("reasoning", row.reasoningDict)]

/-- `_apply`. -/
def ModelRoute.apply (row : ModelRoute) (e : Entry) : ModelRoute :=
  let row := { row with name := e.name, provider := e.provider, kind := e.kind, baseUrl := e.baseUrl, path := e.path,
                        model := e.model, apiKey := e.apiKey }
  let row := row.setAliases e.aliases
  let row := { row with enabled := e.enabled, description := e.description, contextWindow := e.contextWindow,
                        maxTokens := e.maxTokens }
  (row.setModalities e.modalities).setReasoning e.reasoning

end OpenFish.Routes
