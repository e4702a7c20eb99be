/-
Source URLs of `services/repo_import.py`: `parse_source` with what it uses of `urllib.parse`, the
identity of a repository, and the name of its mirror.
-/
import OpenFish.Lib.Text
import OpenFish.Lib.Unicode

namespace OpenFish.Import

open Lib

/-! ## `urllib.parse` -/

/-- The fields of a parsed URL that are read. -/
structure ParseResult where
  scheme : String
  netloc : String
  path : String
  deriving DecidableEq, Repr

/-- The schemes whose paths may carry parameters. -/
def usesParams : List String :=
  ["", "ftp", "hdl", "prospero", "http", "imap", "https", "shttp", "rtsp", "rtsps", "rtspu", "sip", "sips",
    "mms", "sftp", "tel"]

def isSchemeChar (c : Char) : Bool := c.isAlphanum || c ∈ ['+', '-', '.']

def splitScheme (url : String) : String × String :=
  match Text.partition ':' url with
  | (head, some rest) =>
    if head.toList.head?.any Char.isAlpha && head.toList.all isSchemeChar then (Text.lower head, rest) else ("", url)
  | (_, none) => ("", url)

/-- `_splitnetloc`. -/
def splitNetloc (url : String) : String × String :=
  if Text.startsWith "//" url then
    let rest := url.toList.drop 2
    (String.ofList (rest.takeWhile (· ∉ ['/', '?', '#'])), String.ofList (rest.dropWhile (· ∉ ['/', '?', '#'])))
  else ("", url)

/-- `_checknetloc`: the characters whose compatibility form holds one of `/?#@:`. -/
def checkNetloc (netloc : String) : Bool :=
  netloc.toList.all fun c =>
    c.toNat ∉ [0x2047, 0x2048, 0x2049, 0x2100, 0x2101, 0x2105, 0x2106, 0x2a74, 0xfe13, 0xfe16, 0xfe55, 0xfe56, 0xfe5f,
      0xfe6b, 0xff03, 0xff0f, 0xff1a, 0xff1f, 0xff20]

/-- `_splitparams`: the parameters of the last segment are dropped. -/
def dropParams (path : String) : String :=
  String.ofList (path.toList.rdropWhile (· ≠ '/') ++ (path.toList.rtakeWhile (· ≠ '/')).takeWhile (· ≠ ';'))

/-- `urlparse`; an error is the text of the `ValueError`. -/
def urlparse (url : String) : Except String ParseResult :=
  let url := String.ofList (url.toList.dropWhile fun c => decide (c.toNat ≤ 0x20))
  let url := Text.removeChar '\n' (Text.removeChar '\r' (Text.removeChar '\t' url))
  let (scheme, url) := splitScheme url
  let (netloc, url) := splitNetloc url
  if ('[' ∈ netloc.toList) ≠ (']' ∈ netloc.toList) then .error "Invalid IPv6 URL"
  else
    let path := (Text.partition '?' (Text.partition '#' url).1).1
    if !checkNetloc netloc then
      .error s!"netloc '{netloc}' contains invalid characters under NFKC normalization"
    else .ok { scheme, netloc, path := if scheme ∈ usesParams then dropParams path else path }

/-- `_hostinfo`: the host and the port as they are written. -/
def ParseResult.hostinfo (parsed : ParseResult) : String × Option String :=
  let hostinfo := Text.afterLast '@' parsed.netloc
  match Text.partition '[' hostinfo with
  | (_, some bracketed) =>
    let (host, rest) := Text.partition ']' bracketed
    (host, (Text.partition ':' (rest.getD "")).2)
  | (_, none) => Text.partition ':' hostinfo

def ParseResult.hostname (parsed : ParseResult) : Option String :=
  let host := parsed.hostinfo.1
  if host = "" then none
  else
    match Text.partition '%' host with
    | (name, none) => some (Text.lower name)
    | (name, some zone) => some (Text.lower name ++ "%" ++ zone)

/-- `port`, as a text: `none` when it is missing or empty. -/
def ParseResult.port (parsed : ParseResult) : Option String := parsed.hostinfo.2.filter (· ≠ "")

/-! ## Source URL parsing -/

inductive SourceKind
  | github | gitee | gitlab | git
  deriving DecidableEq, Repr

/-- `_KNOWN_HOSTS.get(host, "git")`. -/
def kindOf : String → SourceKind
  | "github.com" => .github
  | "gitee.com" => .gitee
  | "gitlab.com" => .gitlab
  | _ => .git

/-- One parsed repository URL: the full namespace plus where it came from. -/
structure RepoSource where
  host : String
  owner : String
  name : String
  cloneUrl : String
  path : String := ""
  kind : SourceKind := .git
  deriving DecidableEq, Repr

/-- `_OWNER_RE`, which is `_NAME_RE` too; the `$` of the pattern lets a line feed follow. -/
def segmentMatches (s : String) : Bool :=
  let body := if s.toList.getLast? = some '\n' then s.toList.dropLast else s.toList
  body.head?.any Char.isAlphanum && body.all fun c => c.isAlphanum || c ∈ ['.', '_', '-']

/-- The `.git` of the last segment is dropped, once. -/
def stripDotGit (s : String) : String :=
  if Text.endsWith ".git" s then String.ofList (s.toList.take (s.toList.length - 4)) else s

/-- `_split_namespace`: the full path, the owner and the name. -/
def splitNamespace (path : String) : Except String (String × String × String) :=
  let parts := (Text.split '/' path).filter (· ≠ "")
  if parts.length < 2 then .error s!"仓库地址缺少 owner/name：{path}"
  else
    let parts := parts.dropLast ++ [stripDotGit (parts.getLastD "")]
    if parts.all segmentMatches then
      .ok (String.intercalate "/" parts, parts.dropLast.getLastD "", parts.getLastD "")
    else .error ("仓库地址中的路径段非法：" ++ String.intercalate "/" parts)

/-- The URL without blanks around it and without its fragment. -/
def rawSource (sourceUrl : String) : String := Text.strip (Text.partition '#' (Text.strip sourceUrl)).1

/-- `git@host:owner/name.git`. -/
def scpLike (raw : String) : Bool :=
  !Text.contains "://" raw && (Text.partition '@' raw).2.any fun rest => ':' ∈ rest.toList

/-- The host and the path of the scp-like form. -/
def splitScp (raw : String) : String × String :=
  let (userHost, path) := Text.partition ':' raw
  let (user, host) := Text.partition '@' userHost
  (host.getD user, path.getD "")

/-- `RepoSource(...)` at the end of `parse_source`. -/
def repoSource (scheme host path : String) : Except String RepoSource := do
  let (namespacePath, owner, name) ← splitNamespace path
  let cloneScheme := if scheme ∈ ["http", "https", "ssh"] then "https" else scheme
  return {
    host, owner, name
    cloneUrl := cloneScheme ++ "://" ++ host ++ "/" ++ namespacePath ++ ".git"
    path := namespacePath
    kind := kindOf host }

def parseSource (sourceUrl : String) : Except String RepoSource :=
  let raw := rawSource sourceUrl
  if raw = "" then .error "source_url 不能为空"
  else if scpLike raw then
    let (host, path) := splitScp raw
    repoSource "https" host path
  else do
    let parsed ← urlparse raw
    if parsed.scheme ∉ ["http", "https", "git", "ssh"] then
      .error s!"不支持的仓库协议：{raw}（需要 https / git / ssh）"
    else
      let host := Text.lower (parsed.hostname.getD "")
      if host = "" then .error s!"仓库地址缺少主机名：{raw}"
      else repoSource parsed.scheme host parsed.path

/-- The canonical `repos.slug` value: the full namespace. -/
def RepoSource.slug (source : RepoSource) : String :=
  if source.path = "" then source.owner ++ "/" ++ source.name else source.path

def RepoSource.webUrl (source : RepoSource) : String :=
  if source.host = "" then source.cloneUrl else "https://" ++ source.host ++ "/" ++ source.slug

/-- `_forgejo_name`: the full namespace, `__`-joined. -/
def forgejoName (source : RepoSource) : String :=
  String.ofList (source.slug.toList.flatMap fun c => if c = '/' then ['_', '_'] else [c])

/-! ## Parsing with the tables of Python -/

/-- What `urllib.parse` rests on: `str.lower`, and `_check_bracketed_netloc`, which versions of Python differ in. -/
structure Urllib extends Casing where
  checkBracketed : String → Except String Unit

/-- The ASCII tables, and every host in brackets. -/
def Urllib.ascii : Urllib where
  toCasing := Casing.ascii
  checkBracketed _ := .ok ()

variable (py : Urllib)

/-- `urlparse`, with the check of a network location in brackets. -/
def urlparseBy (url : String) : Except String ParseResult :=
  let url := String.ofList (url.toList.dropWhile fun c => decide (c.toNat ≤ 0x20))
  let url := Text.removeChar '\n' (Text.removeChar '\r' (Text.removeChar '\t' url))
  let (scheme, url) := splitScheme url
  let (netloc, url) := splitNetloc url
  if ('[' ∈ netloc.toList) ≠ (']' ∈ netloc.toList) then .error "Invalid IPv6 URL"
  else
    match if '[' ∈ netloc.toList then py.checkBracketed netloc else .ok () with
    | .error e => .error e
    | .ok () =>
      let path := (Text.partition '?' (Text.partition '#' url).1).1
      if !checkNetloc netloc then
        .error s!"netloc '{netloc}' contains invalid characters under NFKC normalization"
      else .ok { scheme, netloc, path := if scheme ∈ usesParams then dropParams path else path }

def ParseResult.hostnameBy (parsed : ParseResult) : Option String :=
  let host := parsed.hostinfo.1
  if host = "" then none
  else
    match Text.partition '%' host with
    | (name, none) => some (py.lower name)
    | (name, some zone) => some (py.lower name ++ "%" ++ zone)

def parseSourceBy (sourceUrl : String) : Except String RepoSource :=
  let raw := rawSource sourceUrl
  if raw = "" then .error "source_url 不能为空"
  else if scpLike raw then
    let (host, path) := splitScp raw
    repoSource "https" host path
  else do
    let parsed ← urlparseBy py raw
    if parsed.scheme ∉ ["http", "https", "git", "ssh"] then
      .error s!"不支持的仓库协议：{raw}（需要 https / git / ssh）"
    else
      let host := py.lower ((parsed.hostnameBy py).getD "")
      if host = "" then .error s!"仓库地址缺少主机名：{raw}"
      else repoSource parsed.scheme host parsed.path

theorem urlparseBy_ascii (url : String) : urlparseBy Urllib.ascii url = urlparse url := by
  unfold urlparseBy urlparse
  simp only [Urllib.ascii, ite_self]

theorem lower_ascii (s : String) : Urllib.ascii.lower s = Text.lower s := rfl

theorem hostnameBy_ascii (parsed : ParseResult) : parsed.hostnameBy Urllib.ascii = parsed.hostname := by
  unfold ParseResult.hostnameBy ParseResult.hostname
  by_cases hempty : parsed.hostinfo.1 = ""
  · rw [if_pos hempty, if_pos hempty]
  · rw [if_neg hempty, if_neg hempty]
    rcases Text.partition '%' parsed.hostinfo.1 with ⟨name, _ | zone⟩ <;> rfl

theorem parseSourceBy_ascii (sourceUrl : String) : parseSourceBy Urllib.ascii sourceUrl = parseSource sourceUrl := by
  unfold parseSourceBy parseSource
  simp only [urlparseBy_ascii, hostnameBy_ascii, lower_ascii]

end OpenFish.Import
