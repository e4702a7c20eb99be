/-
The context builder of `services/repo_context.py`: rows of the mirror become wrapped entries, which are
fitted into a budget of characters.
-/
import OpenFish.Lib.Text

namespace OpenFish.Context

open Lib

/-! ## The wrapper of untrusted data -/

/-- What `html.escape` puts for one character, quotes included. -/
def escapeChar (c : Char) : List Char :=
  match c with
  | '&' => ['&', 'a', 'm', 'p', ';']
  | '<' => ['&', 'l', 't', ';']
  | '>' => ['&', 'g', 't', ';']
  | '"' => ['&', 'q', 'u', 'o', 't', ';']
  | '\'' => ['&', '#', 'x', '2', '7', ';']
  | c => [c]

/-- `_attr`. -/
def attr (value : String) : String := String.ofList (value.toList.flatMap escapeChar)

/-- The lower case by which `re.IGNORECASE` compares a character with an ASCII letter. -/
def fold (c : Char) : Char :=
  match c.toNat with
  | 0x0130 => 'i'
  | 0x0131 => 'i'
  | 0x017f => 's'
  | 0x212a => 'k'
  | _ => c.toLower

/-- The match of `</\s*tag\s*>` at the front of a text, ignoring case. Neither `\s*` can take a character
that stands after it in the pattern, so the longest run is the only one that can match. -/
def matchEndTag (tag l : List Char) : Option (List Char) :=
  match l with
  | '<' :: '/' :: rest =>
    let spaces := rest.takeWhile Text.isSpace
    let named := (rest.dropWhile Text.isSpace).take tag.length
    let after := (rest.dropWhile Text.isSpace).drop tag.length
    if named.map fold = tag then
      match after.dropWhile Text.isSpace with
      | '>' :: _ => some ('<' :: '/' :: (spaces ++ named ++ after.takeWhile Text.isSpace ++ ['>']))
      | _ => none
    else none
  | _ => none

/-- `pattern.sub`: a match gives `"&lt;"` and its own characters after the first; `copied` characters of
the last match are still to be copied. -/
def subEndTags (tag : List Char) : ℕ → List Char → List Char
  | _, [] => []
  | copied + 1, c :: l => c :: subEndTags tag copied l
  | 0, c :: l =>
    match matchEndTag tag (c :: l) with
    | some found => ['&', 'l', 't', ';'] ++ subEndTags tag (found.length - 1) l
    | none => c :: subEndTags tag 0 l

/-- `_neutralize_end_tag`. -/
def neutralizeEndTag (text tag : String) : String := String.ofList (subEndTags tag.toList 0 text.toList)

/-- The attributes of an opening tag; a value that is missing leaves its attribute out. -/
def renderAttributes (attributes : List (String × Option String)) : String :=
  String.join (attributes.map fun
    | (key, some value) => " " ++ key ++ "=\"" ++ attr value ++ "\""
    | (_, none) => "")

def wrapUntrusted (body tag : String) (attributes : List (String × Option String)) : String :=
  "<" ++ tag ++ renderAttributes attributes ++ ">\n" ++ neutralizeEndTag body tag ++ "\n</" ++ tag ++ ">"

/-! ## Rows -/

/-- A row of `repo_issues`; a date is its ISO form. -/
structure RepoIssue where
  id : ℤ
  number : ℤ
  isPullRequest : Bool
  title : String
  body : Option String
  state : String
  author : Option String
  labelList : List String
  createdAt : Option String
  url : Option String
  deriving DecidableEq, Repr

/-- A row of `repo_commits`, which has no column for a link. -/
structure RepoCommit where
  id : ℤ
  sha : String
  message : Option String
  author : Option String
  committedAt : Option String
  deriving DecidableEq, Repr

structure Finding where
  id : ℤ
  ruleId : String
  title : String
  status : String
  level : String
  severity : String
  filePath : String
  symbol : String
  prUrl : Option String
  detail : Option String
  deriving DecidableEq, Repr

/-- The row of a candidate, by its kind. -/
inductive Row where
  | issue (row : RepoIssue)
  | commit (row : RepoCommit)
  | finding (row : Finding)
  deriving DecidableEq, Repr

structure Candidate where
  row : Row
  score : ℤ
  relation : Option String
  origin : String
  deriving DecidableEq, Repr

def Row.kind : Row → String
  | .issue _ => "issue"
  | .commit _ => "commit"
  | .finding _ => "finding"

def Row.id : Row → ℤ
  | .issue row => row.id
  | .commit row => row.id
  | .finding row => row.id

/-! ## Rendering -/

def maxBodyChars : ℕ := 2000

/-- `_clip`, with the mark whether anything was cut. -/
def clip (text : String) (limit : ℕ) : String × Bool :=
  if text.length ≤ limit then (text, false) else (Text.clip limit text, true)

/-- `value or default` of a text that may be missing. -/
def orElse (value : Option String) (default : String) : String :=
  match value with
  | some text => if text = "" then default else text
  | none => default

/-- What an f-string prints for a text that may be missing. -/
def orNone (value : Option String) : String := value.getD "None"

/-- The lines of an entry: its head, an optional line for a link, a blank line, the body, and the mark of a
cut body. -/
def entryLines (head : List String) (linkName : String) (link : Option String) (body : String × Bool)
    (mark : String) : String :=
  let linkLine := match link with
    | some url => if url = "" then [] else [linkName ++ ": " ++ url]
    | none => []
  String.intercalate "\n" (head ++ linkLine ++ ["", body.1] ++ if body.2 then [mark] else [])

/-- `_TAG_BY_KIND`, without the `untrusted-` that all its tags start with. -/
def tagKind : Row → String
  | .issue row => if row.isPullRequest then "pull-request" else "issue"
  | .commit _ => "commit"
  | .finding _ => "finding"

def tagOf (row : Row) : String := "untrusted-" ++ tagKind row

def renderIssue (row : RepoIssue) (source : String) (bodyLimit : ℕ) : String :=
  let body := clip (orElse row.body "") bodyLimit
  let labels := orElse (some (String.intercalate ", " row.labelList)) "-"
  wrapUntrusted
    (entryLines
      ["#" ++ toString row.number ++ " [" ++ row.state ++ "] " ++ row.title,
        "author: " ++ orElse row.author "-" ++ " | labels: " ++ labels ++ " | created: " ++ orNone row.createdAt]
      "url" row.url body "…（正文已截断）")
    (tagOf (.issue row)) [("number", some (toString row.number)), ("source", some source), ("url", row.url)]

def renderCommit (row : RepoCommit) (source : String) (bodyLimit : ℕ) : String :=
  let body := clip (orElse row.message "") bodyLimit
  wrapUntrusted
    (entryLines
      ["commit " ++ Text.clip 12 (orElse (some row.sha) "?"),
        "author: " ++ orElse row.author "-" ++ " | committed: " ++ orNone row.committedAt]
      "url" none body "…（提交信息已截断）")
    (tagOf (.commit row)) [("sha", some row.sha), ("source", some source), ("url", none)]

def renderFinding (row : Finding) (source : String) (bodyLimit : ℕ) : String :=
  let body := clip (orElse row.detail "") bodyLimit
  wrapUntrusted
    (entryLines
      ["finding #" ++ toString row.id ++ " [" ++ row.ruleId ++ "] " ++ row.title,
        "status: " ++ row.status ++ " | level: " ++ row.level ++ " | severity: " ++ row.severity ++ " | anchor: " ++
          row.filePath ++ ":" ++ row.symbol]
      "pr" row.prUrl body "…（说明已截断）")
    (tagOf (.finding row)) [("finding", some (toString row.id)), ("source", some source)]

def render (row : Row) (source : String) (bodyLimit : ℕ) : String :=
  match row with
  | .issue row => renderIssue row source bodyLimit
  | .commit row => renderCommit row source bodyLimit
  | .finding row => renderFinding row source bodyLimit

/-! ## The budget -/

/-- `_item_meta`; the fields that it copies from the row are the row's. -/
structure Item where
  kind : String
  id : ℤ
  score : ℤ
  relation : Option String
  origin : String
  chars : ℕ
  row : Row
  deriving DecidableEq, Repr

def itemMeta (candidate : Candidate) (chars : ℕ) : Item :=
  { kind := candidate.row.kind, id := candidate.row.id, score := candidate.score, relation := candidate.relation,
    origin := candidate.origin, chars, row := candidate.row }

/-- The block of one candidate when `used` characters are taken: the whole entry, else the entry with the
part of its body that there is room for, else none. -/
def fitBlock (row : Row) (source : String) (budget used separator : ℕ) : Option String :=
  let block := render row source maxBodyChars
  if used + block.length + separator ≤ budget then some block
  else
    let room := budget - used - separator - (render row source 0).length
    if room = 0 then none
    else
      let block := render row source room
      if used + block.length + separator ≤ budget then some block else none

/-- The items, the blocks and the characters used so far. -/
structure Assembled where
  items : List Item
  blocks : List String
  used : ℕ
  deriving DecidableEq, Repr

/-- The loop of `_assemble` over the candidates that are left; it ends at the first that does not fit. -/
def assembleFrom (source : String) (budget : ℕ) : Assembled → List Candidate → Assembled
  | acc, [] => acc
  | acc, candidate :: rest =>
    let separator := if acc.blocks = [] then 0 else 2
    match fitBlock candidate.row source budget acc.used separator with
    | none => acc
    | some block =>
      assembleFrom source budget
        { items := acc.items ++ [itemMeta candidate block.length], blocks := acc.blocks ++ [block],
          used := acc.used + (block.length + separator) } rest

/-- `_assemble`. -/
def assemble (candidates : List Candidate) (source : String) (budget : ℕ) : Assembled :=
  assembleFrom source budget { items := [], blocks := [], used := 0 } candidates

/-- What a search answers, less the texts that are the same in every answer. -/
structure Answer where
  repoId : ℤ
  query : List (String × String)
  items : List Item
  text : String
  truncated : Bool
  omitted : ℕ
  matched : ℕ
  budget : ℕ
  budgetUsed : ℕ
  source : String
  deriving DecidableEq, Repr

/-- `_result`. -/
def result (repoId : ℤ) (query : List (String × String)) (assembled : Assembled) (matched budget : ℕ)
    (source : String) : Answer :=
  let omitted := matched - assembled.items.length
  { repoId, query, items := assembled.items, text := String.intercalate "\n\n" assembled.blocks,
    truncated := 0 < omitted, omitted, matched, budget, budgetUsed := assembled.used, source }

end OpenFish.Context
