/-
A `Range` request for a cached blob is answered with the bytes it names, as long as what stands for its numbers are digits
and the blob is not empty.
-/
import OpenFish.Docker.Cache
import OpenFish.Lib.Integer

namespace OpenFish.Docker

open Lib

/-- What `_parse_range` returns: `None`, `False`, or the first and the last position. -/
inductive Parsed
  | whole
  | unsatisfiable
  | range (start stop : Int)
  deriving DecidableEq, Repr

/-- What stands before and after the first `-` of a header that asks for one range of bytes. -/
def ends (header : String) : Option (String × String) :=
  if header = "" ∨ Text.startsWith "bytes=" (Text.lower (Text.strip header)) = false then none
  else
    let spec := Text.strip (String.ofList ((Text.strip header).toList.drop "bytes=".length))
    if ',' ∈ spec.toList ∨ '-' ∉ spec.toList then none
    else some (Text.strip (Text.partition '-' spec).1, Text.strip ((Text.partition '-' spec).2.getD ""))

/-- The last position, of the file if none is written. -/
def lastPosition (last : String) (size : Nat) : Option Int := if last = "" then some (size - 1) else readInteger last

/-- `_parse_range(header, size)`. -/
def parseRange (header : String) (size : Nat) : Parsed :=
  match ends header with
  | none => .whole
  | some (first, last) =>
    if first = "" then
      match readInteger last with
      | none => .whole
      | some suffix =>
        if suffix ≤ 0 then .unsatisfiable
        else if (size : Int) ≤ suffix then .range 0 (size - 1)
        else .range (size - suffix) (size - 1)
    else
      match readInteger first, lastPosition last size with
      | some start, some stop =>
        if (size : Int) ≤ start ∨ stop < start then .unsatisfiable else .range start (min stop (size - 1))
      | _, _ => .whole

/-- `CHUNK`. -/
def chunkSize : Nat := 65536

/-- The reads of an open file, until `remaining` bytes are there or it ends. -/
def readChunks (rest : Bytes) (remaining : Nat) : List Bytes :=
  if remaining = 0 then []
  else
    let chunk := rest.take (min chunkSize remaining)
    if chunk = [] then [] else chunk :: readChunks (rest.drop chunk.length) (remaining - chunk.length)
termination_by remaining
decreasing_by
  exact Nat.sub_lt (Nat.pos_of_ne_zero ‹_›) (List.length_pos_of_ne_nil ‹_›)

/-- `_file_slice(path, start, length)`. -/
def fileSlice (content : Bytes) (start length : Int) : List Bytes := readChunks (content.drop start.toNat) length.toNat

/-- A response, its body in the pieces it is sent in. -/
structure Response where
  status : Nat
  headers : List (String × String)
  body : List Bytes
  deriving DecidableEq, Repr

/-- `DockerRegistryError`. -/
structure DockerRegistryError where
  message : String
  status : Nat
  code : String
  deriving DecidableEq, Repr

/-- The headers of every answer from the cache. -/
def baseHeaders (digest : String) : List (String × String) :=
  [("Content-Type", "application/octet-stream"), ("Docker-Content-Digest", digest), ("Accept-Ranges", "bytes")]

/-- The answer to a range that was read. -/
def rangeResponse (content : Bytes) (digest : String) : Parsed → Response
  | .unsatisfiable =>
    { status := 416, headers := baseHeaders digest ++ [("Content-Range", s!"bytes */{content.length}")], body := [] }
  | .whole =>
    { status := 200, headers := baseHeaders digest ++ [("Content-Length", toString content.length)],
      body := fileSlice content 0 content.length }
  | .range start stop =>
    { status := 206,
      headers := baseHeaders digest ++
        [("Content-Length", toString (stop - start + 1)), ("Content-Range", s!"bytes {start}-{stop}/{content.length}")],
      body := fileSlice content start (stop - start + 1) }

/-- `_cached_blob_response(path, digest, range_header)`. -/
def cachedBlobResponse (file : Option Bytes) (digest : String) (rangeHeader : Option String) :
    Except DockerRegistryError Response :=
  match file with
  | none => .error { message := "cached blob disappeared", status := 404, code := "BLOB_UNKNOWN" }
  | some content =>
    .ok (rangeResponse content digest
      (match rangeHeader with
        | some header => if header = "" then .whole else parseRange header content.length
        | none => .whole))

/-! ## What a range header means -/

/-- The bytes from a position on, up to another if there is one, or the last bytes of a file. -/
inductive ByteRange
  | fromTo (first : Nat) (last? : Option Nat)
  | suffix (length : Nat)
  deriving DecidableEq, Repr

/-- The range has the byte at the position. -/
def ByteRange.Selects (size : Nat) : ByteRange → Nat → Prop
  | .fromTo first last?, n => n < size ∧ first ≤ n ∧ ∀ last ∈ last?, n ≤ last
  | .suffix length, n => n < size ∧ size ≤ n + length

/-- A text is one range of bytes in digits; the unit is written in any case, and white space does not count. -/
inductive Denotes (header : String) : ByteRange → Prop
  | fromTo {unit first last : String} {n : Nat} {last? : Option Nat}
      (written : Text.strip header = unit ++ "=" ++ (first ++ "-" ++ last)) (bytes : Text.lower unit = "bytes")
      (start : digitsValue (Text.strip first) = some n)
      (stop : if Text.strip last = "" then last? = none else digitsValue (Text.strip last) = last? ∧ last? ≠ none) :
      Denotes header (.fromTo n last?)
  | suffix {unit first last : String} {n : Nat}
      (written : Text.strip header = unit ++ "=" ++ (first ++ "-" ++ last)) (bytes : Text.lower unit = "bytes")
      (start : Text.strip first = "") (stop : digitsValue (Text.strip last) = some n) :
      Denotes header (.suffix n)

/-- `int` reads what stands for the numbers of the range. -/
def Readable (header : String) : Prop :=
  ∃ first last : String, ends header = some (first, last) ∧
    if first = "" then (readInteger last).isSome = true
    else (readInteger first).isSome = true ∧ (last = "" ∨ (readInteger last).isSome = true)

/-- The header is answered with exactly the bytes it names. -/
structure Exact (content : Bytes) (digest header : String) : Prop where
  ranged : ∀ start stop, parseRange header content.length = .range start stop →
    0 ≤ start ∧ start ≤ stop ∧ stop < content.length ∧
      (∃ r, Denotes header r ∧ ∀ n : Nat, r.Selects content.length n ↔ start ≤ n ∧ n ≤ stop) ∧
      ∃ response, cachedBlobResponse (some content) digest (some header) = .ok response ∧ response.status = 206 ∧
        response.body.flatten = (content.drop start.toNat).take (stop - start + 1).toNat ∧
        response.headers = baseHeaders digest ++
          [("Content-Length", toString response.body.flatten.length),
            ("Content-Range", s!"bytes {start}-{stop}/{content.length}")]
  refused : ∀ response, cachedBlobResponse (some content) digest (some header) = .ok response → response.status = 416 →
    ∃ r, Denotes header r ∧ ∀ n, ¬ r.Selects content.length n
  otherwise : ∀ response, cachedBlobResponse (some content) digest (some header) = .ok response →
    (∀ start stop, parseRange header content.length ≠ .range start stop) → response.status ≠ 416 →
    response.status = 200 ∧ response.body.flatten = content ∧
      response.headers = baseHeaders digest ++ [("Content-Length", toString content.length)]


/-! ## What a slice sends -/

theorem flatten_readChunks (rest : Bytes) (remaining : Nat) : (readChunks rest remaining).flatten = rest.take remaining := by
  induction remaining using Nat.strongRecOn generalizing rest with
  | ind remaining ih =>
    rw [readChunks]
    by_cases hzero : remaining = 0
    · rw [if_pos hzero, hzero, List.take_zero, List.flatten_nil]
    · have hwidth : 0 < min chunkSize remaining := Nat.lt_min.2 ⟨by decide, Nat.pos_of_ne_zero hzero⟩
      rw [if_neg hzero]
      by_cases hchunk : rest.take (min chunkSize remaining) = []
      · have hrest : rest = [] := (List.take_eq_nil_iff.1 hchunk).resolve_left (Nat.ne_of_gt hwidth)
        rw [if_pos hchunk, hrest, List.take_nil, List.flatten_nil]
      · have hlength : (rest.take (min chunkSize remaining)).length ≤ remaining := by
          rw [List.length_take]
          omega
        have hpos := List.length_pos_of_ne_nil hchunk
        rw [if_neg hchunk, List.flatten_cons, ih _ (by omega)]
        have hpre := List.prefix_iff_eq_take.1 (List.take_prefix (min chunkSize remaining) rest)
        generalize (rest.take (min chunkSize remaining)).length = k at hpre hlength
        rw [hpre, ← List.take_add, Nat.add_sub_cancel' hlength]

theorem flatten_fileSlice (content : Bytes) (start length : Int) :
    (fileSlice content start length).flatten = (content.drop start.toNat).take length.toNat :=
  flatten_readChunks _ _

theorem cached_ok (content : Bytes) (digest header : String) :
    cachedBlobResponse (some content) digest (some header) =
      .ok (rangeResponse content digest (parseRange header content.length)) := by
  unfold cachedBlobResponse
  by_cases hempty : header = ""
  · have hends : ends header = none := if_pos (.inl hempty)
    simp only [if_pos hempty]
    rw [parseRange, hends]
  · simp only [if_neg hempty]

/-! ## A header that denotes a range is read -/

theorem digits_of_value {s : String} {n : Nat} (h : digitsValue s = some n) : s ≠ "" ∧ ∀ c ∈ s.toList, c.isDigit = true := by
  unfold digitsValue at h
  split at h
  · rename_i hs
    exact ⟨hs.1, List.all_eq_true.1 hs.2⟩
  · cases h

/-- No separator stands in a text that is digits or nothing but white space. -/
theorem not_mem_of_strip {c : Char} {s : String} (hspace : Text.isSpace c = false) (hdigit : c.isDigit = false)
    (h : Text.strip s = "" ∨ ∃ n, digitsValue (Text.strip s) = some n) : c ∉ s.toList := by
  intro hmem
  have hin := (Text.mem_strip hspace s).2 hmem
  rcases h with hempty | ⟨n, hn⟩
  · rw [hempty] at hin
    exact absurd hin (by simp)
  · rw [(digits_of_value hn).2 c hin] at hdigit
    cases hdigit

theorem ends_of_written {header unit first last : String} (written : Text.strip header = unit ++ "=" ++ (first ++ "-" ++ last))
    (bytes : Text.lower unit = "bytes") (hfirst : Text.strip first = "" ∨ ∃ n, digitsValue (Text.strip first) = some n)
    (hlast : Text.strip last = "" ∨ ∃ n, digitsValue (Text.strip last) = some n) :
    ends header = some (Text.strip first, Text.strip last) := by
  have hwidth : unit.toList.length = 5 := by
    have hlower := congrArg (fun s : String => s.toList.length) bytes
    rwa [Text.lower, String.toList_ofList, List.length_map] at hlower
  have hlower : Text.lower (Text.strip header) = "bytes" ++ "=" ++ Text.lower (first ++ "-" ++ last) := by
    rw [written, ← bytes, ← String.toList_inj]
    simp [Text.lower]
  have hstarts : Text.startsWith "bytes=" (Text.lower (Text.strip header)) = true := by
    rw [hlower, Text.startsWith, String.toList_append]
    exact List.isPrefixOf_iff_prefix.2 (List.prefix_append _ _)
  have hne : header ≠ "" := by
    rintro rfl
    have hlength := congrArg (fun s : String => s.toList.length) written
    rw [String.toList_append, String.toList_append, List.length_append, List.length_append, hwidth] at hlength
    exact absurd hlength (by simp [Text.strip])
  have hdrop : (Text.strip header).toList.drop "bytes=".length = first.toList ++ '-' :: last.toList := by
    have hsix : (unit ++ "=").toList.length = "bytes=".length := by
      rw [String.toList_append, List.length_append, hwidth]
      rfl
    rw [written, String.toList_append, ← hsix, List.drop_left]
    simp
  have hspec : Text.strip (String.ofList (first.toList ++ '-' :: last.toList)) =
      String.ofList (first.toList.dropWhile Text.isSpace) ++ String.singleton '-' ++
        String.ofList (last.toList.rdropWhile Text.isSpace) := by
    rw [Text.strip_append_cons (by decide), ← String.toList_inj]
    simp
  have hdash : '-' ∉ (String.ofList (first.toList.dropWhile Text.isSpace)).toList := by
    rw [String.toList_ofList]
    exact fun hmem => not_mem_of_strip (by decide) (by decide) hfirst ((List.dropWhile_suffix _).subset hmem)
  have hcomma : ',' ∉ (String.ofList (first.toList.dropWhile Text.isSpace) ++ String.singleton '-' ++
      String.ofList (last.toList.rdropWhile Text.isSpace)).toList := by
    rw [String.toList_append, String.toList_append, String.toList_ofList, String.toList_ofList, List.mem_append,
      List.mem_append, String.toList_singleton, List.mem_singleton]
    rintro ((hmem | heq) | hmem)
    · exact not_mem_of_strip (by decide) (by decide) hfirst ((List.dropWhile_suffix _).subset hmem)
    · exact absurd heq (by decide)
    · exact not_mem_of_strip (by decide) (by decide) hlast ((List.rdropWhile_prefix _ _).subset hmem)
  have hmem : '-' ∈ (String.ofList (first.toList.dropWhile Text.isSpace) ++ String.singleton '-' ++
      String.ofList (last.toList.rdropWhile Text.isSpace)).toList := by
    rw [String.toList_append, String.toList_append, String.toList_singleton]
    exact List.mem_append_left _ (List.mem_append_right _ (List.mem_singleton_self _))
  rw [ends, if_neg (by rw [hstarts]; simp [hne])]
  simp only [hdrop, hspec]
  rw [if_neg (not_or.2 ⟨hcomma, not_not.2 hmem⟩), Text.partition_append hdash, Option.getD_some, Text.strip_dropWhile,
    Text.strip_rdropWhile, String.ofList_toList, String.ofList_toList]

/-! ## What is read off a range -/

/-- The answer to a range of a file. -/
def ByteRange.parsed (size : Nat) : ByteRange → Parsed
  | .fromTo first last? =>
    let stop : Int := (last?.map fun last : Nat => (last : Int)).getD (size - 1)
    if (size : Int) ≤ first ∨ stop < first then .unsatisfiable else .range first (min stop (size - 1))
  | .suffix length =>
    if length = 0 then .unsatisfiable else if size ≤ length then .range 0 (size - 1) else .range (size - length) (size - 1)

theorem readInteger_of_isSome {s : String} {n : Nat} (h : digitsValue s = some n) (hsome : (readInteger s).isSome = true) :
    readInteger s = some (n : Int) := by
  rw [readInteger_digits h] at hsome ⊢
  split at hsome
  · cases hsome
  · rename_i hfits
    rw [if_neg hfits]

theorem parseRange_of_denotes {header : String} {r : ByteRange} (h : Denotes header r) (hreadable : Readable header)
    (size : Nat) : parseRange header size = r.parsed size := by
  obtain ⟨first', last', hends', hread⟩ := hreadable
  cases h with
  | @fromTo unit first last n last? written bytes start stop =>
    have hfirst := (digits_of_value start).1
    have hlast : Text.strip last = "" ∨ ∃ n, digitsValue (Text.strip last) = some n := by
      by_cases hempty : Text.strip last = ""
      · exact .inl hempty
      · rw [if_neg hempty] at stop
        obtain ⟨k, rfl⟩ := Option.ne_none_iff_exists'.1 stop.2
        exact .inr ⟨k, stop.1⟩
    have hends := ends_of_written written bytes (.inr ⟨n, start⟩) hlast
    obtain ⟨rfl, rfl⟩ := Prod.mk.inj (Option.some.inj (hends'.symm.trans hends))
    rw [if_neg hfirst] at hread
    have hstop : lastPosition (Text.strip last) size = some ((last?.map fun last : Nat => (last : Int)).getD (size - 1)) := by
      by_cases hempty : Text.strip last = ""
      · rw [if_pos hempty] at stop
        rw [lastPosition, if_pos hempty, stop]
        rfl
      · rw [if_neg hempty] at stop
        obtain ⟨k, rfl⟩ := Option.ne_none_iff_exists'.1 stop.2
        rw [lastPosition, if_neg hempty, readInteger_of_isSome stop.1 (hread.2.resolve_left hempty)]
        rfl
    rw [parseRange, hends]
    simp only
    rw [if_neg hfirst, readInteger_of_isSome start hread.1, hstop]
    rfl
  | @suffix unit first last n written bytes start stop =>
    have hends := ends_of_written written bytes (.inl start) (.inr ⟨n, stop⟩)
    obtain ⟨rfl, rfl⟩ := Prod.mk.inj (Option.some.inj (hends'.symm.trans hends))
    rw [if_pos start] at hread
    rw [parseRange, hends]
    simp only
    rw [if_pos start, readInteger_of_isSome stop hread]
    simp only [ByteRange.parsed]
    by_cases hzero : n = 0
    · have hle : (n : Int) ≤ 0 := by omega
      rw [if_pos hle, if_pos hzero]
    · have hpos : ¬ (n : Int) ≤ 0 := by omega
      have hsize : (size : Int) ≤ n ↔ size ≤ n := Int.ofNat_le
      rw [if_neg hpos, if_neg hzero, if_congr hsize rfl rfl]

/-- What is not read is answered with the whole file. -/
theorem parseRange_whole_iff {header : String} {size : Nat} : parseRange header size = .whole ↔ ¬ Readable header := by
  rw [parseRange]
  cases hends : ends header with
  | none =>
    refine iff_of_true rfl ?_
    rintro ⟨first, last, hsome, -⟩
    rw [hends] at hsome
    cases hsome
  | some found =>
    obtain ⟨first, last⟩ := found
    have hiff : Readable header ↔ if first = "" then (readInteger last).isSome = true
        else (readInteger first).isSome = true ∧ (last = "" ∨ (readInteger last).isSome = true) := by
      constructor
      · rintro ⟨first', last', hsome, hread⟩
        obtain ⟨rfl, rfl⟩ := Prod.mk.inj (Option.some.inj (hends.symm.trans hsome))
        exact hread
      · exact fun hread => ⟨first, last, hends, hread⟩
    rw [hiff]
    simp only
    by_cases hfirst : first = ""
    · rw [if_pos hfirst, if_pos hfirst]
      cases readInteger last with
      | none => simp
      | some suffix =>
        simp only [Option.isSome_some, not_true, iff_false]
        split
        · simp
        · split <;> simp
    · rw [if_neg hfirst, if_neg hfirst]
      have hlast : (last = "" ∨ (readInteger last).isSome = true) ↔ (lastPosition last size).isSome = true := by
        unfold lastPosition
        split <;> simp [*]
      rw [hlast]
      cases readInteger first with
      | none => simp
      | some start =>
        cases lastPosition last size with
        | none => simp
        | some stop =>
          simp only [Option.isSome_some, and_self, not_true, iff_false]
          split <;> simp

/-! ## The bytes of a range -/

/-- Where a range is answered with positions, they are those of the bytes it selects; else it selects none. -/
theorem parsed_spec {r : ByteRange} {size : Nat} (h : size ≠ 0 ∨ ∀ length, r ≠ .suffix (length + 1)) :
    (r.parsed size = .unsatisfiable ∧ ∀ n, ¬ r.Selects size n) ∨
      ∃ start stop : Int, r.parsed size = .range start stop ∧ 0 ≤ start ∧ start ≤ stop ∧ stop < size ∧
        ∀ n : Nat, r.Selects size n ↔ start ≤ n ∧ n ≤ stop := by
  cases r with
  | fromTo first last? =>
    simp only [ByteRange.parsed]
    cases last? with
    | none =>
      simp only [Option.map_none, Option.getD_none]
      by_cases hout : (size : Int) ≤ first ∨ (size : Int) - 1 < first
      · rw [if_pos hout]
        refine .inl ⟨rfl, fun n hn => ?_⟩
        obtain ⟨hlt, hle, -⟩ := hn
        omega
      · rw [if_neg hout]
        refine .inr ⟨first, _, rfl, by omega, by omega, by omega, fun n => ?_⟩
        simp only [ByteRange.Selects, Option.mem_def, reduceCtorEq, false_implies, implies_true, and_true]
        omega
    | some last =>
      simp only [Option.map_some, Option.getD_some]
      by_cases hout : (size : Int) ≤ first ∨ (last : Int) < first
      · rw [if_pos hout]
        refine .inl ⟨rfl, fun n hn => ?_⟩
        obtain ⟨hlt, hle, hlast⟩ := hn
        have hn := hlast last rfl
        omega
      · rw [if_neg hout]
        refine .inr ⟨first, _, rfl, by omega, by omega, by omega, fun n => ?_⟩
        simp only [ByteRange.Selects, Option.mem_def, Option.some.injEq, forall_eq']
        omega
  | suffix length =>
    simp only [ByteRange.parsed]
    by_cases hzero : length = 0
    · rw [if_pos hzero]
      refine .inl ⟨rfl, fun n hn => ?_⟩
      obtain ⟨hlt, hle⟩ := hn
      omega
    · have hsize : size ≠ 0 := by
        refine h.resolve_right fun hnone => hnone (length - 1) ?_
        rw [Nat.sub_add_cancel (Nat.pos_of_ne_zero hzero)]
      rw [if_neg hzero]
      by_cases hle : size ≤ length
      · -- a suffix as long as the file is all of it
        rw [if_pos hle]
        refine .inr ⟨_, _, rfl, by omega, by omega, by omega, fun n => ?_⟩
        simp only [ByteRange.Selects]
        omega
      · rw [if_neg hle]
        refine .inr ⟨_, _, rfl, by omega, by omega, by omega, fun n => ?_⟩
        simp only [ByteRange.Selects]
        omega

/-! ## The answers -/

/-- The header is not read as a range, or it is one, and does not ask an empty file for its last bytes. -/
def Answerable (content : Bytes) (header : String) : Prop :=
  Readable header → ∃ r, Denotes header r ∧ (content ≠ [] ∨ ∀ length, r ≠ .suffix (length + 1))

theorem exact_of_whole {content : Bytes} {digest header : String} (h : parseRange header content.length = .whole) :
    Exact content digest header := by
  have hcached := cached_ok content digest header
  rw [h] at hcached
  refine ⟨fun start stop hrange => absurd (h.symm.trans hrange) (by simp), fun response hresponse hstatus => ?_,
    fun response hresponse _ _ => ?_⟩
  · rw [← Except.ok.inj (hcached.symm.trans hresponse)] at hstatus
    cases hstatus
  · rw [← Except.ok.inj (hcached.symm.trans hresponse)]
    refine ⟨rfl, ?_, rfl⟩
    rw [rangeResponse, flatten_fileSlice, Int.toNat_zero, List.drop_zero, Int.toNat_natCast, List.take_length]

theorem exact_of_parsed {content : Bytes} {digest header : String} {r : ByteRange} (hdenotes : Denotes header r)
    (hparsed : parseRange header content.length = r.parsed content.length)
    (h : content ≠ [] ∨ ∀ length, r ≠ .suffix (length + 1)) : Exact content digest header := by
  have hcached := cached_ok content digest header
  rw [hparsed] at hcached
  rcases parsed_spec (h.imp_left fun hne => Nat.ne_of_gt (List.length_pos_of_ne_nil hne)) with
    ⟨hunsat, hnone⟩ | ⟨start, stop, hrange, hnonneg, hordered, hinside, hselects⟩
  · rw [hunsat] at hcached hparsed
    refine ⟨fun start stop hrange => absurd (hparsed.symm.trans hrange) (by simp), fun _ _ _ => ⟨r, hdenotes, hnone⟩,
      fun response hresponse _ hstatus => ?_⟩
    rw [← Except.ok.inj (hcached.symm.trans hresponse)] at hstatus
    exact absurd rfl hstatus
  · rw [hrange] at hcached hparsed
    refine ⟨fun start' stop' hrange' => ?_, fun response hresponse hstatus => ?_,
      fun response _ hnot _ => absurd hparsed (hnot start stop)⟩
    · obtain ⟨rfl, rfl⟩ := Parsed.range.inj (hparsed.symm.trans hrange')
      have hsent : (rangeResponse content digest (.range start stop)).body.flatten =
          (content.drop start.toNat).take (stop - start + 1).toNat := flatten_fileSlice ..
      have hlength : ((content.drop start.toNat).take (stop - start + 1).toNat).length = (stop - start + 1).toNat := by
        rw [List.length_take, List.length_drop]
        omega
      have htext : toString (stop - start + 1).toNat = toString (stop - start + 1) := by
        obtain ⟨k, hk⟩ := Int.eq_ofNat_of_zero_le (show 0 ≤ stop - start + 1 by omega)
        rw [hk]
        rfl
      refine ⟨hnonneg, hordered, hinside, ⟨r, hdenotes, hselects⟩, _, hcached, rfl, hsent, ?_⟩
      rw [hsent, hlength, htext]
      rfl
    · rw [← Except.ok.inj (hcached.symm.trans hresponse)] at hstatus
      cases hstatus

/-- A range request is answered exactly unless `int` reads what is no number, or an empty file is asked for its last bytes. -/
theorem exact_iff_answerable (content : Bytes) (digest header : String) :
    Exact content digest header ↔ Answerable content header := by
  constructor
  · intro hexact hreadable
    have hdenoted : ∃ r, Denotes header r := by
      cases hparsed : parseRange header content.length with
      | whole => exact absurd hreadable (parseRange_whole_iff.1 hparsed)
      | unsatisfiable =>
        have hcached := cached_ok content digest header
        rw [hparsed] at hcached
        obtain ⟨r, hr, -⟩ := hexact.refused _ hcached rfl
        exact ⟨r, hr⟩
      | range start stop =>
        obtain ⟨-, -, -, ⟨r, hr, -⟩, -⟩ := hexact.ranged start stop hparsed
        exact ⟨r, hr⟩
    obtain ⟨r, hr⟩ := hdenoted
    refine ⟨r, hr, ?_⟩
    rw [or_iff_not_imp_left, not_not]
    rintro rfl length rfl
    have hparsed := parseRange_of_denotes hr hreadable ([] : Bytes).length
    have hempty : (ByteRange.suffix (length + 1)).parsed ([] : Bytes).length = .range 0 (-1) := by
      simp [ByteRange.parsed]
    obtain ⟨-, hordered, -⟩ := hexact.ranged 0 (-1) (hparsed.trans hempty)
    omega
  · intro h
    by_cases hreadable : Readable header
    · obtain ⟨r, hr, hfull⟩ := h hreadable
      exact exact_of_parsed hr (parseRange_of_denotes hr hreadable _) hfull
    · exact exact_of_whole (parseRange_whole_iff.2 hreadable)

/-! ## The last bytes of an empty file -/

/-- An empty blob that is asked for its last five bytes answers `206` with `bytes 0--1/0`. -/
theorem empty_not_exact : ¬ Exact [] "sha256:e3b0c442" "bytes=-5" := by
  intro hexact
  have hparsed : parseRange "bytes=-5" ([] : Bytes).length = .range 0 (-1) := by decide +kernel
  obtain ⟨-, hordered, -⟩ := hexact.ranged 0 (-1) hparsed
  omega

end OpenFish.Docker
