/-
Any file as an envelope: the headers and the status that were encoded are decoded again, and a file whose JSON has another
shape raises what no caller of the decoder handles.
-/
import OpenFish.Debian.Envelope
import OpenFish.Lib.JsonRoundTrip

namespace OpenFish.Debian.Wire

open Lib

/-- What `_decode_envelope` raises after it has opened the file. -/
inductive Error
  | value (message : String)
  | recursion
  | attribute
  | type
  | overflow
  deriving DecidableEq, Repr

/-- `float` of a text, as its bits, `str` of what is no string, and how deep the stack lets JSON be nested beyond the two
dictionaries of an envelope. -/
structure Python where
  float : List Char → BitVec 64
  str : Json → String
  depth : Nat

/-! ## Encoding -/

/-- The dictionary that `_encode_envelope` dumps. -/
def payloadOf (headers : Headers) (status : Int) : Json :=
  .obj [("status", .int status), ("headers", .obj ((keptHeaders headers).entries.map fun h => (h.1, .str h.2)))]

def payloadText (headers : Headers) (status : Int) : String :=
  String.ofList (Json.print (fun _ => []) (payloadOf headers status))

/-- `_encode_envelope(header, status)`, which fails for a status of too many digits and a length that no 32 bits count. -/
def encodeEnvelope (headers : Headers) (status : Int) : Option Bytes :=
  let payload := (payloadText headers status).toUTF8.data.toList
  if Json.Short status ∧ payload.length < 2 ^ 32 then some (magic ++ (packU32 payload.length ++ payload)) else none

/-! ## Decoding -/

/-- The text of a whole envelope, and where the body begins. -/
def openEnvelope (file : Bytes) : Except Error (String × Nat) :=
  let start := file.take 11
  if start.length ≠ 11 ∨ magic.isPrefixOf start = false then .error (.value "bad cache envelope")
  else
    let length := unpackU32 (start.drop 7)
    let payload := (file.drop 11).take length
    if payload.length ≠ length then .error (.value "truncated cache envelope")
    else
      match String.fromUTF8? ⟨payload.toArray⟩ with
      | none => .error (.value "UnicodeDecodeError")
      | some text => .ok (text, 11 + length)

/-- `json.loads(text)`. -/
def loads (py : Python) (text : String) : Except Error Json :=
  match Json.loads py.float (py.depth + 2) text.toList with
  | .ok data => .ok data
  | .error .invalid => .error (.value "JSONDecodeError")
  | .error _ => .error .recursion

/-- `{str(key): str(value) for key, value in (headers or {}).items()}`. -/
def storedHeaders (py : Python) (headers : Json) : Except Error Headers :=
  if headers.truthy = false then .ok Dict.empty
  else
    match headers with
    | .obj entries => .ok (Dict.empty.update (entries.map fun e => (e.1, e.2.text py.str)))
    | _ => .error .attribute

/-- White space for `int`: ASCII separators are none. -/
def intSpace (c : Char) : Bool := Text.isSpace c && !(0x1c ≤ c.toNat && c.toNat ≤ 0x1f)

/-- `int(bits)` of a finite float. -/
def truncate (bits : BitVec 64) : Int :=
  let exponent := bits.toNat / 2 ^ 52 % 2 ^ 11
  let mantissa := if exponent = 0 then bits.toNat % 2 ^ 52 else 2 ^ 52 + bits.toNat % 2 ^ 52
  let scale := max exponent 1
  let size : Nat := if scale ≤ 1075 then mantissa / 2 ^ (1075 - scale) else mantissa * 2 ^ (scale - 1075)
  if bits.msb then -(size : Int) else size

def infinite (bits : BitVec 64) : Bool := bits.toNat % 2 ^ 63 = 0x7ff * 2 ^ 52

def nan (bits : BitVec 64) : Bool := 0x7ff * 2 ^ 52 < bits.toNat % 2 ^ 63

/-- `int(value)`. -/
def intOf : Json → Except Error Int
  | .bool b => .ok (if b then 1 else 0)
  | .int n => .ok n
  | .float bits =>
    if nan bits then .error (.value "cannot convert float NaN to integer")
    else if infinite bits then .error .overflow
    else .ok (truncate bits)
  | .str s =>
    match readInteger (String.ofList ((s.toList.dropWhile intSpace).rdropWhile intSpace)) with
    | some n => .ok n
    | none => .error (.value "invalid literal for int()")
  | _ => .error .type

/-- `data.get("status", 200)`. -/
def statusOf (entries : List (String × Json)) : Json := (entries.lookup "status").getD (.int 200)

/-- What is read off the JSON of an envelope. -/
def decodeData (py : Python) : Json → Except Error (Int × Headers)
  | .obj entries =>
    match storedHeaders py (Json.get entries "headers") with
    | .error e => .error e
    | .ok stored =>
      match intOf (statusOf entries) with
      | .error e => .error e
      | .ok status => .ok (status, stored.keep fun _ value => isHeaderValueSafe value)
  | _ => .error .attribute

/-- `_decode_envelope` of an opened file. -/
def decodeEnvelope (py : Python) (file : Bytes) : Except Error (Int × Headers × Nat) :=
  match openEnvelope file with
  | .error e => .error e
  | .ok opened =>
    match loads py opened.1 with
    | .error e => .error e
    | .ok data =>
      match decodeData py data with
      | .error e => .error e
      | .ok decoded => .ok (decoded.1, decoded.2, opened.2)

/-! ## What the callers handle -/

/-- The value is returned, or what is raised is a `ValueError`. -/
def Handled {α : Type} (result : Except Error α) : Prop := ∀ e, result = .error e → ∃ message, e = .value message

/-- A number that `int` takes, or a text. -/
def Countable : Json → Prop
  | .bool _ | .int _ | .str _ => True
  | .float bits => infinite bits = false
  | _ => False

/-- The JSON is a dictionary, its headers are nothing or a dictionary, and its status is countable. -/
def Shaped (data : Json) : Prop :=
  ∃ entries, data = .obj entries ∧
    ((Json.get entries "headers").truthy = true → ∃ stored, Json.get entries "headers" = .obj stored) ∧
    Countable (statusOf entries)

/-- Where the file is a whole envelope of JSON, that is not nested too deep, and has the shape. -/
def WellShaped (py : Python) (file : Bytes) : Prop :=
  ∀ opened, openEnvelope file = .ok opened →
    Json.loads py.float (py.depth + 2) opened.1.toList ≠ .error .tooDeep ∧
      ∀ data, Json.loads py.float (py.depth + 2) opened.1.toList = .ok data → Shaped data

/-- The header is in the mapping, and no later name is the same in lower case. -/
def Sent (headers : Headers) (name value : String) : Prop :=
  ∃ before key after, headers.entries = before ++ (key, value) :: after ∧ Text.lower key = name ∧
    ∀ h ∈ after, Text.lower h.1 ≠ name

/-! ## The headers that are kept -/

theorem keptHeaders_eq (headers : Headers) :
    keptHeaders headers = Dict.empty.update
      ((headers.entries.filter fun h => Text.lower h.1 ∈ cacheableHeaders).map fun h => (Text.lower h.1, h.2)) := by
  unfold keptHeaders Dict.update
  rw [List.foldl_map]

theorem get?_keptHeaders (headers : Headers) (name : String) :
    (keptHeaders headers).get? name =
      (headers.entries.reverse.find? fun h => decide (Text.lower h.1 ∈ cacheableHeaders) && decide (Text.lower h.1 = name)).map
        Prod.snd := by
  rw [keptHeaders_eq, Dict.get?_update, ← List.map_reverse, ← List.filter_reverse, List.find?_map, List.find?_filter,
    Option.map_map, Dict.get?_empty, Option.or_none]
  simp only [Function.comp_def, decide_eq_true_eq, Bool.decide_and]

/-- The cacheable headers are kept under their names in lower case. -/
theorem get?_keptHeaders_iff (headers : Headers) (name value : String) :
    (keptHeaders headers).get? name = some value ↔ name ∈ cacheableHeaders ∧ Sent headers name value := by
  rw [get?_keptHeaders, Option.map_eq_some_iff]
  constructor
  · rintro ⟨⟨key, value⟩, hfind, rfl⟩
    obtain ⟨hboth, after, before, hsplit, hafter⟩ := List.find?_eq_some_iff_append.1 hfind
    rw [Bool.and_eq_true, decide_eq_true_eq, decide_eq_true_eq] at hboth
    obtain ⟨hcacheable, rfl⟩ := hboth
    refine ⟨hcacheable, before.reverse, key, after.reverse, ?_, rfl, fun h hmem heq => ?_⟩
    · rw [← List.reverse_reverse headers.entries, hsplit]
      simp
    · have hnot := hafter h (List.mem_reverse.1 hmem)
      simp [heq, hcacheable] at hnot
  · rintro ⟨hcacheable, before, key, after, hsplit, rfl, hafter⟩
    refine ⟨(key, value), List.find?_eq_some_iff_append.2 ⟨by simp [hcacheable], after.reverse, before.reverse, ?_, ?_⟩, rfl⟩
    · rw [hsplit]
      simp
    · intro h hmem
      simp [hafter h (List.mem_reverse.1 hmem)]

/-! ## What is encoded is decoded -/

theorem writable_strings (depth : Nat) : ∀ l : List (String × String),
    Json.WritableMembers (l.map fun h => (h.1, Json.str h.2)) depth
  | [] => trivial
  | _ :: l => ⟨trivial, writable_strings depth l⟩

theorem writable_payloadOf (headers : Headers) {status : Int} (h : Json.Short status) (depth : Nat) :
    Json.Writable (payloadOf headers status) (depth + 2) := by
  have hkeys : (((keptHeaders headers).entries.map fun h => (h.1, Json.str h.2)).map Prod.fst).Nodup := by
    rw [List.map_map]
    exact (keptHeaders headers).nodup
  exact ⟨Nat.succ_pos _, (by decide : ["status", "headers"].Nodup), h, ⟨Nat.succ_pos _, hkeys, writable_strings _ _⟩, trivial⟩

theorem loads_payloadText (py : Python) (headers : Headers) {status : Int} (h : Json.Short status) :
    loads py (payloadText headers status) = .ok (payloadOf headers status) := by
  rw [loads, payloadText, String.toList_ofList, Json.loads_print _ _ (writable_payloadOf headers h py.depth)]

/-- The bytes of a text are framed by the magic and their number. -/
theorem openEnvelope_framed (text : String) {payload : Bytes} (hpayload : text.toUTF8.data.toList = payload)
    (hsmall : payload.length < 2 ^ 32) (body : Bytes) :
    openEnvelope (magic ++ (packU32 payload.length ++ payload) ++ body) = .ok (text, 11 + payload.length) := by
  have hmagic : magic.length = 7 := by decide
  have hpack : (packU32 payload.length).length = 4 := rfl
  have hstart : (magic ++ (packU32 payload.length ++ payload) ++ body).take 11 = magic ++ packU32 payload.length := by
    rw [← List.append_assoc magic, List.append_assoc]
    exact List.take_left' (by rw [List.length_append, hmagic, hpack])
  have hrest : (magic ++ (packU32 payload.length ++ payload) ++ body).drop 11 = payload ++ body := by
    rw [← List.append_assoc magic, List.append_assoc]
    exact List.drop_left' (by rw [List.length_append, hmagic, hpack])
  have hlength : unpackU32 ((magic ++ packU32 payload.length).drop 7) = payload.length := by
    rw [List.drop_left' hmagic, unpackU32_packU32 hsmall]
  have hheader : ¬ ((magic ++ packU32 payload.length).length ≠ 11 ∨
      magic.isPrefixOf (magic ++ packU32 payload.length) = false) := by
    rw [List.length_append, hmagic, hpack, List.isPrefixOf_iff_prefix.2 (List.prefix_append _ _)]
    simp
  have htext : String.fromUTF8? ⟨payload.toArray⟩ = some text := by
    have hvalid : text.toUTF8.IsValidUTF8 := text.isValidUTF8
    rw [← hpayload, Array.toArray_toList, String.fromUTF8?, dif_pos hvalid]
    rfl
  simp only [openEnvelope, hstart, if_neg hheader, hlength, hrest, List.take_left, ne_eq, not_true, if_false, htext]

theorem openEnvelope_append {headers : Headers} {status : Int} {envelope : Bytes}
    (h : encodeEnvelope headers status = some envelope) (body : Bytes) :
    openEnvelope (envelope ++ body) = .ok (payloadText headers status, envelope.length) := by
  have hmagic : magic.length = 7 := by decide
  unfold encodeEnvelope at h
  simp only at h
  split at h
  · rename_i hfits
    rw [← Option.some.inj h, openEnvelope_framed _ rfl hfits.2, List.length_append, List.length_append, hmagic,
      ← Nat.add_assoc]
    rfl
  · cases h

theorem storedHeaders_payload (py : Python) (kept : Headers) :
    storedHeaders py (.obj (kept.entries.map fun h => (h.1, .str h.2))) = .ok kept := by
  have htexts : (kept.entries.map fun h => (h.1, Json.str h.2)).map (fun e => (e.1, e.2.text py.str)) = kept.entries := by
    rw [List.map_map]
    exact List.map_id _
  unfold storedHeaders
  split
  · rename_i hempty
    have hnil : kept.entries = [] := by
      simpa [Json.truthy] using hempty
    exact congrArg _ (Dict.ext hnil.symm)
  · simp only [htexts, Dict.update, Dict.foldl_set_entries]

/-- The status and the safe headers are decoded, whatever body follows. -/
theorem decodeEnvelope_append (py : Python) {headers : Headers} {status : Int} {envelope : Bytes}
    (h : encodeEnvelope headers status = some envelope) (body : Bytes) :
    decodeEnvelope py (envelope ++ body) =
      .ok (status, (keptHeaders headers).keep fun _ value => isHeaderValueSafe value, envelope.length) := by
  have hshort : Json.Short status := by
    unfold encodeEnvelope at h
    simp only at h
    split at h
    · rename_i hfits
      exact hfits.1
    · cases h
  have hheaders : Json.get [("status", .int status), ("headers", .obj ((keptHeaders headers).entries.map fun h => (h.1, .str h.2)))]
      "headers" = .obj ((keptHeaders headers).entries.map fun h => (h.1, .str h.2)) := rfl
  rw [decodeEnvelope, openEnvelope_append h]
  simp only
  rw [loads_payloadText py headers hshort]
  simp only
  rw [payloadOf, decodeData, hheaders, storedHeaders_payload]
  rfl

/-! ## What is raised -/

theorem handled_ok {α : Type} (v : α) : Handled (.ok v : Except Error α) := fun _ h => by cases h

theorem handled_error_iff {α : Type} {e : Error} :
    Handled (.error e : Except Error α) ↔ ∃ message, e = .value message := by
  constructor
  · exact fun h => h e rfl
  · rintro h e' heq
    rwa [← Except.error.inj heq]

theorem handled_value {α : Type} (message : String) : Handled (.error (.value message) : Except Error α) :=
  handled_error_iff.2 ⟨message, rfl⟩

theorem not_handled {α : Type} {e : Error} (h : ∀ message, e ≠ .value message) : ¬ Handled (.error e : Except Error α) := by
  rw [handled_error_iff]
  rintro ⟨message, heq⟩
  exact h message heq

theorem handled_storedHeaders_iff (py : Python) (headers : Json) :
    Handled (storedHeaders py headers) ↔ (headers.truthy = true → ∃ stored, headers = .obj stored) := by
  unfold storedHeaders
  split
  · rename_i hfalse
    exact iff_of_true (handled_ok _) fun htrue => absurd htrue (by rw [hfalse]; exact Bool.false_ne_true)
  · rename_i htrue
    rw [Bool.not_eq_false] at htrue
    cases headers with
    | obj entries => exact iff_of_true (handled_ok _) fun _ => ⟨entries, rfl⟩
    | _ =>
      refine iff_of_false (not_handled (by simp)) fun h => ?_
      obtain ⟨stored, heq⟩ := h htrue
      cases heq

theorem storedHeaders_error {py : Python} {headers : Json} {e : Error} (h : storedHeaders py headers = .error e) :
    e = .attribute := by
  unfold storedHeaders at h
  split at h
  · cases h
  · split at h
    · cases h
    · exact (Except.error.inj h).symm

theorem handled_intOf_iff (value : Json) : Handled (intOf value) ↔ Countable value := by
  cases value with
  | bool b => exact iff_of_true (handled_ok _) trivial
  | int n => exact iff_of_true (handled_ok _) trivial
  | str s =>
    refine iff_of_true ?_ trivial
    unfold intOf
    simp only
    cases readInteger (String.ofList ((s.toList.dropWhile intSpace).rdropWhile intSpace)) with
    | some n => exact handled_ok n
    | none => exact handled_value _
  | float bits =>
    unfold intOf Countable
    simp only
    by_cases hnan : nan bits = true
    · have hfinite : infinite bits = false := by
        unfold nan at hnan
        unfold infinite
        have := of_decide_eq_true hnan
        exact decide_eq_false (by omega)
      rw [if_pos hnan]
      exact iff_of_true (handled_value _) hfinite
    · rw [if_neg hnan]
      by_cases hinf : infinite bits = true
      · rw [if_pos hinf]
        exact iff_of_false (not_handled (by simp)) (by rw [hinf]; simp)
      · rw [if_neg hinf]
        exact iff_of_true (handled_ok _) (Bool.not_eq_true _ ▸ hinf)
  | _ => exact iff_of_false (not_handled (by simp)) id

theorem handled_decodeData_iff (py : Python) (data : Json) : Handled (decodeData py data) ↔ Shaped data := by
  cases data with
  | obj entries =>
    have hshaped : Shaped (.obj entries) ↔
        Handled (storedHeaders py (Json.get entries "headers")) ∧ Handled (intOf (statusOf entries)) := by
      rw [handled_storedHeaders_iff, handled_intOf_iff]
      constructor
      · rintro ⟨entries', heq, h⟩
        cases heq
        exact h
      · exact fun h => ⟨entries, rfl, h⟩
    rw [hshaped, decodeData]
    cases hstored : storedHeaders py (Json.get entries "headers") with
    | error e =>
      have he : ∀ message, e ≠ .value message := by
        intro message heq
        rw [storedHeaders_error hstored] at heq
        cases heq
      exact iff_of_false (not_handled he) fun h => not_handled he h.1
    | ok stored =>
      cases intOf (statusOf entries) with
      | error e =>
        simp only [handled_error_iff]
        exact ⟨fun h => ⟨handled_ok _, h⟩, And.right⟩
      | ok status => exact iff_of_true (handled_ok _) ⟨handled_ok _, handled_ok _⟩
  | _ =>
    refine iff_of_false (not_handled (by simp)) ?_
    rintro ⟨entries, heq, -⟩
    cases heq

theorem openEnvelope_error {file : Bytes} {e : Error} (h : openEnvelope file = .error e) : ∃ message, e = .value message := by
  unfold openEnvelope at h
  simp only at h
  split at h
  · exact ⟨_, (Except.error.inj h).symm⟩
  · split at h
    · exact ⟨_, (Except.error.inj h).symm⟩
    · split at h
      · exact ⟨_, (Except.error.inj h).symm⟩
      · cases h

/-- A file is decoded, or refused as its callers expect, exactly where its JSON has the shape. -/
theorem handled_iff (py : Python) (file : Bytes) : Handled (decodeEnvelope py file) ↔ WellShaped py file := by
  unfold decodeEnvelope WellShaped
  cases hopen : openEnvelope file with
  | error e => exact iff_of_true (handled_error_iff.2 (openEnvelope_error hopen)) fun opened h => by cases h
  | ok opened =>
    have hone : ∀ P : String × Nat → Prop, (∀ opened', (.ok opened : Except Error (String × Nat)) = .ok opened' → P opened') ↔
        P opened := fun P => ⟨fun h => h opened rfl, fun h opened' heq => Except.ok.inj heq ▸ h⟩
    rw [hone]
    simp only [loads]
    cases hread : Json.loads py.float (py.depth + 2) opened.1.toList with
    | error failure =>
      cases failure with
      | invalid => exact iff_of_true (handled_value _) ⟨by simp, fun data h => by cases h⟩
      | tooDeep => exact iff_of_false (not_handled (by simp)) fun h => h.1 rfl
      | exhausted => exact absurd hread (Json.loads_ne_exhausted _ _ _)
    | ok data =>
      have hdata : Handled (decodeData py data) ↔ Shaped data := handled_decodeData_iff py data
      simp only
      cases hdecoded : decodeData py data with
      | error e =>
        rw [hdecoded, handled_error_iff] at hdata
        rw [handled_error_iff, hdata]
        exact ⟨fun h => ⟨by simp, fun data' heq => Except.ok.inj heq ▸ h⟩, fun h => h.2 data rfl⟩
      | ok decoded =>
        rw [hdecoded] at hdata
        have hshaped := hdata.1 (handled_ok _)
        exact iff_of_true (handled_ok _) ⟨by simp, fun data' heq => Except.ok.inj heq ▸ hshaped⟩

/-- What is encoded is decoded, whatever body follows, and any file is decoded or refused as the callers expect exactly if
its JSON has the shape. -/
theorem safe_iff_wellShaped (py : Python) :
    (∀ headers status body envelope, encodeEnvelope headers status = some envelope →
      ∃ decoded, decodeEnvelope py (envelope ++ body) = .ok (status, decoded, envelope.length) ∧
        ∀ name value, decoded.get? name = some value ↔
          name ∈ cacheableHeaders ∧ isHeaderValueSafe value = true ∧ Sent headers name value) ∧
      ∀ file, Handled (decodeEnvelope py file) ↔ WellShaped py file := by
  refine ⟨fun headers status body envelope h => ⟨_, decodeEnvelope_append py h body, fun name value => ?_⟩, handled_iff py⟩
  rw [Dict.get?_keep, Option.filter_eq_some_iff, get?_keptHeaders_iff]
  constructor
  · rintro ⟨⟨hcacheable, hsent⟩, hsafe⟩
    exact ⟨hcacheable, hsafe, hsent⟩
  · rintro ⟨hcacheable, hsafe, hsent⟩
    exact ⟨⟨hcacheable, hsent⟩, hsafe⟩

/-! ## A list for a dictionary -/

/-- A whole envelope of the JSON `[]`. -/
def listFile : Bytes := magic ++ (packU32 2 ++ "[]".toUTF8.data.toList)

/-- An interpreter that reads no float. -/
def plainPython : Python where
  float := fun _ => 0
  str := fun _ => ""
  depth := 0

/-- A file whose JSON is a list raises an `AttributeError`. -/
theorem listFile_not_handled : ¬ Handled (decodeEnvelope plainPython listFile) := by
  have hopen : openEnvelope listFile = .ok ("[]", 13) := by
    have hframed := openEnvelope_framed "[]" rfl (by decide) []
    rwa [List.append_nil] at hframed
  have hread : Json.loads plainPython.float (plainPython.depth + 2) "[]".toList = .ok (.arr []) := rfl
  rw [decodeEnvelope, hopen]
  simp only
  rw [loads, hread]
  exact not_handled (by simp)

end OpenFish.Debian.Wire
