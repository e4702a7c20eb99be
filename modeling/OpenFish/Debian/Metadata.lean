/-
The cached answers of `dists_response`: the headers, the length and the bytes are read by three openings of one path.
An answer is one document as long as nothing else is put under the path between its first opening and its last.
-/
import OpenFish.Debian.Decoding
import OpenFish.Lib.Interleave

namespace OpenFish.Debian

open Lib

/-! ## Documents -/

/-- What an upstream answered with 200, and the envelope that `_fetch_metadata` writes for it. -/
structure Document where
  headers : Headers
  body : Bytes
  envelope : Bytes
  encoded : Wire.encodeEnvelope (forwardHeaders headers) 200 = some envelope

namespace Document

/-- The headers that are cached with the body. -/
def kept (doc : Document) : Headers := keptHeaders (forwardHeaders doc.headers)

/-- What `put_stream` writes. -/
def file (doc : Document) : Bytes := doc.envelope ++ doc.body

/-- What was encoded for an upstream's answer is decoded again: its headers are safe. -/
theorem decodeEnvelope_file (py : Wire.Python) (doc : Document) :
    Wire.decodeEnvelope py doc.file = .ok (200, doc.kept, doc.envelope.length) := by
  have hkeep : doc.kept.keep (fun _ value => isHeaderValueSafe value) = doc.kept :=
    Dict.keep_of_forall fun key value hget => (keptHeaders_spec doc.headers (Dict.get?_eq_some.1 hget)).2
  rw [file, Wire.decodeEnvelope_append py doc.encoded doc.body, ← kept, hkeep]

/-- The kept headers are all that the envelope is made of. -/
theorem envelope_congr {doc doc' : Document} (h : doc.kept = doc'.kept) : doc.envelope = doc'.envelope := by
  have hencoded := doc.encoded
  have hencoded' := doc'.encoded
  unfold Wire.encodeEnvelope Wire.payloadText Wire.payloadOf at hencoded hencoded'
  rw [show keptHeaders (forwardHeaders doc.headers) = keptHeaders (forwardHeaders doc'.headers) from h] at hencoded
  exact Option.some.inj (hencoded.symm.trans hencoded')

end Document

/-! ## Answers -/

structure Response where
  status : Int
  headers : Headers
  body : Bytes

/-- The headers of `_cached_response`. -/
def responseHeaders (headers : Headers) (length : Nat) : Headers :=
  let headers := headers.set "Content-Length" (toString length)
  if (headers.get? "Accept-Ranges").isSome then headers else headers.set "Accept-Ranges" "bytes"

/-- Where an answer from the cache stands. -/
inductive Answer
  | asked
  | decoded (status : Int) (headers : Headers) (offset : Nat)
  | measured (status : Int) (headers : Headers) (offset : Nat)
  | sent (response : Response)
  /-- There is no document, or none that can be read: the answer comes from the upstream. -/
  | missed (why : String)
  | raised (e : Wire.Error)

/-- The file under the path: the latest document. -/
def cached (stored : List Document) : Option Bytes := stored.head?.map Document.file

variable (py : Wire.Python)

/-- The next step of an answer: to open the file and decode its envelope, to stat it, and to open it again and read on
from the offset. -/
def proceed (stored : List Document) : Answer → Answer
  | .asked =>
    match cached stored with
    | none => .missed "no entry"
    | some file =>
      match Wire.decodeEnvelope py file with
      | .error (.value why) => .missed why
      | .error e => .raised e
      | .ok (status, headers, offset) => .decoded status headers offset
  | .decoded status headers offset =>
    match cached stored with
    | none => .missed "FileNotFoundError"
    | some file => .measured status (responseHeaders headers (file.length - offset)) offset
  | .measured status headers offset =>
    match cached stored with
    | none => .missed "FileNotFoundError"
    | some file => .sent ⟨status, headers, file.drop offset⟩
  | answer => answer

/-- Any number of answers, while refreshes replace the file. The documents are kept in the order they were stored, the
latest first. -/
def metadata : Program (List Document) Answer Unit Unit Document where
  start := []
  enter _ _ := .asked
  step stored answer _ := (stored, proceed py stored answer)
  other stored doc := doc :: stored

variable {py}

/-! ## One document -/

/-- The answer that a document gives. -/
def Document.response (doc : Document) : Response := ⟨200, responseHeaders doc.kept doc.body.length, doc.body⟩

/-- Every answer is one of the stored documents: its headers, its length and its body. -/
def Whole (s : Scene (List Document) Answer) : Prop :=
  ∀ response, .sent response ∈ s.calls → ∃ doc ∈ s.shared, response = doc.response

/-- An answer under way stays right when a document takes the place of another. -/
def Survives (old doc : Document) : Answer → Prop
  | .decoded .. => doc.kept = old.kept
  | .measured .. => doc.kept = old.kept ∧ doc.body.length = old.body.length
  | _ => True

/-- A refresh puts another document under the path only while no answer is between its first opening and its last, or one
with the same headers, and with the same length once the length was read. -/
def Undisturbed (s : Scene (List Document) Answer) : Move Unit Unit Document → Prop
  | .other doc => ∀ answer ∈ s.calls, ∀ old ∈ s.shared.head?, Survives old doc answer
  | _ => True

/-- What an answer has read is of the latest document. -/
def Reads (stored : List Document) : Answer → Prop
  | .asked | .missed _ | .raised _ => True
  | .decoded status headers offset =>
    ∃ doc rest, stored = doc :: rest ∧ status = 200 ∧ headers = doc.kept ∧ offset = doc.envelope.length
  | .measured status headers offset =>
    ∃ doc rest, stored = doc :: rest ∧ status = 200 ∧ headers = responseHeaders doc.kept doc.body.length ∧
      offset = doc.envelope.length
  | .sent response => ∃ doc ∈ stored, response = doc.response

theorem reads_proceed {stored : List Document} {answer : Answer} (h : Reads stored answer) :
    Reads stored (proceed py stored answer) := by
  cases answer with
  | asked =>
    cases stored with
    | nil => trivial
    | cons doc rest =>
      have hdecode : proceed py (doc :: rest) .asked = .decoded 200 doc.kept doc.envelope.length := by
        simp only [proceed, cached, List.head?_cons, Option.map_some, doc.decodeEnvelope_file]
      rw [hdecode]
      exact ⟨doc, rest, rfl, rfl, rfl, rfl⟩
  | decoded status headers offset =>
    obtain ⟨doc, rest, rfl, rfl, rfl, rfl⟩ := h
    refine ⟨doc, rest, rfl, rfl, ?_, rfl⟩
    rw [Document.file, List.length_append, Nat.add_sub_cancel_left]
  | measured status headers offset =>
    obtain ⟨doc, rest, rfl, rfl, rfl, rfl⟩ := h
    refine ⟨doc, List.mem_cons_self .., ?_⟩
    rw [Document.response, Document.file, List.drop_left]
  | sent response => exact h
  | missed why => trivial
  | raised e => trivial

theorem reads_refresh {stored : List Document} {answer : Answer} (h : Reads stored answer) {doc : Document}
    (hsurvives : ∀ old ∈ stored.head?, Survives old doc answer) : Reads (doc :: stored) answer := by
  cases answer with
  | asked => trivial
  | decoded status headers offset =>
    obtain ⟨old, rest, rfl, rfl, rfl, rfl⟩ := h
    have hkept : doc.kept = old.kept := hsurvives old rfl
    exact ⟨doc, old :: rest, rfl, rfl, hkept.symm, congrArg _ (Document.envelope_congr hkept.symm)⟩
  | measured status headers offset =>
    obtain ⟨old, rest, rfl, rfl, rfl, rfl⟩ := h
    obtain ⟨hkept, hlength⟩ : doc.kept = old.kept ∧ doc.body.length = old.body.length := hsurvives old rfl
    refine ⟨doc, old :: rest, rfl, rfl, ?_, congrArg _ (Document.envelope_congr hkept.symm)⟩
    rw [hkept, hlength]
  | sent response =>
    obtain ⟨old, hold, rfl⟩ := h
    exact ⟨old, List.mem_cons_of_mem _ hold, rfl⟩
  | missed why => trivial
  | raised e => trivial

theorem metadata_outline : (metadata py).Outline Undisturbed (fun _ => True) Reads where
  start := trivial
  enter _ := trivial
  step hs hi _ := ⟨trivial, reads_proceed (hs.calls hi)⟩
  others hs _ _ _ hj := hs.calls hj
  world hs hok := ⟨trivial, fun hi => reads_refresh (hs.calls hi) (hok _ (List.mem_of_getElem? hi))⟩

/-- Where no refresh disturbs an answer under way, every answer is one document, at every moment. -/
theorem whole_of_undisturbed (py : Wire.Python) {moves : List (Move Unit Unit Document)}
    (h : (metadata py).machine.AllSteps (fun _ => Undisturbed) moves) :
    (metadata py).machine.AllStates (fun _ => Whole) moves := by
  refine Machine.AllSteps.allStates (fun moves hmoves response hsent => ?_) h
  obtain ⟨i, hi⟩ := List.mem_iff_getElem?.1 hsent
  exact (metadata_outline.run hmoves).calls hi

/-- A document without headers. -/
def bareDocument (body : Bytes) : Document where
  headers := Dict.empty
  body
  envelope := magic ++ (packU32 27 ++ (Wire.payloadText Dict.empty 200).toUTF8.data.toList)
  encoded := by decide +kernel

/-- A refresh by a document of the same length, while the answer has measured the first one. -/
def refreshedAlike : List (Move Unit Unit Document) :=
  [.step 0 (), .other (bareDocument [2]), .step 0 (), .step 0 (), .begin (), .other (bareDocument [1])]

theorem whole_of_undisturbed_refreshedAlike :
    (metadata Wire.plainPython).machine.AllStates (fun _ => Whole) refreshedAlike := by
  refine whole_of_undisturbed _ ⟨trivial, fun answer _ old hold => ?_, trivial, trivial, trivial, ?_, trivial⟩
  · cases hold
    cases answer with
    | measured => exact ⟨rfl, rfl⟩
    | decoded => exact rfl
    | asked | sent | missed | raised => trivial
  · exact fun answer hanswer => absurd hanswer List.not_mem_nil

/-- A refresh by a longer document, while the answer has measured the first one. -/
def refreshedBetween : List (Move Unit Unit Document) :=
  [.step 0 (), .other (bareDocument [1, 2]), .step 0 (), .step 0 (), .begin (), .other (bareDocument [1])]

theorem refreshedBetween_not_whole :
    ¬ (metadata Wire.plainPython).machine.AllStates (fun _ => Whole) refreshedBetween := by
  have hdecode := (bareDocument [1]).decodeEnvelope_file Wire.plainPython
  have hcalls : ((metadata Wire.plainPython).machine.state refreshedBetween).calls =
      [.sent ⟨200, responseHeaders (bareDocument [1]).kept 1, [1, 2]⟩] := by
    have hlength : (bareDocument [1]).file.length - (bareDocument [1]).envelope.length = 1 := by
      rw [Document.file, List.length_append, Nat.add_sub_cancel_left]
      rfl
    have hrest : (bareDocument [1, 2]).file.drop (bareDocument [1]).envelope.length = [1, 2] := List.drop_left
    simp only [refreshedBetween, metadata, Machine.state_cons, Machine.state_nil, Program.machine_step, Program.machine_start,
      Program.next, proceed, cached, List.nil_append, List.getElem?_cons_zero, List.set_cons_zero, List.head?_cons,
      Option.map_some, hdecode, hlength, hrest]
  intro h
  obtain ⟨doc, hdoc, hresponse⟩ := h.now ⟨200, responseHeaders (bareDocument [1]).kept 1, [1, 2]⟩ (by
    rw [hcalls]
    exact List.mem_singleton_self _)
  have hdocs : doc ∈ [bareDocument [1, 2], bareDocument [1]] := hdoc
  rcases List.mem_cons.1 hdocs with rfl | hdocs
  · -- its length is that of the first document
    have hlength := congrArg (fun r => r.headers.get? "Content-Length") hresponse
    exact absurd hlength (by decide)
  · rw [List.mem_singleton.1 hdocs] at hresponse
    exact absurd (congrArg Response.body hresponse) (by decide)

end OpenFish.Debian
