import Altumo.GeoIp.Loader

/-!
# Sessions and the client

`handleSession` answers whatever one `read_some` returns with one frame of
`max_length` bytes. The array of each pass is not initialised, so each pass brings
its own. The client writes its request in one call and reads exactly one frame.
-/

namespace GeoIp

open CString

def maxLength : Nat := 1024

/-- The pieces that the server streams together for a Location. Braces are written as escapes. -/
def locationResponse (location : Location) : Text := List.flatten [
  text "\x7b",
  text "\"city\":\"", location.city, text "\",",
  text "\"region\":\"", location.region, text "\",",
  text "\"country\":\"", location.country, text "\",",
  text "\"latitude\":\"", location.latitude, text "\",",
  text "\"longitude\":\"", location.longitude, text "\",",
  text "\"area_code\":\"", location.areaCode, text "\",",
  text "\"metro_code\":\"", location.metroCode, text "\",",
  text "\"postal_code\":\"", location.postalCode, text "\"",
  text "\x7d"]

/-- The response to a lookup. A pointer to no Location has no defined response. -/
def responseText (server : GeoIpServer) : Option LocationPtr → Option Text
  | none => some (text "\x7b\x7d")
  | some p => (server.heap[p]?).map locationResponse

/-- `memset( data, 0, max_length )` and `strncpy( data, response, length )`. -/
def frame (data : Buffer maxLength) (response : Text) : Option (Buffer maxLength) := do
  let data ← memset data 0 maxLength
  strncpy data response response.length

/-- From the bytes that were read to the frame that is to be written, when no step
leaves an array or follows a dangling pointer. -/
def respond (server : GeoIpServer) (data : Buffer maxLength) (length : Nat) : Option (Buffer maxLength) := do
  let request := data.bytes.take length
  let response ← responseText server (getLocationByIpText server request)
  frame data response

/-- What `read_some` returns. -/
inductive ReadSome where
  | received : (chunk : Text) → ReadSome
  | eof : ReadSome
  | failed : ReadSome

/-- What one pass of the loop meets: its uninitialised array, the result of the
read, and whether the write is going to succeed. -/
structure Pass where
  data : Buffer maxLength
  read : ReadSome
  written : Bool

/-- How a session ends. `undefined` is a pass without defined behaviour, `waiting` the
end of the passes that are looked at. -/
inductive Ending where
  | closed | exception | undefined | waiting
  deriving DecidableEq, Repr

structure SessionRun where
  frames : List (Buffer maxLength)
  ending : Ending

def handleSession (server : GeoIpServer) : List Pass → SessionRun
  | [] => ⟨[], .waiting⟩
  | pass :: passes =>
    match pass.read with
    | .eof => ⟨[], .closed⟩
    | .failed => ⟨[], .exception⟩
    | .received chunk =>
      match respond server (pass.data.fill chunk) chunk.length with
      | none => ⟨[], .undefined⟩
      | some data =>
        if pass.written then
          let run := handleSession server passes
          ⟨data :: run.frames, run.ending⟩
        else ⟨[], .exception⟩

/-- `boost::asio::read` of a whole buffer from what the server writes. -/
def readFrame (stream : Text) : Option (Buffer maxLength) :=
  if h : maxLength ≤ stream.length then
    some ⟨stream.take maxLength, by simp only [List.length_take]; omega⟩
  else none

/-- `GeoIpClient::getLocationByIp` after its request: the string of the frame, or the
text of the exception when the stream ends early. A frame without NUL is none. -/
def clientGetLocationByIp (what : Text) (stream : Text) : Option Text :=
  match readFrame stream with
  | some data => data.toCString
  | none => some (text "\x7b\"error\":\"" ++ cStr what ++ text "\"\x7d")

/-- The bytes of the frames, as they go over the connection. -/
def SessionRun.stream (run : SessionRun) : Text := run.frames.flatMap Buffer.bytes

/-- The frame of a response that fits is the response followed by zeros. -/
theorem frame_eq_some {response : Text} (h : response.length ≤ maxLength) (data : Buffer maxLength) :
    ∃ f, frame data response = some f ∧
      f.bytes = strncpyBytes response response.length ++ List.replicate (maxLength - response.length) 0 := by
  rw [frame, memset_all]
  obtain ⟨f, hf, hb⟩ := strncpy_eq_some ⟨List.replicate maxLength 0, by simp⟩ response h
  exact ⟨f, hf, by rw [hb, List.drop_replicate]⟩

/-- The copy of a longer response leaves the array. -/
theorem frame_eq_none {response : Text} (h : maxLength < response.length) (data : Buffer maxLength) :
    frame data response = none := by
  rw [frame, memset_all]
  exact strncpy_eq_none _ response h

theorem frame_congr (data data' : Buffer maxLength) (response : Text) :
    frame data response = frame data' response := by
  simp only [frame, memset_all]

/-- The members that the response names, in their order. -/
def locationMembers (l : Location) : List (Text × Text) :=
  [(text "city", l.city), (text "region", l.region), (text "country", l.country),
    (text "latitude", l.latitude), (text "longitude", l.longitude), (text "area_code", l.areaCode),
    (text "metro_code", l.metroCode), (text "postal_code", l.postalCode)]

/-- A member of the response in front of a text. -/
def memberText (m : Text × Text) (rest : Text) : Text := 34 :: (m.1 ++ 34 :: 58 :: 34 :: (m.2 ++ 34 :: rest))

/-- The further members of a response, and its end. -/
def furtherMembers : List (Text × Text) → Text
  | [] => [125]
  | m :: ms => 44 :: memberText m (furtherMembers ms)

def objectText : List (Text × Text) → Text
  | [] => [123, 125]
  | m :: ms => 123 :: memberText m (furtherMembers ms)

theorem locationResponse_eq (l : Location) : locationResponse l = objectText (locationMembers l) := by
  have hquote : text "\"" = [34] := by decide
  have hcomma : text "\"," = [34, 44] := by decide
  have hbraces : text "\x7b" = [123] ∧ text "\x7d" = [125] := by decide
  have h_city : text "\"city\":\"" = 34 :: (text "city" ++ [34, 58, 34]) := by decide
  have h_region : text "\"region\":\"" = 34 :: (text "region" ++ [34, 58, 34]) := by decide
  have h_country : text "\"country\":\"" = 34 :: (text "country" ++ [34, 58, 34]) := by decide
  have h_latitude : text "\"latitude\":\"" = 34 :: (text "latitude" ++ [34, 58, 34]) := by decide
  have h_longitude : text "\"longitude\":\"" = 34 :: (text "longitude" ++ [34, 58, 34]) := by decide
  have h_area_code : text "\"area_code\":\"" = 34 :: (text "area_code" ++ [34, 58, 34]) := by decide
  have h_metro_code : text "\"metro_code\":\"" = 34 :: (text "metro_code" ++ [34, 58, 34]) := by decide
  have h_postal_code : text "\"postal_code\":\"" = 34 :: (text "postal_code" ++ [34, 58, 34]) := by decide
  simp only [locationResponse, locationMembers, objectText, furtherMembers, memberText, List.flatten_cons,
    List.flatten_nil, hquote, hcomma, hbraces, h_city, h_region, h_country,
    h_latitude, h_longitude, h_area_code, h_metro_code, h_postal_code, List.append_assoc,
    List.cons_append, List.nil_append]

/-- The frame for a request. -/
def answerFrame (server : GeoIpServer) (request : Text) : Option (Buffer maxLength) := do
  let response ← responseText server (getLocationByIpText server request)
  frame (Buffer.zeroed maxLength) response

/-- A pass answers the chunk that it read, whatever its array held before. -/
theorem respond_fill (server : GeoIpServer) (data : Buffer maxLength) {chunk : Text}
    (h : chunk.length ≤ maxLength) :
    respond server (data.fill chunk) chunk.length = answerFrame server chunk := by
  simp only [respond, answerFrame, fill_bytes_take _ h]
  exact bind_congr fun response => frame_congr _ _ _

end GeoIp
