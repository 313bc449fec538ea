import Mathlib.Algebra.GroupWithZero.Nat
import Altumo.Library.CString
import Altumo.Library.PrefixCode

/-!
# Records

The header of a FastCGI record and the bodies that the library builds or reads. A
`Record` is a header that tells the truth about what follows it.
-/

namespace Libfcgi

open CString

def maxLength : Nat := 0xffff
def headerLen : Nat := 8
def version1 : Byte := 1

/-! The values of the type component of a header. -/

def beginRequest : Byte := 1
def endRequest : Byte := 3
def params : Byte := 4
def stdin : Byte := 5
def stdout : Byte := 6
def stderr : Byte := 7
def data : Byte := 8
def getValues : Byte := 9
def getValuesResult : Byte := 10
def unknownType : Byte := 11

/-! The roles, the flags of a begin request and the protocol statuses. -/

def responder : Nat := 1
def authorizer : Nat := 2
def filter : Nat := 3
def keepConn : Byte := 1
def requestComplete : Byte := 0
def cantMpxConn : Byte := 1

/-- A request id is the two bytes of a header. -/
abbrev RequestId := Fin (2 ^ 16)

def nullRequestId : RequestId := 0

/-- `FCGI_Header`. -/
structure Header where
  version : Byte
  type : Byte
  requestIdB1 : Byte
  requestIdB0 : Byte
  contentLengthB1 : Byte
  contentLengthB0 : Byte
  paddingLength : Byte
  reserved : Byte
  deriving DecidableEq

def Header.bytes (h : Header) : Text :=
  [h.version, h.type, h.requestIdB1, h.requestIdB0, h.contentLengthB1, h.contentLengthB0, h.paddingLength, h.reserved]

/-- The header that eight bytes are. -/
def headerOf : Text → Option Header
  | [v, t, r1, r0, c1, c0, p, x] => some ⟨v, t, r1, r0, c1, c0, p, x⟩
  | _ => none

def Header.requestId (h : Header) : RequestId where
  val := (h.requestIdB1.toNat <<< 8) + h.requestIdB0.toNat
  isLt := by
    have h1 := h.requestIdB1.toNat_lt
    have h0 := h.requestIdB0.toNat_lt
    simp only [Nat.shiftLeft_eq]
    omega

def Header.contentLength (h : Header) : Nat := (h.contentLengthB1.toNat <<< 8) + h.contentLengthB0.toNat

/-- `(unsigned char)`. -/
def uchar (n : Nat) : Byte := UInt8.ofNat n

/-- `MakeHeader`. -/
def makeHeader (type : Byte) (requestId : RequestId) (contentLength paddingLength : Nat) : Header where
  version := version1
  type := type
  requestIdB1 := uchar ((requestId.val >>> 8) &&& 0xff)
  requestIdB0 := uchar (requestId.val &&& 0xff)
  contentLengthB1 := uchar ((contentLength >>> 8) &&& 0xff)
  contentLengthB0 := uchar (contentLength &&& 0xff)
  paddingLength := uchar paddingLength
  reserved := 0

/-- `FCGI_EndRequestBody`, without its three reserved bytes. -/
structure EndRequestBody where
  appStatusB3 : Byte
  appStatusB2 : Byte
  appStatusB1 : Byte
  appStatusB0 : Byte
  protocolStatus : Byte
  deriving DecidableEq

def EndRequestBody.bytes (b : EndRequestBody) : Text :=
  [b.appStatusB3, b.appStatusB2, b.appStatusB1, b.appStatusB0, b.protocolStatus, 0, 0, 0]

/-- The `(unsigned char) (n & 0xff)` of an `int`. -/
def lowByte (n : Int32) : Byte := UInt8.ofBitVec ((n &&& 0xff).toBitVec.setWidth 8)

/-- `MakeEndRequestBody`. -/
def makeEndRequestBody (appStatus : Int32) (protocolStatus : Byte) : EndRequestBody where
  appStatusB3 := lowByte (appStatus >>> 24)
  appStatusB2 := lowByte (appStatus >>> 16)
  appStatusB1 := lowByte (appStatus >>> 8)
  appStatusB0 := lowByte appStatus
  protocolStatus := protocolStatus

/-- The status that the body of an end request carries. -/
def EndRequestBody.appStatus (b : EndRequestBody) : Int32 :=
  Int32.ofBitVec (b.appStatusB3.toBitVec ++ b.appStatusB2.toBitVec ++ b.appStatusB1.toBitVec ++ b.appStatusB0.toBitVec)

/-- `MakeUnknownTypeBody`, with its reserved bytes. -/
def makeUnknownTypeBody (type : Byte) : Text := [type, 0, 0, 0, 0, 0, 0, 0]

/-- `AlignInt8` of an `unsigned`. -/
def alignInt8 (n : Nat) : Nat := ((n + 7) % 2 ^ 32) &&& (2 ^ 32 - 1 - 7)

theorem header_bytes_length (h : Header) : h.bytes.length = headerLen := rfl

theorem headerOf_bytes (h : Header) : headerOf h.bytes = some h := rfl

theorem toNat_uchar {n : Nat} (h : n < 256) : (uchar n).toNat = n := by
  simp [uchar, Nat.mod_eq_of_lt h]

/-- Two bytes of a number below `2 ^ 16`, most significant first. -/
theorem toNat_twoBytes {n : Nat} (h : n < 2 ^ 16) :
    ((uchar ((n >>> 8) &&& 0xff)).toNat <<< 8) + (uchar (n &&& 0xff)).toNat = n := by
  have hlow : ∀ m : Nat, m &&& 0xff = m % 256 := fun m => Nat.and_two_pow_sub_one_eq_mod m 8
  rw [hlow, hlow, toNat_uchar (by omega), toNat_uchar (by omega), Nat.shiftRight_eq_div_pow, Nat.shiftLeft_eq]
  omega

/-- The next multiple of eight. -/
theorem alignInt8_eq {n : Nat} (h : n + 7 < 2 ^ 32) : alignInt8 n = (n + 7) / 8 * 8 := by
  rw [alignInt8, Nat.mod_eq_of_lt h]
  have hmask : (2 ^ 32 - 1 - 7 : Nat) = (2 ^ 29 - 1) <<< 3 := by decide
  have hdiv : (n + 7) / 8 * 8 = ((n + 7) >>> 3) <<< 3 := by
    rw [Nat.shiftRight_eq_div_pow, Nat.shiftLeft_eq]
  rw [hmask, hdiv]
  apply Nat.eq_of_testBit_eq
  intro i
  simp only [Nat.testBit_and, Nat.testBit_shiftLeft, Nat.testBit_shiftRight, Nat.testBit_two_pow_sub_one]
  by_cases hi : 3 ≤ i
  · by_cases hlt : i - 3 < 29
    · simp [hi, hlt, show 3 + (i - 3) = i by omega]
    · have hzero : (n + 7).testBit i = false :=
        Nat.testBit_lt_two_pow (Nat.lt_of_lt_of_le h (Nat.pow_le_pow_right (by decide) (by omega)))
      simp [hi, hlt, show 3 + (i - 3) = i by omega, hzero]
  · simp [hi]

theorem toBitVec_lowByte (n : Int32) : (lowByte n).toBitVec = n.toBitVec.setWidth 8 := by
  have hones : ∀ (i : Nat) (h : i < 8), (255#8)[i] = true := by decide
  apply BitVec.eq_of_getElem_eq
  intro i hi
  simp [lowByte, hones i hi]

theorem toBitVec_lowByte_shift (n k : Int32) {m : Nat} (hk : (k.toBitVec.smod 32#32).toNat = m) (hm : m + 8 ≤ 32) :
    (lowByte (n >>> k)).toBitVec = n.toBitVec.extractLsb' m 8 := by
  rw [toBitVec_lowByte, Int32.toBitVec_shiftRight]
  apply BitVec.eq_of_getElem_eq
  intro i hi
  have hin : ¬ 32 ≤ i := by omega
  have hlt : m + i < 32 := by omega
  simp [BitVec.sshiftRight', hk, BitVec.getLsbD_sshiftRight, hin, hlt]

theorem fourBytes_append (x : BitVec 32) :
    x.extractLsb' 24 8 ++ x.extractLsb' 16 8 ++ x.extractLsb' 8 8 ++ x.setWidth 8 = x := by
  apply BitVec.eq_of_getElem_eq
  intro i hi
  grind

/-- The status survives its four bytes. -/
theorem makeEndRequestBody_appStatus (appStatus : Int32) (protocolStatus : Byte) :
    (makeEndRequestBody appStatus protocolStatus).appStatus = appStatus := by
  have h24 := toBitVec_lowByte_shift appStatus 24 (show _ = 24 by decide) (by decide)
  have h16 := toBitVec_lowByte_shift appStatus 16 (show _ = 16 by decide) (by decide)
  have h8 := toBitVec_lowByte_shift appStatus 8 (show _ = 8 by decide) (by decide)
  simp only [EndRequestBody.appStatus, makeEndRequestBody, h24, h16, h8, toBitVec_lowByte, fourBytes_append]
  exact Int32.ofBitVec_toBitVec appStatus

@[ext] structure Record where
  version : Byte
  type : Byte
  requestId : RequestId
  content : Text
  padding : Text
  reserved : Byte
  content_le : content.length ≤ maxLength
  padding_le : padding.length ≤ 0xff
  deriving DecidableEq

def Record.header (r : Record) : Header :=
  { makeHeader r.type r.requestId r.content.length r.padding.length with version := r.version, reserved := r.reserved }

/-- The record as it goes over the connection. -/
def Record.bytes (r : Record) : Text := r.header.bytes ++ (r.content ++ r.padding)

@[simp] theorem Record.header_version (r : Record) : r.header.version = r.version := rfl

@[simp] theorem Record.header_type (r : Record) : r.header.type = r.type := rfl

@[simp] theorem Record.header_reserved (r : Record) : r.header.reserved = r.reserved := rfl

@[simp] theorem Record.header_requestId (r : Record) : r.header.requestId = r.requestId :=
  Fin.ext (toNat_twoBytes r.requestId.isLt)

@[simp] theorem Record.header_contentLength (r : Record) : r.header.contentLength = r.content.length := by
  have := r.content_le
  exact toNat_twoBytes (by unfold maxLength at this; omega)

@[simp] theorem Record.header_paddingLength (r : Record) : r.header.paddingLength.toNat = r.padding.length := by
  have := r.padding_le
  exact toNat_uchar (by omega)

theorem Header.contentLength_le (h : Header) : h.contentLength ≤ maxLength := by
  have h1 := h.contentLengthB1.toNat_lt
  have h0 := h.contentLengthB0.toNat_lt
  simp only [Header.contentLength, Nat.shiftLeft_eq, maxLength]
  omega

/-- The record in front of a text, and what follows it. -/
def parseRecord (t : Text) : Option (Record × Text) :=
  match headerOf (t.take headerLen) with
  | none => none
  | some h =>
    let body := t.drop headerLen
    if h.contentLength + h.paddingLength.toNat ≤ body.length then
      some (⟨h.version, h.type, h.requestId, body.take h.contentLength,
        (body.drop h.contentLength).take h.paddingLength.toNat, h.reserved,
        by have := h.contentLength_le; simp only [List.length_take]; omega,
        by have := h.paddingLength.toNat_lt; simp only [List.length_take]; omega⟩,
        body.drop (h.contentLength + h.paddingLength.toNat))
    else none

theorem parseRecord_bytes (r : Record) (rest : Text) : parseRecord (r.bytes ++ rest) = some (r, rest) := by
  have htake : (r.bytes ++ rest).take headerLen = r.header.bytes := by
    rw [Record.bytes, List.append_assoc]
    exact List.take_left' (header_bytes_length _)
  have hdrop : (r.bytes ++ rest).drop headerLen = r.content ++ (r.padding ++ rest) := by
    rw [Record.bytes, List.append_assoc, List.append_assoc]
    exact List.drop_left' (header_bytes_length _)
  have hle : r.content.length + r.padding.length ≤ (r.content ++ (r.padding ++ rest)).length := by
    simp only [List.length_append]
    omega
  rw [parseRecord, htake, headerOf_bytes]
  simp only [hdrop, Record.header_contentLength, Record.header_paddingLength, hle, ↓reduceIte, Option.some.injEq,
    Prod.mk.injEq]
  constructor
  · apply Record.ext <;> simp
  · simp [← List.drop_drop]

theorem Record.bytes_ne_nil (r : Record) : r.bytes ≠ [] := by
  simp [Record.bytes, Header.bytes]

/-- Records are told apart without looking past them. -/
def recordCode : PrefixCode.Code Record Byte := ⟨Record.bytes, parseRecord, Record.bytes_ne_nil, parseRecord_bytes⟩

/-- The whole records in front of a text, and what is left. -/
def parseRecords (t : Text) : List Record × Text := recordCode.decodeAll (t.length + 1) t

theorem parseRecords_bytes (rs : List Record) {tail : Text} (h : parseRecord tail = none) :
    parseRecords (rs.flatMap Record.bytes ++ tail) = (rs, tail) := by
  have hle := recordCode.length_le_flatMap rs
  refine recordCode.decodeAll_encode rs h ?_
  have : rs.length ≤ (rs.flatMap Record.bytes).length := hle
  simp only [List.length_append]
  omega

theorem parseRecords_whole (rs : List Record) : parseRecords (rs.flatMap Record.bytes) = (rs, []) := by
  have hparse := parseRecords_bytes rs (show parseRecord [] = none from rfl)
  rwa [List.append_nil] at hparse

end Libfcgi
