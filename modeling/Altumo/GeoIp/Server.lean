import Altumo.Library.InetAddress
import Altumo.Library.OrderedMap

/-!
# The GeoIP server and its lookup

The server owns two maps from unsigned longs to Locations. A `Location *` is the
position of the Location among all that were created, so that one Location
shared by several entries keeps one identity; `NULL` is `none`.
-/

namespace GeoIp

open CString Numeral InetAddress

/-- The eight constructor arguments, in their order. -/
structure Location where
  country : Text
  region : Text
  city : Text
  postalCode : Text
  latitude : Text
  longitude : Text
  metroCode : Text
  areaCode : Text
  deriving DecidableEq

abbrev LocationPtr := Nat

abbrev LocationMap := OrderedMap Nat LocationPtr

structure GeoIpServer where
  /-- Every Location that was created, in the order of creation. -/
  heap : List Location
  addressTable : LocationMap
  locationsTable : LocationMap

/-- `GeoIpServer()`. -/
def newServer : GeoIpServer := ⟨[], .empty, .empty⟩

/-- `getLocationByIp( unsigned long )`: the step back from the upper bound is
made only when the upper bound is an entry. -/
def getLocationByIp (server : GeoIpServer) (ipAddress : Nat) : Option LocationPtr :=
  let iterator := server.addressTable.upperBound ipAddress
  if iterator ≠ server.addressTable.last then
    if iterator = server.addressTable.first then none
    else (server.addressTable.entries[iterator - 1]?).map Prod.snd
  else none

/-- `getLocationByIp( const string )`. -/
def getLocationByIpText (server : GeoIpServer) (ipAddress : Text) : Option LocationPtr :=
  match inetPton (cStr ipAddress) with
  | some octets => getLocationByIp server (ntohl octets)
  | none => none

/-- The answer is the Location at the greatest start that is at most the address,
provided that some entry starts above the address. -/
theorem getLocationByIp_eq_some_iff (server : GeoIpServer) (ip : Nat) (p : LocationPtr) :
    getLocationByIp server ip = some p ↔
      OrderedMap.IsFloor server.addressTable.find? ip p ∧
        ∃ j, ip < j ∧ server.addressTable.find? j ≠ none := by
  have hlast : server.addressTable.upperBound ip ≠ server.addressTable.last ↔
      ∃ j, ip < j ∧ server.addressTable.find? j ≠ none := by
    rw [ne_eq, OrderedMap.upperBound_eq_last_iff]
    push Not
    rfl
  rw [← hlast, ← OrderedMap.upperBound_pred, getLocationByIp]
  by_cases hl : server.addressTable.upperBound ip = server.addressTable.last
  · simp [hl]
  · by_cases hf : server.addressTable.upperBound ip = server.addressTable.first
    · simp [hf]
    · simp [hl, hf]

/-- The text overload of an address is the integer overload. -/
theorem getLocationByIpText_dottedQuad (server : GeoIpServer) {ip : Nat} (h : ip < 2 ^ 32) :
    getLocationByIpText server (dottedQuad ip) = getLocationByIp server ip := by
  rw [getLocationByIpText, cStr_eq_self (zero_notMem_dottedQuad ip), inetPton_dottedQuad]
  simp only [ntohl_octetsOf h]

end GeoIp
