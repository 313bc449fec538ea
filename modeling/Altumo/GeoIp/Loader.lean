import Altumo.GeoIp.Server
import Altumo.Library.Backtracking
import Altumo.Library.InputStream

/-!
# Loading the MaxMind files

Each loader runs its loop body on every line that `getline` hands over. The
state of the loop is the server, the two counters and what was printed.
-/

namespace GeoIp

open CString Numeral InputStream Backtracking

/-- The classes that the two patterns use. -/
inductive CharClass where
  | byte : Byte → CharClass
  | digit : CharClass
  | any : CharClass
  deriving DecidableEq, Repr

def CharClass.admits : CharClass → Byte → Bool
  | .byte c, b => b == c
  | .digit, b => isDigit b
  | .any, _ => true

def CharClass.source : CharClass → Text
  | .byte c => [c]
  | .digit => text "\\d"
  | .any => text "."

/-- The text of a pattern in the syntax of the regular expressions. -/
def patternSource : Pattern CharClass → Text
  | .empty => []
  | .one c => c.source
  | .greedy c => c.source ++ text "*"
  | .reluctant c => c.source ++ text "*?"
  | .seq (.one c) (.greedy d) => if c = d then c.source ++ text "+" else c.source ++ d.source ++ text "*"
  | .seq p q => patternSource p ++ patternSource q
  | .group p => text "(" ++ patternSource p ++ text ")"

def literal (s : String) : List (Pattern CharClass) := (text s).map fun b => .one (.byte b)

def digits : Pattern CharClass := .group (.plus .digit)

def optionalDigits : Pattern CharClass := .group (.greedy .digit)

def wildcard : Pattern CharClass := .group (.reluctant .any)

def locationsPattern : Pattern CharClass := .ofList (
  [digits] ++ literal ",\"" ++ [.group (.seq (.one .any) (.one .any))] ++ literal "\",\"" ++
  [wildcard] ++ literal "\",\"" ++ [wildcard] ++ literal "\",\"" ++ [wildcard] ++ literal "\"," ++
  [wildcard] ++ literal "," ++ [wildcard] ++ literal "," ++ [optionalDigits] ++ literal "," ++
  [optionalDigits])

def blocksPattern : Pattern CharClass := .ofList (
  literal "\"" ++ [digits] ++ literal "\",\"" ++ [digits] ++ literal "\",\"" ++ [digits] ++ literal "\"")

example : patternSource locationsPattern =
    text "(\\d+),\"(..)\",\"(.*?)\",\"(.*?)\",\"(.*?)\",(.*?),(.*?),(\\d*),(\\d*)" := by decide
example : patternSource blocksPattern = text "\"(\\d+)\",\"(\\d+)\",\"(\\d+)\"" := by decide

/-- `boost::regex_match(line.c_str(), result, pattern)`. -/
def regexMatchLine (pattern : Pattern CharClass) (line : Text) : Option (List Text) :=
  regexMatch CharClass.admits pattern (cStr line)

/-- `result[k].str()`. -/
def sub (result : List Text) (k : Nat) : Text := result.getD (k - 1) []

/-- The server, the two counters and the console in a loader. The `int` counters are numbers
here: where it matters the statements say that they stay up to `INT_MAX`. -/
structure LoadState where
  server : GeoIpServer
  numberOfImportedRecords : Nat
  numberOfSkippedRecords : Nat
  cout : Text

def endl : Text := [newline]

/-- The Location that an accepted locations line creates. -/
def newLocation (result : List Text) : Location :=
  ⟨sub result 2, sub result 3, sub result 4, sub result 5, sub result 6, sub result 7,
    sub result 8, sub result 9⟩

/-- A line is reported on the console and counted as skipped. -/
def LoadState.skip (st : LoadState) (message : Text) : LoadState :=
  { st with
    numberOfSkippedRecords := st.numberOfSkippedRecords + 1
    cout := st.cout ++ message }

section
variable (readId readStart : Text → Nat)

/-- The body of the loop of `loadLocationsFile`, over the reading of the id. -/
def locationsLineWith (st : LoadState) (line : Text) : LoadState :=
  match regexMatchLine locationsPattern line with
  | some result =>
    let st := { st with numberOfImportedRecords := st.numberOfImportedRecords + 1 }
    let pointer := st.server.heap.length
    let st := { st with server := { st.server with heap := st.server.heap ++ [newLocation result] } }
    let locationId := readId (sub result 1)
    if locationId = ulongMax then
      st.skip (text "Location line: " ++ line ++ text " id is out of range. Skipping." ++ endl)
    else
      { st with server :=
        { st.server with locationsTable := st.server.locationsTable.insert locationId pointer } }
  | none => st.skip []

/-- The body of the loop of `loadBlocksFile`, over the readings of the id and of
the start. The end of the range, group 2, is captured and not used. -/
def blocksLineWith (st : LoadState) (line : Text) : LoadState :=
  match regexMatchLine blocksPattern line with
  | some result =>
    let st := { st with numberOfImportedRecords := st.numberOfImportedRecords + 1 }
    let locationId := readId (sub result 3)
    if locationId = ulongMax then
      st.skip (text "Blocks line: " ++ line ++ text " location_id is out of range. Skipping." ++ endl)
    else
      match st.server.locationsTable.find? locationId with
      | none =>
        st.skip (text "Blocks line: " ++ line ++
          text " location_id was not found in the location map. Skipping." ++ endl)
      | some location =>
        let ipAddress := readStart (sub result 1)
        if ipAddress = ulongMax then
          st.skip (text "Blocks line: " ++ line ++ text " ip_address is out of range. Skipping." ++ endl)
        else
          { st with server :=
            { st.server with addressTable := st.server.addressTable.insert ipAddress location } }
  | none => st.skip []

end

/-- The loop body of `loadLocationsFile`: ids are read by `strtoul( .., NULL, 0 )`. -/
def locationsLine : LoadState → Text → LoadState := locationsLineWith strtoul

/-- The loop body of `loadBlocksFile`: all numbers are read by `strtoul( .., NULL, 0 )`. -/
def blocksLine : LoadState → Text → LoadState := blocksLineWith strtoul strtoul

/-- The state in which a loader enters its loop. -/
def LoadState.start (server : GeoIpServer) (cout : Text) : LoadState := ⟨server, 0, 0, cout⟩

/-- The two counts that a loader prints after its loop. -/
def LoadState.report (st : LoadState) (kind : String) : LoadState :=
  { st with cout := st.cout ++
      endl ++ decimal st.numberOfImportedRecords ++ text kind ++ text " records imported." ++
      endl ++ decimal st.numberOfSkippedRecords ++ text kind ++ text " records skipped." ++ endl }

def loadLocationsFile (fuel : Nat) (file : FileState) (server : GeoIpServer) (cout : Text) :
    Option LoadState :=
  (whileNotEof locationsLine fuel (ifstream file) [] (.start server cout)).map
    fun st => st.report " locations"

def loadBlocksFile (fuel : Nat) (file : FileState) (server : GeoIpServer) (cout : Text) :
    Option LoadState :=
  (whileNotEof blocksLine fuel (ifstream file) [] (.start server cout)).map
    fun st => st.report " block"

/-- `loadData()`, within `fuel` passes for each loop. -/
def loadData (fuel : Nat) (locations blocks : FileState) (server : GeoIpServer) (cout : Text) :
    Option LoadState := do
  let st ← loadLocationsFile fuel locations server cout
  loadBlocksFile fuel blocks st.server st.cout

/-- `loadData()` on a new server returns, and this is the server then. -/
def Loads (locations blocks : FileState) (server : GeoIpServer) : Prop :=
  ∃ fuel cout st, loadData fuel locations blocks newServer cout = some st ∧ st.server = server

end GeoIp
