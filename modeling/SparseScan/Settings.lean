import SparseScan.Text.Document

set_option autoImplicit false

/-! # Scan settings

Settings come from a JSON document or from environment variables; what is not given has a default.
A document is an object, whose unknown members are ignored, or an array of the settings in their
order. -/

namespace SparseScan

-- powers in the sense of the core library, whatever else is imported
attribute [local instance (high)] instPowNat

/-- The settings of a scan. -/
structure ScanSettings where
  /-- The greatest initial size of each read buffer, in bytes; growth may exceed it. -/
  bufferBudget : Nat := 10 * 1024 * 1024
  /-- Record how long operations take and write a report when the scan ends. -/
  keepStats : Bool := false
  /-- Where the report goes; without it, the directory for temporary files. -/
  reportDirectory : Option String := none
  /-- Buffers double only while free memory exceeds this multiple of what they take. -/
  headroom : Nat := 4
deriving DecidableEq, Repr

/-- Why settings are refused. -/
inductive SettingsError where
  | malformed
  | emptyBudget
  | lowHeadroom (n : Nat)
deriving DecidableEq, Repr

/-- The wording of each cause. -/
def SettingsError.message : SettingsError → String
  | malformed => "JSON error"
  | emptyBudget => "Invalid configuration: read_buffer_size must be positive"
  | lowHeadroom n => s!"Invalid configuration: growth_headroom must be at least 2, got {n}"

namespace ScanSettings

/-- Whether a scan can run with the settings. Doubling alone needs twice the memory. -/
def ensureUsable (s : ScanSettings) : Except SettingsError Unit :=
  if s.bufferBudget = 0 then .error .emptyBudget
  else if s.headroom < 2 then .error (.lowHeadroom s.headroom)
  else .ok ()

/-! ## From a document -/

/-- Settings are 64-bit words. -/
def wordSize : Nat := 2 ^ (64 : Nat)

/-- The settings, in the order in which an array gives them. -/
inductive Key where
  | bufferBudget
  | keepStats
  | reportDirectory
  | headroom
deriving DecidableEq, Repr

/-- All settings in order. -/
def Key.all : List Key := [.bufferBudget, .keepStats, .reportDirectory, .headroom]

/-- The name of a setting in an object. -/
def Key.name : Key → String
  | .bufferBudget => "read_buffer_size"
  | .keepStats => "enable_stats"
  | .reportDirectory => "stats_dir"
  | .headroom => "growth_headroom"

/-- Change one setting to what a document says. -/
def set? (s : ScanSettings) : Key → Document → Option ScanSettings
  | .bufferBudget, .natural n => if n < wordSize then some { s with bufferBudget := n } else none
  | .keepStats, .bool b => some { s with keepStats := b }
  | .reportDirectory, .null => some { s with reportDirectory := none }
  | .reportDirectory, .string (some path) => some { s with reportDirectory := some path }
  | .headroom, .natural n => if n < wordSize then some { s with headroom := n } else none
  | _, _ => none

/-- Change the settings that the members of an object name; `seen` are those already given, and no
    setting is given twice. -/
def setMembers? (s : ScanSettings) (seen : List Key) :
    List (Option String × Document) → Option ScanSettings
  | [] => some s
  | (none, _) :: _ => none
  | (some name, d) :: rest =>
      match Key.all.find? (·.name == name) with
      | none => s.setMembers? seen rest
      | some k =>
          if k ∈ seen then none
          else
            match s.set? k d with
            | some s => s.setMembers? (k :: seen) rest
            | none => none

/-- Change the settings in their order to the items of an array. -/
def setItems? (s : ScanSettings) : List Key → List Document → Option ScanSettings
  | _, [] => some s
  | [], _ :: _ => none
  | k :: keys, d :: rest =>
      match s.set? k d with
      | some s => s.setItems? keys rest
      | none => none

/-- The settings of a document. -/
def ofDocument? : Document → Option ScanSettings
  | .object members => setMembers? {} [] members
  | .array items => setItems? {} Key.all items
  | _ => none

/-- The settings of a JSON text, if a scan can run with them. -/
def ofText (text : String) : Except SettingsError ScanSettings :=
  match (Document.parse? text).bind ofDocument? with
  | none => .error .malformed
  | some s => s.ensureUsable.map fun _ => s

/-! ## From the environment -/

/-- The 64-bit word that a text spells: decimal digits, perhaps after a plus sign. -/
def word? (text : String) : Option Nat :=
  let digits := match text.toList with
    | '+' :: rest => rest
    | cs => cs
  let n := Document.ofDigits digits
  if !digits.isEmpty && digits.all Char.isDigit && n < wordSize then some n else none

/-- The truth value that a text spells. -/
def flag? : String → Option Bool
  | "true" => some true
  | "false" => some false
  | _ => none

/-- The settings of the environment; a variable that spells no value of its setting is ignored. -/
def ofEnvironment (lookup : String → Option String) : ScanSettings where
  bufferBudget := ((lookup "ARRAYSCAN_READ_BUFFER_SIZE").bind word?).getD (10 * 1024 * 1024)
  keepStats := ((lookup "ARRAYSCAN_ENABLE_STATS").bind flag?).getD false
  reportDirectory := lookup "ARRAYSCAN_STATS_DIR"
  headroom := ((lookup "ARRAYSCAN_GROWTH_HEADROOM").bind word?).getD 4

end ScanSettings

end SparseScan
