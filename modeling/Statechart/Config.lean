import Statechart.Chart.Problem
import Statechart.Json.Record

/-!
Settings of an interpreter: how long a macrostep may get, and what happens when states become
active that may not be active together.
-/

namespace Statechart

inductive LegalityPolicy where
  /-- Report it and go on. -/
  | warn
  /-- Report it and stop with an error. -/
  | fatal
  deriving DecidableEq

namespace LegalityPolicy

def label : LegalityPolicy → String
  | warn => "warn"
  | fatal => "fatal"

def ofLabel? (label : String) : Option LegalityPolicy :=
  [warn, fatal].find? (fun policy => policy.label == label)

end LegalityPolicy

structure Config where
  /-- The microsteps that one macrostep may take. -/
  maxMicrosteps : Nat
  legality : LegalityPolicy
  /-- Whether configurations are checked at all. -/
  checkLegality : Bool
  deriving DecidableEq

namespace Config

def default : Config := ⟨1000, .warn, true⟩

def validate (config : Config) : Except ConfigError Unit :=
  if config.maxMicrosteps = 0 then .error .zeroMicrosteps else .ok ()

/-- Sets the ceiling of a macrostep, which is at least one. -/
def withMaxMicrosteps (config : Config) (n : Nat) : Config :=
  { config with maxMicrosteps := max n 1 }

/-- Reads settings as a record with the fields below, any of which may be left out. -/
def reader : Json.Reader Config := fun room tree =>
  if room = 0 then none
  else do
    let fields ← Json.Fields.ofTree? ["max_microsteps", "legality", "check_legality"] tree
    let inside := room - 1
    let max ← fields.orElse? "max_microsteps" default.maxMicrosteps (.unsigned UInt64.size) inside
    let legality ← fields.orElse? "legality" default.legality
      (.name LegalityPolicy.ofLabel?) inside
    let check ← fields.orElse? "check_legality" default.checkLegality .bool inside
    some ⟨max, legality, check⟩

def read (text : String) : Except ConfigError Config :=
  match (Json.Tree.read text).bind (reader Json.nestingLimit) with
  | none => .error .unreadable
  | some config =>
    match config.validate with
    | .ok () => .ok config
    | .error e => .error e

end Config

end Statechart
