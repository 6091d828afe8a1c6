import RamOverlay.Number.Binary64
import RamOverlay.Placement.Location
import RamOverlay.Weight.Estimate

/-!
# Settings

What a placement is computed for: the estimate of execution counts, the energy and memory of the
device, the blocks that have to go to RAM, and the register that long exits may use.
-/

namespace RamOverlay

/-- The settings of a run. -/
structure Config where
  /-- The register that long exits may change. -/
  safeRegister : String := "r5"
  /-- How often every loop is taken to be run. -/
  loopEstimate : Nat := 10
  /-- The greatest number of calls in a chain that estimates follow. -/
  maxCallDepth : Nat := 5
  /-- Energy of a cycle that is run from flash. -/
  flashEnergy : Nat := 100
  /-- Energy of a cycle that is run from RAM. -/
  ramEnergy : Nat := 66
  spareRam : Nat := 1000
  /-- How far the count of cycles may grow; one and a half by default. -/
  maxCycleFactor : Binary64 := .finite false (3 <<< 51) (-52)
  /-- The blocks that have to go to RAM, each once. -/
  forced : List BlockLocation := []
  /-- Whether all other blocks have to stay in flash. -/
  specifiedOnly : Bool := false
  deriving DecidableEq, Repr

namespace Config

/-- The settings with one more block that has to go to RAM. -/
def withForced (config : Config) (location : BlockLocation) : Config :=
  if location ∈ config.forced then config
  else { config with forced := config.forced ++ [location] }

/-- Whether a block of a unit has to go to RAM. -/
def isForced (config : Config) (unit : String) (line : Nat) : Bool :=
  config.forced.contains ⟨unit, line⟩

def assumptions (config : Config) : Assumptions :=
  { loopEstimate := config.loopEstimate, maxDepth := config.maxCallDepth }

end Config

end RamOverlay
