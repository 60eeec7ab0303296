import GramCensus.FileTree.Basic

/-!
# Settings

The settings of a census say which n-grams are asked for, how the work is divided, and where
results go. `Settings.check` names the first setting that makes no sense; `Settings.quota` is
the number of n-grams that a pass keeps.
-/

namespace GramCensus

/-- The settings of a census. -/
structure Settings where
  /-- The length of the n-grams that are asked for. -/
  gramLength : Nat
  /-- The number of n-grams that are asked for. -/
  limit : Nat
  /-- How many times as many n-grams the passes before the last one keep. -/
  overage : Binary64
  /-- The number of workers of a pass. -/
  workers : Nat
  /-- Whether the results of all passes are written, not only those of the last. -/
  recordAll : Bool
  /-- The beginning of the paths of the results, which are not written without one. -/
  outputStem : Option Path
  /-- The most mark sets that one flush merges. -/
  groupSize : Nat
  /-- The new bytes of a chunk. -/
  chunkSize : Nat
  /-- The most chunks that wait between the two halves of a worker. -/
  queueDepth : Nat
  deriving DecidableEq, Repr

namespace Settings

/-- What is set unless something else is asked for. -/
def usual : Settings where
  gramLength := 3
  limit := 1000
  overage := .ofNat 1
  workers := 1
  recordAll := false
  outputStem := none
  groupSize := 8
  chunkSize := 65536
  queueDepth := 32

/-- Refuses settings that make no sense, for the first reason that holds. -/
def check (settings : Settings) : Except Failure Unit :=
  let refuse (fault : SettingsFault) : Except Failure Unit := .error (.settings fault)
  if settings.gramLength < 3 then refuse (.gramTooShort settings.gramLength)
  else if settings.limit = 0 then refuse .nothingRequested
  else if !settings.overage.isFinite || !settings.overage.atLeastOne then
    refuse (.overage settings.overage)
  else if settings.workers = 0 then refuse .noThreads
  else if settings.groupSize = 0 ∨ largestGroup < settings.groupSize then
    refuse (.groupSize settings.groupSize)
  else if settings.chunkSize = 0 then refuse .emptyChunks
  else if settings.queueDepth = 0 then refuse .emptyQueue
  else .ok ()

/-- The largest number of n-grams that can be asked for. -/
def largestQuota : Nat := (1 <<< 64) - 1

/-- The number of n-grams that the pass over n-grams of a length keeps. -/
def quota (settings : Settings) (length : Nat) : Nat :=
  if settings.gramLength ≤ length then settings.limit
  else ((Binary64.ofNat settings.limit).mul settings.overage).ceiling largestQuota

end Settings

/-- The path of the results for n-grams of a length. -/
def resultPath (stem : Path) (length : Nat) : Path :=
  stem ++ '.' :: (Nat.toDigits 10 length ++ ".txt".toList)

end GramCensus
