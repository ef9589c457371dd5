import Gnunet.Lib.Runs
import Mathlib.Data.Int.Notation

/-!
# Bandwidth trackers

A tracker of `bandwidth.c` counts the bytes that were consumed beyond what the quota has allowed
since then. Every update takes off the bytes that became available since the last one, rounded to
whole bytes, and forgets what exceeds the carry limit. The tracker is updated by consumptions, by
changes of the quota, and by each question how much is available or how long one has to wait.

The words have the sizes and the signs that they have in the source, and wrap. Every reading of the
clock is an argument.
-/

namespace Gnunet.Util.Bandwidth

def serverMaxMessageSize : UInt64 := 65536

def foreverRel : UInt64 := 0xFFFFFFFFFFFFFFFF

inductive Consumed where
  | yes
  | no
  | syserr
  deriving DecidableEq

structure Tracker where
  consumptionSinceLastUpdate : Int64
  lastUpdate : UInt64
  availableBytesPerS : UInt32
  maxCarryS : UInt32
  deriving DecidableEq

def valueGetAvailableUntil (bps : UInt32) (deadline : UInt64) : UInt64 :=
  (bps.toUInt64 * deadline + 500) / 1000

def trackerInit (now : UInt64) (bytesPerSecondLimit maxCarryS : UInt32) : Tracker :=
  ⟨0, now, bytesPerSecondLimit, maxCarryS⟩

/-- The product is one of 32-bit words. -/
def Tracker.maxCarry (av : Tracker) : UInt64 :=
  let maxCarry := (av.availableBytesPerS * av.maxCarryS).toUInt64
  if maxCarry < serverMaxMessageSize then serverMaxMessageSize else maxCarry

def updateTracker (now : UInt64) (av : Tracker) : Tracker :=
  let deltaTime := now - av.lastUpdate
  let deltaAvail := (deltaTime * av.availableBytesPerS.toUInt64 + 500) / 1000
  let consumption := (av.consumptionSinceLastUpdate.toUInt64 - deltaAvail).toInt64
  let carried :=
    if consumption < 0 then
      let leftBytes := (-consumption).toUInt64
      if av.maxCarry > leftBytes then (-leftBytes).toInt64 else (-av.maxCarry).toInt64
    else consumption
  { av with consumptionSinceLastUpdate := carried, lastUpdate := now }

def trackerConsume (now : UInt64) (size : Int64) (av : Tracker) : Consumed × Tracker :=
  if size > 0 then
    let nc := av.consumptionSinceLastUpdate + size
    if nc < av.consumptionSinceLastUpdate then (.syserr, av)
    else
      let av := updateTracker now { av with consumptionSinceLastUpdate := nc }
      if av.consumptionSinceLastUpdate > 0 then (.yes, av) else (.no, av)
  else (.no, { av with consumptionSinceLastUpdate := av.consumptionSinceLastUpdate + size })

def trackerGetDelay (now : UInt64) (size : UInt64) (av : Tracker) : UInt64 × Tracker :=
  if av.availableBytesPerS = 0 then (foreverRel, av)
  else
    let av := updateTracker now av
    let bytesNeeded := (size + av.consumptionSinceLastUpdate.toUInt64).toInt64
    if bytesNeeded ≤ 0 then (0, av)
    else ((1000 * bytesNeeded).toUInt64 / av.availableBytesPerS.toUInt64, av)

/-- It asserts that the time is not "forever". -/
def absoluteGetDuration (now whence : UInt64) : Option UInt64 :=
  if whence = foreverRel then none
  else if whence > now then some 0 else some (now - whence)

/-- The clock is read twice. -/
def trackerGetAvailable (now later : UInt64) (av : Tracker) : Option (Int64 × Tracker) :=
  let av := updateTracker now av
  (absoluteGetDuration later av.lastUpdate).map fun duration ↦
    let avail := valueGetAvailableUntil av.availableBytesPerS duration
    ((avail - av.consumptionSinceLastUpdate.toUInt64).toInt64, av)

/-- A lower quota makes for a second update. -/
def trackerUpdateQuota (now later : UInt64) (bytesPerSecondLimit : UInt32) (av : Tracker) :
    Tracker :=
  let av := updateTracker now av
  let oldLimit := av.availableBytesPerS
  let av := { av with availableBytesPerS := bytesPerSecondLimit }
  if oldLimit > bytesPerSecondLimit then updateTracker later av else av

inductive Call where
  | consume (now : UInt64) (size : Int64)
  | updateQuota (now later : UInt64) (bytesPerSecondLimit : UInt32)
  | getDelay (now : UInt64) (size : UInt64)
  | getAvailable (now later : UInt64)
  deriving DecidableEq

def Call.isQuery : Call → Bool
  | .consume _ _ => false
  | .updateQuota _ _ _ => false
  | .getDelay _ _ => true
  | .getAvailable _ _ => true

def perform (av : Tracker) : Call → Option Tracker
  | .consume now size => some (trackerConsume now size av).2
  | .updateQuota now later limit => some (trackerUpdateQuota now later limit av)
  | .getDelay now size => some (trackerGetDelay now size av).2
  | .getAvailable now later => (trackerGetAvailable now later av).map Prod.snd

end Gnunet.Util.Bandwidth
