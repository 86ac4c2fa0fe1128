import Campaign.Number.Decimal
import Campaign.Number.Word

/-!
# The risk of a batch for one account

Three penalties are added up and scaled by a factor for the size of the batch: how much of the
daily limit is used, how fast the messages follow each other, and how little they vary. Recent
usage fades linearly over the day after the account's last activity. The score is computed in
doubles, in the order written here, and rounded down at the end.
-/

namespace Campaign.Risk

/-- One account, and one batch to be sent from it. -/
structure Input where
  plannedMessages : Nat
  /-- The average delay between messages, in seconds. -/
  averageDelay : Float
  /-- How varied the messages are, usually the number of variations of their template. -/
  contentScore : Nat
  /-- The account's daily limit, where zero means none. -/
  dailyLimit : Nat
  usedLastDay : Float
  /-- When the account was last active, in seconds since the epoch. -/
  lastActivity : Option Int

/-- A score and its parts, which are rounded down one by one and need not add up to it. -/
structure Breakdown where
  /-- The risk as a whole, from 0 to 100. -/
  totalRisk : Nat
  loadPenalty : Nat
  speedPenalty : Nat
  contentPenalty : Nat
  bonusFactor : Float

/-- A band of health. -/
inductive Level where
  | good
  | caution
  | danger
  deriving Repr, DecidableEq

def maxRisk : Nat := 100

def Level.ofHealth (health : Nat) : Level :=
  if 80 ≤ health then .good else if 50 ≤ health then .caution else .danger

def Level.label : Level → String
  | good => "good"
  | caution => "caution"
  | danger => "danger"

/-- What is left of the greatest risk. -/
def Breakdown.health (b : Breakdown) : Nat := maxRisk - b.totalRisk

def Breakdown.level (b : Breakdown) : Level := .ofHealth b.health

/-- The seconds from one time to another, kept within 64 bits. -/
def elapsed (last now : Int) : Int := max int64Min (min int64Max (now - last))

/-- The usage that is left at a time: all of it without a last activity, none a day after it, and in
between a share that falls with every hour. Usage that is not above zero does not fade. -/
def effectiveUsage (used : Float) (lastActivity : Option Int) (now : Int) : Float :=
  match lastActivity with
  | none => used
  | some last =>
    if used ≤ 0.0 then used
    else
      let hours := nearest (elapsed last now) / 3600.0
      if 24.0 ≤ hours then 0.0
      else
        let share := 1.0 - hours / 24.0
        used * (if share < 0.0 then 0.0 else share)

/-- The penalty for a number of messages against a daily limit: it grows with the square of their
ratio, and is flat past a ratio of 1.2. -/
def loadPenalty (projected : Float) (dailyLimit : Nat) : Float :=
  if dailyLimit = 0 then 0.0
  else
    let ratio := projected / nearest dailyLimit
    if 1.2 < ratio then 100.0 else ratio * ratio * 80.0

/-- The penalty for an average delay: for each second below a minute, and more below ten seconds. -/
def speedPenalty (delay : Float) : Float :=
  let short := if delay < 60.0 then (60.0 - delay) * 0.8 else 0.0
  if delay < 10.0 then short + 30.0 else short

/-- The penalty for uniform messages: the more variations, the less, and all of it for none. -/
def contentPenalty (contentScore : Nat) : Float :=
  if contentScore = 0 then 20.0 else 20.0 / nearest contentScore

/-- The factor for the size of a batch. -/
def bonusFactor (plannedMessages : Nat) : Float :=
  if plannedMessages ≤ 3 then 0.4
  else if plannedMessages ≤ 7 then 0.7
  else if plannedMessages ≤ 15 then 0.9
  else if plannedMessages ≤ 40 then 1.0
  else 1.3

/-- A double rounded down to a 32-bit number: zero for one below zero or not a number, and the
greatest for one past it. -/
def floorScore (x : Float) : Nat := x.toUInt32.toNat

/-- The score of an input at a time. -/
def evaluateAt (input : Input) (now : Int) : Breakdown :=
  let used := effectiveUsage input.usedLastDay input.lastActivity now
  let projected := used + nearest input.plannedMessages
  let load := loadPenalty projected input.dailyLimit
  let speed := speedPenalty input.averageDelay
  let content := contentPenalty input.contentScore
  let bonus := bonusFactor input.plannedMessages
  { totalRisk := min (floorScore ((load + speed + content) * bonus)) maxRisk
    loadPenalty := floorScore (load * bonus)
    speedPenalty := floorScore (speed * bonus)
    contentPenalty := floorScore (content * bonus)
    bonusFactor := bonus }

/-- A score is 100 at most. -/
theorem evaluateAt_totalRisk_le (input : Input) (now : Int) :
    (evaluateAt input now).totalRisk ≤ maxRisk := Nat.min_le_right _ _

end Campaign.Risk
