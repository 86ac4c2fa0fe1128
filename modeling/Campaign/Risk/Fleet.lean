import Campaign.Risk.Score

/-!
# The launch gate of a fleet

The recipients of a launch are spread evenly over the accounts of a fleet, every account is scored
for its share, and the worst account decides: a launch from a fleet whose health is below the
threshold has to be confirmed.
-/

namespace Campaign.Risk

structure Account where
  id : String
  dailyLimit : Nat
  usedLastDay : Float
  lastActivity : Option Int

/-- How the delay between messages comes about. -/
inductive Delay where
  /-- Drawn at random between two bounds, in seconds. -/
  | fixed (shortest longest : Float)
  /-- Left to the sender, with an average in seconds. -/
  | automatic (average : Float)

def Delay.average : Delay → Float
  | fixed shortest longest => (shortest + longest) / 2.0
  | automatic average => average

structure Plan where
  /-- Recipients who were not contacted before. -/
  recipients : Nat
  delay : Delay
  contentScore : Nat
  confirmBelow : Nat

/-- An account's share of the messages of a launch and its score. -/
structure AccountReport where
  id : String
  plannedMessages : Nat
  breakdown : Breakdown

def AccountReport.health (r : AccountReport) : Nat := r.breakdown.health

/-- The outcome for a fleet. -/
structure Assessment where
  reports : List AccountReport
  health : Nat
  requiresConfirmation : Bool

/-- The messages each account of a fleet sends: the recipients divided up, rounded up. -/
def perAccountLoad (recipients accounts : Nat) : Nat :=
  if accounts = 0 then 0 else (recipients + accounts - 1) / accounts

/-- The least of several healths. -/
def worstHealth? (healths : List Nat) : Option Nat := healths.min?

/-- Whether a launch at a health must be confirmed. -/
def needsConfirmation (health confirmBelow : Nat) : Bool := health < confirmBelow

/-- What is scored for an account that sends its share of a launch. -/
def Plan.inputFor (plan : Plan) (share : Nat) (account : Account) : Input where
  plannedMessages := share
  averageDelay := plan.delay.average
  contentScore := plan.contentScore
  dailyLimit := account.dailyLimit
  usedLastDay := account.usedLastDay
  lastActivity := account.lastActivity

/-- The report of an account that sends its share of a launch. -/
def Plan.report (plan : Plan) (share : Nat) (now : Int) (account : Account) : AccountReport :=
  ⟨account.id, share, evaluateAt (plan.inputFor share account) now⟩

/-- Scores a fleet for a launch at a time. A fleet without accounts is in full health. -/
def assess (accounts : List Account) (plan : Plan) (now : Int) : Assessment :=
  let share := perAccountLoad plan.recipients accounts.length
  let reports := accounts.map (plan.report share now)
  let health := (worstHealth? (reports.map AccountReport.health)).getD maxRisk
  ⟨reports, health, needsConfirmation health plan.confirmBelow⟩

end Campaign.Risk
