import Campaign.Proofs.Fleet.Fading
import Campaign.Proofs.Fleet.Pacing

/-!
# More load

The penalty for load grows with the square of the ratio of load to limit until the lethal ratio, and
is flat past it. The square gets past the flat penalty first: 80 times the square of a ratio is 100 at
the root of 1.25 and 115.2 at the lethal ratio of 1.2. Between the two a load is charged more than any
load past the lethal ratio, so there, and nowhere else, more load takes the penalty down. For batches
of more than 15 messages the clamp of the score hides that; for smaller ones the discount lets it
show.
-/

namespace Campaign.Risk

open Campaign.Rounding

section Square

variable {a b : Float}

end Square

section Penalty

variable {dailyLimit : ℕ} {p q : Float}

variable (hlimit : 1 ≤ dailyLimit) (hword : dailyLimit ≤ wordMax)

include hlimit hword

end Penalty

section Score

variable {input : Input} (now : ℤ) {load heavier more : Float}

end Score

end Campaign.Risk
