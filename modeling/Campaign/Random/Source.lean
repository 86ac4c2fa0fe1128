/-!
# Random sources

A source is an endless stream of 64-bit words of which some have been drawn. A uniform choice among
`n` things looks at the high part of a word times `n`. It refuses a word whose low part lies past
the zone, the largest multiple of `n` of the form `n * 2 ^ k` below `2 ^ 64`, and draws again.

A source may refuse forever. A choice from such a source never settles, and is then the least
defined one: nothing.
-/

namespace Campaign

/-- A stream of random words and the number of words drawn from it. -/
structure Source where
  word : Nat → UInt64
  /-- How many words have been drawn. -/
  drawn : Nat := 0

namespace Source

def next (s : Source) : UInt64 := s.word s.drawn

def skip (s : Source) : Source := { s with drawn := s.drawn + 1 }

/-- The given words and then zeros. -/
def ofWords (words : Array UInt64) : Source where
  word i := words.getD i 0

/-- The words of an arithmetic progression modulo `2 ^ 64`. -/
def ofStep (initial increment : UInt64) : Source where
  word i := initial + increment * UInt64.ofNat i

/-- The greatest low part of a product that settles a choice among `n` things. -/
def zone (n : Nat) : Nat := n <<< (63 - n.log2) - 1

/-- Whether a word settles a choice among `n` things. -/
def accepts (n : Nat) (word : UInt64) : Bool := word.toNat * n % UInt64.size ≤ zone n

/-- The thing a word stands for in a choice among `n`. -/
def pick (n : Nat) (word : UInt64) : Nat := word.toNat * n / UInt64.size

/-- Chooses among `n` things by the first word that settles it; nothing when no word ever does. -/
def choose? (n : Nat) (s : Source) : Option (Nat × Source) :=
  if accepts n s.next then some (pick n s.next, s.skip) else s.skip |>.choose? n
partial_fixpoint

theorem pick_lt {n : Nat} (word : UInt64) (h : 0 < n) : pick n word < n := by
  rw [pick, Nat.div_lt_iff_lt_mul (by decide), Nat.mul_comm n]
  exact Nat.mul_lt_mul_of_pos_right word.toNat_lt h

/-- A choice among `n` things is one of them. -/
theorem choose?_lt {n : Nat} (hn : 0 < n) {s after : Source} {i : Nat}
    (h : s.choose? n = some (i, after)) : i < n := by
  refine choose?.partial_correctness n (fun _ r => r.1 < n) ?_ s (i, after) h
  intro choose ih s r hr
  split at hr
  · rw [← Option.some.inj hr]
    exact pick_lt _ hn
  · exact ih _ _ hr

end Source

end Campaign
