/-!
# Bounds of machine words

The greatest and least numbers that fit into words of 32 and 64 bits.
-/

namespace Campaign

/-- The greatest 64-bit number. -/
def wordMax : Nat := UInt64.size - 1

/-- The greatest 32-bit number. -/
def halfWordMax : Nat := UInt32.size - 1

/-- The least signed 64-bit number. -/
def int64Min : Int := -9223372036854775808

/-- The greatest signed 64-bit number. -/
def int64Max : Int := 9223372036854775807

end Campaign
