import Plan9.Lib.Bytes

/-!
# Constants and scalar types of the venti server

The enumerations of `venti.h` and of the server's `dat.h`, as far as the modules
below use them, and the one scalar type they all share: a **score**, the twenty
bytes by which venti names a block.
-/

namespace Plan9

namespace Venti

/-- Bytes of a score. -/
def vtScoreSize : ℕ := 20

/-- The largest block venti stores. -/
def vtMaxLumpSize : ℕ := 56 * 1024

/-- The block type no stored block may have. -/
def vtCorruptType : ℕ := 0xFF

/-- Bytes of a name on disk, the terminating zero included. -/
def aNameSize : ℕ := 64

/-- A score: the SHA-1 digest of a block. -/
abbrev Score := Vector UInt8 20

/-! ### The Bloom filter header -/

/-- Magic number of the header. -/
def bloomMagic : ℕ := 0xb1004ead

/-- Version of the header. -/
def bloomVersion : ℕ := 1

/-- Bit indices derived from a score. -/
def bloomMaxHash : ℕ := 32

/-- Bytes of the header: four 32-bit numbers. -/
def bloomHeadSize : ℕ := 4 * 4

/-- The largest filter, `2 ^ 32` bits. -/
def maxBloomSize : ℕ := 1 <<< (32 - 3)

end Venti

end Plan9
