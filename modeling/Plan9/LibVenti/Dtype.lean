import Mathlib.Data.List.GetD
import Plan9.Venti.Dat

/-!
# Block types on the wire and on disk

`dtype.c` translates between the block types of `venti.h`, three bits of depth
below a base, and the older numbers that are written to disk and sent over the
wire. Both tables are lossy: two ranges of block types share the pointer types of
the disk, and the disk numbers without a meaning all become `vtCorruptType`.
-/

namespace Plan9

namespace LibVenti

open Venti

/-- `VtDataType`. -/
def vtDataType : ℕ := 0 <<< 3

/-- `VtDirType`. -/
def vtDirType : ℕ := 1 <<< 3

/-- `VtRootType`. -/
def vtRootType : ℕ := 2 <<< 3

/-- `VtMaxType`. -/
def vtMaxType : ℕ := vtRootType + 1

/-- The table `todisk`: the older number of every block type. -/
def toDisk : List ℕ := [13, 3, 4, 5, 6, 7, 8, 9, 2, 3, 4, 5, 6, 7, 8, 9, 1]

/-- The table `fromdisk`. -/
def fromDisk : List ℕ :=
  [vtCorruptType, vtRootType, vtDirType, vtDirType + 1, vtDirType + 2, vtDirType + 3,
    vtDirType + 4, vtDirType + 5, vtDirType + 6, vtDirType + 7, vtCorruptType, vtCorruptType,
    vtCorruptType, vtDataType]

/-- `vttodisktype`. -/
def vtToDiskType (n : ℕ) : ℕ := toDisk.getD n vtCorruptType

/-- `vtfromdisktype`. -/
def vtFromDiskType (n : ℕ) : ℕ := fromDisk.getD n vtCorruptType

/-- The disk numbers that stand for a block type. -/
def DiskTyped (n : ℕ) : Prop := 1 ≤ n ∧ n ≤ 9 ∨ n = 13

instance (n : ℕ) : Decidable (DiskTyped n) := inferInstanceAs (Decidable (_ ∨ _))

theorem toDisk_length : toDisk.length = 17 := rfl

/-- A property of every value of `vtFromDiskType` is checked on the table. -/
theorem vtFromDiskType_forall {P : ℕ → ℕ → Prop} (hcorrupt : ∀ n, 14 ≤ n → P n vtCorruptType)
    (htable : ∀ n < 14, P n (vtFromDiskType n)) (n : ℕ) : P n (vtFromDiskType n) := by
  rcases Nat.lt_or_ge n 14 with h | h
  · exact htable n h
  · have hn : vtFromDiskType n = vtCorruptType := by
      rw [vtFromDiskType, List.getD_eq_default]
      exact h
    rw [hn]
    exact hcorrupt n h

/-- **The disk types with a meaning** are those that do not become
`vtCorruptType`. -/
theorem vtFromDiskType_eq_corrupt_iff (n : ℕ) :
    vtFromDiskType n = vtCorruptType ↔ ¬DiskTyped n := by
  refine vtFromDiskType_forall (P := fun n t => t = vtCorruptType ↔ ¬DiskTyped n) ?_ ?_ n
  · intro n hn
    unfold DiskTyped
    exact iff_of_true rfl (by omega)
  · decide

/-- A block type that came from disk goes back and forth unchanged. -/
theorem vtFromDiskType_toDisk_fromDisk (n : ℕ) :
    vtFromDiskType (vtToDiskType (vtFromDiskType n)) = vtFromDiskType n := by
  refine vtFromDiskType_forall
    (P := fun _ t => vtFromDiskType (vtToDiskType t) = t) (fun _ _ => by decide) ?_ n
  decide

/-- A disk number with a meaning goes forth and back unchanged. -/
theorem vtToDiskType_fromDisk {n : ℕ} (h : DiskTyped n) : vtToDiskType (vtFromDiskType n) = n := by
  have hlt : n < 14 := by
    unfold DiskTyped at h
    omega
  revert h
  revert hlt
  revert n
  decide

theorem vtFromDiskType_lt (n : ℕ) : vtFromDiskType n < 256 :=
  vtFromDiskType_forall (P := fun _ t => t < 256) (fun _ _ => by decide) (by decide) n

theorem vtToDiskType_fromDisk_lt (n : ℕ) : vtToDiskType (vtFromDiskType n) < 256 :=
  vtFromDiskType_forall (P := fun _ t => vtToDiskType t < 256) (fun _ _ => by decide)
    (by decide) n

end LibVenti

end Plan9
