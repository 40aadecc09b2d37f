import Mathlib.Data.List.GetD
import Plan9.LibVenti.Dtype

/-!
# Clumps on disk

A **clump** is a stored block: a header of `clumpSize` bytes – magic number, the
`ClumpInfo` that the arena directory repeats, encoding, creator, time – and the
data. `conv.c` packs headers and directory entries field by field, all numbers
big-endian, the block type by the number the disk has for it.
-/

namespace Plan9

namespace Venti

open Lib LibVenti

/-- `ClumpInfoSize`. -/
def clumpInfoSize : ℕ := 1 + 2 * 2 + vtScoreSize

/-- `ClumpSize`: bytes of the header. -/
def clumpSize : ℕ := clumpInfoSize + 1 + 3 * 4

/-- `U32Size`. -/
def u32Size : ℕ := 4

/-- `ClumpENone`: plain data. -/
def clumpENone : UInt8 := 1

/-- `ClumpECompress`: compressed data. -/
def clumpECompress : UInt8 := 2

/-- `struct ClumpInfo`: block type, size of the data on disk and uncompressed, score. -/
structure ClumpInfo where
  type : UInt8
  size : UInt16
  uncsize : UInt16
  score : Score
deriving DecidableEq

/-- `struct Clump`. -/
structure Clump where
  info : ClumpInfo
  encoding : UInt8
  creator : UInt32
  time : UInt32
deriving DecidableEq

/-- What `conv.c` reports about a clump. -/
inductive ClumpError
  /-- "clump has bad magic number" -/
  | badMagic (got want : ℕ)
  /-- "uncompressed wad size mismatch" -/
  | sizeMismatch
  /-- "compressed lump has inconsistent block sizes" -/
  | inconsistentSizes (size uncsize : ℕ)
  /-- "clump has illegal encoding" -/
  | illegalEncoding
deriving DecidableEq

/-- `checkclump`. -/
def checkClump (w : Clump) : Except ClumpError Unit :=
  if w.encoding = clumpENone then
    if w.info.size ≠ w.info.uncsize then .error .sizeMismatch else .ok ()
  else if w.encoding = clumpECompress then
    if w.info.size ≥ w.info.uncsize then
      .error (.inconsistentSizes w.info.size.toNat w.info.uncsize.toNat)
    else .ok ()
  else .error .illegalEncoding

/-- `packclumpinfo`. -/
def packClumpInfo (ci : ClumpInfo) : List UInt8 :=
  [UInt8.ofNat (vtToDiskType ci.type.toNat)] ++ beBytes 2 ci.size.toNat ++
    beBytes 2 ci.uncsize.toNat ++ ci.score.toList

/-- The bytes `packclump` writes. -/
def clumpHeader (c : Clump) (magic : UInt32) : List UInt8 :=
  beBytes 4 magic.toNat ++ packClumpInfo c.info ++ [c.encoding] ++ beBytes 4 c.creator.toNat ++
    beBytes 4 c.time.toNat

/-- `packclump`: the header, if the clump passes `checkclump`. -/
def packClump (c : Clump) (magic : UInt32) : Except ClumpError (List UInt8) :=
  (checkClump c).map fun _ => clumpHeader c magic

/-- The score at the front of a buffer. -/
def scoreAt (buf : List UInt8) : Score := Vector.ofFn fun i => buf.getD i 0

/-- `unpackclumpinfo`. -/
def unpackClumpInfo (buf : List UInt8) : ClumpInfo where
  type := UInt8.ofNat (vtFromDiskType (buf.getD 0 0).toNat)
  size := UInt16.ofNat (beVal ((buf.drop 1).take 2))
  uncsize := UInt16.ofNat (beVal ((buf.drop 3).take 2))
  score := scoreAt (buf.drop 5)

/-- `unpackclump`. -/
def unpackClump (buf : List UInt8) (cmagic : UInt32) : Except ClumpError Clump :=
  let magic := beVal (buf.take 4)
  if magic ≠ cmagic.toNat then .error (.badMagic magic cmagic.toNat)
  else
    let c : Clump := {
      info := unpackClumpInfo (buf.drop 4)
      encoding := buf.getD 29 0
      creator := UInt32.ofNat (beVal ((buf.drop 30).take 4))
      time := UInt32.ofNat (beVal ((buf.drop 34).take 4)) }
    (checkClump c).map fun _ => c

@[simp]
theorem length_packClumpInfo (ci : ClumpInfo) : (packClumpInfo ci).length = clumpInfoSize := by
  simp [packClumpInfo, clumpInfoSize, vtScoreSize]

@[simp]
theorem length_clumpHeader (c : Clump) (magic : UInt32) :
    (clumpHeader c magic).length = clumpSize := by
  simp [clumpHeader, clumpSize, clumpInfoSize, vtScoreSize]

theorem packClump_eq_ok {c : Clump} {magic : UInt32} {h : List UInt8} :
    packClump c magic = .ok h ↔ checkClump c = .ok () ∧ clumpHeader c magic = h := by
  rw [packClump]
  cases checkClump c with
  | error e => simp [Except.map]
  | ok u => simp [Except.map]

/-- What reading a clump back makes of its block type. -/
def reread (ty : UInt8) : UInt8 :=
  UInt8.ofNat (vtFromDiskType (UInt8.ofNat (vtToDiskType ty.toNat)).toNat)

theorem scoreAt_toList (score : Score) (rest : List UInt8) :
    scoreAt (score.toList ++ rest) = score := by
  ext i hi
  have h : i < score.toList.length := by simpa using hi
  simp [scoreAt, List.getElem?_append_left h, hi]

/-- **A directory entry is read back**, up to the block types that share a number. -/
theorem unpackClumpInfo_pack (ci : ClumpInfo) (rest : List UInt8) :
    unpackClumpInfo (packClumpInfo ci ++ rest) = { ci with type := reread ci.type } := by
  have h16 : ∀ x : UInt16, UInt16.ofNat (beVal (beBytes 2 x.toNat)) = x := by
    intro x
    rw [beVal_beBytes x.toNat_lt, UInt16.ofNat_toNat]
  have htype : (packClumpInfo ci ++ rest).getD 0 0 = UInt8.ofNat (vtToDiskType ci.type.toNat) := rfl
  have hsize : (((packClumpInfo ci ++ rest).drop 1).take 2) = beBytes 2 ci.size.toNat := by
    simp [packClumpInfo, beBytes]
  have hunc : (((packClumpInfo ci ++ rest).drop 3).take 2) = beBytes 2 ci.uncsize.toNat := by
    simp [packClumpInfo, beBytes]
  have hscore : (packClumpInfo ci ++ rest).drop 5 = ci.score.toList ++ rest := by
    simp [packClumpInfo, beBytes]
  rw [unpackClumpInfo, htype, hsize, hunc, hscore, h16, h16, scoreAt_toList, reread]

/-- **A header is read back**: if it could be packed, and with the same magic number. -/
theorem unpackClump_pack {c : Clump} {magic : UInt32} (h : checkClump c = .ok ())
    (rest : List UInt8) :
    unpackClump (clumpHeader c magic ++ rest) magic =
      .ok { c with info := { c.info with type := reread c.info.type } } := by
  have h32 : ∀ x : UInt32, UInt32.ofNat (beVal (beBytes 4 x.toNat)) = x := by
    intro x
    rw [beVal_beBytes x.toNat_lt, UInt32.ofNat_toNat]
  -- the header, cut in front of the encoding
  have hcut : clumpHeader c magic ++ rest = (beBytes 4 magic.toNat ++ packClumpInfo c.info) ++
      (c.encoding :: (beBytes 4 c.creator.toNat ++ (beBytes 4 c.time.toNat ++ rest))) := by
    simp [clumpHeader]
  have hlen : (beBytes 4 magic.toNat ++ packClumpInfo c.info).length = 29 := by
    simp [clumpInfoSize, vtScoreSize]
  rw [hcut]
  generalize htail : c.encoding :: (beBytes 4 c.creator.toNat ++
    (beBytes 4 c.time.toNat ++ rest)) = tail
  have hmagic : ((beBytes 4 magic.toNat ++ packClumpInfo c.info) ++ tail).take 4 =
      beBytes 4 magic.toNat := by
    rw [List.append_assoc]
    exact List.take_left' (by simp)
  have hinfo : ((beBytes 4 magic.toNat ++ packClumpInfo c.info) ++ tail).drop 4 =
      packClumpInfo c.info ++ tail := by
    rw [List.append_assoc]
    exact List.drop_left' (by simp)
  have hdrop : ∀ k, ((beBytes 4 magic.toNat ++ packClumpInfo c.info) ++ tail).drop (29 + k) =
      tail.drop k := by
    intro k
    rw [← hlen]
    exact List.drop_length_add_append ..
  have henc : ((beBytes 4 magic.toNat ++ packClumpInfo c.info) ++ tail).getD 29 0 = c.encoding := by
    rw [List.getD_append_right _ _ _ _ (by omega), hlen, ← htail]
    rfl
  have hcreator : tail.drop 1 = beBytes 4 c.creator.toNat ++ (beBytes 4 c.time.toNat ++ rest) := by
    rw [← htail]
    rfl
  have htime : tail.drop 5 = beBytes 4 c.time.toNat ++ rest := by
    rw [← htail]
    simp [beBytes]
  have hval : beVal (beBytes 4 magic.toNat) = magic.toNat := beVal_beBytes magic.toNat_lt
  have hcheck : checkClump { c with info := { c.info with type := reread c.info.type } } =
      checkClump c := rfl
  simp only [unpackClump, hmagic, hinfo, henc, unpackClumpInfo_pack, hval,
    ne_eq, not_true_eq_false, if_false, hdrop 1, hdrop 5, hcreator, htime,
    List.take_left' (length_beBytes 4 _), h32, hcheck, h, Except.map]

end Venti

end Plan9
