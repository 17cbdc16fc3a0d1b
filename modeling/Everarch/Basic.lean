import Mathlib.Data.Int.Basic
import Mathlib.Tactic.Ring

/-!
# Result codes, references and C conversions

The codes of errors.h, the reference types of keys.h and the conversions between
C integer types that the rest of the model uses.

A C string is a `String` whose characters stand for its bytes. An `evr_time` is
bound into SQLite statements with a cast to `sqlite3_int64` and only compared
there, so a time of the model is the `Int` that SQLite sees.
-/

namespace Everarch

/-- The codes of errors.h. `noReturn` stands for a call that does not return:
`evr_panic` ends the process, and so does a null pointer passed to `strcmp`. -/
inductive Res where
  | ok
  | error
  | notFound
  | temporaryOccupied
  | end_
  | userDataInvalid
  | exists_
  | unknownRequest
  | glacierIndexDbCorrupt
  | noReturn
deriving DecidableEq, Repr

/-- `evr_blob_ref_size`. -/
def blobRefSize : Nat := 28

/-- `evr_claim_ref_size`: a blob ref and a `uint16_t`. -/
def claimRefSize : Nat := blobRefSize + 2

/-- `evr_blob_ref`. -/
abbrev BlobRef := Vector UInt8 blobRefSize

/-- `evr_claim_ref`: the claim set's blob ref and the index of the claim. -/
abbrev ClaimRef := Vector UInt8 claimRefSize

instance : LawfulBEq ClaimRef :=
  inferInstanceAs (LawfulBEq (Vector UInt8 claimRefSize))

/-- Conversion of a wider integer to `int`. -/
def toInt32 (n : Int) : Int :=
  Int.bmod n (2 ^ 32)

/-- Conversion of an unsigned integer to `sqlite3_int64`. -/
def toInt64 (n : Int) : Int :=
  Int.bmod n (2 ^ 64)

theorem toInt64_of_lt {n : Nat} (h : n < 2 ^ 63) : toInt64 n = n := by
  unfold toInt64
  rw [Int.bmod_eq_of_le] <;> omega

theorem toInt32_of_lt {n : Nat} (h : n < 2 ^ 31) : toInt32 n = n := by
  unfold toInt32
  rw [Int.bmod_eq_of_le] <;> omega

theorem toInt32_lt (n : Int) : toInt32 n < 2 ^ 31 := by
  have h := Int.bmod_lt (x := n) (m := 2 ^ 32) (by decide)
  unfold toInt32
  omega

theorem toInt32_emod (n : Int) : toInt32 n % 2 ^ 8 = n % 2 ^ 8 := by
  unfold toInt32 Int.bmod
  dsimp only
  split
  · omega
  · omega

/-- Conversion back to an unsigned integer. -/
theorem toNat_toInt64 {n : Nat} (h : n < 2 ^ 64) : (toInt64 n % 2 ^ 64).toNat = n := by
  unfold toInt64 Int.bmod
  dsimp only
  split
  · omega
  · omega

/-- `evr_build_claim_ref`: the claim index is stored as big-endian `uint16_t`. -/
def buildClaimRef (bref : BlobRef) (claim : Nat) : ClaimRef :=
  bref ++ #v[UInt8.ofNat (claim / 256), UInt8.ofNat claim]

theorem blobRefSize_lt_claimRefSize : 28 < claimRefSize := by decide

theorem blobRefSize_succ_lt_claimRefSize : 29 < claimRefSize := by decide

/-- The blob ref part that `evr_split_claim_ref` extracts. -/
def splitClaimRef (cref : ClaimRef) : BlobRef × Nat :=
  (Vector.ofFn fun i : Fin blobRefSize => cref.get ⟨i.val, Nat.lt_add_right 2 i.isLt⟩,
    (cref.get ⟨28, blobRefSize_lt_claimRefSize⟩).toNat * 256 +
      (cref.get ⟨29, blobRefSize_succ_lt_claimRefSize⟩).toNat)

end Everarch
