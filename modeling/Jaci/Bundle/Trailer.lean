import Jaci.Bundle.Container

/-!
# The trailer of a single binary

The two fields of the trailer are 64 bits wide, and so is their sum.  A payload that starts in the
last 24 bytes of the file, and is nearly as large as the address space, has a sum that comes out
right.

* `trailer_sum_iff` : **the sum is right as a number** if and only if the payload starts before the
  trailer;
* `checkAndRunBundledPayload_trailer` : what becomes of the others.
-/

namespace Jaci

namespace Bundle

open Wire

/-- Both checks of the trailer pass, for a file of that length. -/
def TrailerAccepted (fileLength payloadOffset payloadSize : ℕ) : Prop :=
  (payloadOffset + payloadSize + kTrailerSize) % 2 ^ 64 = fileLength ∧ payloadOffset < fileLength

instance (fileLength payloadOffset payloadSize : ℕ) :
    Decidable (TrailerAccepted fileLength payloadOffset payloadSize) :=
  inferInstanceAs (Decidable (_ ∧ _))

section Trailer

variable {fileLength payloadOffset payloadSize : ℕ}

/-- The sum of the fields is right, or it has wrapped around once. -/
theorem TrailerAccepted.cases (h : TrailerAccepted fileLength payloadOffset payloadSize)
    (hlength : fileLength < 2 ^ 63) (hsize : payloadSize < 2 ^ 64) :
    payloadOffset + payloadSize + kTrailerSize = fileLength ∨
      payloadOffset + payloadSize + kTrailerSize = fileLength + 2 ^ 64 := by
  obtain ⟨hsum, hoffset⟩ := h
  rw [kTrailerSize] at hsum ⊢
  omega

/-- **The sum of the fields is the length of the file** as a number if and only if the payload
starts at least 24 bytes before the end. -/
theorem trailer_sum_iff (hlength : fileLength < 2 ^ 63) (hsize : payloadSize < 2 ^ 64)
    (h : TrailerAccepted fileLength payloadOffset payloadSize) :
    payloadOffset + payloadSize + kTrailerSize = fileLength ↔
      payloadOffset + kTrailerSize ≤ fileLength := by
  constructor
  · intro hsum
    omega
  · intro hstart
    rcases h.cases hlength hsize with hsum | hsum
    · exact hsum
    · -- The size would not fit into 64 bits.
      omega

/-- A payload of 56 bytes in front of its trailer. -/
theorem trailer_sum_iff_small : (0 + 56 + kTrailerSize = 80 ↔ 0 + kTrailerSize ≤ 80) :=
  trailer_sum_iff (by decide) (by decide) (by decide)

/-- The last byte of the file is no payload, but the checks pass. -/
theorem trailer_sum_wraps : ¬ ∀ fileLength payloadOffset payloadSize : ℕ,
    kTrailerSize + 32 ≤ fileLength → fileLength < 2 ^ 63 → payloadOffset < 2 ^ 64 →
    payloadSize < 2 ^ 64 → TrailerAccepted fileLength payloadOffset payloadSize →
    payloadOffset + payloadSize + kTrailerSize = fileLength := by
  intro h
  have hsum := h 100 99 (2 ^ 64 - 23) (by decide) (by decide) (by decide) (by decide) (by decide)
  revert hsum
  decide

/-- A payload that starts in the last 24 bytes is too large for a string. -/
theorem TrailerAccepted.size_of_wrap (h : TrailerAccepted fileLength payloadOffset payloadSize)
    (hlength : fileLength < 2 ^ 63) (hsize : payloadSize < 2 ^ 64)
    (hstart : ¬ payloadOffset + kTrailerSize ≤ fileLength) : 2 ^ 63 ≤ payloadSize := by
  have hoffset := h.2
  rcases h.cases hlength hsize with hsum | hsum <;> rw [kTrailerSize] at hsum hstart <;> omega

/-- **What becomes of a file with a trailer:** it runs as an engine unless the checks pass; then the
payload is the part of the file that the trailer says, or the string for it cannot be built. -/
theorem checkAndRunBundledPayload_trailer {args : List String} {file : Bytes}
    (hargs : ∀ arg ∈ args, arg ∉ engineFlags) (hlength : kTrailerSize + 32 ≤ file.length)
    (hlength' : file.length < 2 ^ 63)
    (hfields : file.drop (file.length - kTrailerSize) =
      writeUint64 payloadOffset ++ writeUint64 payloadSize ++ kMagicTrailer)
    (hoffset : payloadOffset < 2 ^ 64) (hsize : payloadSize < 2 ^ 64) :
    checkAndRunBundledPayload args file =
      if TrailerAccepted file.length payloadOffset payloadSize then
        if payloadOffset + kTrailerSize ≤ file.length then
          readPayload ((file.drop payloadOffset).take payloadSize)
        else .throws
      else .engine := by
  have hflags : ¬ ∃ arg ∈ args, arg ∈ engineFlags := fun ⟨arg, harg, hflag⟩ => hargs arg harg hflag
  have hmagic : (file.drop (file.length - kTrailerSize)).drop 16 = kMagicTrailer := by
    rw [hfields]
    exact List.drop_left' (by simp)
  have hread : readUint64 (file.drop (file.length - kTrailerSize)) =
      (payloadOffset, writeUint64 payloadSize ++ kMagicTrailer) := by
    rw [hfields, List.append_assoc, readUint64_write hoffset]
  rw [checkAndRunBundledPayload, if_neg hflags, if_neg (by omega)]
  simp only [hmagic, ne_eq, not_true_eq_false, if_false, hread, readUint64_write hsize]
  by_cases haccept : TrailerAccepted file.length payloadOffset payloadSize
  · have hoffset' : ¬ file.length ≤ payloadOffset := Nat.not_le.mpr haccept.2
    rw [if_pos haccept, if_neg (not_not.mpr haccept.1), if_neg hoffset']
    by_cases hstart : payloadOffset + kTrailerSize ≤ file.length
    · have hexact : payloadOffset + payloadSize + kTrailerSize = file.length := by
        rcases haccept.cases hlength' hsize with hsum | hsum <;> omega
      have hfits : payloadSize ≤ (file.drop payloadOffset).length := by
        rw [List.length_drop]
        omega
      rw [if_neg (by omega), if_pos hstart, takeN, if_pos hfits]
    · -- The sum has wrapped, so no string is as long as the size.
      have hhuge := haccept.size_of_wrap hlength' hsize hstart
      rw [if_pos hhuge, if_neg hstart]
  · rw [if_neg haccept]
    by_cases hsum : (payloadOffset + payloadSize + kTrailerSize) % 2 ^ 64 = file.length
    · have hoffset' : file.length ≤ payloadOffset :=
        Nat.not_lt.mp fun hlt => haccept ⟨hsum, hlt⟩
      rw [if_neg (not_not.mpr hsum), if_pos hoffset']
    · rw [if_pos hsum]

/-- A file of zeros, all of which are the payload. -/
def zeros : Bytes :=
  List.replicate 32 0 ++ (writeUint64 0 ++ writeUint64 32 ++ kMagicTrailer)

theorem checkAndRunBundledPayload_zeros : checkAndRunBundledPayload [] zeros =
    if TrailerAccepted zeros.length 0 32 then
      if 0 + kTrailerSize ≤ zeros.length then readPayload ((zeros.drop 0).take 32) else .throws
    else .engine :=
  checkAndRunBundledPayload_trailer (by simp) (by decide) (by decide) (by decide) (by decide)
    (by decide)

end Trailer

end Bundle

end Jaci
