import Mathlib.Data.List.Basic
import Mathlib.Order.Basic
import Mathlib.Tactic.Common

/-!
# Records in a stream

A sequence of records laid end to end, without marks between them. Where a
record lies follows from the sizes of those before it; whoever reads as many
elements as the record has, from its offset on, reads that record, however
many records follow it already.
-/
namespace CppPlayground.Framing

variable {A : Type*}

/-- The first `k` records, end to end. -/
def stream (record : ℕ → List A) (k : ℕ) : List A := (List.range k).flatMap record

/-- Where record `k` begins. -/
def offset (size : ℕ → ℕ) : ℕ → ℕ
  | 0 => 0
  | k + 1 => offset size k + size k

theorem stream_succ (record : ℕ → List A) (k : ℕ) :
    stream record (k + 1) = stream record k ++ record k := by
  simp [stream, List.range_succ]

theorem offset_succ (size : ℕ → ℕ) (k : ℕ) : offset size (k + 1) = offset size k + size k := rfl

theorem offset_mono (size : ℕ → ℕ) {j k : ℕ} (h : j ≤ k) : offset size j ≤ offset size k := by
  induction h with
  | refl => exact Nat.le_refl _
  | step _ ih =>
      rw [offset_succ]
      omega

theorem stream_prefix (record : ℕ → List A) {j k : ℕ} (h : j ≤ k) :
    stream record j <+: stream record k := by
  induction h with
  | refl => exact List.prefix_rfl
  | step _ ih =>
      rw [stream_succ]
      exact ih.trans (List.prefix_append _ _)

section Sized
variable {record : ℕ → List A} {size : ℕ → ℕ} (hsize : ∀ i, (record i).length = size i)
include hsize

theorem stream_length (k : ℕ) : (stream record k).length = offset size k := by
  induction k with
  | zero => rfl
  | succ k ih => rw [stream_succ, List.length_append, ih, hsize, offset_succ]

/-- A record that was laid down is read from its offset on. -/
theorem stream_slice {j k : ℕ} (h : j < k) :
    ((stream record k).drop (offset size j)).take (size j) = record j := by
  obtain ⟨rest, hrest⟩ := stream_prefix record (Nat.succ_le_of_lt h)
  rw [← hrest, stream_succ, List.append_assoc, List.drop_left' (stream_length hsize j)]
  exact List.take_left' (hsize j)

end Sized

/-- Who finds elements past all records before `j` finds record `j` laid down. -/
theorem lt_of_offset_lt {size : ℕ → ℕ} {j k : ℕ} (h : offset size j < offset size k) : j < k := by
  by_contra hk
  exact absurd (offset_mono size (Nat.le_of_not_lt hk)) (Nat.not_le_of_lt h)

end CppPlayground.Framing
