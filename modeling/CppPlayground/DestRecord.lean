import CppPlayground.HelloRoundTrip

/-!
# The record of a queue pair's address

Before they ping-pong, two programs tell each other where their queue pairs
are. The record is a row of hexadecimal numbers, each with a colon after it,
and the gid as one word; the programs differ in how many numbers there are and
in the size of the array. `sprintf` and `sscanf` are followed for any row. As
with the hello, what memory held before is kept in view: a conversion that is
not reached stores nothing. A reading that runs past an array has no result.
-/
namespace CppPlayground.DestRecord
open HostBytes ScanText HelloText

/-- Widths and values of a row; `"%0wx:"` for each. -/
def printFields : List (ℕ × UInt32) → List UInt8
  | [] => []
  | (w, v)::fields => printHex w v.toNat ++ colon::printFields fields

/-- The values that `n` conversions `"%x:"` store, and the text after them if
all of them were made. -/
def scanFields : ℕ → List UInt8 → List UInt32 × Option (List UInt8)
  | 0, cs => ([], some cs)
  | n + 1, cs =>
    match scanHex cs with
    | none => ([], none)
    | some (v, rest) =>
      match scanChar colon rest with
      | none => ([v], none)
      | some rest => ((v::(scanFields n rest).1), (scanFields n rest).2)

/-- No number is wider than its field. -/
def Fit (fields : List (ℕ × UInt32)) : Prop := ∀ f ∈ fields, 0 < f.1 ∧ f.2.toNat < 16 ^ f.1

theorem printFields_length {fields : List (ℕ × UInt32)} (h : Fit fields) :
    (printFields fields).length = (fields.map fun f => f.1 + 1).sum := by
  induction fields with
  | nil => rfl
  | cons f fields ih =>
      have hf := h f (by simp)
      rw [printFields, printHex_of_lt hf.1 hf.2, List.length_append, List.length_cons,
        hexFixed_length, ih fun g hg => h g (by simp [hg]), List.map_cons, List.sum_cons]
      omega

theorem printFields_ne_zero (fields : List (ℕ × UInt32)) : ∀ c ∈ printFields fields, c ≠ 0 := by
  induction fields with
  | nil => simp [printFields]
  | cons f fields ih =>
      intro c hc
      rcases List.mem_append.mp hc with hc | hc
      · exact (isHexDigit_cases (printHex_digits _ _ c hc)).2.2.2.2.2.1
      · rcases List.mem_cons.mp hc with rfl | hc
        · decide
        · exact ih c hc

/-- Every number of a row is read back, whatever follows the row. -/
theorem scanFields_printFields {fields : List (ℕ × UInt32)} (h : Fit fields) (rest : List UInt8) :
    scanFields fields.length (printFields fields ++ rest) = (fields.map Prod.snd, some rest) := by
  induction fields with
  | nil => rfl
  | cons f fields ih =>
      obtain ⟨w, v⟩ := f
      have hw : 0 < w := (h (w, v) (by simp)).1
      have hscan := scanHex_printHex hw v.toNat_lt (separates_colon (printFields fields ++ rest))
      simp only [List.length_cons, printFields, List.append_assoc, List.cons_append, scanFields,
        hscan, scanChar_colon, ih fun g hg => h g (by simp [hg]), List.map_cons, UInt32.ofNat_toNat]

/-- The text that `sprintf` leaves in `msg`, with its NUL. -/
def printRecord (e : Endian) (fields : List (ℕ × UInt32)) (gid : Gid) : List UInt8 :=
  printFields fields ++ gidToWireGid e gid ++ [0]

/-- The array `gid` and the word `v32` of `wire_gid_to_gid`, as they were. -/
structure GidScratch where
  gid : Memory
  v32 : UInt32

/-- `sscanf` of `n` numbers and a word, and `wire_gid_to_gid`. -/
def scanRecord (e : Endian) (n : ℕ) (scratch : GidScratch) (msg : List UInt8) :
    Option (List UInt32 × Gid) :=
  if 0 ∈ msg then
    let row := scanFields n (cString msg)
    let stored := match row.2.bind scanWord with
      | none => []
      | some (word, _) => word ++ [0]
    if stored.length ≤ tmpGidSize then
      some (row.1, wireGidToGid e (store scratch.gid 0 stored) scratch.v32)
    else none
  else none

theorem printRecord_length {e : Endian} {fields : List (ℕ × UInt32)} {gid : Gid}
    (h : Fit fields) :
    (printRecord e fields gid).length = (fields.map fun f => f.1 + 1).sum + 33 := by
  rw [printRecord, List.length_append, List.length_append, printFields_length h,
    gidToWireGid_length, List.length_singleton]

/-- A record is read back whole between hosts of any byte order and whatever
memory held before. -/
theorem scanRecord_printRecord {fields : List (ℕ × UInt32)} (h : Fit fields) (e e' : Endian)
    (gid : Gid) (scratch : GidScratch) :
    scanRecord e' fields.length scratch (printRecord e fields gid) =
      some (fields.map Prod.snd, gid) := by
  have hdigits := gidToWireGid_digits e gid
  have hne : gidToWireGid e gid ≠ [] :=
    List.ne_nil_of_length_pos (by rw [gidToWireGid_length]; omega)
  have htext : cString (printRecord e fields gid) = printFields fields ++ gidToWireGid e gid := by
    refine cString_append_zeros (fun c hc => ?_) (by simp)
    rcases List.mem_append.mp hc with hc | hc
    · exact printFields_ne_zero fields c hc
    · exact (isHexDigit_cases (hdigits c hc)).2.2.2.2.2.1
  have hnul : (0 : UInt8) ∈ printRecord e fields gid := by simp [printRecord]
  simp only [scanRecord, if_pos hnul, htext, scanFields_printFields h, Option.bind_some,
    scanWord_digits hne hdigits, wireGidToGid_gidToWireGid]
  rw [if_pos]
  simp [gidToWireGid_length, tmpGidSize]

end CppPlayground.DestRecord
