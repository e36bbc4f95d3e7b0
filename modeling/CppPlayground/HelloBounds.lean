import CppPlayground.HelloRoundTrip

/-!
# Which datagrams the decoder handles within `tmp_gid`

`sscanf` stores an unbounded word into the 33 characters of `tmp_gid`, and
`wire_gid_to_gid` then reads 32 characters of it whether or not anything was
stored. The first goes wrong on a long last field, the second on a short one
and on every datagram whose earlier fields stop the scan. The shape of text on
which neither happens is given without reference to the scanner.
-/
namespace CppPlayground.HelloText
open HostBytes ScanText

/-- Three hexadecimal fields, each closed by a colon, then a word without
white space that ends at white space or at the end of the text. -/
structure HelloShape (text word : List UInt8) : Prop where
  parts : ∃ f₁ f₂ f₃ space rest,
    text = f₁ ++ colon::(f₂ ++ colon::(f₃ ++ colon::(space ++ word ++ rest))) ∧
    HexField f₁ ∧ HexField f₂ ∧ HexField f₃ ∧
    (∀ c ∈ space, isSpace c = true) ∧ word ≠ [] ∧ (∀ c ∈ word, isSpace c = false) ∧
    ∀ c ∈ rest.head?, isSpace c = true

theorem bind_scanChar {A : Type} {rest : List UInt8} {conv : List UInt8 → Option A} {a : A} :
    (scanChar colon rest).bind conv = some a ↔ ∃ t, rest = colon::t ∧ conv t = some a := by
  simp only [Option.bind_eq_some_iff, scanChar_eq_some]

/-- The string conversion is reached, and stores the word, exactly on texts of
the shape. -/
theorem scanHello_gid {text word : List UInt8} :
    (scanHello text).gid = some word ↔ HelloShape text word := by
  constructor
  · intro h
    unfold scanHello at h
    split at h
    · simp at h
    · rename_i lid r₁ h₁
      split at h
      · simp at h
      · rename_i qpn r₂ h₂
        split at h
        · simp at h
        · rename_i psn r₃ h₃
          split at h
          · simp at h
          · rename_i gid r₄ h₄
            simp only [Option.some.injEq] at h
            subst h
            obtain ⟨t₁, rfl, hc₁⟩ := bind_scanChar.mp h₂
            obtain ⟨t₂, rfl, hc₂⟩ := bind_scanChar.mp h₃
            obtain ⟨t₃, rfl, hc₃⟩ := bind_scanChar.mp h₄
            obtain ⟨f₁, hf₁, rfl⟩ := HexField.of_scan h₁
            obtain ⟨f₂, hf₂, rfl⟩ := HexField.of_scan hc₁
            obtain ⟨f₃, hf₃, rfl⟩ := HexField.of_scan hc₂
            obtain ⟨space, rfl, hs, hne, hw, hr⟩ := scanWord_eq_some.mp hc₃
            exact ⟨f₁, f₂, f₃, space, r₄, rfl, hf₁, hf₂, hf₃, hs, hne, hw, hr⟩
  · rintro ⟨f₁, f₂, f₃, space, rest, rfl, hf₁, hf₂, hf₃, hs, hne, hw, hr⟩
    obtain ⟨v₁, h₁⟩ := hf₁.scan (separates_colon (f₂ ++ colon::(f₃ ++ colon::(space ++ word ++ rest))))
    obtain ⟨v₂, h₂⟩ := hf₂.scan (separates_colon (f₃ ++ colon::(space ++ word ++ rest)))
    obtain ⟨v₃, h₃⟩ := hf₃.scan (separates_colon (space ++ word ++ rest))
    have h₄ : scanWord (space ++ word ++ rest) = some (word, rest) :=
      scanWord_eq_some.mpr ⟨space, rfl, hs, hne, hw, hr⟩
    simp only [scanHello, h₁, h₂, h₃, h₄, scanChar_colon, Option.bind_some]

theorem cString_recvbuf (payload : List UInt8) : cString (recvbuf payload) = cString payload := by
  unfold cString recvbuf
  rw [List.takeWhile_append]
  split_ifs with h
  · have hzero : (List.replicate (65536 - payload.length) (0 : UInt8)).takeWhile (· != 0) = [] := by
      cases 65536 - payload.length with
      | zero => rfl
      | succ n => rfl
    have hall : payload.takeWhile (· != 0) = payload :=
      (List.takeWhile_prefix _).eq_of_length h
    rw [hzero, hall, List.append_nil]
  · rfl

/-- What a decoding of the datagram stores into `tmp_gid`, first character first. -/
def tmpGidWritten (payload : List UInt8) : List UInt8 :=
  (scanHello (cString (recvbuf payload))).tmpGidStored

/-- Nothing is stored past the end of `tmp_gid`, and nothing is read from it
that was not stored. -/
def DecoderInBounds (payload : List UInt8) : Prop :=
  (tmpGidWritten payload).length ≤ tmpGidSize ∧
    ∀ i ∈ wgidReads, i < (tmpGidWritten payload).length

theorem mem_wgidReads {i : ℕ} : i ∈ wgidReads ↔ i < 32 := by
  have h : wgidReads = List.range 32 := by decide
  rw [h, List.mem_range]

/-- The bounds hold exactly when the last field has 31 or 32 characters: with
31 the last character read is the stored NUL. -/
theorem decoder_in_bounds_iff (payload : List UInt8) :
    DecoderInBounds payload ↔
      ∃ word, HelloShape (cString payload) word ∧ (word.length = 31 ∨ word.length = 32) := by
  simp only [DecoderInBounds, tmpGidWritten, cString_recvbuf, mem_wgidReads, tmpGidSize]
  constructor
  · rintro ⟨hle, hread⟩
    have hlast := hread 31 (by omega)
    cases hgid : (scanHello (cString payload)).gid with
    | none => simp [HelloScan.tmpGidStored, hgid] at hlast
    | some word =>
        simp only [HelloScan.tmpGidStored, hgid, List.length_append, List.length_singleton] at hle hlast
        exact ⟨word, scanHello_gid.mp hgid, by omega⟩
  · rintro ⟨word, hshape, hlen⟩
    have hgid := scanHello_gid.mpr hshape
    simp only [HelloScan.tmpGidStored, hgid, List.length_append, List.length_singleton]
    exact ⟨by omega, fun i hi => by omega⟩

theorem wireGidBytes_congr {e : Endian} {m m' : Memory} {is : List ℕ}
    (h : ∀ i ∈ is, load m (8*i) 8 = load m' (8*i) 8) (v32 : UInt32) :
    wireGidBytes e m is v32 = wireGidBytes e m' is v32 := by
  induction is generalizing v32 with
  | nil => rfl
  | cons i is ih =>
      have hi : wgidWord m v32 i = wgidWord m' v32 i := by simp only [wgidWord, h i (by simp)]
      simp only [wireGidBytes, hi]
      rw [ih fun j hj => h j (by simp [hj])]

/-- Only the characters listed as read matter to the gid. -/
theorem wireGidToGid_congr {e : Endian} {m m' : Memory} (h : ∀ i ∈ wgidReads, m i = m' i)
    (v32 : UInt32) : wireGidToGid e m v32 = wireGidToGid e m' v32 := by
  apply Gid.ext
  apply wireGidBytes_congr
  intro i hi
  apply List.map_congr_left
  intro j hj
  apply h
  rw [mem_wgidReads]
  simp only [List.mem_range] at hi hj
  omega

/-- Within the bounds, what `tmp_gid` held before has no part in the result. -/
theorem getDest_tmpGid_irrelevant {payload : List UInt8} (h : DecoderInBounds payload)
    (e : Endian) (scratch : Scratch) (m : Memory) :
    getDest e { scratch with tmpGid := m } (recvbuf payload) =
      getDest e scratch (recvbuf payload) := by
  have hgid : wireGidToGid e (store m 0 (tmpGidWritten payload)) scratch.v32 =
      wireGidToGid e (store scratch.tmpGid 0 (tmpGidWritten payload)) scratch.v32 := by
    apply wireGidToGid_congr
    intro i hi
    have hlt := h.2 i hi
    simp only [store, Nat.zero_le, if_true, Nat.sub_zero, List.getElem?_eq_getElem hlt,
      Option.getD_some]
  change (if (tmpGidWritten payload).length ≤ tmpGidSize then _ else _) =
    if (tmpGidWritten payload).length ≤ tmpGidSize then _ else _
  rw [if_pos h.1, if_pos h.1]
  exact congrArg some (congrArg _ hgid)

def textBytes (s : String) : List UInt8 := s.toList.map Char.toUInt8

/-- A last field of 33 digits stores 34 characters; a text that is no number
stores none, and 32 are read all the same. -/
theorem decoder_leaves_bounds :
    (tmpGidWritten (textBytes "0001:000002:000003:000000000000000000000000000000000")).length = 34 ∧
      tmpGidWritten (textBytes "hello") = [] ∧ 31 ∈ wgidReads ∧
      ¬ DecoderInBounds (textBytes "0001:000002:000003:000000000000000000000000000000000") ∧
      ¬ DecoderInBounds (textBytes "hello") := by
  simp only [DecoderInBounds, tmpGidWritten, cString_recvbuf]
  decide +kernel

end CppPlayground.HelloText
