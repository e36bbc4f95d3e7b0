import CppPlayground.HelloForm

/-!
# The text of a gid

`gid_to_wire_gid` prints four words of eight digits, each with a NUL that the
next one overwrites; `wire_gid_to_gid` scans the digits back word by word. The
text is canonical: the two lowercase digits of each byte, in order, on hosts of
either byte order. So every text of 32 such digits is the text of exactly one
gid, and the two functions carry it there and back between any two hosts.
-/
namespace CppPlayground.HelloText
open HostBytes ScanText

/-- The calls `sprintf(&wgid[i * 8], "%08x", ..)` for the given words, from the
`i`-th on. -/
def sprintfWords (e : Endian) (i : ℕ) : List ℕ → Memory → Memory
  | [], wgid => wgid
  | w::ws, wgid =>
      sprintfWords e (i + 1) ws (store wgid (8*i) (printHex 8 (hostToBig e 4 w) ++ [0]))

/-- `gid_to_wire_gid` as it changes the memory at `wgid`. -/
def storeWireGid (e : Endian) (gid : Gid) (wgid : Memory) : Memory :=
  sprintfWords e 0 (gidWords e gid) wgid

theorem printHex_word_length (e : Endian) (w : ℕ) :
    (printHex 8 (hostToBig e 4 w)).length = 8 := by
  rw [printHex_of_lt (by omega) (hostToBig_lt e 4 w), hexFixed_length]

/-- Each call stores over the NUL of the one before it. -/
theorem sprintfWords_store (e : Endian) (ws : List ℕ) (wgid : Memory) {i : ℕ}
    {text : List UInt8} (htext : text.length = 8*i) :
    sprintfWords e i ws (store wgid 0 (text ++ [0])) =
      store wgid 0 (text ++ (ws.flatMap fun w => printHex 8 (hostToBig e 4 w)) ++ [0]) := by
  induction ws generalizing i text with
  | nil => simp only [sprintfWords, List.flatMap_nil, List.append_nil]
  | cons w ws ih =>
      have hle : ([0] : List UInt8).length ≤ (printHex 8 (hostToBig e 4 w) ++ [0]).length := by simp
      have hover := store_store_append wgid 0 text hle
      rw [Nat.zero_add, htext, ← List.append_assoc] at hover
      have hnext : (text ++ printHex 8 (hostToBig e 4 w)).length = 8*(i + 1) := by
        rw [List.length_append, htext, printHex_word_length, Nat.mul_succ]
      rw [sprintfWords, hover, ih hnext, List.flatMap_cons, List.append_assoc text]

/-- The four calls store the text of the gid and one NUL. -/
theorem storeWireGid_eq (e : Endian) (gid : Gid) (wgid : Memory) :
    storeWireGid e gid wgid = store wgid 0 (gidToWireGid e gid ++ [0]) := by
  have hwords : ∃ w ws, gidWords e gid = w::ws := ⟨_, _, rfl⟩
  obtain ⟨w, ws, hwords⟩ := hwords
  rw [storeWireGid, gidToWireGid, hwords, sprintfWords,
    sprintfWords_store e ws wgid (printHex_word_length e w), List.flatMap_cons]

/-- Byte by byte, high digit first. -/
def byteDigits (b : UInt8) : List UInt8 := [hexDigit (b.toNat / 16), hexDigit (b.toNat % 16)]

def isLowerHexDigit (c : UInt8) : Bool :=
  ('0'.toUInt8 ≤ c && c ≤ '9'.toUInt8) || ('a'.toUInt8 ≤ c && c ≤ 'f'.toUInt8)

theorem isHexDigit_of_lower {c : UInt8} (h : isLowerHexDigit c = true) : isHexDigit c = true := by
  unfold isHexDigit
  rw [Bool.or_eq_true]
  exact .inl h

/-- A lowercase digit is the one printed for its value. -/
theorem hexDigit_digitValue {c : UInt8} (h : isLowerHexDigit c = true) :
    hexDigit (digitValue c) = c := by
  have all : ∀ n : Fin 256, isLowerHexDigit (UInt8.ofFin n) = true →
      hexDigit (digitValue (UInt8.ofFin n)) = UInt8.ofFin n := by
    decide +kernel
  simpa only [UInt8.ofFin_toFin] using all c.toFin (by simpa only [UInt8.ofFin_toFin] using h)

theorem hexFixed_snoc_byte (w v : ℕ) (b : UInt8) :
    hexFixed (w + 2) (v*256 + b.toNat) = hexFixed w v ++ byteDigits b := by
  have hb : b.toNat < 256 := b.toNat_lt
  have hlow : (v*256 + b.toNat) % 16 = b.toNat % 16 := by omega
  have hhigh : (v*256 + b.toNat) / 16 % 16 = b.toNat / 16 := by omega
  have hrest : (v*256 + b.toNat) / 16 / 16 = v := by omega
  simp only [hexFixed, hlow, hhigh, hrest, byteDigits, List.append_assoc, List.cons_append,
    List.nil_append]

theorem ofBytes_big_snoc (bs : List UInt8) (b : UInt8) :
    ofBytes .big (bs ++ [b]) = ofBytes .big bs*256 + b.toNat := by
  simp only [ofBytes, List.reverse_append, List.reverse_singleton, List.singleton_append, valueLE]
  omega

/-- A word printed with all its digits shows its bytes, most significant first. -/
theorem hexFixed_ofBytes (bs : List UInt8) :
    hexFixed (2*bs.length) (ofBytes .big bs) = bs.flatMap byteDigits := by
  induction bs using List.reverseRecOn with
  | nil => rfl
  | append_singleton bs b ih =>
      rw [ofBytes_big_snoc, List.length_append, List.length_singleton, Nat.mul_succ,
        hexFixed_snoc_byte, ih, List.flatMap_append, List.flatMap_singleton]

/-- The text of a gid is the digits of its bytes, on every host. -/
theorem gidToWireGid_bytes (e : Endian) (gid : Gid) :
    gidToWireGid e gid = gid.raw.flatMap byteDigits := by
  rw [gidToWireGid_eq, ← gidChunk_flatten gid, List.flatMap_assoc]
  apply List.flatMap_congr
  intro i hi
  have hword := hexFixed_ofBytes (gidChunk gid i)
  rwa [gidChunk_length gid (List.mem_range.mp hi)] at hword

structure WireText where
  digits : List UInt8
  length_eq : digits.length = 32
  lower : ∀ c ∈ digits, isLowerHexDigit c = true

theorem hexBytes_length {ds : List UInt8} {n : ℕ} (hlen : ds.length = 2*n) :
    (hexBytes ds).length = n := by
  induction n generalizing ds with
  | zero => simp [List.eq_nil_of_length_eq_zero hlen, hexBytes]
  | succ n ih =>
      rcases ds with _ | ⟨a, _ | ⟨b, ds⟩⟩
      · simp at hlen
      · simp at hlen
        omega
      · simp only [List.length_cons] at hlen
        rw [hexBytes, List.length_cons, ih (by omega)]

theorem byteDigits_hexNumber {a b : UInt8} (ha : isLowerHexDigit a = true)
    (hb : isLowerHexDigit b = true) : byteDigits (UInt8.ofNat (hexNumber [a, b])) = [a, b] := by
  have hva := digitValue_lt (isHexDigit_of_lower ha)
  have hvb := digitValue_lt (isHexDigit_of_lower hb)
  have hvalue : (UInt8.ofNat (hexNumber [a, b])).toNat = 16*digitValue a + digitValue b := by
    simp only [hexNumber, List.foldl_cons, List.foldl_nil, UInt8.toNat_ofNat']
    omega
  have hhigh : (16*digitValue a + digitValue b) / 16 = digitValue a := by omega
  have hlow : (16*digitValue a + digitValue b) % 16 = digitValue b := by omega
  rw [byteDigits, hvalue, hhigh, hlow, hexDigit_digitValue ha, hexDigit_digitValue hb]

/-- The digits of the bytes that lowercase digits show are these digits. -/
theorem flatMap_hexBytes {ds : List UInt8} {n : ℕ} (hlen : ds.length = 2*n)
    (hlow : ∀ c ∈ ds, isLowerHexDigit c = true) : (hexBytes ds).flatMap byteDigits = ds := by
  induction n generalizing ds with
  | zero => simp [List.eq_nil_of_length_eq_zero hlen, hexBytes]
  | succ n ih =>
      rcases ds with _ | ⟨a, _ | ⟨b, ds⟩⟩
      · simp at hlen
      · simp at hlen
        omega
      · simp only [List.length_cons] at hlen
        rw [hexBytes, List.flatMap_cons, byteDigits_hexNumber (hlow a (by simp)) (hlow b (by simp)),
          ih (by omega) fun c hc => hlow c (by simp [hc])]
        rfl

/-- The gid that a text shows. -/
def WireText.gid (text : WireText) : Gid := ⟨hexBytes text.digits, hexBytes_length text.length_eq⟩

theorem wireGidToGid_text (e : Endian) (text : WireText) (m : Memory) (v32 : UInt32) :
    wireGidToGid e (store m 0 (text.digits ++ [0])) v32 = text.gid :=
  wireGidToGid_digits e text.length_eq (fun c hc => isHexDigit_of_lower (text.lower c hc)) rfl m v32

/-- What is written for a gid is the digits of its bytes and a NUL, on every
host; and every text of 32 lowercase digits comes back from the gid it is read
as, whichever hosts read and write it and whatever memory held before. -/
theorem gid_text_canonical (e : Endian) (gid : Gid) (wgid : Memory) :
    storeWireGid e gid wgid = store wgid 0 (gid.raw.flatMap byteDigits ++ [0]) ∧
      ∀ (text : WireText) (reader writer : Endian) (m : Memory) (v32 : UInt32),
        storeWireGid writer (wireGidToGid reader (store m 0 (text.digits ++ [0])) v32) wgid =
          store wgid 0 (text.digits ++ [0]) := by
  constructor
  · rw [storeWireGid_eq, gidToWireGid_bytes]
  · intro text reader writer m v32
    rw [wireGidToGid_text, storeWireGid_eq, gidToWireGid_bytes, WireText.gid,
      flatMap_hexBytes (n := 16) text.length_eq text.lower]

end CppPlayground.HelloText
