import CppPlayground.HelloBounds

/-!
# Well-formed hello texts on hosts of either byte order

A hello text is well formed when three fields of plain hexadecimal digits fit
`lid`, `qpn` and `psn` and exactly 32 digits of a gid follow. The form is
stated on the text alone, with the destination it shows. Every sent text has
it, and `get_dest` decodes each text of the form on hosts of both byte orders:
`qpn`, `psn` and the gid as shown, while `lid` receives the first two of the
four bytes that `%x` stores.
-/
namespace CppPlayground.HelloText
open HostBytes ScanText

/-- A field of plain hexadecimal digits and the number it shows. -/
structure HexShows (f : List UInt8) (n : ℕ) : Prop where
  ne_nil : f ≠ []
  digits : ∀ c ∈ f, isHexDigit c = true
  value : hexNumber f = n

structure HelloForm (text : List UInt8) (d : Dest) : Prop where
  parts : ∃ f₁ f₂ f₃ word, text = f₁ ++ colon::(f₂ ++ colon::(f₃ ++ colon::word)) ∧
    HexShows f₁ d.lid.toNat ∧ HexShows f₂ d.qpn.toNat ∧ HexShows f₃ d.psn.toNat ∧
    word.length = 32 ∧ (∀ c ∈ word, isHexDigit c = true) ∧ hexBytes word = d.gid.raw

theorem toBytes_hexNumber {ds : List UInt8} {n : ℕ} (hlen : ds.length = 2*n)
    (hd : ∀ c ∈ ds, isHexDigit c = true) : toBytes .big n (hexNumber ds) = hexBytes ds := by
  induction n generalizing ds with
  | zero => simp [List.eq_nil_of_length_eq_zero hlen, hexBytes, toBytes, bytesLE]
  | succ n ih =>
      rcases ds with _ | ⟨a, _ | ⟨b, ds⟩⟩
      · simp at hlen
      · simp at hlen
        omega
      · simp only [List.length_cons] at hlen
        have hlen' : ds.length = 2*n := by omega
        have hds : ∀ c ∈ ds, isHexDigit c = true := fun c hc => hd c (by simp [hc])
        have hpow : (16 : ℕ) ^ ds.length = 256 ^ n := by
          rw [hlen', pow_mul]
          norm_num
        have hsplit : hexNumber (a::b::ds) = hexNumber [a, b]*256 ^ n + hexNumber ds := by
          rw [← hpow]
          exact hexNumber_append [a, b] ds
        rw [hsplit, toBytes_big_cons (hpow ▸ hexNumber_lt hds), ih hlen' hds, hexBytes]

/-- The bytes of a joined list of words of eight digits. -/
theorem hexBytes_flatMap {f : ℕ → List UInt8} (l : List ℕ) (hlen : ∀ i ∈ l, (f i).length = 8)
    (hd : ∀ i ∈ l, ∀ c ∈ f i, isHexDigit c = true) :
    hexBytes (l.flatMap f) = l.flatMap fun i => toBytes .big 4 (hexNumber (f i)) := by
  induction l with
  | nil => rfl
  | cons i l ih =>
      have hi := hlen i (by simp)
      rw [List.flatMap_cons, List.flatMap_cons, hexBytes_append (n := 4) (by omega),
        toBytes_hexNumber (by omega) (hd i (by simp)),
        ih (fun j hj => hlen j (by simp [hj])) fun j hj => hd j (by simp [hj])]

theorem hexBytes_gidToWireGid (e : Endian) (gid : Gid) : hexBytes (gidToWireGid e gid) = gid.raw := by
  rw [gidToWireGid_eq, hexBytes_flatMap _ (fun i _ => hexFixed_length 8 _)
    (fun i _ => hexFixed_digits 8 _), ← gidChunk_flatten gid]
  apply List.flatMap_congr
  intro i hi
  have hi4 := List.mem_range.mp hi
  have hback := toBytes_ofBytes .big (gidChunk gid i)
  rw [gidChunk_length gid hi4] at hback
  rw [hexNumber_hexFixed, Nat.mod_eq_of_lt (by simpa using gidChunkValue_lt gid hi4)]
  exact hback

/-- The decoder's words of 32 digits are the bytes the digits show, on every
host and whatever memory held before. -/
theorem wireGidToGid_digits (e : Endian) {word : List UInt8} {gid : Gid} (hlen : word.length = 32)
    (hd : ∀ c ∈ word, isHexDigit c = true) (hgid : hexBytes word = gid.raw) (m : Memory)
    (v32 : UInt32) : wireGidToGid e (store m 0 (word ++ [0])) v32 = gid := by
  have hwords := wireGidBytes_of_words (e := e) (l := List.range 4)
    (fun i hi v => wgidWord_digits hd m v (by have := List.mem_range.mp hi; omega)) v32
  have hchunk : ∀ i ∈ List.range 4, ((word.drop (8*i)).take 8).length = 8 := by
    intro i hi
    have := List.mem_range.mp hi
    simp only [List.length_take, List.length_drop]
    omega
  have hdigits : ∀ i ∈ List.range 4, ∀ c ∈ (word.drop (8*i)).take 8, isHexDigit c = true :=
    fun i _ c hc => hd c (List.mem_of_mem_drop (List.mem_of_mem_take hc))
  have hjoin := chunks_flatten word 8 4
  rw [List.take_of_length_le (by omega)] at hjoin
  apply Gid.ext
  change wireGidBytes e _ (List.range 4) v32 = gid.raw
  rw [hwords, ← hgid]
  conv_rhs => rw [← hjoin]
  rw [hexBytes_flatMap _ hchunk hdigits]
  apply List.flatMap_congr
  intro i hi
  have hlt := hexNumber_lt (hdigits i hi)
  rw [hchunk i hi] at hlt
  rw [toBytes_hostToBig, UInt32.toNat_ofNat_of_lt' hlt]

theorem hexShows_printHex (w n : ℕ) (hw : 0 < w) : HexShows (printHex w n) n where
  ne_nil := by
    have := le_printHex_length w n
    exact List.ne_nil_of_length_pos (by omega)
  digits := printHex_digits w n
  value := hexNumber_printHex w n

theorem helloForm_getHelloMsg (e : Endian) (dest : Dest) : HelloForm (getHelloMsg e dest) dest where
  parts := ⟨_, _, _, _, rfl, hexShows_printHex 4 _ (by omega), hexShows_printHex 6 _ (by omega),
    hexShows_printHex 6 _ (by omega), gidToWireGid_length e dest.gid,
    gidToWireGid_digits e dest.gid, hexBytes_gidToWireGid e dest.gid⟩

/-- The text that is sent does not depend on the host. -/
theorem getHelloMsg_host (e e' : Endian) (dest : Dest) : getHelloMsg e dest = getHelloMsg e' dest := by
  simp only [getHelloMsg, gidToWireGid_eq]

/-- The destination a host keeps for the one a text shows: on a big-endian
host `lid` gets the high half of the word stored through it. -/
def Dest.storedOn (d : Dest) : Endian → Dest
  | .little => d
  | .big => { d with lid := 0 }

theorem lidStored_lid (e : Endian) (d : Dest) :
    lidStored e (UInt32.ofNat d.lid.toNat) = (d.storedOn e).lid := by
  have hlt : d.lid.toNat < 65536 := d.lid.toNat_lt
  cases e with
  | little =>
      have hval : (UInt32.ofNat d.lid.toNat).toNat = d.lid.toNat :=
        UInt32.toNat_ofNat_of_lt' (by simp only [UInt32.size]; omega)
      rw [lidStored_little, hval, UInt16.ofNat_toNat, Dest.storedOn]
  | big =>
      have h₂ : d.lid.toNat / 256 / 256 = 0 := by omega
      simp [lidStored, toBytes, ofBytes, bytesLE, valueLE, h₂, Dest.storedOn]

theorem HelloForm.scanHello_eq {text : List UInt8} {d : Dest} (h : HelloForm text d) :
    ∃ word : List UInt8, word.length = 32 ∧ (∀ c ∈ word, isHexDigit c = true) ∧
      hexBytes word = d.gid.raw ∧
      scanHello text = ⟨some (UInt32.ofNat d.lid.toNat), some d.qpn, some d.psn, some word⟩ := by
  obtain ⟨f₁, f₂, f₃, word, rfl, h₁, h₂, h₃, hlen, hd, hgid⟩ := h.parts
  have hfield {f : List UInt8} {n : ℕ} (hf : HexShows f n) (hn : n < 2 ^ 32) (rest : List UInt8) :
      scanHex (f ++ colon::rest) = some (UInt32.ofNat n, colon::rest) := by
    rw [← hf.value] at hn ⊢
    exact scanHex_shown hf.ne_nil hf.digits hn (separates_colon rest)
  have hword := scanWord_digits (List.ne_nil_of_length_pos (by omega)) hd
  have hlid : d.lid.toNat < 2 ^ 32 := by
    have := d.lid.toNat_lt
    omega
  refine ⟨word, hlen, hd, hgid, ?_⟩
  simp only [scanHello, hfield h₁ hlid, hfield h₂ d.qpn.toNat_lt, hfield h₃ d.psn.toNat_lt,
    scanChar_colon, Option.bind_some, hword, UInt32.ofNat_toNat]

/-- What a host decodes from a text of the form. -/
theorem HelloForm.getDest_eq {msg : List UInt8} {d : Dest} (h : HelloForm (cString msg) d)
    (e : Endian) (scratch : Scratch) : getDest e scratch msg = some (d.storedOn e) := by
  obtain ⟨word, hlen, hd, hgid, hscan⟩ := h.scanHello_eq
  have hfits : (word ++ [0]).length ≤ tmpGidSize := by
    simp only [List.length_append, hlen, List.length_singleton, tmpGidSize]
    omega
  simp only [getDest, hscan, HelloScan.tmpGidStored, if_pos hfits, blockDest_stored,
    wireGidToGid_digits e hlen hd hgid, lidStored_lid]
  cases e <;> rfl

/-- The text is the same on both kinds of host, and its decodings agree
exactly when the text shows the lid zero. -/
theorem hello_host_independent_iff (dest : Dest) {msg : List UInt8} {d : Dest}
    (h : HelloForm (cString msg) d) (scratch scratch' : Scratch) :
    getHelloMsg .little dest = getHelloMsg .big dest ∧
      ((∃ x, getDest .little scratch msg = some x ∧ getDest .big scratch' msg = some x) ↔
        d.lid = 0) := by
  refine ⟨getHelloMsg_host .little .big dest, ?_⟩
  rw [h.getDest_eq .little scratch, h.getDest_eq .big scratch']
  constructor
  · rintro ⟨x, hx, hy⟩
    have hsame : d = { d with lid := 0 } := Option.some.inj (hx.trans hy.symm)
    rw [hsame]
  · intro hlid
    refine ⟨d, rfl, ?_⟩
    simp only [Dest.storedOn, ← hlid]

theorem hello_host_independent_zero_lid :
    ∃ x, getDest .little ⟨fun _ => 0, fun _ => 0, 0⟩
        (getHelloMsg .little ⟨0, 0x12, 7, ⟨List.replicate 16 0x0a, rfl⟩⟩ ++ [0]) = some x ∧
      getDest .big ⟨fun _ => 1, fun _ => 1, 1⟩
        (getHelloMsg .little ⟨0, 0x12, 7, ⟨List.replicate 16 0x0a, rfl⟩⟩ ++ [0]) = some x :=
  (hello_host_independent_iff ⟨0, 0x12, 7, ⟨List.replicate 16 0x0a, rfl⟩⟩
    (cString_msg .little ⟨0, 0x12, 7, ⟨List.replicate 16 0x0a, rfl⟩⟩ ▸ helloForm_getHelloMsg _ _)
    _ _).2.mpr rfl

/-- The text of lid 1 is decoded as lid 1 on one host and as lid 0 on the other. -/
theorem hello_lid_differs :
    HelloForm (cString (getHelloMsg .little ⟨1, 2, 3, ⟨List.replicate 16 0, rfl⟩⟩ ++ [0]))
        ⟨1, 2, 3, ⟨List.replicate 16 0, rfl⟩⟩ ∧
      getDest .little ⟨fun _ => 0, fun _ => 0, 0⟩
        (getHelloMsg .little ⟨1, 2, 3, ⟨List.replicate 16 0, rfl⟩⟩ ++ [0]) =
        some ⟨1, 2, 3, ⟨List.replicate 16 0, rfl⟩⟩ ∧
      getDest .big ⟨fun _ => 0, fun _ => 0, 0⟩
        (getHelloMsg .little ⟨1, 2, 3, ⟨List.replicate 16 0, rfl⟩⟩ ++ [0]) =
        some ⟨0, 2, 3, ⟨List.replicate 16 0, rfl⟩⟩ := by
  have hform := helloForm_getHelloMsg .little ⟨1, 2, 3, ⟨List.replicate 16 0, rfl⟩⟩
  rw [← cString_msg] at hform
  refine ⟨hform, ?_, ?_⟩ <;> decide +kernel

end CppPlayground.HelloText
