import CppPlayground.HelloText

/-!
# What a decoder makes of a hello

The text written for a destination, scanned back. The gid digits are the
bytes of the gid in order on every host, and the decoder's four words put them
back in order on every host. The four-byte store through the two-byte `lid`
ends where `qpn` begins, so on a little-endian host all fields come back; the
round trip asks for 24-bit `qpn` and `psn` only to give the text its exact
size.
-/
namespace CppPlayground.HelloText
open HostBytes ScanText

/-- The bytes of one of the four words of a gid. -/
def gidChunk (gid : Gid) (i : ℕ) : List UInt8 := (gid.raw.drop (4*i)).take 4

/-- The word whose eight digits the text shows: big-endian on every host. -/
def gidChunkValue (gid : Gid) (i : ℕ) : ℕ := ofBytes .big (gidChunk gid i)

theorem gidChunk_length (gid : Gid) {i : ℕ} (hi : i < 4) : (gidChunk gid i).length = 4 := by
  simp only [gidChunk, List.length_take, List.length_drop, gid.size]
  omega

theorem gidChunk_flatten (gid : Gid) : (List.range 4).flatMap (gidChunk gid) = gid.raw := by
  have h := chunks_flatten gid.raw 4 4
  rwa [List.take_of_length_le (by simp [gid.size])] at h

theorem gidChunkValue_lt (gid : Gid) {i : ℕ} (hi : i < 4) : gidChunkValue gid i < 2 ^ 32 := by
  have h := ofBytes_lt .big (gidChunk gid i)
  rwa [gidChunk_length gid hi] at h

/-- Two hex digits a byte, in order, whatever the host. -/
theorem gidToWireGid_eq (e : Endian) (gid : Gid) :
    gidToWireGid e gid = (List.range 4).flatMap fun i => hexFixed 8 (gidChunkValue gid i) := by
  simp only [gidToWireGid, gidWords, List.flatMap_map]
  apply List.flatMap_congr
  intro i hi
  have hi4 := List.mem_range.mp hi
  have hswap := hostToBig_ofBytes e (gidChunk gid i)
  rw [gidChunk_length gid hi4] at hswap
  change printHex 8 (hostToBig e 4 (ofBytes e (gidChunk gid i))) = _
  rw [hswap]
  exact printHex_of_lt (by omega) (gidChunkValue_lt gid hi4)

theorem gidToWireGid_length (e : Endian) (gid : Gid) : (gidToWireGid e gid).length = 32 := by
  rw [gidToWireGid_eq]
  simp [List.range_succ]

theorem gidToWireGid_digits (e : Endian) (gid : Gid) :
    ∀ c ∈ gidToWireGid e gid, isHexDigit c = true := by
  rw [gidToWireGid_eq]
  intro c hc
  obtain ⟨i, _, hi⟩ := List.mem_flatMap.mp hc
  exact hexFixed_digits 8 _ c hi

theorem separates_colon (rest : List UInt8) : Separates (colon::rest) :=
  ⟨fun c hc => by cases hc; rfl, fun c hc => by cases hc; decide⟩

theorem scanChar_colon (rest : List UInt8) : scanChar colon (colon::rest) = some rest :=
  scanChar_eq_some.mpr rfl

theorem scanWord_digits {word : List UInt8} (hne : word ≠ [])
    (hw : ∀ c ∈ word, isHexDigit c = true) : scanWord word = some (word, []) :=
  scanWord_eq_some.mpr ⟨[], by simp, by simp, hne, fun c hc => (isHexDigit_cases (hw c hc)).1, by simp⟩

/-- All four conversions succeed on three printed numbers and a hexadecimal word. -/
theorem scanHello_fields (lid qpn psn : ℕ) (hl : lid < 2 ^ 32) (hq : qpn < 2 ^ 32)
    (hp : psn < 2 ^ 32) {word : List UInt8} (hne : word ≠ [])
    (hw : ∀ c ∈ word, isHexDigit c = true) :
    scanHello (printHex 4 lid ++ colon::(printHex 6 qpn ++ colon::(printHex 6 psn ++ colon::word))) =
      { lid := some (UInt32.ofNat lid), qpn := some (UInt32.ofNat qpn),
        psn := some (UInt32.ofNat psn), gid := some word } := by
  simp only [scanHello, scanHex_printHex (by omega : 0 < 4) hl (separates_colon _),
    scanHex_printHex (by omega : 0 < 6) hq (separates_colon _),
    scanHex_printHex (by omega : 0 < 6) hp (separates_colon _),
    scanChar_colon, Option.bind_some, scanWord_digits hne hw]

/-- The three numeric fields with their separators. -/
def helloFields (dest : Dest) : List UInt8 :=
  printHex 4 dest.lid.toNat ++ colon::(printHex 6 dest.qpn.toNat ++
    colon::(printHex 6 dest.psn.toNat ++ [colon]))

theorem getHelloMsg_eq (e : Endian) (dest : Dest) :
    getHelloMsg e dest = helloFields dest ++ gidToWireGid e dest.gid := by
  simp [getHelloMsg, helloFields]

theorem helloFields_length_ge (dest : Dest) : 19 ≤ (helloFields dest).length := by
  have h₁ := le_printHex_length 4 dest.lid.toNat
  have h₂ := le_printHex_length 6 dest.qpn.toNat
  have h₃ := le_printHex_length 6 dest.psn.toNat
  simp only [helloFields, List.length_append, List.length_cons, List.length_nil]
  omega

theorem printHex_length_le {w k n : ℕ} (hk : 0 < k) (hw : w ≤ k) (hn : n < 16 ^ k) :
    (printHex w n).length ≤ k := by
  have hlog : Nat.log 16 n < k := Nat.log_lt_of_lt_pow' (by omega) hn
  simp only [printHex, hexFixed_length]
  omega

theorem helloFields_length_le (dest : Dest) : (helloFields dest).length ≤ 23 := by
  have h₁ := printHex_length_le (w := 4) (k := 4) (by omega) (by omega) dest.lid.toNat_lt
  have h₂ := printHex_length_le (w := 6) (k := 8) (by omega) (by omega) dest.qpn.toNat_lt
  have h₃ := printHex_length_le (w := 6) (k := 8) (by omega) (by omega) dest.psn.toNat_lt
  simp only [helloFields, List.length_append, List.length_cons, List.length_nil]
  omega

theorem helloFields_length {dest : Dest} (hq : dest.qpn.toNat < 2 ^ 24)
    (hp : dest.psn.toNat < 2 ^ 24) : (helloFields dest).length = 19 := by
  have hl : dest.lid.toNat < 16 ^ 4 := dest.lid.toNat_lt
  simp only [helloFields, printHex_of_lt (by omega : 0 < 4) hl, printHex_of_lt (by omega : 0 < 6) hq,
    printHex_of_lt (by omega : 0 < 6) hp, List.length_append, List.length_cons, hexFixed_length,
    List.length_nil]

theorem getHelloMsg_length {e : Endian} {dest : Dest} (hq : dest.qpn.toNat < 2 ^ 24)
    (hp : dest.psn.toNat < 2 ^ 24) : (getHelloMsg e dest).length = helloTemplate.length := by
  rw [getHelloMsg_eq, List.length_append, helloFields_length hq hp, gidToWireGid_length]
  decide

theorem getHelloMsg_ne_zero (e : Endian) (dest : Dest) : ∀ c ∈ getHelloMsg e dest, c ≠ 0 := by
  intro c hc
  simp only [getHelloMsg, List.mem_append, List.mem_cons] at hc
  have digit : isHexDigit c = true → c ≠ 0 := fun h => (isHexDigit_cases h).2.2.2.2.2.1
  rcases hc with hc | rfl | hc | rfl | hc | rfl | hc
  · exact digit (printHex_digits _ _ c hc)
  · decide
  · exact digit (printHex_digits _ _ c hc)
  · decide
  · exact digit (printHex_digits _ _ c hc)
  · decide
  · exact digit (gidToWireGid_digits e dest.gid c hc)

/-- Zero bytes after a text end it. -/
theorem cString_append_zeros {cs zs : List UInt8} (hc : ∀ c ∈ cs, c ≠ 0) (hz : ∀ c ∈ zs, c = 0) :
    cString (cs ++ zs) = cs :=
  (span_of_ends (p := (· != 0)) (fun c h => by simpa using hc c h)
    (fun c h => by simpa using hz c (List.mem_of_mem_head? h))).1

theorem helloPayload_ne_nil (e : Endian) (dest : Dest) : helloPayload e dest ≠ [] := by
  intro h
  have hlen := congrArg List.length h
  have hsize : msgSize = 52 := by decide
  simp only [helloPayload, List.length_take, List.length_append, List.length_singleton,
    List.length_nil] at hlen
  omega

/-- What is sent is the text up to `msg_size` bytes, then at most a NUL. -/
theorem helloPayload_eq (e : Endian) (dest : Dest) :
    ∃ zs : List UInt8, (∀ c ∈ zs, c = 0) ∧
      helloPayload e dest = (getHelloMsg e dest).take msgSize ++ zs := by
  refine ⟨([0] : List UInt8).take (msgSize - (getHelloMsg e dest).length), ?_, ?_⟩
  · intro c hc
    simpa using List.mem_of_mem_take hc
  · rw [helloPayload, List.take_append]

/-- Plain digits that fit 32 bits are stored as the number they show. -/
theorem scanHex_shown {ds rest : List UInt8} (hne : ds ≠ [])
    (hd : ∀ c ∈ ds, isHexDigit c = true) (hlt : hexNumber ds < 2 ^ 32) (hr : Separates rest) :
    scanHex (ds ++ rest) = some (UInt32.ofNat (hexNumber ds), rest) := by
  have hsmall : ¬ 2 ^ 64 ≤ hexNumber ds := by omega
  rw [scanHex_digits hne hd hr]
  simp only [storedValue, if_neg hsmall, Bool.false_eq_true, if_false]

/-- Eight digits of the word give the number they show. -/
theorem wgidWord_digits {word : List UInt8} (hd : ∀ c ∈ word, isHexDigit c = true) (m : Memory)
    (v32 : UInt32) {i : ℕ} (hi : 8*i + 8 ≤ word.length) :
    wgidWord (store m 0 (word ++ [0])) v32 i =
      UInt32.ofNat (hexNumber ((word.drop (8*i)).take 8)) := by
  have hload : load (store m 0 (word ++ [0])) (8*i) 8 = (word.drop (8*i)).take 8 := by
    have h := load_store_inside m 0 (show 8*i + 8 ≤ (word ++ [0]).length by simp; omega)
    rw [Nat.zero_add] at h
    rw [h, List.drop_append_of_le_length (by omega), List.take_append_of_le_length]
    simp only [List.length_drop]
    omega
  have hlen : ((word.drop (8*i)).take 8).length = 8 := by
    simp only [List.length_take, List.length_drop]
    omega
  have hds : ∀ c ∈ (word.drop (8*i)).take 8, isHexDigit c = true := fun c hc =>
    hd c (List.mem_of_mem_drop (List.mem_of_mem_take hc))
  have hne : (word.drop (8*i)).take 8 ≠ [] := List.ne_nil_of_length_pos (by omega)
  have hnul : cString ((word.drop (8*i)).take 8) = (word.drop (8*i)).take 8 := by
    have hz : ∀ c ∈ ([] : List UInt8), c = 0 := by simp
    simpa using cString_append_zeros (fun c hc => (isHexDigit_cases (hds c hc)).2.2.2.2.2.1) hz
  have hlt := hexNumber_lt hds
  rw [hlen] at hlt
  have hends : Separates [] := ⟨by simp [Ends], by simp⟩
  have hscan := scanHex_shown hne hds (by omega) hends
  rw [List.append_nil] at hscan
  simp only [wgidWord, hload, hnul, hscan]

/-- Eight digits of the text give the word they show. -/
theorem wgidWord_text (e : Endian) (gid : Gid) (m : Memory) (v32 : UInt32) {i : ℕ} (hi : i < 4) :
    wgidWord (store m 0 (gidToWireGid e gid ++ [0])) v32 i = UInt32.ofNat (gidChunkValue gid i) := by
  have hchunk : ((gidToWireGid e gid).drop (8*i)).take 8 = hexFixed 8 (gidChunkValue gid i) := by
    have h := chunk_flatMap (fun i _ => hexFixed_length 8 (gidChunkValue gid i)) hi []
    rwa [List.append_nil, ← gidToWireGid_eq e] at h
  have hlt := gidChunkValue_lt gid hi
  rw [wgidWord_digits (gidToWireGid_digits e gid) m v32 (by rw [gidToWireGid_length]; omega),
    hchunk, hexNumber_hexFixed, Nat.mod_eq_of_lt (by simpa using hlt)]

theorem wireGidBytes_of_words {e : Endian} {wgid : Memory} {l : List ℕ} {f : ℕ → UInt32}
    (h : ∀ i ∈ l, ∀ v32, wgidWord wgid v32 i = f i) (v32 : UInt32) :
    wireGidBytes e wgid l v32 = l.flatMap fun i => toBytes e 4 (hostToBig e 4 (f i).toNat) := by
  induction l generalizing v32 with
  | nil => rfl
  | cons i l ih =>
      simp only [wireGidBytes, h i (by simp) v32, List.flatMap_cons]
      rw [ih fun j hj => h j (by simp [hj])]

/-- The gid comes back from its digits, between hosts of any byte order and
whatever memory held before. -/
theorem wireGidToGid_gidToWireGid (e e' : Endian) (gid : Gid) (m : Memory) (v32 : UInt32) :
    wireGidToGid e' (store m 0 (gidToWireGid e gid ++ [0])) v32 = gid := by
  apply Gid.ext
  have hwords := wireGidBytes_of_words (e := e') (l := List.range 4)
    (fun i hi v => wgidWord_text e gid m v (List.mem_range.mp hi)) v32
  change wireGidBytes e' _ (List.range 4) v32 = gid.raw
  rw [hwords, ← gidChunk_flatten gid]
  apply List.flatMap_congr
  intro i hi
  have hi4 := List.mem_range.mp hi
  have hback := toBytes_ofBytes .big (gidChunk gid i)
  rw [gidChunk_length gid hi4] at hback
  rw [toBytes_hostToBig, UInt32.toNat_ofNat_of_lt' (gidChunkValue_lt gid hi4)]
  exact hback

/-- What the two bytes of `lid` hold after a store of four bytes at their address. -/
def lidStored (e : Endian) (lid : UInt32) : UInt16 :=
  UInt16.ofNat (ofBytes e ((toBytes e 4 lid.toNat).take 2))

theorem lidStored_little (lid : UInt32) : lidStored .little lid = UInt16.ofNat lid.toNat := by
  have hlid : ofBytes .little (bytesLE 2 lid.toNat) = lid.toNat % 256 ^ 2 :=
    ofBytes_toBytes .little 2 lid.toNat
  rw [lidStored, toBytes, bytesLE_take (by omega), hlid]
  apply UInt16.toNat_inj.mp
  simp

/-- A store through one field of the block leaves the other two; the store
through `lid` covers its two bytes and the padding up to `qpn`. -/
theorem blockDest_stored (e : Endian) (lid qpn psn : UInt32) (word : List UInt8) (block : Memory)
    (gid : Gid) :
    blockDest e (HelloScan.storeInto ⟨some lid, some qpn, some psn, some word⟩ e block) gid =
      ⟨lidStored e lid, qpn, psn, gid⟩ := by
  have hword (v : UInt32) : UInt32.ofNat (ofBytes e (toBytes e 4 v.toNat)) = v := by
    have hv : v.toNat < 256 ^ 4 := v.toNat_lt
    rw [ofBytes_toBytes, Nat.mod_eq_of_lt hv, UInt32.ofNat_toNat]
  have htake (v : UInt32) : (toBytes e 4 v.toNat).take 4 = toBytes e 4 v.toNat :=
    List.take_of_length_le (by simp)
  simp only [blockDest, HelloScan.storeInto, storeUnsigned, lidOffset, qpnOffset, psnOffset]
  rw [load_store_disjoint (by simp), load_store_disjoint (by simp), load_store_take (by simp),
    load_store_disjoint (by simp), load_store_take (by simp), load_store_take (by simp),
    htake, htake, hword, hword]
  rfl

theorem blockDest_storeInto (lid qpn psn : UInt32) (word : List UInt8) (block : Memory) (gid : Gid) :
    blockDest .little (HelloScan.storeInto ⟨some lid, some qpn, some psn, some word⟩ .little block) gid =
      ⟨UInt16.ofNat lid.toNat, qpn, psn, gid⟩ := by
  rw [blockDest_stored, lidStored_little]

/-- A message holding a hello's text decodes to the destination it was made from. -/
theorem getDest_text {e : Endian} {dest : Dest} {msg : List UInt8}
    (hmsg : cString msg = getHelloMsg e dest) (scratch : Scratch) :
    getDest .little scratch msg = some dest := by
  have hne : gidToWireGid e dest.gid ≠ [] := by
    intro h
    have := gidToWireGid_length e dest.gid
    simp [h] at this
  have hscan := scanHello_fields dest.lid.toNat dest.qpn.toNat dest.psn.toNat
    (by have := dest.lid.toNat_lt; omega) dest.qpn.toNat_lt dest.psn.toNat_lt hne
    (gidToWireGid_digits e dest.gid)
  have hlid : (UInt32.ofNat dest.lid.toNat).toNat = dest.lid.toNat :=
    UInt32.toNat_ofNat_of_lt' (by have := dest.lid.toNat_lt; simp only [UInt32.size]; omega)
  simp only [getDest, hmsg, getHelloMsg, hscan, HelloScan.tmpGidStored, tmpGidSize,
    List.length_append, gidToWireGid_length, List.length_singleton, blockDest_storeInto,
    wireGidToGid_gidToWireGid, UInt32.ofNat_toNat, hlid, UInt16.ofNat_toNat]
  rfl

theorem cString_msg (e : Endian) (dest : Dest) :
    cString (getHelloMsg e dest ++ [0]) = getHelloMsg e dest :=
  cString_append_zeros (getHelloMsg_ne_zero e dest) (by simp)

/-- A store of `%x` through `lid` is invisible in every other field. -/
theorem storeUnsigned_lid_frame (e : Endian) (block : Memory) (gid : Gid) (v : UInt32) :
    (blockDest e (storeUnsigned e block lidOffset (some v)) gid).qpn = (blockDest e block gid).qpn ∧
      (blockDest e (storeUnsigned e block lidOffset (some v)) gid).psn = (blockDest e block gid).psn ∧
      (blockDest e (storeUnsigned e block lidOffset (some v)) gid).gid = gid := by
  simp only [blockDest, storeUnsigned, lidOffset, qpnOffset, psnOffset]
  rw [load_store_disjoint (by simp), load_store_disjoint (by simp)]
  exact ⟨rfl, rfl, trivial⟩

/-- The text fills the allocated buffer and the size sent exactly, and decodes
to the destination whatever the decoder's memory held. -/
theorem hello_round_trip {dest : Dest} (hq : dest.qpn.toNat < 2 ^ 24)
    (hp : dest.psn.toNat < 2 ^ 24) (scratch : Scratch) :
    (getHelloMsg .little dest).length = helloTemplate.length ∧
      (getHelloMsg .little dest ++ [0]).length = msgSize ∧
      helloPayload .little dest = getHelloMsg .little dest ++ [0] ∧
      getDest .little scratch (getHelloMsg .little dest ++ [0]) = some dest ∧
      ∀ (block : Memory) (v : UInt32),
        (blockDest .little (storeUnsigned .little block lidOffset (some v)) dest.gid).qpn =
            (blockDest .little block dest.gid).qpn ∧
          (blockDest .little (storeUnsigned .little block lidOffset (some v)) dest.gid).psn =
            (blockDest .little block dest.gid).psn ∧
          (blockDest .little (storeUnsigned .little block lidOffset (some v)) dest.gid).gid =
            dest.gid := by
  have hlen := getHelloMsg_length (e := .little) hq hp
  have hsize : (getHelloMsg .little dest ++ [0]).length = msgSize := by
    rw [List.length_append, hlen]
    rfl
  refine ⟨hlen, hsize, List.take_of_length_le hsize.le, getDest_text (cString_msg .little dest) scratch, ?_⟩
  intro block v
  exact storeUnsigned_lid_frame .little block dest.gid v

theorem hello_round_trip_wide_lid :
    getDest .little ⟨fun _ => 0xcc, fun _ => 0xcc, 0xcccccccc⟩ (getHelloMsg .little
      ⟨0xffff, 0xffffff, 1, ⟨List.replicate 16 0x0a, rfl⟩⟩ ++ [0]) =
      some ⟨0xffff, 0xffffff, 1, ⟨List.replicate 16 0x0a, rfl⟩⟩ :=
  (hello_round_trip (by decide) (by decide) _).2.2.2.1

/-- No hello makes the decoder run past `tmp_gid`, not even one that was cut
off at `msg_size` because its numbers were too wide. -/
theorem getDest_payload (e e' : Endian) (dest : Dest) (scratch : Scratch) {zs : List UInt8}
    (hz : ∀ c ∈ zs, c = 0) :
    ∃ d, getDest e' scratch (helloPayload e dest ++ zs) = some d := by
  have hge := helloFields_length_ge dest
  have hle := helloFields_length_le dest
  have hsize : msgSize = 52 := by decide
  obtain ⟨ys, hy, hpayload⟩ := helloPayload_eq e dest
  have hcut : cString (helloPayload e dest ++ zs) = (getHelloMsg e dest).take msgSize := by
    rw [hpayload, List.append_assoc]
    apply cString_append_zeros fun c hc => getHelloMsg_ne_zero e dest c (List.mem_of_mem_take hc)
    intro c hc
    rcases List.mem_append.mp hc with hc | hc
    · exact hy c hc
    · exact hz c hc
  have hword := gidToWireGid_length e dest.gid
  have hne : (gidToWireGid e dest.gid).take (msgSize - (helloFields dest).length) ≠ [] := by
    intro h
    have := congrArg List.length h
    simp only [List.length_take, hword, List.length_nil] at this
    omega
  have hscan := scanHello_fields dest.lid.toNat dest.qpn.toNat dest.psn.toNat
    (by have := dest.lid.toNat_lt; omega) dest.qpn.toNat_lt dest.psn.toNat_lt hne
    (fun c hc => gidToWireGid_digits e dest.gid c (List.mem_of_mem_take hc))
  have htext : (getHelloMsg e dest).take msgSize = helloFields dest ++
      (gidToWireGid e dest.gid).take (msgSize - (helloFields dest).length) := by
    rw [getHelloMsg_eq, List.take_append, List.take_of_length_le (by omega)]
  rw [getDest, hcut, htext]
  simp only [helloFields, List.append_assoc, List.cons_append, List.nil_append] at hscan ⊢
  rw [hscan, if_pos]
  · exact ⟨_, rfl⟩
  · simp only [HelloScan.tmpGidStored, tmpGidSize, List.length_append, List.length_take, hword,
      List.length_singleton]
    omega

end CppPlayground.HelloText
