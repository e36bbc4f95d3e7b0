import CppPlayground.RdmaHandler

/-!
# Where `setup_memory` puts its buffers

Both loops of `setup_memory` advance one address, each time before they use it.
For given `MSG_SIZE` and `MAX_WR` the entries of the receives and of the sends
therefore lie side by side from the end of the first buffer on: they never
overlap, but the region that is allocated and registered has room for `MAX_WR`
buffers, and ends where the entry before the last receive's does.

The size of a buffer is kept in a `uint32_t` and that of the region in an
`int`, so that both are cut off where the macros are large.
-/
namespace CppPlayground.RdmaHandler

variable {Ah : Type}

/-- `int mr_size = (MSG_SIZE + 40) * MAX_WR`, the size of the region from `buf`
on. A product that does not fit wraps around, as compilers have it. -/
def mrSize (msgSize maxWr : ℕ) : ℤ := (BitVec.ofNat 32 ((msgSize + 40)*maxWr)).toInt

/-- `mem_addr` after so many rounds of either loop. -/
def advance (size : UInt32) : ℕ → UInt64 → UInt64
  | 0, memAddr => memAddr
  | n + 1, memAddr => advance size n (memAddr + size.toUInt64)

/-- The entries made in these rounds. -/
def slots (size lkey : UInt32) : ℕ → UInt64 → List Sge
  | 0, _ => []
  | n + 1, memAddr => bufferSge size lkey (memAddr + size.toUInt64)::
      slots size lkey n (memAddr + size.toUInt64)

theorem setupReceives_spec (size lkey : UInt32) (n : ℕ) (memAddr : UInt64) (s : Handler Ah) :
    (setupReceives size lkey n memAddr s).1 = advance size n memAddr ∧
      (setupReceives size lkey n memAddr s).2.postedReceives.map RecvWr.sge =
        s.postedReceives.map RecvWr.sge ++ slots size lkey n memAddr ∧
      (setupReceives size lkey n memAddr s).2.availableSendSge = s.availableSendSge := by
  induction n generalizing memAddr s with
  | zero => simp [setupReceives, advance, slots]
  | succ n ih =>
      obtain ⟨haddr, hposted, hsends⟩ := ih (memAddr + size.toUInt64)
        { s with
          wid := s.wid + 1
          postedReceives := s.postedReceives ++
            [⟨s.wid, bufferSge size lkey (memAddr + size.toUInt64)⟩]
          sgeMap := s.sgeMap ++ [(s.wid, bufferSge size lkey (memAddr + size.toUInt64))] }
      refine ⟨haddr, ?_, hsends⟩
      rw [setupReceives, hposted, List.map_append, List.append_assoc]
      rfl

theorem setupSends_spec (size lkey : UInt32) (n : ℕ) (memAddr : UInt64) (s : Handler Ah) :
    (setupSends size lkey n memAddr s).2.availableSendSge =
        s.availableSendSge ++ slots size lkey n memAddr ∧
      (setupSends size lkey n memAddr s).2.postedReceives = s.postedReceives := by
  induction n generalizing memAddr s with
  | zero => simp [setupSends, slots]
  | succ n ih =>
      obtain ⟨hsends, hposted⟩ := ih (memAddr + size.toUInt64)
        { s with availableSendSge := s.availableSendSge ++
            [bufferSge size lkey (memAddr + size.toUInt64)] }
      refine ⟨?_, hposted⟩
      rw [setupSends, hsends, List.append_assoc]
      rfl

theorem slots_add (size lkey : UInt32) (m n : ℕ) (memAddr : UInt64) :
    slots size lkey (m + n) memAddr =
      slots size lkey m memAddr ++ slots size lkey n (advance size m memAddr) := by
  induction m generalizing memAddr with
  | zero => simp [slots, advance]
  | succ m ih => rw [Nat.succ_add, slots, ih, slots, advance, List.cons_append]

/-- The scatter/gather entries that `setup_memory` makes, in order. -/
def setupEntries (msgSize maxWr : ℕ) (buf : UInt64) (lkey : UInt32) : List Sge :=
  (setupMemory msgSize maxWr buf lkey : Handler Unit).postedReceives.map RecvWr.sge ++
    (setupMemory msgSize maxWr buf lkey : Handler Unit).availableSendSge

theorem setupEntries_eq (msgSize maxWr : ℕ) (buf : UInt64) (lkey : UInt32) :
    setupEntries msgSize maxWr buf lkey = slots (bufferSize msgSize) lkey (2*maxWr) buf := by
  obtain ⟨haddr, hposted, hempty⟩ :=
    setupReceives_spec (bufferSize msgSize) lkey maxWr buf (⟨0, [], [], [], [], []⟩ : Handler Unit)
  obtain ⟨hsends, hkept⟩ := setupSends_spec (bufferSize msgSize) lkey maxWr
    (advance (bufferSize msgSize) maxWr buf)
    (setupReceives (bufferSize msgSize) lkey maxWr buf (⟨0, [], [], [], [], []⟩ : Handler Unit)).2
  rw [setupEntries, setupMemory, haddr, hkept, hposted, hsends, hempty, Nat.two_mul, slots_add]
  rfl

/-- One round, as long as the address does not wrap. -/
theorem toNat_advance {size : UInt32} {n : ℕ} {memAddr : UInt64}
    (h : memAddr.toNat + size.toNat*(n + 1) < 2 ^ 64) :
    (memAddr + size.toUInt64).toNat = memAddr.toNat + size.toNat := by
  have hle : size.toNat ≤ size.toNat*(n + 1) := Nat.le_mul_of_pos_right _ (Nat.succ_pos n)
  rw [UInt64.toNat_add, UInt32.toNat_toUInt64]
  exact Nat.mod_eq_of_lt (by omega)

@[simp] theorem slots_length (size lkey : UInt32) (n : ℕ) (memAddr : UInt64) :
    (slots size lkey n memAddr).length = n := by
  induction n generalizing memAddr with
  | zero => rfl
  | succ n ih => rw [slots, List.length_cons, ih]

/-- The entries lie at distance `size`, the first one `size` past the start. -/
theorem slot_addr {size lkey : UInt32} {n i : ℕ} {memAddr : UInt64}
    (h : memAddr.toNat + size.toNat*n < 2 ^ 64) (hi : i < (slots size lkey n memAddr).length) :
    (slots size lkey n memAddr)[i].addr.toNat = memAddr.toNat + size.toNat*(i + 1) ∧
      (slots size lkey n memAddr)[i].length = size := by
  induction n generalizing i memAddr with
  | zero => simp at hi
  | succ n ih =>
      have hfirst := toNat_advance h
      cases i with
      | zero =>
          simp only [slots, List.getElem_cons_zero, bufferSge, hfirst]
          simp
      | succ i =>
          have hrest : (memAddr + size.toUInt64).toNat + size.toNat*n < 2 ^ 64 := by
            rw [hfirst]
            rw [Nat.mul_succ] at h
            omega
          obtain ⟨haddr, hlen⟩ := ih hrest (Nat.lt_of_succ_lt_succ hi)
          simp only [slots, List.getElem_cons_succ]
          rw [haddr, hfirst, Nat.mul_succ size.toNat (i + 1)]
          exact ⟨by omega, hlen⟩

/-- The two address ranges have no byte in common. -/
def Sge.Apart (a b : Sge) : Prop :=
  a.addr.toNat + a.length.toNat ≤ b.addr.toNat ∨ b.addr.toNat + b.length.toNat ≤ a.addr.toNat

/-- The address range lies in the region of the given size from `buf` on. -/
def Sge.Inside (buf : ℕ) (size : ℤ) (sge : Sge) : Prop :=
  buf ≤ sge.addr.toNat ∧ ((sge.addr.toNat + sge.length.toNat : ℕ) : ℤ) ≤ buf + size

instance (buf : ℕ) (size : ℤ) (sge : Sge) : Decidable (sge.Inside buf size) :=
  inferInstanceAs (Decidable (_ ∧ _))

/-- Entries side by side never overlap. -/
theorem slots_apart {size lkey : UInt32} {n : ℕ} {memAddr : UInt64}
    (h : memAddr.toNat + size.toNat*n < 2 ^ 64) :
    (slots size lkey n memAddr).Pairwise Sge.Apart := by
  rw [List.pairwise_iff_getElem]
  intro i j hi hj hlt
  have hnext : size.toNat*(i + 1 + 1) ≤ size.toNat*(j + 1) := Nat.mul_le_mul_left _ (by omega)
  rw [Nat.mul_succ] at hnext
  left
  rw [(slot_addr h hi).1, (slot_addr h hi).2, (slot_addr h hj).1]
  omega

theorem setupEntries_apart {msgSize maxWr : ℕ} {buf : UInt64} (lkey : UInt32)
    (h : buf.toNat + (bufferSize msgSize).toNat*(2*maxWr) < 2 ^ 64) :
    (setupEntries msgSize maxWr buf lkey).Pairwise Sge.Apart := by
  rw [setupEntries_eq]
  exact slots_apart h

/-- An entry is inside a region if the region has room for its length after
all the entries up to it, itself included. -/
theorem slot_inside_iff {size lkey : UInt32} {n i : ℕ} {region : ℤ} {memAddr : UInt64}
    (h : memAddr.toNat + size.toNat*n < 2 ^ 64) (hi : i < (slots size lkey n memAddr).length) :
    (slots size lkey n memAddr)[i].Inside memAddr.toNat region ↔
      ((size.toNat*(i + 1) + size.toNat : ℕ) : ℤ) ≤ region := by
  rw [Sge.Inside, (slot_addr h hi).1, (slot_addr h hi).2]
  omega

/-- What the layout is for: no two entries share a byte, and each is inside
the region that is allocated and registered. -/
structure WellLaid (made : List Sge) (buf : ℕ) (region : ℤ) : Prop where
  apart : made.Pairwise Sge.Apart
  inside : ∀ sge ∈ made, sge.Inside buf region

theorem toNat_bufferSize (msgSize : ℕ) : (bufferSize msgSize).toNat = (msgSize + 40) % 2 ^ 32 :=
  UInt32.toNat_ofNat'

/-- `mr_size` is negative where the product does not fit. -/
theorem mrSize_nonneg_iff (msgSize maxWr : ℕ) :
    0 ≤ mrSize msgSize maxWr ↔ (msgSize + 40)*maxWr % 2 ^ 32 < 2 ^ 31 := by
  have hlt := Nat.mod_lt ((msgSize + 40)*maxWr) (Nat.two_pow_pos 32)
  rw [mrSize, BitVec.toInt_eq_toNat_cond, BitVec.toNat_ofNat]
  split_ifs <;> omega

/-- The region never has room for more than `MAX_WR` buffers. -/
theorem mrSize_le (msgSize maxWr : ℕ) :
    mrSize msgSize maxWr ≤ (((bufferSize msgSize).toNat*maxWr : ℕ) : ℤ) := by
  have hmod : (msgSize + 40)*maxWr % 2 ^ 32 ≤ (bufferSize msgSize).toNat*maxWr := by
    rw [toNat_bufferSize, Nat.mul_mod, ← Nat.mod_mul_mod, Nat.mod_mod]
    exact (Nat.mod_le _ _).trans (Nat.mul_le_mul_left _ (Nat.mod_le _ _))
  rw [mrSize, BitVec.toInt_eq_toNat_cond, BitVec.toNat_ofNat]
  split_ifs <;> omega

/-- The last entry lies past the end of the region unless buffers have no size
at all: there are twice as many entries as there is room for. -/
theorem slots_inside_iff {msgSize maxWr : ℕ} {buf : UInt64} {lkey : UInt32} (hmax : 1 ≤ maxWr)
    (hwrap : buf.toNat + (bufferSize msgSize).toNat*(2*maxWr) < 2 ^ 64)
    (hregion : 0 ≤ mrSize msgSize maxWr) :
    (∀ sge ∈ slots (bufferSize msgSize) lkey (2*maxWr) buf,
        sge.Inside buf.toNat (mrSize msgSize maxWr)) ↔ (bufferSize msgSize).toNat = 0 := by
  constructor
  · intro hinside
    have hlast : 2*maxWr - 1 < (slots (bufferSize msgSize) lkey (2*maxWr) buf).length := by
      rw [slots_length]
      omega
    have hend := (slot_inside_iff hwrap hlast).mp (hinside _ (List.getElem_mem hlast))
    have hcount : 2*maxWr - 1 + 1 = maxWr + maxWr := by omega
    have hroom := mrSize_le msgSize maxWr
    rw [hcount, Nat.mul_add] at hend
    omega
  · intro hzero sge hsge
    obtain ⟨i, hi, rfl⟩ := List.getElem_of_mem hsge
    rw [slot_inside_iff hwrap hi, hzero]
    simpa using hregion

/-- Where `memalign` gives a buffer at all, which it does not for an `mr_size`
below zero, the layout is right only if `msg_size` is cut off to zero. -/
theorem layout_inside_iff {msgSize maxWr : ℕ} {buf : UInt64} (lkey : UInt32)
    (hmax : 1 ≤ maxWr) (hwrap : buf.toNat + (bufferSize msgSize).toNat*(2*maxWr) < 2 ^ 64) :
    (0 ≤ mrSize msgSize maxWr →
        WellLaid (setupEntries msgSize maxWr buf lkey) buf.toNat (mrSize msgSize maxWr)) ↔
      2 ^ 31 ≤ (msgSize + 40)*maxWr % 2 ^ 32 ∨ 2 ^ 32 ∣ msgSize + 40 := by
  have hnonneg := mrSize_nonneg_iff msgSize maxWr
  have hdvd : 2 ^ 32 ∣ msgSize + 40 ↔ (bufferSize msgSize).toNat = 0 := by
    rw [toNat_bufferSize, Nat.dvd_iff_mod_eq_zero]
  rw [hdvd]
  constructor
  · intro hlaid
    by_cases hregion : 0 ≤ mrSize msgSize maxWr
    · have hinside := (hlaid hregion).inside
      rw [setupEntries_eq] at hinside
      exact .inr ((slots_inside_iff hmax hwrap hregion).mp hinside)
    · exact .inl (by omega)
  · rintro hcut hregion
    refine ⟨setupEntries_apart lkey hwrap, ?_⟩
    rw [setupEntries_eq, slots_inside_iff hmax hwrap hregion]
    exact hcut.resolve_left (by omega)

theorem layout_inside_page :
    (0 ≤ mrSize msgSize maxWr →
        WellLaid (setupEntries msgSize maxWr 4096 7) (4096 : UInt64).toNat
          (mrSize msgSize maxWr)) ↔
      2 ^ 31 ≤ (msgSize + 40)*maxWr % 2 ^ 32 ∨ 2 ^ 32 ∣ msgSize + 40 :=
  layout_inside_iff 7 (by decide) (by decide)

/-- With the program's own sizes the last receive's entry already ends one
buffer past the region, and the sends' entries all begin there. -/
theorem entries_past_region :
    0 ≤ mrSize msgSize maxWr ∧
      ((setupEntries msgSize maxWr 4096 7).map fun sge =>
          decide (sge.Inside 4096 (mrSize msgSize maxWr))) =
        List.replicate 9 true ++ List.replicate 11 false := by
  decide

end CppPlayground.RdmaHandler
