import Mathlib.Data.List.Basic
import Mathlib.Tactic.Ring
import Mathlib.Tactic.NormNum

/-!
# Integers as bytes in a host's order

Fixed-width unsigned integers as the bytes a host keeps them in, for either
byte order, and memory as a function from offsets to bytes. Stores are lists
of bytes; a load reads back a list. The frame rules say which loads a store
leaves alone, also when the loaded field is narrower than the store.

Network order is big-endian order on every host: converting to it and storing
in host order gives the same bytes on both kinds of host.
-/
namespace CppPlayground.HostBytes

inductive Endian where
  | little | big
  deriving DecidableEq, Repr

/-- The low `w` bytes, least significant first. -/
def bytesLE : ℕ → ℕ → List UInt8
  | 0, _ => []
  | w + 1, n => UInt8.ofNat n :: bytesLE w (n / 256)

def valueLE : List UInt8 → ℕ
  | [] => 0
  | b::bs => b.toNat + 256*valueLE bs

@[simp] theorem bytesLE_length (w n : ℕ) : (bytesLE w n).length = w := by
  induction w generalizing n with
  | zero => rfl
  | succ w ih => simp only [bytesLE, List.length_cons, ih]

theorem valueLE_bytesLE (w n : ℕ) : valueLE (bytesLE w n) = n % 256 ^ w := by
  induction w generalizing n with
  | zero => simp [bytesLE, valueLE, Nat.mod_one]
  | succ w ih =>
      have hlow : (UInt8.ofNat n).toNat = n % 256 := UInt8.toNat_ofNat'
      have hsplit := Nat.mod_mul (x := n) (a := 256) (b := 256 ^ w)
      simp only [bytesLE, valueLE, ih, hlow]
      rw [Nat.pow_succ', hsplit]

theorem valueLE_lt (bs : List UInt8) : valueLE bs < 256 ^ bs.length := by
  induction bs with
  | nil => simp [valueLE]
  | cons b bs ih =>
      have hb : b.toNat < 256 := b.toNat_lt
      simp only [valueLE, List.length_cons, pow_succ]
      omega

theorem bytesLE_valueLE (bs : List UInt8) : bytesLE bs.length (valueLE bs) = bs := by
  induction bs with
  | nil => rfl
  | cons b bs ih =>
      have hb : b.toNat < 256 := b.toNat_lt
      have hdiv : (b.toNat + 256*valueLE bs) / 256 = valueLE bs := by omega
      simp only [List.length_cons, bytesLE, valueLE, hdiv, ih]
      congr 1
      apply UInt8.toNat_inj.mp
      simp only [UInt8.toNat_ofNat']
      omega

theorem bytesLE_take {k w : ℕ} (h : k ≤ w) (n : ℕ) : (bytesLE w n).take k = bytesLE k n := by
  induction k generalizing w n with
  | zero => rfl
  | succ k ih =>
      obtain ⟨w, rfl⟩ : ∃ v, w = v + 1 := ⟨w - 1, by omega⟩
      simp only [bytesLE, List.take_succ_cons, ih (show k ≤ w by omega)]

/-- The bytes of an object of `w` bytes holding `n`, in address order. -/
def toBytes (e : Endian) (w n : ℕ) : List UInt8 :=
  match e with
  | .little => bytesLE w n
  | .big => (bytesLE w n).reverse

def ofBytes (e : Endian) (bs : List UInt8) : ℕ :=
  match e with
  | .little => valueLE bs
  | .big => valueLE bs.reverse

@[simp] theorem toBytes_length (e : Endian) (w n : ℕ) : (toBytes e w n).length = w := by
  cases e <;> simp [toBytes]

theorem ofBytes_toBytes (e : Endian) (w n : ℕ) : ofBytes e (toBytes e w n) = n % 256 ^ w := by
  cases e <;> simp [toBytes, ofBytes, valueLE_bytesLE]

theorem toBytes_ofBytes (e : Endian) (bs : List UInt8) :
    toBytes e bs.length (ofBytes e bs) = bs := by
  cases e with
  | little => exact bytesLE_valueLE bs
  | big =>
      have h := bytesLE_valueLE bs.reverse
      rw [List.length_reverse] at h
      simp only [toBytes, ofBytes, h, List.reverse_reverse]

theorem ofBytes_lt (e : Endian) (bs : List UInt8) : ofBytes e bs < 256 ^ bs.length := by
  cases e with
  | little => exact valueLE_lt bs
  | big => simpa [ofBytes] using valueLE_lt bs.reverse

/-- Reverse the bytes of a `w`-byte integer. -/
def byteSwap (w n : ℕ) : ℕ := valueLE (bytesLE w n).reverse

/-- Conversion between host and network order; it is its own inverse. -/
def hostToBig (e : Endian) (w n : ℕ) : ℕ :=
  match e with
  | .little => byteSwap w n
  | .big => n % 256 ^ w

theorem bytesLE_mod (w n : ℕ) : bytesLE w (n % 256 ^ w) = bytesLE w n := by
  rw [← valueLE_bytesLE]
  simpa using bytesLE_valueLE (bytesLE w n)

/-- What is stored after conversion to network order does not depend on the host. -/
theorem toBytes_hostToBig (e : Endian) (w n : ℕ) :
    toBytes e w (hostToBig e w n) = toBytes .big w n := by
  cases e with
  | little =>
      have h := bytesLE_valueLE (bytesLE w n).reverse
      rw [List.length_reverse, bytesLE_length] at h
      simpa only [toBytes, hostToBig, byteSwap] using h
  | big => simp only [toBytes, hostToBig, bytesLE_mod]

theorem hostToBig_lt (e : Endian) (w n : ℕ) : hostToBig e w n < 256 ^ w := by
  cases e with
  | little => simpa [hostToBig, byteSwap] using valueLE_lt (bytesLE w n).reverse
  | big => exact Nat.mod_lt n (Nat.pow_pos (by omega))

theorem bytesLE_snoc {w y : ℕ} (hy : y < 256 ^ w) (x : ℕ) :
    bytesLE (w + 1) (x*256 ^ w + y) = bytesLE w y ++ [UInt8.ofNat x] := by
  induction w generalizing y with
  | zero =>
      have hy0 : y = 0 := by simpa using hy
      simp [bytesLE, hy0]
  | succ w ih =>
      have hsplit : x*256 ^ (w + 1) + y = 256*(x*256 ^ w) + y := by ring
      have hdiv : (256*(x*256 ^ w) + y) / 256 = x*256 ^ w + y / 256 := by omega
      have hlow : UInt8.ofNat (256*(x*256 ^ w) + y) = UInt8.ofNat y := by
        apply UInt8.toNat_inj.mp
        simp only [UInt8.toNat_ofNat']
        omega
      have hlt : y / 256 < 256 ^ w := by
        rw [pow_succ] at hy
        omega
      rw [hsplit, bytesLE, hdiv, hlow, ih hlt, bytesLE, List.cons_append]

/-- Big-endian bytes put the most significant one first. -/
theorem toBytes_big_cons {w y : ℕ} (hy : y < 256 ^ w) (x : ℕ) :
    toBytes .big (w + 1) (x*256 ^ w + y) = UInt8.ofNat x::toBytes .big w y := by
  simp [toBytes, bytesLE_snoc hy]

/-- Converting what was loaded in host order reads the bytes as big-endian. -/
theorem hostToBig_ofBytes (e : Endian) (bs : List UInt8) :
    hostToBig e bs.length (ofBytes e bs) = ofBytes .big bs := by
  cases e with
  | little => simp only [hostToBig, byteSwap, ofBytes, bytesLE_valueLE]
  | big => exact Nat.mod_eq_of_lt (ofBytes_lt .big bs)

/-- Cutting a list into words and joining the words again. -/
theorem chunks_flatten {A : Type*} (l : List A) (w n : ℕ) :
    ((List.range n).flatMap fun i => (l.drop (w*i)).take w) = l.take (w*n) := by
  induction n with
  | zero => simp
  | succ n ih =>
      rw [List.range_succ, List.flatMap_append, ih, Nat.mul_succ, List.take_add]
      simp

theorem flatMap_range_length {A : Type*} {f : ℕ → List A} {w n : ℕ}
    (hf : ∀ i < n, (f i).length = w) : ((List.range n).flatMap f).length = w*n := by
  induction n with
  | zero => simp
  | succ n ih =>
      rw [List.range_succ, List.flatMap_append, List.length_append, ih fun i hi => hf i (by omega)]
      simp [hf n (by omega), Nat.mul_succ]

/-- A word of a joined list is found at its own multiple of the width. -/
theorem chunk_flatMap {A : Type*} {f : ℕ → List A} {w n i : ℕ} (hf : ∀ i < n, (f i).length = w)
    (hi : i < n) (rest : List A) :
    (((List.range n).flatMap f ++ rest).drop (w*i)).take w = f i := by
  induction n generalizing rest with
  | zero => omega
  | succ n ih =>
      have hf' : ∀ i < n, (f i).length = w := fun i h => hf i (by omega)
      rw [List.range_succ, List.flatMap_append, List.append_assoc]
      rcases Nat.lt_succ_iff_lt_or_eq.mp hi with hlt | rfl
      · exact ih hf' hlt _
      · rw [List.drop_left' (flatMap_range_length hf'), List.flatMap_singleton]
        exact List.take_left' (hf i (by omega))

abbrev Memory := ℕ → UInt8

def load (m : Memory) (offset w : ℕ) : List UInt8 := (List.range w).map fun j => m (offset + j)

def store (m : Memory) (offset : ℕ) (bs : List UInt8) : Memory := fun i =>
  if offset ≤ i then (bs[i - offset]?).getD (m i) else m i

@[simp] theorem load_length (m : Memory) (offset w : ℕ) : (load m offset w).length = w := by
  simp [load]

theorem load_add (m : Memory) (offset w n : ℕ) :
    load m offset (w + n) = load m offset w ++ load m (offset + w) n := by
  simp [load, List.range_add, Nat.add_assoc]

/-- Objects that lie side by side are loaded one by one. -/
theorem load_eq_append {m : Memory} {offset w n : ℕ} {xs ys : List UInt8}
    (h : load m offset (w + n) = xs ++ ys) (hx : xs.length = w) :
    load m offset w = xs ∧ load m (offset + w) n = ys := by
  rw [load_add] at h
  exact List.append_inj h (by rw [load_length, hx])

/-- A load inside the range of a store reads the bytes stored there. -/
theorem load_store_inside (m : Memory) (offset : ℕ) {k w : ℕ} {bs : List UInt8}
    (h : k + w ≤ bs.length) : load (store m offset bs) (offset + k) w = (bs.drop k).take w := by
  apply List.ext_getElem
  · simp only [load_length, List.length_take, List.length_drop]
    omega
  · intro i hi hj
    have hb : k + i < bs.length := by simp at hj; omega
    have hpos : offset + k + i - offset = k + i := by omega
    simp [load, store, hpos, List.getElem?_eq_getElem hb, show offset ≤ offset + k + i by omega]

/-- A narrower load at the address of a store reads the first bytes stored. -/
theorem load_store_take {m : Memory} {offset w : ℕ} {bs : List UInt8} (h : w ≤ bs.length) :
    load (store m offset bs) offset w = bs.take w := by
  simpa using load_store_inside m offset (show 0 + w ≤ bs.length by omega)

/-- A store leaves every range it does not meet as it was. -/
theorem load_store_disjoint {m : Memory} {offset other w : ℕ} {bs : List UInt8}
    (h : other + w ≤ offset ∨ offset + bs.length ≤ other) :
    load (store m offset bs) other w = load m other w := by
  apply List.map_congr_left
  intro j hj
  rw [List.mem_range] at hj
  unfold store
  split_ifs with hle
  · have hout : bs[other + j - offset]? = none := by
      rw [List.getElem?_eq_none_iff]
      omega
    rw [hout, Option.getD_none]
  · rfl

/-- A store over the end of the one before it, and at least as far. -/
theorem store_store_append (m : Memory) (offset : ℕ) (xs : List UInt8) {zs ys : List UInt8}
    (h : zs.length ≤ ys.length) :
    store (store m offset (xs ++ zs)) (offset + xs.length) ys = store m offset (xs ++ ys) := by
  funext i
  rcases Nat.lt_or_ge i (offset + xs.length) with hlt | hge
  · simp only [store, if_neg (Nat.not_le.mpr hlt)]
    split_ifs with hle
    · have hin : i - offset < xs.length := by omega
      rw [List.getElem?_append_left hin, List.getElem?_append_left hin]
    · rfl
  · obtain ⟨k, rfl⟩ := Nat.exists_eq_add_of_le hge
    have hle : offset ≤ offset + xs.length + k := by omega
    have hpos : offset + xs.length + k - offset = xs.length + k := by omega
    have hout : xs.length ≤ xs.length + k := Nat.le_add_right _ _
    simp only [store, if_pos hge, if_pos hle, hpos, Nat.add_sub_cancel_left,
      List.getElem?_append_right hout]
    rcases Nat.lt_or_ge k ys.length with hk | hk
    · rw [List.getElem?_eq_getElem hk, Option.getD_some, Option.getD_some]
    · rw [List.getElem?_eq_none hk, List.getElem?_eq_none (h.trans hk)]
      rfl

end CppPlayground.HostBytes
