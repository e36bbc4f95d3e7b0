import Mathlib.Data.Nat.Log
import Mathlib.Data.List.Induction
import Mathlib.Data.List.TakeWhile
import Mathlib.Tactic.Ring
import Mathlib.Tactic.NormNum

/-!
# Formatted text: printed and scanned hexadecimal fields

Texts are lists of bytes, as `char` arrays are. A C string ends at its first
NUL. Printing covers the unsigned hexadecimal conversion with a zero-padded
minimum width. Scanning covers the unsigned hexadecimal conversion, one
ordinary character and the unbounded string conversion, each with the white
space it skips and the failures the language standard gives it: an `0x`
without a digit after it is a matching failure, a value too large for the
64-bit intermediate saturates, and the result is stored modulo `2^32`.

A hexadecimal field is also described as a shape of text, independent of the
scanner; the scanner accepts a field before a separator exactly when the text
has that shape.
-/
namespace CppPlayground.ScanText

/-- The characters of a C string, without its NUL. -/
def cString (bs : List UInt8) : List UInt8 := bs.takeWhile (· != 0)

def isSpace (c : UInt8) : Bool := c == ' '.toUInt8 || (9 ≤ c && c ≤ 13)

def isHexDigit (c : UInt8) : Bool :=
  ('0'.toUInt8 ≤ c && c ≤ '9'.toUInt8) || ('a'.toUInt8 ≤ c && c ≤ 'f'.toUInt8) ||
    ('A'.toUInt8 ≤ c && c ≤ 'F'.toUInt8)

def digitValue (c : UInt8) : ℕ :=
  if c ≤ '9'.toUInt8 then c.toNat - 48
  else if c ≤ 'F'.toUInt8 then c.toNat - 55
  else c.toNat - 87

/-- Most significant digit first. -/
def hexNumber (ds : List UInt8) : ℕ := ds.foldl (fun v c => 16*v + digitValue c) 0

def hexDigit (n : ℕ) : UInt8 := UInt8.ofNat (if n < 10 then 48 + n else 87 + n)

/-- Exactly `w` digits; higher digits are dropped. -/
def hexFixed : ℕ → ℕ → List UInt8
  | 0, _ => []
  | w + 1, n => hexFixed w (n / 16) ++ [hexDigit (n % 16)]

/-- The `%0wx` conversion: all digits of the value, at least `w` of them. -/
def printHex (w n : ℕ) : List UInt8 := hexFixed (max w (Nat.log 16 n + 1)) n

@[simp] theorem hexFixed_length (w n : ℕ) : (hexFixed w n).length = w := by
  induction w generalizing n with
  | zero => rfl
  | succ w ih => simp [hexFixed, ih]

theorem hexDigit_spec {n : ℕ} (h : n < 16) :
    isHexDigit (hexDigit n) = true ∧ digitValue (hexDigit n) = n := by
  revert n
  decide

theorem hexFixed_digits (w n : ℕ) : ∀ c ∈ hexFixed w n, isHexDigit c = true := by
  induction w generalizing n with
  | zero => simp [hexFixed]
  | succ w ih =>
      intro c hc
      simp only [hexFixed, List.mem_append, List.mem_singleton] at hc
      rcases hc with hc | rfl
      · exact ih _ c hc
      · exact (hexDigit_spec (Nat.mod_lt n (by omega))).1

theorem hexNumber_snoc (ds : List UInt8) (c : UInt8) :
    hexNumber (ds ++ [c]) = 16*hexNumber ds + digitValue c := by
  simp [hexNumber]

theorem digitValue_lt {c : UInt8} (h : isHexDigit c = true) : digitValue c < 16 := by
  have all : ∀ n : Fin 256, isHexDigit (UInt8.ofFin n) = true → digitValue (UInt8.ofFin n) < 16 := by
    decide +kernel
  simpa only [UInt8.ofFin_toFin] using all c.toFin (by simpa only [UInt8.ofFin_toFin] using h)

theorem hexNumber_append (ds es : List UInt8) :
    hexNumber (ds ++ es) = hexNumber ds*16 ^ es.length + hexNumber es := by
  induction es using List.reverseRecOn with
  | nil => simp [hexNumber]
  | append_singleton es c ih =>
      rw [← List.append_assoc, hexNumber_snoc, ih, hexNumber_snoc, List.length_append,
        List.length_singleton, pow_succ]
      ring

theorem hexNumber_lt {ds : List UInt8} (hd : ∀ c ∈ ds, isHexDigit c = true) :
    hexNumber ds < 16 ^ ds.length := by
  induction ds using List.reverseRecOn with
  | nil => simp [hexNumber]
  | append_singleton ds c ih =>
      have hds := ih fun d h => hd d (by simp [h])
      have hc := digitValue_lt (hd c (by simp))
      rw [hexNumber_snoc, List.length_append, List.length_singleton, pow_succ]
      omega

theorem hexNumber_hexFixed (w n : ℕ) : hexNumber (hexFixed w n) = n % 16 ^ w := by
  induction w generalizing n with
  | zero => simp [hexFixed, hexNumber, Nat.mod_one]
  | succ w ih =>
      rw [hexFixed, hexNumber_snoc, ih, (hexDigit_spec (Nat.mod_lt n (by omega))).2,
        Nat.pow_succ', Nat.mod_mul]
      ring

theorem printHex_of_lt {w n : ℕ} (hw : 0 < w) (h : n < 16 ^ w) : printHex w n = hexFixed w n := by
  have hlog : Nat.log 16 n < w := Nat.log_lt_of_lt_pow' (by omega) h
  rw [printHex, max_eq_left (by omega)]

theorem printHex_digits (w n : ℕ) : ∀ c ∈ printHex w n, isHexDigit c = true := hexFixed_digits _ n

theorem le_printHex_length (w n : ℕ) : w ≤ (printHex w n).length := by simp [printHex]

theorem hexNumber_printHex (w n : ℕ) : hexNumber (printHex w n) = n := by
  have hlt : n < 16 ^ max w (Nat.log 16 n + 1) :=
    (Nat.lt_pow_succ_log_self (by omega) n).trans_le
      (Nat.pow_le_pow_right (by omega) (le_max_right _ _))
  rw [printHex, hexNumber_hexFixed, Nat.mod_eq_of_lt hlt]

/-- The bytes a text shows, two digits each; an odd last digit shows none. -/
def hexBytes : List UInt8 → List UInt8
  | a::b::ds => UInt8.ofNat (hexNumber [a, b])::hexBytes ds
  | _ => []

theorem hexBytes_append {ds : List UInt8} {n : ℕ} (hlen : ds.length = 2*n) (es : List UInt8) :
    hexBytes (ds ++ es) = hexBytes ds ++ hexBytes es := by
  induction n generalizing ds with
  | zero => simp [List.eq_nil_of_length_eq_zero hlen, hexBytes]
  | succ n ih =>
      rcases ds with _ | ⟨a, _ | ⟨b, ds⟩⟩
      · simp at hlen
      · simp at hlen
        omega
      · simp only [List.length_cons] at hlen
        simp only [List.cons_append, hexBytes, ih (show ds.length = 2*n by omega)]

/-- The text does not go on with a character of the class. -/
def Ends (p : UInt8 → Bool) (rest : List UInt8) : Prop := ∀ c ∈ rest.head?, p c = false

theorem span_of_ends {p : UInt8 → Bool} {f rest : List UInt8} (hf : ∀ c ∈ f, p c = true)
    (hr : Ends p rest) : (f ++ rest).takeWhile p = f ∧ (f ++ rest).dropWhile p = rest := by
  rw [List.takeWhile_append_of_pos hf, List.dropWhile_append_of_pos hf]
  cases rest with
  | nil => simp
  | cons c rest =>
      have hc : ¬ p c = true := by simp [hr c rfl]
      simp [List.takeWhile_cons_of_neg hc, List.dropWhile_cons_of_neg hc]

theorem ends_dropWhile (p : UInt8 → Bool) (cs : List UInt8) : Ends p (cs.dropWhile p) := by
  intro c hc
  have h := List.head?_dropWhile_not p cs
  rw [Option.mem_def.mp hc] at h
  simpa using h

def skipSpace (cs : List UInt8) : List UInt8 := cs.dropWhile isSpace

/-- An optional sign; true for a minus. -/
def scanSign : List UInt8 → Bool × List UInt8
  | [] => (false, [])
  | c::cs =>
      if c = '-'.toUInt8 then (true, cs) else if c = '+'.toUInt8 then (false, cs) else (false, c::cs)

/-- An optional `0x` or `0X`. -/
def scanBase : List UInt8 → List UInt8
  | z::x::cs =>
      if z = '0'.toUInt8 ∧ (x = 'x'.toUInt8 ∨ x = 'X'.toUInt8) then cs else z::x::cs
  | cs => cs

/-- The `unsigned long` result of the conversion, stored as an `unsigned int`. -/
def storedValue (negative : Bool) (v : ℕ) : UInt32 :=
  if 2 ^ 64 ≤ v then UInt32.ofNat (2 ^ 32 - 1)
  else if negative then -UInt32.ofNat v else UInt32.ofNat v

/-- The `%x` conversion. -/
def scanHex (cs : List UInt8) : Option (UInt32 × List UInt8) :=
  let signed := scanSign (skipSpace cs)
  let body := scanBase signed.2
  let digits := body.takeWhile isHexDigit
  if digits = [] then none
  else some (storedValue signed.1 (hexNumber digits), body.dropWhile isHexDigit)

/-- An ordinary character of the format. -/
def scanChar (c : UInt8) : List UInt8 → Option (List UInt8)
  | [] => none
  | d::cs => if d = c then some cs else none

/-- The `%s` conversion: the characters to be stored, and what is left. -/
def scanWord (cs : List UInt8) : Option (List UInt8 × List UInt8) :=
  let body := skipSpace cs
  let word := body.takeWhile fun c => !isSpace c
  if word = [] then none else some (word, body.dropWhile fun c => !isSpace c)

theorem scanChar_eq_some {c : UInt8} {cs rest : List UInt8} :
    scanChar c cs = some rest ↔ cs = c::rest := by
  cases cs with
  | nil => simp [scanChar]
  | cons d cs =>
      simp only [scanChar]
      split_ifs with h <;> simp [h]

theorem skipSpace_of_ends {cs : List UInt8} (h : Ends isSpace cs) : skipSpace cs = cs :=
  (span_of_ends (f := []) (by simp) h).2

/-- What may precede the digits: at most one sign. -/
def IsSign (s : List UInt8) : Prop := s = [] ∨ s = ['+'.toUInt8] ∨ s = ['-'.toUInt8]

def IsBase (b : List UInt8) : Prop :=
  b = [] ∨ b = ['0'.toUInt8, 'x'.toUInt8] ∨ b = ['0'.toUInt8, 'X'.toUInt8]

/-- White space, a sign, a base mark and at least one digit. -/
structure HexField (f : List UInt8) : Prop where
  parts : ∃ space sign base digits, f = space ++ sign ++ base ++ digits ∧
    (∀ c ∈ space, isSpace c = true) ∧ IsSign sign ∧ IsBase base ∧
    digits ≠ [] ∧ ∀ c ∈ digits, isHexDigit c = true

theorem isHexDigit_cases {c : UInt8} (h : isHexDigit c = true) :
    isSpace c = false ∧ c ≠ '+'.toUInt8 ∧ c ≠ '-'.toUInt8 ∧ c ≠ 'x'.toUInt8 ∧ c ≠ 'X'.toUInt8 ∧
      c ≠ 0 ∧ c ≠ ':'.toUInt8 := by
  have all : ∀ n : Fin 256, isHexDigit (UInt8.ofFin n) = true →
      isSpace (UInt8.ofFin n) = false ∧ UInt8.ofFin n ≠ '+'.toUInt8 ∧
        UInt8.ofFin n ≠ '-'.toUInt8 ∧ UInt8.ofFin n ≠ 'x'.toUInt8 ∧
        UInt8.ofFin n ≠ 'X'.toUInt8 ∧ UInt8.ofFin n ≠ 0 ∧ UInt8.ofFin n ≠ ':'.toUInt8 := by
    decide +kernel
  simpa only [UInt8.ofFin_toFin] using all c.toFin (by simpa only [UInt8.ofFin_toFin] using h)

theorem scanSign_parts (cs : List UInt8) :
    ∃ sign, cs = sign ++ (scanSign cs).2 ∧ IsSign sign := by
  cases cs with
  | nil => exact ⟨[], rfl, .inl rfl⟩
  | cons c cs =>
      simp only [scanSign]
      split_ifs with hm hp
      · exact ⟨['-'.toUInt8], by simp [hm], .inr (.inr rfl)⟩
      · exact ⟨['+'.toUInt8], by simp [hp], .inr (.inl rfl)⟩
      · exact ⟨[], rfl, .inl rfl⟩

theorem scanBase_parts (cs : List UInt8) : ∃ base, cs = base ++ scanBase cs ∧ IsBase base := by
  unfold scanBase
  split
  · split_ifs with h
    · rcases h with ⟨rfl, rfl | rfl⟩
      · exact ⟨_, rfl, .inr (.inl rfl)⟩
      · exact ⟨_, rfl, .inr (.inr rfl)⟩
    · exact ⟨[], rfl, .inl rfl⟩
  · exact ⟨[], rfl, .inl rfl⟩

/-- Every scanned field has the shape, and the rest does not begin with a digit. -/
theorem HexField.of_scan {cs rest : List UInt8} {v : UInt32} (h : scanHex cs = some (v, rest)) :
    ∃ f, HexField f ∧ cs = f ++ rest := by
  obtain ⟨sign, hsign, hs⟩ := scanSign_parts (skipSpace cs)
  obtain ⟨base, hbase, hb⟩ := scanBase_parts (scanSign (skipSpace cs)).2
  simp only [scanHex] at h
  split_ifs at h with hd
  simp only [Option.some.injEq, Prod.mk.injEq] at h
  refine ⟨cs.takeWhile isSpace ++ sign ++ base ++
    (scanBase (scanSign (skipSpace cs)).2).takeWhile isHexDigit, ⟨⟨_, _, _, _, rfl,
      fun c hc => List.mem_takeWhile_imp hc, hs, hb, hd, fun c hc => List.mem_takeWhile_imp hc⟩⟩, ?_⟩
  calc cs = cs.takeWhile isSpace ++ skipSpace cs := List.takeWhile_append_dropWhile.symm
    _ = cs.takeWhile isSpace ++ (sign ++ (base ++ scanBase (scanSign (skipSpace cs)).2)) := by
        rw [← hbase, ← hsign]
    _ = _ := by
        rw [← h.2]
        simp only [List.append_assoc, List.takeWhile_append_dropWhile]

/-- A separator that no part of a field can begin or continue with. -/
def Separates (rest : List UInt8) : Prop :=
  Ends isHexDigit rest ∧ ∀ c ∈ rest.head?, c ≠ 'x'.toUInt8 ∧ c ≠ 'X'.toUInt8

theorem scanBase_digits {ds rest : List UInt8} (hne : ds ≠ [])
    (hd : ∀ c ∈ ds, isHexDigit c = true) (hr : Separates rest) :
    scanBase (ds ++ rest) = ds ++ rest := by
  have second : ∀ x cs, ds ++ rest = '0'.toUInt8::x::cs → x ≠ 'x'.toUInt8 ∧ x ≠ 'X'.toUInt8 := by
    intro x cs h
    rcases ds with _ | ⟨d, _ | ⟨e, ds⟩⟩
    · exact absurd rfl hne
    · simp only [List.cons_append, List.nil_append, List.cons.injEq] at h
      exact hr.2 x (by simp [h.2])
    · simp only [List.cons_append, List.cons.injEq] at h
      have he := isHexDigit_cases (hd e (by simp))
      exact h.2.1 ▸ ⟨he.2.2.2.1, he.2.2.2.2.1⟩
  generalize ds ++ rest = cs at second
  unfold scanBase
  split
  · split_ifs with h
    · have hx := second _ _ (by rw [h.1])
      exact absurd h.2 (by simp [hx.1, hx.2])
    · rfl
  · rfl

theorem scanBase_field {base ds rest : List UInt8} (hb : IsBase base) (hne : ds ≠ [])
    (hd : ∀ c ∈ ds, isHexDigit c = true) (hr : Separates rest) :
    scanBase (base ++ (ds ++ rest)) = ds ++ rest := by
  rcases hb with rfl | rfl | rfl
  · simpa only [List.nil_append] using scanBase_digits hne hd hr
  · simp [scanBase]
  · simp [scanBase]

theorem head_of_field {base ds : List UInt8} (rest : List UInt8) (hb : IsBase base)
    (hne : ds ≠ []) (hd : ∀ c ∈ ds, isHexDigit c = true) :
    ∃ c cs, base ++ (ds ++ rest) = c::cs ∧ isHexDigit c = true := by
  rcases hb with rfl | rfl | rfl
  · obtain ⟨d, ds, rfl⟩ := List.exists_cons_of_ne_nil hne
    exact ⟨d, ds ++ rest, rfl, hd d (by simp)⟩
  · exact ⟨_, _, rfl, by decide⟩
  · exact ⟨_, _, rfl, by decide⟩

/-- Where a sign is followed by the rest of the field, it is scanned and nothing else is. -/
theorem scanSign_field {sign base ds : List UInt8} (rest : List UInt8) (hs : IsSign sign) (hb : IsBase base)
    (hne : ds ≠ []) (hd : ∀ c ∈ ds, isHexDigit c = true) :
    (scanSign (sign ++ (base ++ (ds ++ rest)))).2 = base ++ (ds ++ rest) ∧
      Ends isSpace (sign ++ (base ++ (ds ++ rest))) := by
  obtain ⟨c, cs, hcs, hc⟩ := head_of_field rest hb hne hd
  have hcases := isHexDigit_cases hc
  rw [hcs]
  rcases hs with rfl | rfl | rfl
  · simp [scanSign, hcases.2.1, hcases.2.2.1, Ends, hcases.1]
  · exact ⟨rfl, fun d hd => by cases hd; rfl⟩
  · exact ⟨rfl, fun d hd => by cases hd; rfl⟩

/-- A field before a separator is scanned whole. -/
theorem HexField.scan {f rest : List UInt8} (hf : HexField f) (hr : Separates rest) :
    ∃ v, scanHex (f ++ rest) = some (v, rest) := by
  obtain ⟨space, sign, base, ds, rfl, hspace, hs, hb, hne, hd⟩ := hf.parts
  obtain ⟨hsign, hends⟩ := scanSign_field rest hs hb hne hd
  have hskip : skipSpace (space ++ sign ++ base ++ ds ++ rest) = sign ++ (base ++ (ds ++ rest)) := by
    simpa only [List.append_assoc, skipSpace] using (span_of_ends hspace hends).2
  have hspan := span_of_ends hd hr.1
  simp only [scanHex, hskip, hsign, scanBase_field hb hne hd hr, hspan.1, hspan.2, if_neg hne]
  exact ⟨_, rfl⟩

/-- Plain digits are read back as their number. -/
theorem scanHex_digits {ds rest : List UInt8} (hne : ds ≠ [])
    (hd : ∀ c ∈ ds, isHexDigit c = true) (hr : Separates rest) :
    scanHex (ds ++ rest) = some (storedValue false (hexNumber ds), rest) := by
  obtain ⟨c, cs, hcs, hc⟩ := head_of_field rest (.inl rfl) hne hd
  have hcases := isHexDigit_cases hc
  have hskip : skipSpace (ds ++ rest) = ds ++ rest :=
    skipSpace_of_ends (by rw [show ds ++ rest = c::cs from hcs]; simp [Ends, hcases.1])
  have hsign : scanSign (ds ++ rest) = (false, ds ++ rest) := by
    rw [show ds ++ rest = c::cs from hcs]
    simp [scanSign, hcases.2.1, hcases.2.2.1]
  have hspan := span_of_ends hd hr.1
  simp only [scanHex, hskip, hsign, scanBase_digits hne hd hr, hspan.1, hspan.2, if_neg hne]

/-- What `%0wx` prints, `%x` reads, for every 32-bit value. -/
theorem scanHex_printHex {w n : ℕ} {rest : List UInt8} (hw : 0 < w) (hn : n < 2 ^ 32)
    (hr : Separates rest) : scanHex (printHex w n ++ rest) = some (UInt32.ofNat n, rest) := by
  have hne : printHex w n ≠ [] := by
    intro h
    have := le_printHex_length w n
    rw [h] at this
    simp at this
    omega
  rw [scanHex_digits hne (printHex_digits w n) hr, hexNumber_printHex]
  have hsmall : ¬ 2 ^ 64 ≤ n := by omega
  simp only [storedValue, if_neg hsmall, Bool.false_eq_true, if_false]

/-- A word without white space, up to white space or the end, is stored whole. -/
theorem scanWord_eq_some {cs word rest : List UInt8} :
    scanWord cs = some (word, rest) ↔ ∃ space, cs = space ++ word ++ rest ∧
      (∀ c ∈ space, isSpace c = true) ∧ word ≠ [] ∧ (∀ c ∈ word, isSpace c = false) ∧
      ∀ c ∈ rest.head?, isSpace c = true := by
  constructor
  · intro h
    simp only [scanWord] at h
    split_ifs at h with hne
    simp only [Option.some.injEq, Prod.mk.injEq] at h
    obtain ⟨rfl, rfl⟩ := h
    refine ⟨cs.takeWhile isSpace, ?_, fun c hc => List.mem_takeWhile_imp hc, hne, ?_, ?_⟩
    · rw [List.append_assoc, List.takeWhile_append_dropWhile]
      exact List.takeWhile_append_dropWhile.symm
    · intro c hc
      simpa using List.mem_takeWhile_imp hc
    · intro c hc
      simpa using ends_dropWhile (fun c => !isSpace c) (skipSpace cs) c hc
  · rintro ⟨space, rfl, hspace, hne, hword, hrest⟩
    have hends : Ends isSpace (word ++ rest) := by
      obtain ⟨d, word, rfl⟩ := List.exists_cons_of_ne_nil hne
      simp [Ends, hword d (by simp)]
    have hskip : skipSpace (space ++ word ++ rest) = word ++ rest := by
      simpa only [List.append_assoc, skipSpace] using (span_of_ends hspace hends).2
    have hin : ∀ c ∈ word, (!isSpace c) = true := fun c hc => by simp [hword c hc]
    have hout : Ends (fun c => !isSpace c) rest := fun c hc => by simp [hrest c hc]
    have hspan := span_of_ends hin hout
    simp only [scanWord, hskip, hspan.1, hspan.2, if_neg hne]

end CppPlayground.ScanText
