import Mathlib.Data.Vector.Basic
import Mathlib.Data.List.Basic

/-!
# Byte strings

Fixed-length byte arrays and the three renderings of numbers a signed message is built from:
little-endian words, decimal digits and lower-case hexadecimal. Each comes with the fact a signed
message needs from it, that the rendering can be read back.
-/

set_option autoImplicit false

namespace Trv1Chain.Lib

/-- An array of exactly `n` bytes. -/
abbrev Bytes (n : Nat) := List.Vector UInt8 n

def Bytes.fill (n : Nat) (b : UInt8) : Bytes n := List.Vector.replicate n b

/-- The `k` low bytes of `x`, least significant first. -/
def leBytes : Nat → Nat → List UInt8
  | 0, _ => []
  | k + 1, x => UInt8.ofNat x :: leBytes k (x / 256)

@[simp] theorem length_leBytes : ∀ (k x : Nat), (leBytes k x).length = k
  | 0, _ => rfl
  | k + 1, x => by rw [leBytes, List.length_cons, length_leBytes k]

/-- Little-endian words can be read back. The induction is on the number of bytes: the first
byte fixes the remainder by 256 and the others the quotient. -/
theorem leBytes_inj {k : Nat} : ∀ {x y : Nat}, x < 256 ^ k → y < 256 ^ k →
    leBytes k x = leBytes k y → x = y := by
  induction k with
  | zero => intro x y hx hy _; simp at hx hy; omega
  | succ k ih =>
    intro x y hx hy h
    rw [leBytes, leBytes, List.cons.injEq] at h
    have hlow : x % 256 = y % 256 := by
      have := congrArg UInt8.toNat h.1
      simpa [UInt8.toNat_ofNat'] using this
    have hhigh : x / 256 = y / 256 := by
      refine ih ?_ ?_ h.2
      · rw [Nat.div_lt_iff_lt_mul (by decide)]; rwa [pow_succ] at hx
      · rw [Nat.div_lt_iff_lt_mul (by decide)]; rwa [pow_succ] at hy
    omega

theorem leBytes_uint64_inj {x y : UInt64} (h : leBytes 8 x.toNat = leBytes 8 y.toNat) : x = y :=
  UInt64.toNat_inj.mp (leBytes_inj x.toNat_lt y.toNat_lt h)

theorem leBytes_uint32_inj {x y : UInt32} (h : leBytes 4 x.toNat = leBytes 4 y.toNat) : x = y :=
  UInt32.toNat_inj.mp (leBytes_inj x.toNat_lt y.toNat_lt h)

theorem Bytes.toList_inj {n : Nat} {a b : Bytes n} (h : a.toList = b.toList) : a = b :=
  List.Vector.eq _ _ h

/-- A sum that fits its word is the sum of numbers. -/
theorem toNat_add_of_fits {x y : UInt64} (h : x.toNat + y.toNat < 2 ^ 64) :
    (x + y).toNat = x.toNat + y.toNat := by
  rw [UInt64.toNat_add, Nat.mod_eq_of_lt h]

/-! ## Text -/

def ascii (l : List Char) : List UInt8 := l.map fun c => UInt8.ofNat c.toNat

/-- Decimal digits, most significant first; `fuel` bounds their number. -/
def decimalDigits : Nat → Nat → List UInt8
  | 0, _ => []
  | fuel + 1, x =>
    if x < 10 then [UInt8.ofNat (48 + x)]
    else decimalDigits fuel (x / 10) ++ [UInt8.ofNat (48 + x % 10)]

/-- A number in decimal, as `{}` prints it. -/
def decimal (x : Nat) : List UInt8 := decimalDigits (x + 1) x

def readDecimal (l : List UInt8) : Nat := l.foldl (fun acc d => acc * 10 + (d.toNat - 48)) 0

theorem readDecimal_digits : ∀ {fuel x : Nat}, x < fuel →
    readDecimal (decimalDigits fuel x) = x := by
  intro fuel
  induction fuel with
  | zero => intro x hx; exact absurd hx (by omega)
  | succ fuel ih =>
    intro x hx
    rw [decimalDigits]
    split
    · simp only [readDecimal, List.foldl_cons, List.foldl_nil, UInt8.toNat_ofNat']
      omega
    · have hrec : readDecimal (decimalDigits fuel (x / 10)) = x / 10 := ih (by omega)
      unfold readDecimal at hrec ⊢
      rw [List.foldl_append, hrec]
      simp only [List.foldl_cons, List.foldl_nil, UInt8.toNat_ofNat']
      omega

theorem readDecimal_decimal (x : Nat) : readDecimal (decimal x) = x :=
  readDecimal_digits (Nat.lt_succ_self x)

theorem decimal_inj {x y : Nat} (h : decimal x = decimal y) : x = y := by
  have hx := readDecimal_decimal x
  rw [h, readDecimal_decimal] at hx
  exact hx.symm

theorem mem_decimalDigits {d : UInt8} : ∀ {fuel x : Nat}, d ∈ decimalDigits fuel x →
    48 ≤ d.toNat ∧ d.toNat < 58 := by
  intro fuel
  induction fuel with
  | zero => intro x h; exact absurd h (by simp [decimalDigits])
  | succ fuel ih =>
    intro x h
    rw [decimalDigits] at h
    split at h
    · rw [List.mem_singleton.mp h, UInt8.toNat_ofNat']; omega
    · rcases List.mem_append.mp h with h | h
      · exact ih h
      · rw [List.mem_singleton.mp h, UInt8.toNat_ofNat']; omega

def hexDigit (x : Nat) : UInt8 := UInt8.ofNat (if x < 10 then 48 + x else 87 + x)

/-- Two digits for each byte, as `{b:02x}` prints it. -/
def toHex (l : List UInt8) : List UInt8 :=
  l.flatMap fun b => [hexDigit (b.toNat / 16), hexDigit (b.toNat % 16)]

theorem length_toHex (l : List UInt8) : (toHex l).length = 2 * l.length := by
  induction l with
  | nil => rfl
  | cons b l ih =>
    show (toHex l).length + 1 + 1 = 2 * (l.length + 1)
    omega

theorem hexDigit_inj {x y : Nat} (hx : x < 16) (hy : y < 16) (h : hexDigit x = hexDigit y) :
    x = y := by
  have h' := congrArg UInt8.toNat h
  simp only [hexDigit, UInt8.toNat_ofNat'] at h'
  split at h' <;> split at h' <;> omega

theorem toHex_inj : ∀ {l l' : List UInt8}, toHex l = toHex l' → l = l' := by
  intro l
  induction l with
  | nil =>
    intro l' h
    cases l' with
    | nil => rfl
    | cons b l' => simp [toHex] at h
  | cons b l ih =>
    intro l' h
    cases l' with
    | nil => simp [toHex] at h
    | cons b' l' =>
      simp only [toHex, List.flatMap_cons, List.cons_append, List.nil_append,
        List.cons.injEq] at h
      obtain ⟨hhi, hlo, hrest⟩ := h
      have hb := b.toNat_lt
      have hb' := b'.toNat_lt
      have e₁ := hexDigit_inj (by omega) (by omega) hhi
      have e₂ := hexDigit_inj (by omega) (by omega) hlo
      have : b = b' := UInt8.toNat_inj.mp (by omega)
      rw [this, ih hrest]

end Trv1Chain.Lib
