import Mathlib

/- The bit utilities of `namespace mt_kahypar::utils`.

   `popcount_64` and `lowest_set_bit_64` call an intrinsic of each toolchain:
   `__popcnt64` and `__builtin_popcountll` both count set bits;
   `_BitScanForward64` and `__builtin_ctzll` both give the index of the lowest
   set bit, neither of them for a zero word, where MSVC's branch returns 64
   and the GCC branch's result is undefined. `log2` and `is_power_of_2` are
   plain `constexpr` code on `int` and `uint64_t`.

   What is proved: `log2` is total and is `⌊log₂ x⌋` on every positive `int`,
   inverting `1 << k` on every power of two an `int` holds (`log2_floor_spec`);
   it never exceeds 30 on an `int`, so `1 + log2(x >> 1)` never overflows
   (`log2_le_thirty`). `is_power_of_2` agrees with the set-bit count on every
   word, and both say "exactly one bit" (`isPowerOf2_iff_popcount64`). The
   lowest-bit scan is the lowest set bit, or the sentinel 64 on MSVC
   (`lowestSetBit64Msvc_spec`). -/
namespace MtKahypar.Utils

/-! ## Set bits of a word -/

/-- The number of set bits among the low `w` bits of `x`. -/
def countBits : Nat → Nat → Nat
  | 0, _ => 0
  | w + 1, x => x % 2 + countBits w (x / 2)

/-- `popcount_64`: the number of set bits of the word. -/
def popcount64 (x : BitVec 64) : Nat := countBits 64 x.toNat

/-- The index of the lowest set bit among the low `w` bits of `x`, and `w` when
none is set. -/
def scanForward : Nat → Nat → Nat
  | 0, _ => 0
  | w + 1, x => if x % 2 = 1 then 0 else scanForward w (x / 2) + 1

/-- What `_BitScanForward64` and `__builtin_ctzll` compute: the index of the lowest
set bit, defined for a nonzero word only. -/
def lowestSetBitIndex (x : BitVec 64) : Option Nat :=
  if x = 0 then none else some (scanForward 64 x.toNat)

/-- `lowest_set_bit_64`, MSVC branch: the index `_BitScanForward64` reports, or 64. -/
def lowestSetBit64Msvc (x : BitVec 64) : Nat :=
  match lowestSetBitIndex x with
  | some index => index
  | none => 64

/-- `lowest_set_bit_64`, GCC/Clang branch: `__builtin_ctzll(x)`, undefined (`none`)
for a zero word. -/
def lowestSetBit64Gcc (x : BitVec 64) : Option Nat := lowestSetBitIndex x

/-- `is_power_of_2`. -/
def isPowerOf2 (x : BitVec 64) : Bool := x != 0 && (x &&& (x - 1)) == 0

/-! ## `log2` -/

/-- `log2` on an `int`: `x <= 1 ? 0 : 1 + log2(x >> 1)`. -/
def log2 (x : Int) : Int := if x ≤ 1 then 0 else 1 + log2 (x >>> (1 : Nat))
termination_by x.toNat
decreasing_by rw [Int.shiftRight_eq_div_pow]; omega

/-- `a << n` on `int`, two's complement. -/
def shiftLeftInt (a n : Int) : Int := (BitVec.ofInt 32 a <<< n.toNat).toInt

/-- `INT_MAX`. -/
def intMax : Int := 2147483647

/-! ## Counting bits -/

theorem countBits_eq_zero_iff {w x : Nat} (hx : x < 2 ^ w) : countBits w x = 0 ↔ x = 0 := by
  induction w generalizing x with
  | zero => simp_all [countBits]
  | succ w ih =>
    have := @ih (x / 2) (by rw [Nat.pow_succ] at hx; omega)
    simp only [countBits]; omega

/-- Exactly one of the low `w` bits is set when the number is a power of two below `2 ^ w`. -/
theorem countBits_eq_one_iff {w x : Nat} (hx : x < 2 ^ w) :
    countBits w x = 1 ↔ ∃ k < w, x = 2 ^ k := by
  induction w generalizing x with
  | zero => simp_all [countBits]
  | succ w ih =>
    have hx2 : x / 2 < 2 ^ w := by rw [Nat.pow_succ] at hx; omega
    have h0 := countBits_eq_zero_iff hx2
    have h1 := ih hx2
    simp only [countBits]
    constructor
    · intro h
      rcases Nat.mod_two_eq_zero_or_one x with he | ho
      · obtain ⟨k, hk, hk'⟩ := h1.1 (by omega)
        exact ⟨k + 1, by omega, by rw [Nat.pow_succ]; omega⟩
      · exact ⟨0, by omega, by omega⟩
    · rintro ⟨k, hk, rfl⟩
      cases k with
      | zero => simpa using h0
      | succ j =>
        have hj : 2 ^ (j + 1) / 2 = 2 ^ j := by rw [Nat.pow_succ]; omega
        rw [h1.2 ⟨j, by omega, hj⟩, Nat.pow_succ]; omega

/-- `x & (x - 1)` clears the lowest set bit, so it is zero exactly on powers of two. -/
theorem and_sub_one_eq_zero_iff {x : Nat} (hx : 0 < x) : x &&& (x - 1) = 0 ↔ ∃ k, x = 2 ^ k := by
  constructor
  · induction x using Nat.strong_induction_on with
    | _ x ih =>
      intro h
      have h2 : x / 2 &&& (x - 1) / 2 = 0 := by rw [← Nat.and_div_two, h]
      rcases Nat.mod_two_eq_zero_or_one x with hx2 | hx2
      · rw [show (x - 1) / 2 = x / 2 - 1 by omega] at h2
        obtain ⟨k, hk⟩ := ih (x / 2) (by omega) (by omega) h2
        exact ⟨k + 1, by rw [Nat.pow_succ]; omega⟩
      · rw [show (x - 1) / 2 = x / 2 by omega, Nat.and_self] at h2
        exact ⟨0, by omega⟩
  · rintro ⟨k, rfl⟩
    rw [Nat.and_pow_two_sub_one_eq_mod, Nat.mod_self]

theorem isPowerOf2_iff (x : BitVec 64) : isPowerOf2 x = true ↔ ∃ k, x.toNat = 2 ^ k := by
  have hx : x ≠ 0 ↔ 0 < x.toNat := by rw [Ne, BitVec.toNat_eq]; simp; omega
  simp only [isPowerOf2, Bool.and_eq_true, bne_iff_ne, beq_iff_eq, hx]
  by_cases h0 : 0 < x.toNat
  · have hs : (x - 1).toNat = x.toNat - 1 := by rw [BitVec.toNat_sub]; simp; omega
    rw [BitVec.toNat_eq, BitVec.toNat_and, hs, ← and_sub_one_eq_zero_iff h0]
    simp [h0]
  · simp only [h0, false_and, false_iff, not_exists]
    exact fun k hk => h0 (hk ▸ Nat.two_pow_pos k)

/-- A word that is a power of two is one of the 64 powers below `2 ^ 64`. -/
theorem lt_of_toNat_eq_two_pow {x : BitVec 64} {k : Nat} (hk : x.toNat = 2 ^ k) : k < 64 :=
  (Nat.pow_lt_pow_iff_right (by decide)).1 (hk ▸ x.isLt)

/-- **The bit trick agrees with the set-bit count on every word.** -/
theorem isPowerOf2_iff_popcount64 (x : BitVec 64) :
    (isPowerOf2 x = true ↔ popcount64 x = 1) ∧ (popcount64 x = 1 ↔ ∃ k < 64, x.toNat = 2 ^ k) := by
  have hc : popcount64 x = 1 ↔ ∃ k < 64, x.toNat = 2 ^ k := countBits_eq_one_iff x.isLt
  rw [isPowerOf2_iff, hc]
  exact ⟨⟨fun ⟨k, hk⟩ => ⟨k, lt_of_toNat_eq_two_pow hk, hk⟩, fun ⟨k, _, hk⟩ => ⟨k, hk⟩⟩, Iff.rfl⟩

example : popcount64 0xFFFFFFFFFFFFFFFF = 64 ∧ isPowerOf2 0 = false ∧ isPowerOf2 64 = true := by
  decide

/-! ## The lowest set bit -/

/-- On a nonzero number below `2 ^ w` the scan stops at a set bit with only clear
bits below it. -/
theorem scanForward_spec {w x : Nat} (hx : x < 2 ^ w) (h0 : x ≠ 0) :
    scanForward w x < w ∧ x.testBit (scanForward w x) = true ∧
      ∀ j < scanForward w x, x.testBit j = false := by
  induction w generalizing x with
  | zero => omega
  | succ w ih =>
    rw [scanForward]
    split
    · next h1 => exact ⟨by omega, by simpa [Nat.testBit_zero] using h1, by omega⟩
    · next h1 =>
      obtain ⟨hlt, hset, hclear⟩ := ih (x := x / 2) (by rw [Nat.pow_succ] at hx; omega) (by omega)
      refine ⟨by omega, by rwa [Nat.testBit_succ], fun j hj => ?_⟩
      cases j with
      | zero => simpa [Nat.testBit_zero] using h1
      | succ j => rw [Nat.testBit_succ]; exact hclear j (by omega)

/-- **`lowest_set_bit_64` on MSVC**: the sentinel 64 on zero, otherwise a set bit
with every bit below it clear. -/
theorem lowestSetBit64Msvc_spec (x : BitVec 64) :
    (x = 0 → lowestSetBit64Msvc x = 64) ∧
    (x ≠ 0 → lowestSetBit64Msvc x < 64 ∧ x.getLsbD (lowestSetBit64Msvc x) = true ∧
      ∀ j < lowestSetBit64Msvc x, x.getLsbD j = false) := by
  refine ⟨fun h => by simp [lowestSetBit64Msvc, lowestSetBitIndex, h], fun h => ?_⟩
  have h0 : x.toNat ≠ 0 := by rwa [Ne, BitVec.toNat_eq] at h
  simp only [lowestSetBit64Msvc, lowestSetBitIndex, h, if_false, ← BitVec.testBit_toNat]
  exact scanForward_spec x.isLt h0

example : lowestSetBit64Msvc 8 = 3 ∧ lowestSetBit64Msvc 0 = 64 := by decide

/-! ## `log2` -/

/-- The recursion computes `Nat.log 2` at every `int`, `0` for `x ≤ 1`. -/
theorem log2_eq_log (x : Int) : log2 x = Nat.log 2 x.toNat := by
  induction x using log2.induct with
  | case1 x h => rw [log2, if_pos h, Nat.log_of_lt (by omega)]; rfl
  | case2 x h ih =>
    have hs : (x >>> (1 : Nat)).toNat = x.toNat / 2 := by rw [Int.shiftRight_eq_div_pow]; omega
    rw [log2, if_neg h, ih, hs,
      Nat.log_of_one_lt_of_le (b := 2) (n := x.toNat) (by decide) (by omega)]
    push_cast; omega

theorem shiftLeftInt_one {k : Nat} (hk : k ≤ 30) : shiftLeftInt 1 k = 2 ^ k := by
  have hlt : 2 ^ k < 2 ^ 31 := Nat.pow_lt_pow_right (by decide) (by omega)
  have hn : (BitVec.ofInt 32 1 <<< (k : Int).toNat).toNat = 2 ^ k := by
    rw [Int.toNat_ofNat, BitVec.toNat_shiftLeft, show (BitVec.ofInt 32 1).toNat = 1 from rfl,
      Nat.shiftLeft_eq, Nat.one_mul, Nat.mod_eq_of_lt (by omega)]
  rw [shiftLeftInt, BitVec.toInt_eq_toNat_cond, hn, if_pos (by omega)]
  norm_cast

/-- **`log2` terminates at every `int` with `⌊log₂ x⌋` for positive `x`**, and
`1 << log2(x)` gives back every power of two an `int` holds. -/
theorem log2_floor_spec :
    (∀ x : Int, log2 x = Nat.log 2 x.toNat) ∧
    (∀ x : Int, 1 ≤ x → 0 ≤ log2 x ∧ 2 ^ (log2 x).toNat ≤ x ∧ x < 2 ^ ((log2 x).toNat + 1)) ∧
    (∀ k : Nat, (2 : Int) ^ k ≤ intMax → shiftLeftInt 1 (log2 (2 ^ k)) = 2 ^ k) := by
  refine ⟨log2_eq_log, fun x hx => ?_, fun k hk => ?_⟩
  · have h1 := Nat.pow_log_le_self 2 (x := x.toNat) (by omega)
    have h2 := Nat.lt_pow_succ_log_self (b := 2) (by decide) x.toNat
    have hx' : (x.toNat : Int) = x := Int.toNat_of_nonneg (by omega)
    rw [log2_eq_log, Int.toNat_ofNat]
    refine ⟨Int.ofNat_nonneg _, ?_, ?_⟩ <;> rw [← hx'] <;> exact_mod_cast ‹_›
  · have hk' : 2 ^ k ≤ 2147483647 := by simp only [intMax] at hk; exact_mod_cast hk
    have hk30 : k < 31 :=
      (Nat.pow_lt_pow_iff_right (by decide)).1 (hk'.trans_lt (by norm_num : 2147483647 < 2 ^ 31))
    rw [log2_eq_log, show ((2 : Int) ^ k).toNat = 2 ^ k by norm_cast, Nat.log_pow (by decide)]
    exact shiftLeftInt_one (by omega)

example : log2 8 = 3 := by rw [log2, log2, log2, log2]; decide

/-- No `int` has a `log2` above 30: the `1 + log2(x >> 1)` in the recursion never
overflows. -/
theorem log2_le_thirty {x : Int} (hx : x ≤ intMax) : log2 x ≤ 30 := by
  rw [log2_eq_log]
  rcases Nat.eq_zero_or_pos x.toNat with h | h
  · simp [h]
  · have : Nat.log 2 x.toNat < 31 :=
      Nat.log_lt_of_lt_pow h.ne' (by simp [intMax] at hx; omega)
    omega

theorem log2_intMax_le_thirty : intMax ≤ intMax ∧ log2 intMax ≤ 30 :=
  ⟨le_rfl, log2_le_thirty le_rfl⟩

end MtKahypar.Utils
