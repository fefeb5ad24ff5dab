import Mathlib

/- The integer types of `atomic_ops.h` and the conversions between them.

   Every operation of the header moves a value of the caller's type `T` through
   conversions: `static_cast<char>(value)` into an `_Interlocked*` operand, the
   intrinsic's result back with `static_cast<T>(...)`, `std::make_signed_t<T>`
   and integral promotion in `atomic_fetch_sub`, promotion again in
   `old_val ^ value`. A type is its size and its signedness (`IntType`); a value
   is the mathematical integer (`Int`), as the C++ standard states conversions;
   an object in memory is its `8 * sizeof(T)` bits. Conversions and promoted
   arithmetic are two's complement, modulo `2 ^ (8 * sizeof(T))` (C++20
   [conv.integral]); where the abstract machine instead has undefined behaviour
   (signed overflow of unary minus) it is modelled separately, in
   `FetchSub.lean`.

   The data model is MSVC's (LLP64): `char` is signed, `long` is 32 bits.

   Correspondence (C++ ↔ Lean):
     `sizeof(T)`, `std::is_signed_v<T>`   ↔ `IntType.bytes`, `IntType.signed`
     `static_cast<T>(x)` on integers      ↔ `IntType.cast`
     the object representation of a `T`   ↔ `IntType.toBits`, read back by `IntType.ofBits`
     `std::make_signed_t<T>`              ↔ `IntType.makeSigned`
     integral promotion                   ↔ `IntType.promote`
     `a ^ b`, `a | b` after promotion      ↔ `IntType.xor`, `IntType.or` -/
namespace MtKahypar

/-- A non-`bool` integer type of the target: its size in bytes and whether it is
signed. Every integer type of the supported targets has 1, 2, 4 or 8 bytes. -/
structure IntType where
  bytes : Nat
  signed : Bool
  bytes_mem : bytes = 1 ∨ bytes = 2 ∨ bytes = 4 ∨ bytes = 8
  deriving DecidableEq

namespace IntType

def char : IntType := ⟨1, true, by decide⟩
def short : IntType := ⟨2, true, by decide⟩
def int : IntType := ⟨4, true, by decide⟩
def unsignedInt : IntType := ⟨4, false, by decide⟩
/-- `long` is 32 bits on MSVC. -/
def long : IntType := ⟨4, true, by decide⟩
def longLong : IntType := ⟨8, true, by decide⟩

/-- The width of the object representation. -/
def bits (T : IntType) : Nat := 8 * T.bytes

/-- The object representation of the value `x` as a `T`: its low `bits` bits. -/
def toBits (T : IntType) (x : Int) : BitVec T.bits := BitVec.ofInt T.bits x

/-- The value of `T` that the bits `b` hold, read at the width of `b`: two's
complement when `T` is signed. -/
def ofBits (T : IntType) {n : Nat} (b : BitVec n) : Int :=
  if T.signed then b.toInt else b.toNat

/-- `static_cast<T>(x)`: the value of `T` whose representation is the low bits of `x`. -/
def cast (T : IntType) (x : Int) : Int := T.ofBits (T.toBits x)

/-- `std::make_signed_t<T>`: the signed type of the same size. -/
def makeSigned (T : IntType) : IntType := { T with signed := true }

/-- Integral promotion: a type narrower than `int` becomes `int`, which holds all its values. -/
def promote (T : IntType) : IntType := if T.bytes < int.bytes then int else T

/-- `a ^ b` on two values of the (promoted) type `P`. -/
def xor (P : IntType) (a b : Int) : Int := P.ofBits (P.toBits a ^^^ P.toBits b)

/-- `a | b` on two values of the (promoted) type `P`. -/
def or (P : IntType) (a b : Int) : Int := P.ofBits (P.toBits a ||| P.toBits b)

/-! ## Sizes -/

@[simp] theorem makeSigned_bits (T : IntType) : T.makeSigned.bits = T.bits := rfl

theorem bits_le_promote (T : IntType) : T.bits ≤ T.promote.bits := by
  unfold promote bits; split <;> simp_all [int]; omega

/-! ## Values and representations -/

variable {n m : Nat}

/-- The value held by some bits is their unsigned reading, modulo the width. -/
theorem ofBits_modEq (T : IntType) (b : BitVec n) : T.ofBits b ≡ b.toNat [ZMOD 2 ^ n] := by
  unfold ofBits
  split
  · rw [BitVec.toInt_eq_toNat_bmod]
    simpa [Int.ModEq] using Int.bmod_emod (x := (b.toNat : Int)) (m := 2 ^ n)
  · rfl

theorem natCast_toNat_ofInt (x : Int) : ((BitVec.ofInt n x).toNat : Int) = x % 2 ^ n := by
  rw [BitVec.toNat_ofInt, Int.toNat_of_nonneg (Int.emod_nonneg _ (by
    exact_mod_cast (Nat.two_pow_pos n).ne'))]
  push_cast; rfl

/-- Two integers have the same representation exactly when they agree modulo the width. -/
theorem ofInt_eq_ofInt_iff {x y : Int} :
    BitVec.ofInt n x = BitVec.ofInt n y ↔ x ≡ y [ZMOD 2 ^ n] := by
  rw [BitVec.toNat_eq, ← Int.natCast_inj, natCast_toNat_ofInt, natCast_toNat_ofInt]; rfl

/-- Reading bits as a value of any type and writing that value back at the same
width gives the same bits: a reinterpretation never changes the object. -/
@[simp] theorem ofInt_ofBits (T : IntType) (b : BitVec n) : BitVec.ofInt n (T.ofBits b) = b := by
  apply BitVec.eq_of_toNat_eq
  rw [← Int.natCast_inj, natCast_toNat_ofInt, T.ofBits_modEq b,
    Int.emod_eq_of_lt (by omega) (by exact_mod_cast b.isLt)]

@[simp] theorem toBits_ofBits (T I : IntType) (b : BitVec T.bits) : T.toBits (I.ofBits b) = b :=
  I.ofInt_ofBits b

theorem ofBits_inj (T : IntType) {a b : BitVec n} : T.ofBits a = T.ofBits b ↔ a = b :=
  ⟨fun h => by rw [← T.ofInt_ofBits a, h, T.ofInt_ofBits], congrArg _⟩

theorem cast_modEq (T : IntType) (x : Int) : T.cast x ≡ x [ZMOD 2 ^ T.bits] :=
  (T.ofBits_modEq _).trans (by rw [Int.ModEq, toBits, natCast_toNat_ofInt, Int.emod_emod])

/-- Converting through a type at least as wide as `n` bits leaves the low `n` bits alone. -/
@[simp] theorem ofInt_cast (T : IntType) (h : n ≤ T.bits) (x : Int) :
    BitVec.ofInt n (T.cast x) = BitVec.ofInt n x :=
  ofInt_eq_ofInt_iff.2 ((T.cast_modEq x).of_dvd (pow_dvd_pow 2 h))

/-- Converting the value some `T`-wide bits hold, under any reading, to `T` reads them as a `T`. -/
@[simp] theorem cast_ofBits (T I : IntType) (b : BitVec T.bits) : T.cast (I.ofBits b) = T.ofBits b := by
  rw [cast, toBits, ofInt_ofBits]

theorem cast_ofBits_of_bits_eq (I : IntType) (h : I.bits = n) (b : BitVec n) :
    I.cast (I.ofBits b) = I.ofBits b := by
  subst h; exact cast_ofBits I I b

/-- `static_cast<T>` depends only on the residue modulo the width. -/
theorem cast_congr (T : IntType) {x y : Int} (h : x ≡ y [ZMOD 2 ^ T.bits]) : T.cast x = T.cast y := by
  rw [cast, cast, toBits, toBits, ofInt_eq_ofInt_iff.2 h]

theorem ofInt_sub (x y : Int) : BitVec.ofInt n (x - y) = BitVec.ofInt n x - BitVec.ofInt n y := by
  rw [← BitVec.add_sub_cancel (BitVec.ofInt n (x - y)) (BitVec.ofInt n y), ← BitVec.ofInt_add,
    Int.sub_add_cancel]

theorem ofInt_setWidth (h : n ≤ m) (x : Int) :
    (BitVec.ofInt m x).setWidth n = BitVec.ofInt n x := by
  apply BitVec.eq_of_toNat_eq
  rw [BitVec.toNat_setWidth, ← Int.natCast_inj, Int.natCast_mod, natCast_toNat_ofInt,
    natCast_toNat_ofInt]
  push_cast
  exact Int.emod_emod_of_dvd _ (pow_dvd_pow 2 h)

/-- The low `n` bits of a promoted `^` are the `^` of the low `n` bits. -/
theorem ofInt_xor (P : IntType) (h : n ≤ P.bits) (a b : Int) :
    BitVec.ofInt n (P.xor a b) = BitVec.ofInt n a ^^^ BitVec.ofInt n b := by
  rw [← ofInt_setWidth h, xor, ofInt_ofBits, BitVec.setWidth_xor, toBits, toBits,
    ofInt_setWidth h, ofInt_setWidth h]

theorem ofInt_neg (x : Int) : BitVec.ofInt n (-x) = -BitVec.ofInt n x := by
  rw [← Int.zero_sub, ofInt_sub, BitVec.sub_toAdd]
  exact BitVec.zero_add _

/-! ## Arithmetic on the representation

What the operations compute on values, read back on the bits of `T`. -/

@[simp] theorem toBits_cast (T : IntType) (x : Int) : T.toBits (T.cast x) = T.toBits x :=
  T.ofInt_cast le_rfl x

@[simp] theorem cast_cast (T : IntType) (x : Int) : T.cast (T.cast x) = T.cast x := by
  rw [cast, toBits_cast]; rfl

theorem toBits_ofBits_add (T : IntType) (m : BitVec T.bits) (v : Int) :
    T.toBits (T.ofBits m + v) = m + T.toBits v := by
  rw [toBits, BitVec.ofInt_add, ofInt_ofBits]; rfl

theorem toBits_ofBits_sub (T : IntType) (m : BitVec T.bits) (v : Int) :
    T.toBits (T.ofBits m - v) = m - T.toBits v := by
  rw [toBits, ofInt_sub, ofInt_ofBits]; rfl

/-- `a ^ v` computed after promotion, then stored in a `T`, is the `^` of the bits. -/
theorem toBits_promote_xor (T : IntType) (m : BitVec T.bits) (v : Int) :
    T.toBits (T.promote.xor (T.ofBits m) v) = m ^^^ T.toBits v := by
  rw [toBits, ofInt_xor _ T.bits_le_promote, ofInt_ofBits]; rfl

/-! ## Ranges of signed types -/

theorem cast_of_signed {T : IntType} (hT : T.signed = true) (x : Int) :
    T.cast x = x.bmod (2 ^ T.bits) := by
  simp [cast, ofBits, hT, toBits]

/-- A signed type holds exactly the integers in `[-2 ^ (bits - 1), 2 ^ (bits - 1))`. -/
theorem cast_eq_self_iff_of_signed {T : IntType} (hT : T.signed = true) {x : Int} :
    T.cast x = x ↔ -2 ^ (T.bits - 1) ≤ x ∧ x < 2 ^ (T.bits - 1) := by
  rw [cast_of_signed hT, Int.bmod_def]
  rcases T.bytes_mem with h | h | h | h <;> simp only [bits, h] <;> push_cast <;> split <;> omega

theorem cast_mem_of_signed {T : IntType} (hT : T.signed = true) (x : Int) :
    -2 ^ (T.bits - 1) ≤ T.cast x ∧ T.cast x < 2 ^ (T.bits - 1) :=
  (cast_eq_self_iff_of_signed hT).1 (T.cast_cast x)

theorem or_zero (P : IntType) (a : Int) : P.or a 0 = P.cast a := by
  simp [or, cast, toBits]

end IntType

end MtKahypar
