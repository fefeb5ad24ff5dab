import AtomicOps.Msvc

/- Whether the operand of MSVC's `atomic_fetch_sub` is defined.

   `detail::atomic_fetch_sub` negates `static_cast<std::make_signed_t<T>>(value)`
   ("Subtraction is addition of negated value"). Unary minus promotes its
   operand first: a 1- or 2-byte signed value becomes an `int`, which holds its
   negation; a 4- or 8-byte one stays in its own type, where the negation of the
   minimum is not representable. That is signed overflow, undefined behaviour on
   the abstract machine (`IntType.checkedNeg`), whatever code MSVC then emits.

   So the operand is defined at every delta of a narrow type, and at every delta
   of a wide type but the one whose signed reading is the minimum
   (`checkedFetchSubOperand_eq_none_iff`): `INT_MIN` for `int`, `0x80000000u` for
   `unsigned int`, the latter also through the shim's `__atomic_fetch_sub`.
   Where it is defined it is the wrapping operand `fetchSubOperand`, the one the
   equivalence with the GCC builtin is proved for
   (`checkedAtomicFetchSub_eq_some`). The GCC/Clang builtin `__atomic_fetch_sub`
   wraps at every operand. `Toolchain.Outcome` lets an undefined call do
   anything. -/
namespace MtKahypar

/-- Unary minus on a value `a` of the promoted type `P` on the abstract machine:
`none` where a signed `P` cannot hold `-a` (undefined behaviour); unsigned
negation wraps. -/
def IntType.checkedNeg (P : IntType) (a : Int) : Option Int :=
  if P.signed then (if P.cast (-a) = -a then some (-a) else none) else some (P.cast (-a))

namespace Msvc

/-- `static_cast<T>(-static_cast<std::make_signed_t<T>>(value))` on the abstract
machine. -/
def checkedFetchSubOperand (T : IntType) (value : Int) : Option Int :=
  (T.makeSigned.promote.checkedNeg (T.makeSigned.cast value)).map T.cast

/-- `detail::atomic_fetch_sub` on the abstract machine: `none` is undefined behaviour. -/
def checkedAtomicFetchSub (T : IntType) (value : Int) (order : MemoryOrder) (m : BitVec T.bits) :
    Option (Int × BitVec T.bits) :=
  (checkedFetchSubOperand T value).map fun d => atomicFetchAdd T d order m

theorem checkedNeg_eq_some {P : IntType} {a r : Int} (h : P.checkedNeg a = some r) :
    r = P.cast (-a) := by
  unfold IntType.checkedNeg at h
  split at h
  · split at h
    · next he => exact (Option.some.inj h).symm.trans he.symm
    · cases h
  · exact (Option.some.inj h).symm

/-- Where the abstract machine defines the operand, it is the one MSVC computes. -/
theorem checkedFetchSubOperand_eq_some {T : IntType} {v d : Int}
    (h : checkedFetchSubOperand T v = some d) : d = fetchSubOperand T v := by
  obtain ⟨r, hr, rfl⟩ := Option.map_eq_some'.1 h
  rw [checkedNeg_eq_some hr]; rfl

/-- Where the abstract machine defines `atomic_fetch_sub`, it is the modelled call. -/
theorem checkedAtomicFetchSub_eq_some {T : IntType} {v : Int} {o : MemoryOrder}
    {m : BitVec T.bits} {r : Int × BitVec T.bits} (h : checkedAtomicFetchSub T v o m = some r) :
    r = atomicFetchSub T v o m := by
  obtain ⟨d, hd, rfl⟩ := Option.map_eq_some'.1 h
  rw [checkedFetchSubOperand_eq_some hd]; rfl

/-- **The negation overflows at exactly one delta of each wide type.** -/
theorem checkedFetchSubOperand_eq_none_iff (T : IntType) (v : Int) :
    checkedFetchSubOperand T v = none ↔ 4 ≤ T.bytes ∧ T.makeSigned.cast v = -2 ^ (T.bits - 1) := by
  have hs := IntType.cast_mem_of_signed (T := T.makeSigned) rfl v
  have hP : T.makeSigned.promote.signed = true := by unfold IntType.promote; split <;> rfl
  simp only [checkedFetchSubOperand, Option.map_eq_none', IntType.checkedNeg, hP, if_true,
    ite_eq_right_iff, reduceCtorEq, imp_false, IntType.cast_eq_self_iff_of_signed hP]
  generalize T.makeSigned.cast v = s at hs ⊢
  unfold IntType.promote
  rcases T.bytes_mem with h | h | h | h <;>
    simp only [IntType.bits, IntType.makeSigned, IntType.int, h, Nat.reduceMul, Nat.reduceLT,
      Nat.add_one_sub_one, Int.reducePow, lt_self_iff_false, ↓reduceIte] at hs ⊢ <;> omega

/-- `mtk_atomic_fetch_sub<int>(ptr, INT_MIN)` negates `INT_MIN` in `int`, and the
shim's `__atomic_fetch_sub(ptr, 0x80000000u, __ATOMIC_SEQ_CST)` on an `unsigned int`
negates the same bits: undefined behaviour, from every content of the location. -/
theorem checkedAtomicFetchSub_int_min (o : MemoryOrder) (m : BitVec IntType.int.bits)
    (m' : BitVec IntType.unsignedInt.bits) :
    checkedAtomicFetchSub IntType.int (-2147483648) o m = none ∧
      checkedAtomicFetchSub IntType.unsignedInt (IntType.unsignedInt.cast 2147483648)
        (mtkMapGccOrder atomicSeqCst) m' = none := by
  simp only [checkedAtomicFetchSub, Option.map_eq_none']
  decide

end Msvc

end MtKahypar
