import AtomicOps.Register

/- The MSVC branch of `namespace detail`, and the compatibility shim.

   Each function dispatches on `sizeof(T)` to the `_Interlocked*` intrinsic of
   the same width (`interlockedType`: `char`, `short`, `long`, `long long`),
   reaches the location through `reinterpret_cast<volatile I*>(ptr)`, converts
   its operands with `static_cast<I>` and the result back with
   `static_cast<T>`. There is no plain atomic load: `atomic_load` is
   `_InterlockedOr(ptr, 0)`. `atomic_fetch_sub` adds the negated operand,
   `atomic_xor_fetch` recomputes the post-value as `old_val ^ value`, and
   `atomic_compare_exchange` compares the returned value with `*expected` in `T`.
   `_ReadWriteBarrier()` is a compiler fence and has no effect on values:
   `atomic_load`, `atomic_store` and `atomic_exchange` return where they put it
   (`Barriers`), the one use they make of their order; `detail` hands on the
   values alone.

   The shim gives legacy code the `__atomic_*` names: `mtk_map_gcc_order` on
   the codes, `static_cast<T>(val)` on the operand, then the `mtk_atomic_*`
   call; `weak` is ignored.

   Every function refines the specification (`detail_eq_spec`,
   `shim_eq_spec`): the round trips through `I` never lose a bit because the
   dispatch picks an `I` exactly as wide as `T` (`interlockedType_bits`), and the
   negation and the promoted `^` agree with the specification modulo
   `2 ^ bits`. The negation's own defined-ness is `FetchSub.lean`. -/
namespace MtKahypar.Msvc

/-- The operand type of the intrinsic that `if constexpr (sizeof(T) == ...)` selects. -/
def interlockedType (size : Nat) : IntType :=
  if size = 1 then .char else if size = 2 then .short else if size = 4 then .long else .longLong

/-- An intrinsic of operand type `I` through `reinterpret_cast<volatile I*>(ptr)`
on a location holding a `T`: it reads the location's bytes as an `I`, writes
back the `I` value `f old`, and returns `old`. -/
def interlocked {T : IntType} (I : IntType) (f : Int → Int) : Atomic T Int := fun m =>
  (I.ofBits m, BitVec.ofInt T.bits (f (I.ofBits m)))

@[simp] theorem interlocked_map {T : IntType} {α : Type} (I : IntType) (f : Int → Int)
    (g : Int → α) (m : BitVec T.bits) :
    (interlocked I f).map g m = (g (I.ofBits m), BitVec.ofInt T.bits (f (I.ofBits m))) := rfl

/-! ## The intrinsics, as the new value from the old -/

/-- `_InterlockedOr8`, `_InterlockedOr16`, `_InterlockedOr`, `_InterlockedOr64`. -/
def interlockedOr (I : IntType) (mask : Int) (old : Int) : Int := I.or old mask

/-- `_InterlockedExchange8` and its wider forms. -/
def interlockedExchange (value : Int) (_old : Int) : Int := value

/-- `_InterlockedExchangeAdd8` and its wider forms: wrapping addition in `I`. -/
def interlockedExchangeAdd (I : IntType) (value : Int) (old : Int) : Int := I.cast (old + value)

/-- `_InterlockedXor8` and its wider forms. -/
def interlockedXor (I : IntType) (value : Int) (old : Int) : Int := I.xor old value

/-- `_InterlockedCompareExchange8(p, exchange, comparand)` and its wider forms. -/
def interlockedCompareExchange (exchange comparand : Int) (old : Int) : Int :=
  if old = comparand then exchange else old

/-! ## Barriers -/

/-- Whether a call puts `_ReadWriteBarrier()` before its intrinsic, and after it. -/
structure Barriers where
  before : Bool
  after : Bool
  deriving DecidableEq, Repr

/-- The test of `atomic_load`, for a barrier after the intrinsic:
`order == Acquire || order == SeqCst || order == AcqRel`. -/
def loadBarrier (order : MemoryOrder) : Bool :=
  order == .acquire || order == .seqCst || order == .acqRel

/-- The test of `atomic_store` and `atomic_exchange`, for a barrier before the
intrinsic: `order == Release || order == SeqCst || order == AcqRel`. -/
def storeBarrier (order : MemoryOrder) : Bool :=
  order == .release || order == .seqCst || order == .acqRel

/-! ## `namespace detail` -/

section Detail

variable (T : IntType)

/-- `atomic_load`: the value `_InterlockedOr(ptr, 0)` returns, and the barriers. -/
def atomicLoad (order : MemoryOrder) : Atomic T (Int × Barriers) :=
  let I := interlockedType T.bytes
  (interlocked I (interlockedOr I 0)).map fun old => (T.cast old, ⟨false, loadBarrier order⟩)

/-- `atomic_store`: the barriers around `_InterlockedExchange(ptr, value)`. -/
def atomicStore (value : Int) (order : MemoryOrder) : Atomic T Barriers :=
  let I := interlockedType T.bytes
  (interlocked I (interlockedExchange (I.cast value))).map fun _ => ⟨storeBarrier order, false⟩

/-- `atomic_exchange`: the previous value, and the barriers. -/
def atomicExchange (value : Int) (order : MemoryOrder) : Atomic T (Int × Barriers) :=
  let I := interlockedType T.bytes
  (interlocked I (interlockedExchange (I.cast value))).map fun old =>
    (T.cast old, ⟨storeBarrier order, false⟩)

def atomicFetchAdd (value : Int) (_order : MemoryOrder) : Atomic T Int :=
  let I := interlockedType T.bytes
  (interlocked I (interlockedExchangeAdd I (I.cast value))).map T.cast

/-- The operand `atomic_fetch_sub` hands on,
`static_cast<T>(-static_cast<std::make_signed_t<T>>(value))`, with the unary
minus wrapping in the promoted type as MSVC compiles it. -/
def fetchSubOperand (value : Int) : Int :=
  T.cast (T.makeSigned.promote.cast (-T.makeSigned.cast value))

def atomicFetchSub (value : Int) (order : MemoryOrder) : Atomic T Int :=
  atomicFetchAdd T (fetchSubOperand T value) order

def atomicXorFetch (value : Int) (_order : MemoryOrder) : Atomic T Int :=
  let I := interlockedType T.bytes
  (interlocked I (interlockedXor I (I.cast value))).map fun old =>
    T.cast (T.promote.xor (T.cast old) value)

def atomicCompareExchange (expected : BitVec T.bits) (desired : Int)
    (_successOrder _failureOrder : MemoryOrder) : Atomic T (Bool × BitVec T.bits) :=
  let I := interlockedType T.bytes
  (interlocked I (interlockedCompareExchange (I.cast desired) (I.cast (T.ofBits expected)))).map
    fun old =>
      let oldVal := T.cast old
      if oldVal = T.ofBits expected then (true, expected) else (false, T.toBits oldVal)

def detail : Detail T where
  atomicLoad order := (atomicLoad T order).map Prod.fst
  atomicStore value order := (atomicStore T value order).map fun _ => ()
  atomicExchange value order := (atomicExchange T value order).map Prod.fst
  atomicFetchAdd := atomicFetchAdd T
  atomicFetchSub := atomicFetchSub T
  atomicXorFetch := atomicXorFetch T
  atomicCompareExchange := atomicCompareExchange T

/-- The shim's `__atomic_fetch_add`, `__atomic_fetch_sub`, `__atomic_exchange_n`
and `__atomic_compare_exchange_n`. -/
def shim : Legacy T where
  fetchAdd val memorder := mtkAtomicFetchAdd (detail T) (T.cast val) (mtkMapGccOrder memorder)
  fetchSub val memorder := mtkAtomicFetchSub (detail T) (T.cast val) (mtkMapGccOrder memorder)
  exchangeN val memorder := mtkAtomicExchange (detail T) (T.cast val) (mtkMapGccOrder memorder)
  compareExchangeN expected desired _weak successOrder failureOrder :=
    mtkAtomicCompareExchange (detail T) expected (T.cast desired) (mtkMapGccOrder successOrder)
      (mtkMapGccOrder failureOrder)

end Detail

/-! ## Refinement of the specification -/

/-- The dispatch picks an intrinsic exactly as wide as `T`. -/
theorem interlockedType_bits (T : IntType) : (interlockedType T.bytes).bits = T.bits := by
  rcases T.bytes_mem with h | h | h | h <;>
    simp [interlockedType, h, IntType.bits, IntType.char, IntType.short, IntType.long,
      IntType.longLong]

variable {T : IntType}

theorem bits_le_interlockedType : T.bits ≤ (interlockedType T.bytes).bits :=
  (interlockedType_bits T).ge

/-- Storing a value through the intrinsic's type keeps every bit of `T`. -/
@[simp] theorem ofInt_interlockedType_cast (x : Int) :
    BitVec.ofInt T.bits ((interlockedType T.bytes).cast x) = BitVec.ofInt T.bits x :=
  IntType.ofInt_cast _ bits_le_interlockedType x

/-- The intrinsic's comparison with `static_cast<I>(*expected)` succeeds exactly
when the location holds the bits of `*expected`. -/
theorem ofBits_eq_cast_iff (m e : BitVec T.bits) :
    (interlockedType T.bytes).ofBits m = (interlockedType T.bytes).cast (T.ofBits e) ↔ m = e := by
  set I := interlockedType T.bytes
  constructor
  · intro h
    simpa [IntType.ofInt_cast I bits_le_interlockedType] using congrArg (BitVec.ofInt T.bits) h
  · rintro rfl
    have h : T.ofBits m ≡ I.ofBits m [ZMOD 2 ^ I.bits] := by
      rw [interlockedType_bits]
      exact (T.ofBits_modEq m).trans (I.ofBits_modEq m).symm
    rw [I.cast_congr h, I.cast_ofBits_of_bits_eq (interlockedType_bits T)]

/-- The operand of `atomic_fetch_sub` is the negated value, modulo the width. -/
theorem fetchSubOperand_modEq (v : Int) : fetchSubOperand T v ≡ -v [ZMOD 2 ^ T.bits] :=
  calc fetchSubOperand T v ≡ T.makeSigned.promote.cast (-T.makeSigned.cast v) [ZMOD 2 ^ T.bits] :=
        T.cast_modEq _
    _ ≡ -T.makeSigned.cast v [ZMOD 2 ^ T.bits] :=
        (IntType.cast_modEq _ _).of_dvd (pow_dvd_pow 2 T.makeSigned.bits_le_promote)
    _ ≡ -v [ZMOD 2 ^ T.bits] := (T.makeSigned.cast_modEq v).neg

theorem atomicLoad_eq (o : MemoryOrder) (m : BitVec T.bits) :
    atomicLoad T o m = ((T.ofBits m, ⟨false, loadBarrier o⟩), m) := by
  simp only [atomicLoad, interlocked_map, interlockedOr, IntType.or_zero, IntType.cast_ofBits,
    ofInt_interlockedType_cast, IntType.ofInt_ofBits]

theorem atomicStore_eq (v : Int) (o : MemoryOrder) (m : BitVec T.bits) :
    atomicStore T v o m = (⟨storeBarrier o, false⟩, T.toBits v) := by
  simp only [atomicStore, interlocked_map, interlockedExchange, ofInt_interlockedType_cast,
    IntType.toBits]

theorem atomicExchange_eq (v : Int) (o : MemoryOrder) (m : BitVec T.bits) :
    atomicExchange T v o m = ((T.ofBits m, ⟨storeBarrier o, false⟩), T.toBits v) := by
  simp only [atomicExchange, interlocked_map, interlockedExchange, IntType.cast_ofBits,
    ofInt_interlockedType_cast, IntType.toBits]

theorem atomicFetchAdd_eq (v : Int) (o : MemoryOrder) (m : BitVec T.bits) :
    atomicFetchAdd T v o m = (T.ofBits m, m + T.toBits v) := by
  simp only [atomicFetchAdd, interlocked_map, interlockedExchangeAdd, IntType.cast_ofBits,
    ofInt_interlockedType_cast, BitVec.ofInt_add, IntType.ofInt_ofBits, IntType.toBits]

theorem atomicFetchSub_eq (v : Int) (o : MemoryOrder) (m : BitVec T.bits) :
    atomicFetchSub T v o m = (T.ofBits m, m - T.toBits v) := by
  rw [atomicFetchSub, atomicFetchAdd_eq, IntType.toBits,
    IntType.ofInt_eq_ofInt_iff.2 (fetchSubOperand_modEq v), IntType.ofInt_neg, BitVec.sub_toAdd]
  rfl

theorem atomicXorFetch_eq (v : Int) (o : MemoryOrder) (m : BitVec T.bits) :
    atomicXorFetch T v o m = (T.ofBits (m ^^^ T.toBits v), m ^^^ T.toBits v) := by
  simp only [atomicXorFetch, interlocked_map, interlockedXor, IntType.cast_ofBits,
    IntType.ofInt_xor _ bits_le_interlockedType, IntType.ofInt_ofBits, ofInt_interlockedType_cast]
  rw [IntType.cast, IntType.toBits_promote_xor]; rfl

theorem atomicCompareExchange_eq (e : BitVec T.bits) (d : Int) (s f : MemoryOrder)
    (m : BitVec T.bits) : atomicCompareExchange T e d s f m = casBits e (T.toBits d) m := by
  simp only [atomicCompareExchange, interlocked_map, interlockedCompareExchange,
    IntType.cast_ofBits, IntType.ofBits_inj, ofBits_eq_cast_iff, casBits]
  split <;> simp [IntType.toBits]

theorem detail_eq_spec : detail T = Detail.spec T := by
  simp only [detail, Detail.spec, Detail.mk.injEq]
  refine ⟨?_, ?_, ?_, ?_, ?_, ?_, ?_⟩ <;> funext
  · simp only [Atomic.map, atomicLoad_eq]
  · simp only [Atomic.map, atomicStore_eq]
  · simp only [Atomic.map, atomicExchange_eq]
  · exact atomicFetchAdd_eq ..
  · exact atomicFetchSub_eq ..
  · exact atomicXorFetch_eq ..
  · exact atomicCompareExchange_eq ..

theorem shim_eq_spec : shim T = Legacy.spec T := by
  simp only [shim, Legacy.spec, Legacy.mk.injEq, mtkAtomicFetchAdd, mtkAtomicFetchSub,
    mtkAtomicExchange, mtkAtomicCompareExchange, detail]
  refine ⟨?_, ?_, ?_, ?_⟩ <;> funext <;>
    simp [Atomic.map, atomicFetchAdd_eq, atomicFetchSub_eq, atomicExchange_eq,
      atomicCompareExchange_eq]

end MtKahypar.Msvc
