import AtomicOps.Register

/- The GCC/Clang branch of `namespace detail`, and the `__atomic_*` builtins it
   calls.

   The builtins act on the `T` the pointer points to, as GCC documents them:
   `__atomic_fetch_add` is `{ tmp = *ptr; *ptr += val; return tmp; }` with
   two's complement wrap-around, `__atomic_xor_fetch` is
   `{ *ptr ^= val; return *ptr; }`, and `__atomic_compare_exchange` compares the
   contents of `*ptr` with those of `*expected`, writing `desired` on a match and
   the current contents into `*expected` otherwise. That is the outcome of a
   strong call, and one a weak call may have; a weak call may also fail
   spuriously (`spuriousFailure`), on targets with only LL/SC. The branch's
   `atomic_compare_exchange` passes `weak = false`; a legacy caller chooses
   `weak`, and `Toolchain.Outcome` allows the spurious failure exactly when it
   is set. Orders have no effect on values.

   Each `detail` function passes its arguments to one builtin with
   `to_gcc_order`; on this toolchain the legacy `__atomic_*` names are the
   builtins themselves, their operand converted to `T` as a builtin parameter.
   Both refine the specification exactly (`detail_eq_spec`, `legacy_eq_spec`). -/
namespace MtKahypar.Gcc

variable (T : IntType)

/-! ## The builtins on a `T` location -/

/-- `__atomic_load_n(ptr, memorder)`. -/
def atomicLoadN (_memorder : Int) : Atomic T Int := fun m => (T.ofBits m, m)

/-- `__atomic_store_n(ptr, val, memorder)`. -/
def atomicStoreN (val : Int) (_memorder : Int) : Atomic T Unit := fun _ => ((), T.toBits val)

/-- `__atomic_exchange_n(ptr, val, memorder)`. -/
def atomicExchangeN (val : Int) (_memorder : Int) : Atomic T Int := fun m =>
  (T.ofBits m, T.toBits val)

/-- `__atomic_fetch_add(ptr, val, memorder)`. -/
def atomicFetchAdd (val : Int) (_memorder : Int) : Atomic T Int := fun m =>
  (T.ofBits m, T.toBits (T.ofBits m + val))

/-- `__atomic_fetch_sub(ptr, val, memorder)`. -/
def atomicFetchSub (val : Int) (_memorder : Int) : Atomic T Int := fun m =>
  (T.ofBits m, T.toBits (T.ofBits m - val))

/-- `__atomic_xor_fetch(ptr, val, memorder)`: the `^` in the promoted type,
stored back as a `T`. -/
def atomicXorFetch (val : Int) (_memorder : Int) : Atomic T Int := fun m =>
  let r := T.cast (T.promote.xor (T.ofBits m) val)
  (r, T.toBits r)

/-- `__atomic_compare_exchange(ptr, expected, &desired, weak, success, failure)`,
on the contents of `*expected` and `desired`: the outcome every call may have. -/
def atomicCompareExchange (expected desired : BitVec T.bits) (_weak : Bool)
    (_successMemorder _failureMemorder : Int) : Atomic T (Bool × BitVec T.bits) := fun m =>
  if m = expected then ((true, expected), desired) else ((false, m), m)

/-- The other outcome a weak `__atomic_compare_exchange` may have: it fails
although `*ptr` matches, writes the current contents into `*expected` and leaves
`*ptr` as it was. -/
def spuriousFailure : Atomic T (Bool × BitVec T.bits) := fun m => ((false, m), m)

/-- `__atomic_compare_exchange_n`: `desired` by value. -/
def atomicCompareExchangeN (expected : BitVec T.bits) (desired : Int) (weak : Bool)
    (successMemorder failureMemorder : Int) : Atomic T (Bool × BitVec T.bits) :=
  atomicCompareExchange T expected (T.toBits desired) weak successMemorder failureMemorder

/-! ## `namespace detail` and the legacy names -/

def detail : Detail T where
  atomicLoad order := atomicLoadN T (toGccOrder order)
  atomicStore value order := atomicStoreN T value (toGccOrder order)
  atomicExchange value order := atomicExchangeN T value (toGccOrder order)
  atomicFetchAdd value order := atomicFetchAdd T value (toGccOrder order)
  atomicFetchSub value order := atomicFetchSub T value (toGccOrder order)
  atomicXorFetch value order := atomicXorFetch T value (toGccOrder order)
  atomicCompareExchange expected desired successOrder failureOrder :=
    atomicCompareExchange T expected (T.toBits desired) false (toGccOrder successOrder)
      (toGccOrder failureOrder)

def legacy : Legacy T where
  fetchAdd val memorder := atomicFetchAdd T (T.cast val) memorder
  fetchSub val memorder := atomicFetchSub T (T.cast val) memorder
  exchangeN val memorder := atomicExchangeN T (T.cast val) memorder
  compareExchangeN expected desired weak successMemorder failureMemorder :=
    atomicCompareExchangeN T expected (T.cast desired) weak successMemorder failureMemorder

/-! ## Refinement of the specification -/

variable {T}

theorem atomicXorFetch_eq (v o : Int) (m : BitVec T.bits) :
    atomicXorFetch T v o m = (T.ofBits (m ^^^ T.toBits v), m ^^^ T.toBits v) := by
  simp only [atomicXorFetch, IntType.toBits_cast, IntType.toBits_promote_xor, IntType.cast,
    IntType.toBits_ofBits]

theorem detail_eq_spec : detail T = Detail.spec T := by
  simp only [detail, Detail.spec, Detail.mk.injEq]
  refine ⟨rfl, rfl, rfl, ?_, ?_, ?_, rfl⟩ <;> funext v o m
  · simp [atomicFetchAdd, IntType.toBits_ofBits_add]
  · simp [atomicFetchSub, IntType.toBits_ofBits_sub]
  · exact atomicXorFetch_eq v _ m

theorem legacy_eq_spec : legacy T = Legacy.spec T := by
  simp only [legacy, Legacy.spec, Legacy.mk.injEq]
  refine ⟨?_, ?_, ?_, ?_⟩ <;> funext <;>
    simp [atomicFetchAdd, atomicFetchSub, atomicExchangeN, atomicCompareExchangeN,
      atomicCompareExchange, casBits, IntType.toBits_ofBits_add, IntType.toBits_ofBits_sub]

end MtKahypar.Gcc
