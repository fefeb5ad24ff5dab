import AtomicOps.Equivalence
import AtomicOps.FetchSub

/- What one call may do, on each toolchain.

   `Toolchain.exec` computes one outcome for each call. Two calls of the header
   have others:
     * MSVC's `atomic_fetch_sub` negates its operand on the abstract machine
       (`FetchSub.lean`). At the one delta of a wide type where that overflows
       the behaviour is undefined: any result, and any content after it. The
       API name and the shim's `__atomic_fetch_sub` both reach it.
     * Under the GCC builtins a legacy `__atomic_compare_exchange_n` with `weak`
       set may fail spuriously (`Gcc.spuriousFailure`). The branch's own
       compare-exchange passes `weak = false`; the MSVC shim ignores `weak`.

   `Toolchain.checkedExec` is a call on the abstract machine, `none` where it is
   undefined, and `Toolchain.Outcome` the relation of every outcome a call may
   have. A call is `definite` when it has just one.

   What is proved:
     1. `Outcome.exec_mem` — the outcome `exec` computes is always allowed.
     2. `Outcome.eq_exec` — a definite call has no other.
     3. `Outcome.casFrom` — a compare-exchange from `e` that succeeds found `e`
        and left other bits; one that fails, spuriously or not, left the
        location as it was.
   `Threads.lean` runs threads on this relation. -/
namespace MtKahypar

variable {T : IntType}

/-- The `weak` flag of a legacy `__atomic_compare_exchange_n`; every other call is strong. -/
def Call.weak : Call T → Bool
  | .legacyCompareExchangeN _ _ weak _ _ => weak
  | _ => false

/-- A compare-exchange, under any of its three names, that expects the bits `e`
and would store other bits. -/
def Call.casFrom (e : BitVec T.bits) : Call T → Bool
  | .compareExchange e' d _ _ => e' == e && T.toBits d != e
  | .compareExchangeN e' d _ _ => T.toBits e' == e && T.toBits d != e
  | .legacyCompareExchangeN e' d _ _ _ => e' == e && T.toBits d != e
  | _ => false

/-- Whether a result reports a successful compare-exchange. -/
def Ret.succeeded : Ret → Bool
  | .exchanged ok _ => ok
  | .flag ok => ok
  | _ => false

/-- Under the specification a compare-exchange from `e` succeeds exactly on `e`,
the location is off `e` afterwards either way, and a failure leaves it alone. -/
theorem Call.exec_spec_casFrom {e : BitVec T.bits} {c : Call T} (hc : c.casFrom e = true)
    (m : BitVec T.bits) :
    (exec (Detail.spec T) (Legacy.spec T) c m).1.succeeded = decide (m = e) ∧
      (exec (Detail.spec T) (Legacy.spec T) c m).2 ≠ e ∧
      (m ≠ e → (exec (Detail.spec T) (Legacy.spec T) c m).2 = m) := by
  cases c <;> simp only [casFrom, Bool.and_eq_true, beq_iff_eq, bne_iff_ne, ne_eq,
    Bool.false_eq_true] at hc <;> obtain ⟨rfl, hd⟩ := hc <;>
    simp only [exec, Atomic.map, mtkAtomicCompareExchange, mtkAtomicCompareExchangeN,
      Detail.spec, Legacy.spec, casBits, Ret.succeeded] <;> split <;> simp_all

namespace Toolchain

/-- A call on the abstract machine: `none` is undefined behaviour. MSVC's
`atomic_fetch_sub` is `Msvc.checkedAtomicFetchSub`, also under the shim's name;
every other call is what `exec` computes. -/
def checkedExec : Toolchain → Call T → BitVec T.bits → Option (Ret × BitVec T.bits)
  | .msvc, .fetchSub v o, m =>
    (Msvc.checkedAtomicFetchSub T v o m).map fun r => (.value r.1, r.2)
  | .msvc, .legacyFetchSub v memorder, m =>
    (Msvc.checkedAtomicFetchSub T (T.cast v) (mtkMapGccOrder memorder) m).map fun r =>
      (.value r.1, r.2)
  | tc, c, m => some (tc.exec T c m)

/-- Whether a call has one outcome on the toolchain: its behaviour is defined,
and it cannot fail spuriously. -/
def definite : Toolchain → Call T → Bool
  | .msvc, .fetchSub v _ => (Msvc.checkedFetchSubOperand T v).isSome
  | .msvc, .legacyFetchSub v _ => (Msvc.checkedFetchSubOperand T (T.cast v)).isSome
  | .msvc, _ => true
  | .gccClang, c => !c.weak

/-- The outcomes a call may have from the location's bits `m`: its result, and
the bits after it. -/
inductive Outcome (tc : Toolchain) (c : Call T) (m : BitVec T.bits) :
    Ret × BitVec T.bits → Prop
  /-- What the abstract machine defines. -/
  | defined {o : Ret × BitVec T.bits} : tc.checkedExec c m = some o → Outcome tc c m o
  /-- Undefined behaviour allows anything. -/
  | undefined (o : Ret × BitVec T.bits) : tc.checkedExec c m = none → Outcome tc c m o
  /-- A weak compare-exchange under the GCC builtins fails spuriously. -/
  | spurious : tc = .gccClang → c.weak = true →
    Outcome tc c m ((Gcc.spuriousFailure T).map (fun r => .exchanged r.1 (T.ofBits r.2)) m)

/-- Where the abstract machine defines a call, it is what `exec` computes. -/
theorem checkedExec_eq_some {tc : Toolchain} {c : Call T} {m : BitVec T.bits}
    {o : Ret × BitVec T.bits} (h : tc.checkedExec c m = some o) : o = tc.exec T c m := by
  cases tc <;> cases c <;> simp only [checkedExec, Option.some.injEq, Option.map_eq_some'] at h <;>
    first
    | exact h.symm
    | obtain ⟨r, hr, rfl⟩ := h; rw [Msvc.checkedAtomicFetchSub_eq_some hr]; rfl

theorem isSome_checkedExec {tc : Toolchain} {c : Call T} (h : tc.definite c = true)
    (m : BitVec T.bits) : (tc.checkedExec c m).isSome := by
  cases tc <;> cases c <;>
    simp_all [definite, checkedExec, Msvc.checkedAtomicFetchSub, Option.isSome_map]

/-- Every call may have the outcome `exec` computes. -/
theorem Outcome.exec_mem (tc : Toolchain) (c : Call T) (m : BitVec T.bits) :
    tc.Outcome c m (tc.exec T c m) := by
  cases h : tc.checkedExec c m with
  | none => exact .undefined _ h
  | some o => exact checkedExec_eq_some h ▸ .defined h

/-- A definite call has no other outcome. -/
theorem Outcome.eq_exec {tc : Toolchain} {c : Call T} {m : BitVec T.bits}
    {o : Ret × BitVec T.bits} (hc : tc.definite c = true) (h : tc.Outcome c m o) :
    o = tc.exec T c m := by
  cases h with
  | defined h => exact checkedExec_eq_some h
  | undefined _ h => simpa [h] using isSome_checkedExec hc m
  | spurious htc hw => subst htc; simp [definite, hw] at hc

/-- A compare-exchange from `e` that succeeds found `e` and left other bits; one
that fails, spuriously or not, left the location as it was. -/
theorem Outcome.casFrom {tc : Toolchain} {c : Call T} {m e : BitVec T.bits}
    {o : Ret × BitVec T.bits} (hc : c.casFrom e = true) (h : tc.Outcome c m o) :
    (o.1.succeeded = true ∧ m = e ∧ o.2 ≠ e) ∨ (o.1.succeeded = false ∧ o.2 = m) := by
  cases h with
  | defined h =>
    obtain ⟨h1, h2, h3⟩ := Call.exec_spec_casFrom hc m
    rw [checkedExec_eq_some h, exec_eq_spec]
    by_cases hm : m = e
    · exact .inl ⟨h1.trans (decide_eq_true hm), hm, h2⟩
    · exact .inr ⟨h1.trans (decide_eq_false hm), h3 hm⟩
  | undefined _ h => cases tc <;> cases c <;> simp_all [checkedExec, Call.casFrom]
  | spurious => exact .inr ⟨rfl, rfl⟩

end Toolchain

end MtKahypar
