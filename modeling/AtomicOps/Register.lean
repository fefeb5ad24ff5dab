import AtomicOps.Integer
import AtomicOps.Order

/- The interface both branches of `atomic_ops.h` implement, what it is for, and
   the calls a client makes on one location.

   An operation acts on one location holding a `T`, whose content is its
   `bits` bits (`Atomic T α`: from the bits before, the result and the bits
   after). Each call is one atomic step, so any interleaving of any number of
   threads' calls is a sequence of steps on the location, and a run of such a
   sequence is `Call.run`.

   1. `Detail T` is `namespace detail`: seven operations, each branch one
      implementation. `Legacy T` is the four `__atomic_*` names that legacy
      code calls (the GCC builtins, or the MSVC shim in their place).
   2. `Detail.spec` and `Legacy.spec` say what the layer is for (`§4.1`): the
      location is a register of `bits` bits, every operation one
      read-modify-write of it with arithmetic modulo `2 ^ bits`, the pre-value
      returned except by `xor_fetch`, and a strong compare-exchange.
   3. `Call.exec` is the public API over a branch: the `mtk_atomic_*`
      wrappers with their default orders, and the legacy names.
   4. Over the specification, a run of additive calls loses and duplicates no
      update: the `k`-th call returns the location's value after exactly the
      first `k` updates (`run_spec_additive`). `Equivalence.lean` carries this
      to both branches. -/
namespace MtKahypar

/-- One atomic step on a location holding a `T`: from its bits, the result and
the bits after. -/
abbrev Atomic (T : IntType) (α : Type) := BitVec T.bits → α × BitVec T.bits

/-- The functions of `namespace detail`. The value parameters are values of `T`;
`atomicCompareExchange` takes and returns the bits of the caller's `*expected`. -/
structure Detail (T : IntType) where
  atomicLoad : MemoryOrder → Atomic T Int
  atomicStore : Int → MemoryOrder → Atomic T Unit
  atomicExchange : Int → MemoryOrder → Atomic T Int
  atomicFetchAdd : Int → MemoryOrder → Atomic T Int
  atomicFetchSub : Int → MemoryOrder → Atomic T Int
  atomicXorFetch : Int → MemoryOrder → Atomic T Int
  atomicCompareExchange :
    BitVec T.bits → Int → MemoryOrder → MemoryOrder → Atomic T (Bool × BitVec T.bits)

/-- The legacy names `__atomic_fetch_add`, `__atomic_fetch_sub`,
`__atomic_exchange_n` and `__atomic_compare_exchange_n`: the operand is a value
of any integer type `U`, orders are `int` codes. -/
structure Legacy (T : IntType) where
  fetchAdd : Int → Int → Atomic T Int
  fetchSub : Int → Int → Atomic T Int
  exchangeN : Int → Int → Atomic T Int
  compareExchangeN : BitVec T.bits → Int → Bool → Int → Int → Atomic T (Bool × BitVec T.bits)

variable {T : IntType}

/-- A strong compare-exchange on the bits: on a match the location takes
`desired` and `*expected` is kept; otherwise the location is kept and
`*expected` takes its bits. -/
def casBits (expected desired : BitVec T.bits) : Atomic T (Bool × BitVec T.bits) := fun m =>
  if m = expected then ((true, expected), desired) else ((false, m), m)

/-- The layer's specification: one read-modify-write of the location's bits. -/
def Detail.spec (T : IntType) : Detail T where
  atomicLoad _ m := (T.ofBits m, m)
  atomicStore v _ _ := ((), T.toBits v)
  atomicExchange v _ m := (T.ofBits m, T.toBits v)
  atomicFetchAdd v _ m := (T.ofBits m, m + T.toBits v)
  atomicFetchSub v _ m := (T.ofBits m, m - T.toBits v)
  atomicXorFetch v _ m := (T.ofBits (m ^^^ T.toBits v), m ^^^ T.toBits v)
  atomicCompareExchange e d _ _ := casBits e (T.toBits d)

/-- The legacy names' specification: the operand converted to `T`, then as `Detail.spec`. -/
def Legacy.spec (T : IntType) : Legacy T where
  fetchAdd val _ m := (T.ofBits m, m + T.toBits val)
  fetchSub val _ m := (T.ofBits m, m - T.toBits val)
  exchangeN val _ m := (T.ofBits m, T.toBits val)
  compareExchangeN e d _ _ _ := casBits e (T.toBits d)

/-! ## The public API -/

def mtkAtomicLoad (d : Detail T) (order : MemoryOrder := .seqCst) : Atomic T Int :=
  d.atomicLoad order

def mtkAtomicStore (d : Detail T) (value : Int) (order : MemoryOrder := .seqCst) : Atomic T Unit :=
  d.atomicStore value order

def mtkAtomicExchange (d : Detail T) (value : Int) (order : MemoryOrder := .seqCst) :
    Atomic T Int :=
  d.atomicExchange value order

def mtkAtomicFetchAdd (d : Detail T) (value : Int) (order : MemoryOrder := .seqCst) :
    Atomic T Int :=
  d.atomicFetchAdd value order

def mtkAtomicFetchSub (d : Detail T) (value : Int) (order : MemoryOrder := .seqCst) :
    Atomic T Int :=
  d.atomicFetchSub value order

def mtkAtomicXorFetch (d : Detail T) (value : Int) (order : MemoryOrder := .seqCst) :
    Atomic T Int :=
  d.atomicXorFetch value order

def mtkAtomicCompareExchange (d : Detail T) (expected : BitVec T.bits) (desired : Int)
    (successOrder : MemoryOrder := .seqCst) (failureOrder : MemoryOrder := .relaxed) :
    Atomic T (Bool × BitVec T.bits) :=
  d.atomicCompareExchange expected desired successOrder failureOrder

/-- `mtk_atomic_compare_exchange_n`: `expected` by value, so the caller sees
only the flag. -/
def mtkAtomicCompareExchangeN (d : Detail T) (expected desired : Int)
    (successOrder : MemoryOrder := .seqCst) (failureOrder : MemoryOrder := .relaxed) :
    Atomic T Bool := fun m =>
  let (r, m') := d.atomicCompareExchange (T.toBits expected) desired successOrder failureOrder m
  (r.1, m')

/-- A call a thread makes on the location: through the `mtk_atomic_*` API, or
through a legacy `__atomic_*` name. -/
inductive Call (T : IntType)
  | load (order : MemoryOrder)
  | store (value : Int) (order : MemoryOrder)
  | exchange (value : Int) (order : MemoryOrder)
  | fetchAdd (value : Int) (order : MemoryOrder)
  | fetchSub (value : Int) (order : MemoryOrder)
  | xorFetch (value : Int) (order : MemoryOrder)
  | compareExchange (expected : BitVec T.bits) (desired : Int) (success failure : MemoryOrder)
  | compareExchangeN (expected desired : Int) (success failure : MemoryOrder)
  | legacyFetchAdd (val : Int) (memorder : Int)
  | legacyFetchSub (val : Int) (memorder : Int)
  | legacyExchangeN (val : Int) (memorder : Int)
  | legacyCompareExchangeN (expected : BitVec T.bits) (desired : Int) (weak : Bool)
      (success failure : Int)
  deriving DecidableEq

/-- What a call returns to its caller; a compare-exchange through `T* expected`
also hands back the value `*expected` holds afterwards. -/
inductive Ret
  | none
  | value (v : Int)
  | flag (ok : Bool)
  | exchanged (ok : Bool) (expected : Int)
  deriving DecidableEq, Repr

/-- Applies `f` to the result of an atomic step. -/
def Atomic.map {α β : Type} (f : α → β) (op : Atomic T α) : Atomic T β := fun m =>
  let (a, m') := op m
  (f a, m')

/-- A call, run on the branch `d` with the legacy names `l`. -/
def Call.exec (d : Detail T) (l : Legacy T) : Call T → Atomic T Ret
  | .load o => (mtkAtomicLoad d o).map .value
  | .store v o => (mtkAtomicStore d v o).map fun _ => .none
  | .exchange v o => (mtkAtomicExchange d v o).map .value
  | .fetchAdd v o => (mtkAtomicFetchAdd d v o).map .value
  | .fetchSub v o => (mtkAtomicFetchSub d v o).map .value
  | .xorFetch v o => (mtkAtomicXorFetch d v o).map .value
  | .compareExchange e v s f =>
    (mtkAtomicCompareExchange d e v s f).map fun r => .exchanged r.1 (T.ofBits r.2)
  | .compareExchangeN e v s f => (mtkAtomicCompareExchangeN d e v s f).map .flag
  | .legacyFetchAdd v o => (l.fetchAdd v o).map .value
  | .legacyFetchSub v o => (l.fetchSub v o).map .value
  | .legacyExchangeN v o => (l.exchangeN v o).map .value
  | .legacyCompareExchangeN e v w s f =>
    (l.compareExchangeN e v w s f).map fun r => .exchanged r.1 (T.ofBits r.2)

/-- A run of calls from the location's bits `m`: each call's result, with the
location's bits after it. -/
def Call.run (exec : Call T → Atomic T Ret) : List (Call T) → BitVec T.bits →
    List (Ret × BitVec T.bits)
  | [], _ => []
  | c :: cs, m => exec c m :: run exec cs (exec c m).2

/-- The location's bits after a run of calls. -/
def Call.after (exec : Call T → Atomic T Ret) : List (Call T) → BitVec T.bits → BitVec T.bits
  | [], m => m
  | c :: cs, m => after exec cs (exec c m).2

/-- The addend of an additive call: `fetch_add` and `fetch_sub`, through the API
or a legacy name. -/
def Call.delta : Call T → Option (BitVec T.bits)
  | .fetchAdd v _ => some (T.toBits v)
  | .fetchSub v _ => some (-T.toBits v)
  | .legacyFetchAdd v _ => some (T.toBits v)
  | .legacyFetchSub v _ => some (-T.toBits v)
  | _ => none

/-! ## Runs -/

namespace Call

variable (step : Call T → Atomic T Ret)

@[simp] theorem run_nil (m : BitVec T.bits) : run step [] m = [] := rfl

@[simp] theorem run_cons (c : Call T) (cs : List (Call T)) (m : BitVec T.bits) :
    run step (c :: cs) m = step c m :: run step cs (step c m).2 := rfl

@[simp] theorem length_run (l : List (Call T)) (m : BitVec T.bits) :
    (run step l m).length = l.length := by
  induction l generalizing m with
  | nil => rfl
  | cons c cs ih => simp [ih]

/-- A run splits at any point, the second part starting where the first ends. -/
theorem run_append (l₁ l₂ : List (Call T)) (m : BitVec T.bits) :
    run step (l₁ ++ l₂) m = run step l₁ m ++ run step l₂ (after step l₁ m) := by
  induction l₁ generalizing m with
  | nil => rfl
  | cons c cs ih => simp [ih, after]

theorem after_append (l₁ l₂ : List (Call T)) (m : BitVec T.bits) :
    after step (l₁ ++ l₂) m = after step l₂ (after step l₁ m) := by
  induction l₁ generalizing m with
  | nil => rfl
  | cons c cs ih => exact ih _

/-- The location after a run is the fold of the calls' updates. -/
theorem after_eq_foldl (l : List (Call T)) (m : BitVec T.bits) :
    after step l m = l.foldl (fun m c => (step c m).2) m := by
  induction l generalizing m with
  | nil => rfl
  | cons c cs ih => exact ih _

/-- A run one call longer: the last call acts on the location the run left. -/
theorem run_concat (l : List (Call T)) (c : Call T) (m : BitVec T.bits) :
    run step (l ++ [c]) m = run step l m ++ [step c (after step l m)] := by
  rw [run_append]; rfl

/-- Under the specification an additive call returns the current value and adds
its addend. -/
theorem exec_spec_of_delta {c : Call T} {d : BitVec T.bits} (h : c.delta = some d)
    (m : BitVec T.bits) :
    exec (Detail.spec T) (Legacy.spec T) c m = (.value (T.ofBits m), m + d) := by
  cases c <;> simp only [delta, Option.some.injEq, reduceCtorEq] at h <;> subst h <;>
    simp [Call.exec, Atomic.map, Detail.spec, Legacy.spec, mtkAtomicFetchAdd, mtkAtomicFetchSub,
      BitVec.sub_toAdd]

/-- **No update is lost or duplicated.** In a run of additive calls under the
specification, the `k`-th call returns the value the location holds after exactly
the first `k` addends, and leaves it holding the first `k + 1`. -/
theorem run_spec_additive (calls : List (Call T)) (ds : List (BitVec T.bits))
    (h : calls.map delta = ds.map some) (m : BitVec T.bits) (k : Nat) (hk : k < calls.length) :
    (run (exec (Detail.spec T) (Legacy.spec T)) calls m)[k]? =
      some (.value (T.ofBits (m + (ds.take k).sum)), m + (ds.take (k + 1)).sum) := by
  induction calls generalizing ds m k with
  | nil => simp at hk
  | cons c cs ih =>
    cases ds with
    | nil => simp at h
    | cons d ds =>
      simp only [List.map_cons, List.cons.injEq] at h
      rw [run_cons, exec_spec_of_delta h.1]
      cases k with
      | zero => simp
      | succ k =>
        simp only [List.length_cons, Nat.add_lt_add_iff_right] at hk
        simp [ih ds h.2 (m + d) k hk, BitVec.add_assoc]

/-- Under the specification, additive calls leave the location plus all their addends. -/
theorem after_spec_additive (l : List (Call T)) (hl : ∀ c ∈ l, c.delta ≠ none) (m : BitVec T.bits) :
    after (exec (Detail.spec T) (Legacy.spec T)) l m = m + (l.filterMap delta).sum := by
  induction l generalizing m with
  | nil => simp [after]
  | cons c cs ih =>
    obtain ⟨d, hd⟩ := Option.ne_none_iff_exists'.1 (hl c (List.mem_cons_self c cs))
    rw [after, exec_spec_of_delta hd, ih (fun c' h' => hl c' (List.mem_cons_of_mem c h')),
      List.filterMap_cons_some hd, List.sum_cons, BitVec.add_assoc]

/-- The whole run of `run_spec_additive`: the results are the running sums. -/
theorem run_spec_eq_sums (calls : List (Call T)) (ds : List (BitVec T.bits))
    (h : calls.map delta = ds.map some) (m : BitVec T.bits) :
    run (exec (Detail.spec T) (Legacy.spec T)) calls m =
      (List.range calls.length).map fun k =>
        (.value (T.ofBits (m + (ds.take k).sum)), m + (ds.take (k + 1)).sum) := by
  refine List.ext_getElem? fun k => ?_
  by_cases hk : k < calls.length
  · rw [run_spec_additive calls ds h m k hk, List.getElem?_map, List.getElem?_range hk]; rfl
  · rw [List.getElem?_eq_none (by simp; omega), List.getElem?_eq_none (by simp; omega)]

/-- The deltas of a list of additive calls. -/
theorem map_delta_eq (l : List (Call T)) (h : ∀ c ∈ l, c.delta ≠ none) :
    l.map delta = (l.filterMap delta).map some := by
  rw [List.map_filterMap_some_eq_filter_map_isSome, List.filter_eq_self.2 fun d hd => ?_]
  obtain ⟨c, hc, rfl⟩ := List.mem_map.1 hd
  exact Option.isSome_iff_ne_none.2 (h c hc)

/-- The first `k` of `n` ones add up to `k`. -/
theorem sum_take_replicate_one {w k n : Nat} (hk : k ≤ n) :
    ((List.replicate n (1 : BitVec w)).take k).sum = BitVec.ofNat w k := by
  rw [List.take_replicate, min_eq_left hk, List.sum_replicate, nsmul_one]; rfl

/-- Under the specification, calls that each add one return `m, m + 1, …` in turn. -/
theorem run_spec_delta_one (l : List (Call T)) (hl : ∀ c ∈ l, c.delta = some 1) (m : BitVec T.bits) :
    (run (exec (Detail.spec T) (Legacy.spec T)) l m).map Prod.fst =
      (List.range l.length).map fun k => .value (T.ofBits (m + BitVec.ofNat T.bits k)) := by
  have h : l.map delta = (List.replicate l.length (1 : BitVec T.bits)).map some := by
    rw [List.map_replicate, List.eq_replicate_iff]
    exact ⟨List.length_map _ _, by simpa using hl⟩
  rw [run_spec_eq_sums l _ h m, List.map_map]
  exact List.map_congr_left fun k hk => by
    simp only [Function.comp_apply, sum_take_replicate_one (Nat.le_of_lt (List.mem_range.1 hk))]

end Call

end MtKahypar
