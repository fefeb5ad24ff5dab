import AtomicOps.Outcome

/- Threads sharing one location, in every execution.

   The header's operations are called by the threads of one process on shared
   locations. `Threads` is that system for one location: every thread has a
   program of calls; at each step one thread makes its next call, one atomic
   step; the configuration keeps the history of the calls the location took,
   with thread and result. `Reach` is every configuration an execution reaches
   when each call may have any outcome the toolchain allows it
   (`Toolchain.Outcome`); a `schedule` is an execution in which every call has
   the outcome `Toolchain.exec` computes. When every call of the programs is
   definite, every execution is a schedule (`Reach.exists_schedule`).

   What is proved, on either toolchain, for every program of every thread:
     1. `reach_linearizable` — when every call is definite, in every execution
        the history interleaves the programs, each in program order, and every
        result and the location's content are those of the specification
        register running the history in order.
     2. `reach_additive_results` — when every call is a definite `fetch_add` or
        `fetch_sub` (API or legacy name), each call receives the initial value
        plus the deltas of the calls the location took before it;
     3. `reach_additive_mem` — and an execution that completes every program
        leaves the initial content plus every delta: no interleaving loses an
        update.
     4. `schedule_xorFetch_mem` — in every schedule, `xor_fetch` toggles leave
        the initial content with every mask applied.
     5. `schedule_tickets` — in every schedule where every call adds one, the
        calls receive `m, m + 1, …` in the order the location took them,
        whichever thread made them: no ticket is skipped, and none repeats
        while at most `2 ^ bits` are drawn.
     6. `reach_compareExchange_winner` — when every call is a compare-exchange
        that expects the initial bits and would change them, in every
        execution, spurious failures included, either no call has succeeded
        and the location holds its initial bits, or exactly one has and it does
        not; when no call can fail spuriously, the call the location takes
        first is the one.

   3 and 4 rest on `mem_eq_after_flatten`: when the calls' updates commute, a
   complete schedule leaves what running the programs one after the other
   leaves, since its history is a permutation of them (`history_perm`). -/
namespace MtKahypar

/-- Threads calling on one location: the calls each thread has still to make,
the calls the location took so far with their thread and result, and the
location's bits. -/
structure Threads (T : IntType) where
  todo : Nat → List (Call T)
  history : List (Nat × Call T × Ret)
  mem : BitVec T.bits

/-- The mask of an `xor_fetch` call. -/
def Call.mask {T : IntType} : Call T → Option (BitVec T.bits)
  | .xorFetch v _ => some (T.toBits v)
  | _ => none

namespace Threads

variable {T : IntType}

/-- Threads `0, …, progs.length - 1` about to run their programs on a location
holding `m`. -/
def start (progs : List (List (Call T))) (m : BitVec T.bits) : Threads T :=
  ⟨fun i => progs.getD i [], [], m⟩

/-- Thread `i` makes its next call, one atomic step of `exec`; a thread with no
call left does not move. -/
def step (exec : Call T → Atomic T Ret) (s : Threads T) (i : Nat) : Threads T :=
  match s.todo i with
  | [] => s
  | c :: rest =>
    { todo := Function.update s.todo i rest
      history := s.history ++ [(i, c, (exec c s.mem).1)]
      mem := (exec c s.mem).2 }

/-- The configuration after a schedule: the threads that step, in order. -/
def schedule (exec : Call T → Atomic T Ret) (s : Threads T) (σ : List Nat) : Threads T :=
  σ.foldl (step exec) s

theorem schedule_concat (exec : Call T → Atomic T Ret) (s : Threads T) (σ : List Nat) (i : Nat) :
    s.schedule exec (σ ++ [i]) = (s.schedule exec σ).step exec i :=
  List.foldl_concat ..

/-- Every thread has made all its calls. -/
def Done (progs : List (List (Call T))) (s : Threads T) : Prop :=
  ∀ i < progs.length, s.todo i = []

instance (progs : List (List (Call T))) (s : Threads T) : Decidable (Done progs s) :=
  decidable_of_iff (∀ i < progs.length, (s.todo i).isEmpty = true) (by simp [Done])

/-- What holds after every schedule: each thread's calls in the history followed
by its remaining calls make up its program, and the results and the location are
those of running the history's calls in order from `m`. -/
structure Linearized (exec : Call T → Atomic T Ret) (progs : List (List (Call T)))
    (m : BitVec T.bits) (s : Threads T) : Prop where
  program_order : ∀ i, (s.history.filter (·.1 == i)).map (·.2.1) ++ s.todo i = progs.getD i []
  results_eq : (Call.run exec (s.history.map (·.2.1)) m).map Prod.fst = s.history.map (·.2.2)
  mem_eq : s.mem = Call.after exec (s.history.map (·.2.1)) m

/-! ## Every schedule is a sequential run -/

section Linearized

variable {exec : Call T → Atomic T Ret} {progs : List (List (Call T))} {m : BitVec T.bits}

theorem linearized_start : Linearized exec progs m (start progs m) :=
  ⟨fun _ => rfl, rfl, rfl⟩

theorem Linearized.step {s : Threads T} (h : Linearized exec progs m s) (i : Nat) :
    Linearized exec progs m (s.step exec i) := by
  unfold Threads.step
  split
  · exact h
  · next c rest hi =>
    refine ⟨fun j => ?_, ?_, ?_⟩
    · by_cases hj : i = j
      · subst hj
        simpa [hi] using h.program_order i
      · simpa [hj, Function.update_noteq (Ne.symm hj)] using h.program_order j
    · simp [Call.run_concat, h.results_eq, ← h.mem_eq]
    · simp [Call.after_append, Call.after, h.mem_eq]

theorem Linearized.schedule {s : Threads T} (h : Linearized exec progs m s) (σ : List Nat) :
    Linearized exec progs m (s.schedule exec σ) := by
  induction σ generalizing s with
  | nil => exact h
  | cons i σ ih => exact ih (h.step i)

theorem mem_flatten_of_mem_getD {ps : List (List (Call T))} {i : Nat} {c : Call T}
    (h : c ∈ ps.getD i []) : c ∈ ps.flatten := by
  rw [List.getD_eq_getElem?_getD] at h
  cases hq : ps[i]? with
  | none => simp [hq] at h
  | some p => rw [hq, Option.getD_some] at h; exact List.mem_flatten_of_mem (List.getElem?_mem hq) h

/-- Every call of the history comes from some program. -/
theorem Linearized.mem_flatten {s : Threads T} (h : Linearized exec progs m s) {c : Call T}
    (hc : c ∈ s.history.map (·.2.1)) : c ∈ progs.flatten := by
  obtain ⟨e, he, rfl⟩ := List.mem_map.1 hc
  exact mem_flatten_of_mem_getD (h.program_order e.1 ▸
    List.mem_append_left _ (List.mem_map_of_mem _ (List.mem_filter.2 ⟨he, by simp⟩)))

/-- In a complete schedule each thread's calls in the history are its whole program. -/
theorem Linearized.thread_calls {s : Threads T} (h : Linearized exec progs m s) (hd : Done progs s)
    (i : Nat) : (s.history.filter (·.1 == i)).map (·.2.1) = progs.getD i [] := by
  have hp := h.program_order i
  by_cases hi : i < progs.length
  · rwa [hd i hi, List.append_nil] at hp
  · rw [List.getD_eq_getElem?_getD, List.getElem?_eq_none (by omega)] at hp ⊢
    exact List.append_eq_nil.1 hp |>.1

end Linearized

/-! ## Executions -/

/-- The configurations threads running `progs` from `m` reach on a toolchain: at
each step some thread makes its next call, with any outcome the toolchain allows. -/
inductive Reach (tc : Toolchain) (progs : List (List (Call T))) (m : BitVec T.bits) :
    Threads T → Prop
  | init : Reach tc progs m (start progs m)
  | step {s : Threads T} {i : Nat} {c : Call T} {rest : List (Call T)}
      {o : Ret × BitVec T.bits} :
    Reach tc progs m s → s.todo i = c :: rest → tc.Outcome c s.mem o →
    Reach tc progs m ⟨Function.update s.todo i rest, s.history ++ [(i, c, o.1)], o.2⟩

section Reach

variable {tc : Toolchain} {progs : List (List (Call T))} {m : BitVec T.bits} {s : Threads T}

theorem Reach.step_exec (h : Reach tc progs m s) (i : Nat) :
    Reach tc progs m (s.step (tc.exec T) i) := by
  unfold Threads.step
  split
  · exact h
  · next c rest hi => exact h.step hi (Toolchain.Outcome.exec_mem ..)

/-- Every schedule is an execution. -/
theorem reach_schedule (σ : List Nat) :
    Reach tc progs m ((start progs m).schedule (tc.exec T) σ) := by
  suffices ∀ s, Reach tc progs m s → Reach tc progs m (s.schedule (tc.exec T) σ) from
    this _ .init
  induction σ with
  | nil => exact fun _ h => h
  | cons i σ ih => exact fun _ h => ih _ (h.step_exec i)

/-- Every call a thread has still to make comes from the programs. -/
theorem Reach.mem_flatten (h : Reach tc progs m s) {i : Nat} {c : Call T} (hc : c ∈ s.todo i) :
    c ∈ progs.flatten := by
  induction h generalizing i with
  | init => exact mem_flatten_of_mem_getD hc
  | @step s j c' rest o _ hj _ ih =>
    by_cases hij : i = j
    · subst hij
      simp only [Function.update_same] at hc
      exact ih (hj ▸ List.mem_cons_of_mem c' hc)
    · simp only [Function.update_noteq hij] at hc
      exact ih hc

/-- When every call of the programs is definite, every execution is a schedule. -/
theorem Reach.exists_schedule (hdef : ∀ c ∈ progs.flatten, tc.definite c = true)
    (h : Reach tc progs m s) : ∃ σ, s = (start progs m).schedule (tc.exec T) σ := by
  induction h with
  | init => exact ⟨[], rfl⟩
  | @step s i c rest o hs hi ho ih =>
    obtain ⟨σ, rfl⟩ := ih
    obtain rfl := ho.eq_exec (hdef c (hs.mem_flatten (hi ▸ List.mem_cons_self c rest)))
    refine ⟨σ ++ [i], ?_⟩
    rw [schedule_concat, Threads.step, hi]

end Reach

/-! ## Complete schedules -/

/-- Every call of the programs with its thread, thread by thread from thread `i`. -/
def labelled : Nat → List (List (Call T)) → List (Nat × Call T)
  | _, [] => []
  | i, p :: ps => p.map (i, ·) ++ labelled (i + 1) ps

theorem map_snd_labelled (i : Nat) (ps : List (List (Call T))) :
    (labelled i ps).map Prod.snd = ps.flatten := by
  induction ps generalizing i with
  | nil => rfl
  | cons p ps ih => simp [labelled, ih, Function.comp_def]

theorem filter_labelled (i j : Nat) (ps : List (List (Call T))) :
    (labelled i ps).filter (·.1 == j) = (if i ≤ j then ps.getD (j - i) [] else []).map (j, ·) := by
  induction ps generalizing i with
  | nil => simp [labelled]
  | cons p ps ih =>
    rw [labelled, List.filter_append, ih, List.filter_map]
    rcases Nat.lt_trichotomy i j with hij | rfl | hij
    · have : j - i = j - (i + 1) + 1 := by omega
      simp [Function.comp_def, (beq_eq_false_iff_ne).2 (Nat.ne_of_lt hij), hij.le,
        Nat.succ_le_of_lt hij, this]
    · simp [Function.comp_def]
    · simp [Function.comp_def, Nat.ne_of_gt hij, Nat.not_le_of_lt hij,
        Nat.not_le_of_lt (Nat.lt_succ_of_lt hij)]

/-- Two lists of labelled items with the same items under every label are permutations. -/
theorem perm_of_filter_fst_eq {α : Type} [DecidableEq α] {l₁ l₂ : List (Nat × α)}
    (h : ∀ j, l₁.filter (·.1 == j) = l₂.filter (·.1 == j)) : l₁.Perm l₂ := by
  have key : ∀ (a : Nat × α) (l : List (Nat × α)), l.countP (fun x => decide (x = a)) =
      (l.filter (·.1 == a.1)).countP (fun x => decide (x = a)) := fun a l => by
    rw [List.countP_filter]
    exact List.countP_congr fun x _ => by by_cases hx : x = a <;> simp [hx]
  refine List.perm_iff_count.2 fun a => ?_
  show l₁.countP (fun x => decide (x = a)) = l₂.countP (fun x => decide (x = a))
  rw [key a l₁, key a l₂, h]

variable {exec : Call T → Atomic T Ret} {progs : List (List (Call T))} {m : BitVec T.bits}

/-- A complete schedule's history is a permutation of all the programs' calls. -/
theorem history_perm {s : Threads T} (h : Linearized exec progs m s) (hd : Done progs s) :
    (s.history.map (·.2.1)).Perm progs.flatten := by
  have hl : (s.history.map fun e => (e.1, e.2.1)).Perm (labelled 0 progs) :=
    perm_of_filter_fst_eq fun j => by
      rw [filter_labelled, if_pos (Nat.zero_le j), Nat.sub_zero, ← h.thread_calls hd j,
        List.filter_map, List.map_map]
      exact List.map_congr_left fun e he => by
        have : e.1 = j := by simpa using (List.mem_filter.1 he).2
        simp [this]
  simpa [Function.comp_def, map_snd_labelled] using hl.map Prod.snd

/-- When the updates of any two calls of the programs commute, a complete
schedule leaves the location as running the programs one after the other does. -/
theorem mem_eq_after_flatten {s : Threads T} (h : Linearized exec progs m s) (hd : Done progs s)
    (hc : ∀ c ∈ progs.flatten, ∀ c' ∈ progs.flatten, ∀ z,
      (exec c' (exec c z).2).2 = (exec c (exec c' z).2).2) :
    s.mem = Call.after exec progs.flatten m := by
  have hp := history_perm h hd
  rw [h.mem_eq, Call.after_eq_foldl, Call.after_eq_foldl]
  exact hp.foldl_eq' (fun x hx y hy z => hc x (hp.subset hx) y (hp.subset hy) z) m

/-! ## The specification's runs of one kind of call -/

section Spec

/-- Under the specification an `xor_fetch` applies its mask. -/
theorem exec_spec_of_mask {c : Call T} {v : BitVec T.bits} (h : c.mask = some v) (m : BitVec T.bits) :
    (Call.exec (Detail.spec T) (Legacy.spec T) c m).2 = m ^^^ v := by
  cases c <;> simp only [Call.mask, Option.some.injEq, reduceCtorEq] at h
  subst h; rfl

theorem after_spec_xor (l : List (Call T)) (hl : ∀ c ∈ l, c.mask ≠ none) (m : BitVec T.bits) :
    Call.after (Call.exec (Detail.spec T) (Legacy.spec T)) l m = (l.filterMap Call.mask).foldl (· ^^^ ·) m := by
  induction l generalizing m with
  | nil => rfl
  | cons c cs ih =>
    obtain ⟨v, hv⟩ := Option.ne_none_iff_exists'.1 (hl c (List.mem_cons_self c cs))
    rw [Call.after, exec_spec_of_mask hv, ih (fun c' h' => hl c' (List.mem_cons_of_mem c h')),
      List.filterMap_cons_some hv, List.foldl_cons]

/-- Under the specification, among compare-exchanges from `e` only the first can
succeed, and it does when the location holds `e`. -/
theorem run_spec_casFrom {e : BitVec T.bits} (l : List (Call T)) (hl : ∀ c ∈ l, c.casFrom e = true)
    (m : BitVec T.bits) :
    (Call.run (Call.exec (Detail.spec T) (Legacy.spec T)) l m).map (·.1.succeeded) =
      (List.range l.length).map fun k => k == 0 && decide (m = e) := by
  induction l generalizing m with
  | nil => rfl
  | cons c cs ih =>
    obtain ⟨h1, h2, -⟩ := Call.exec_spec_casFrom (hl c (List.mem_cons_self c cs)) m
    rw [Call.run_cons, List.map_cons, ih (fun c' h' => hl c' (List.mem_cons_of_mem c h')),
      List.length_cons, List.range_succ_eq_map, h1]
    simp [h2, Function.comp_def]

end Spec

/-- Tickets `m, m + 1, …` are distinct while at most `2 ^ bits` are drawn. -/
theorem nodup_tickets (m : BitVec T.bits) {n : Nat} (hn : n ≤ 2 ^ T.bits) :
    ((List.range n).map fun k => Ret.value (T.ofBits (m + BitVec.ofNat T.bits k))).Nodup := by
  refine (List.nodup_range n).map_on fun k hk k' hk' he => ?_
  have hb : BitVec.ofNat T.bits k = BitVec.ofNat T.bits k' :=
    add_left_cancel ((T.ofBits_inj).1 (Ret.value.inj he))
  have := congrArg BitVec.toNat hb
  rw [List.mem_range] at hk hk'
  rwa [BitVec.toNat_ofNat, BitVec.toNat_ofNat, Nat.mod_eq_of_lt (by omega),
    Nat.mod_eq_of_lt (by omega)] at this

/-! ## Safety across interleavings -/

section Safety

variable (tc : Toolchain) (progs : List (List (Call T))) (m : BitVec T.bits) (σ : List Nat)
  {s : Threads T}

/-- A toolchain's configurations are linearized against the specification register. -/
theorem Linearized.spec_of_toolchain {s : Threads T} (h : Linearized (tc.exec T) progs m s) :
    Linearized (Call.exec (Detail.spec T) (Legacy.spec T)) progs m s := by
  rwa [Toolchain.exec_eq_spec] at h

/-- **Every execution is linearizable** when every call of the programs is
definite: the history interleaves the threads' programs, each in program order,
and every result and the location's content are those of the specification
register running the history in order. -/
theorem reach_linearizable (hdef : ∀ c ∈ progs.flatten, tc.definite c = true)
    (hs : Reach tc progs m s) :
    Linearized (Call.exec (Detail.spec T) (Legacy.spec T)) progs m s := by
  obtain ⟨σ, rfl⟩ := hs.exists_schedule hdef
  exact (linearized_start.schedule σ).spec_of_toolchain tc progs m

theorem reach_linearizable_two_threads :
    let progs := [[Call.fetchSub 3 .seqCst, .load .acquire],
      [.legacyCompareExchangeN 0 1 false atomicSeqCst atomicRelaxed]]
    (∀ c ∈ progs.flatten, Toolchain.gccClang.definite c = true) ∧
      Linearized (Call.exec (Detail.spec IntType.int) (Legacy.spec IntType.int)) progs 0
        ((start progs 0).schedule (Toolchain.gccClang.exec IntType.int) [1, 0, 0]) := by
  intro progs
  exact ⟨by decide, reach_linearizable .gccClang progs 0 (by decide) (reach_schedule _)⟩

/-- **Each additive call receives the sum before it.** When every call of every
thread is a definite `fetch_add` or `fetch_sub`, through the API or a legacy
name, in every execution the `k`-th call the location took returns the initial
value plus the deltas of the first `k`. -/
theorem reach_additive_results (hadd : ∀ c ∈ progs.flatten, c.delta ≠ none)
    (hdef : ∀ c ∈ progs.flatten, tc.definite c = true) (hs : Reach tc progs m s) :
    s.history.map (·.2.2) = (List.range s.history.length).map fun k =>
      .value (T.ofBits (m + (((s.history.map (·.2.1)).filterMap Call.delta).take k).sum)) := by
  obtain ⟨σ, rfl⟩ := hs.exists_schedule hdef
  have h := (linearized_start.schedule σ).spec_of_toolchain tc progs m
  rw [← h.results_eq, Call.run_spec_eq_sums _ _ (Call.map_delta_eq _ fun c hc =>
    hadd c (h.mem_flatten hc)), List.map_map, List.length_map]
  rfl

theorem reach_additive_results_two_threads :
    let progs := [[Call.fetchAdd 5 .seqCst, .fetchSub 2 .relaxed], [.legacyFetchAdd 7 atomicSeqCst]]
    let s := (start progs 0).schedule (Toolchain.msvc.exec IntType.int) [1, 0, 1, 0]
    (∀ c ∈ progs.flatten, c.delta ≠ none) ∧
      (∀ c ∈ progs.flatten, Toolchain.msvc.definite c = true) ∧
      s.history.map (·.2.2) = (List.range s.history.length).map fun k =>
        .value (IntType.int.ofBits
          (0 + (((s.history.map (·.2.1)).filterMap Call.delta).take k).sum)) := by
  intro progs s
  exact ⟨by decide, by decide,
    reach_additive_results .msvc progs 0 (by decide) (by decide) (reach_schedule _)⟩

/-- **No interleaving loses an update.** When every call of every thread is a
definite `fetch_add` or `fetch_sub`, through the API or a legacy name, an
execution that completes every program leaves the initial content plus all the
deltas. -/
theorem reach_additive_mem (hadd : ∀ c ∈ progs.flatten, c.delta ≠ none)
    (hdef : ∀ c ∈ progs.flatten, tc.definite c = true) (hs : Reach tc progs m s)
    (hd : Done progs s) : s.mem = m + (progs.flatten.filterMap Call.delta).sum := by
  obtain ⟨σ, rfl⟩ := hs.exists_schedule hdef
  have h := (linearized_start.schedule σ).spec_of_toolchain tc progs m
  rw [mem_eq_after_flatten h hd (fun c hc c' hc' z => ?_), Call.after_spec_additive _ hadd]
  obtain ⟨d, hdc⟩ := Option.ne_none_iff_exists'.1 (hadd c hc)
  obtain ⟨d', hdc'⟩ := Option.ne_none_iff_exists'.1 (hadd c' hc')
  simp only [Call.exec_spec_of_delta hdc, Call.exec_spec_of_delta hdc', BitVec.add_assoc,
    BitVec.add_comm d]

theorem reach_additive_mem_two_threads :
    let progs := [[Call.fetchAdd 5 .seqCst, .fetchSub 2 .relaxed], [.legacyFetchSub 7 atomicSeqCst]]
    let s := (start progs 0).schedule (Toolchain.msvc.exec IntType.unsignedInt) [1, 0, 1, 0]
    (∀ c ∈ progs.flatten, c.delta ≠ none) ∧
      (∀ c ∈ progs.flatten, Toolchain.msvc.definite c = true) ∧
      Done progs s ∧ s.mem = 0 + (progs.flatten.filterMap Call.delta).sum := by
  intro progs s
  exact ⟨by decide, by decide, by decide,
    reach_additive_mem .msvc progs 0 (by decide) (by decide) (reach_schedule _) (by decide)⟩

/-- **`xor_fetch` toggles are never lost.** When every call of every thread is an
`xor_fetch`, a schedule that completes every program leaves the initial content
with every mask applied. -/
theorem schedule_xorFetch_mem (hxor : ∀ c ∈ progs.flatten, c.mask ≠ none)
    (hd : Done progs ((start progs m).schedule (tc.exec T) σ)) :
    ((start progs m).schedule (tc.exec T) σ).mem = (progs.flatten.filterMap Call.mask).foldl (· ^^^ ·) m := by
  have h := (linearized_start.schedule σ).spec_of_toolchain tc progs m
  rw [mem_eq_after_flatten h hd (fun c hc c' hc' z => ?_), after_spec_xor _ hxor]
  obtain ⟨v, hv⟩ := Option.ne_none_iff_exists'.1 (hxor c hc)
  obtain ⟨v', hv'⟩ := Option.ne_none_iff_exists'.1 (hxor c' hc')
  rw [exec_spec_of_mask hv', exec_spec_of_mask hv, exec_spec_of_mask hv, exec_spec_of_mask hv',
    BitVec.xor_assoc, BitVec.xor_comm v, ← BitVec.xor_assoc]

theorem schedule_xorFetch_mem_two_threads :
    let progs := [[Call.xorFetch 6 .seqCst, .xorFetch 1 .relaxed], [.xorFetch 12 .acqRel]]
    (∀ c ∈ progs.flatten, c.mask ≠ none) ∧
      Done progs ((start progs 3).schedule (Toolchain.gccClang.exec IntType.short) [0, 1, 0]) ∧
      ((start progs 3).schedule (Toolchain.gccClang.exec IntType.short) [0, 1, 0]).mem =
        (progs.flatten.filterMap Call.mask).foldl (· ^^^ ·) 3 := by
  intro progs
  exact ⟨by decide, by decide, schedule_xorFetch_mem .gccClang progs 3 [0, 1, 0] (by decide) (by decide)⟩

/-- **Tickets.** When every call of every thread adds one, the calls receive
`m, m + 1, …` in the order the location took them, whichever thread made them:
no value is skipped, and none repeats while at most `2 ^ bits` are drawn. -/
theorem schedule_tickets (hone : ∀ c ∈ progs.flatten, c.delta = some 1) :
    ((start progs m).schedule (tc.exec T) σ).history.map (·.2.2) =
        (List.range ((start progs m).schedule (tc.exec T) σ).history.length).map
          (fun k => .value (T.ofBits (m + BitVec.ofNat T.bits k))) ∧
      (((start progs m).schedule (tc.exec T) σ).history.length ≤ 2 ^ T.bits →
        (((start progs m).schedule (tc.exec T) σ).history.map (·.2.2)).Nodup) := by
  have h := (linearized_start.schedule σ).spec_of_toolchain tc progs m
  have hrun := Call.run_spec_delta_one _ (fun c hc => hone c (h.mem_flatten hc)) m
  rw [h.results_eq, List.length_map] at hrun
  exact ⟨hrun, fun hlen => hrun ▸ nodup_tickets m hlen⟩

theorem schedule_tickets_two_threads :
    let progs := [[Call.fetchAdd 1 .seqCst, .legacyFetchAdd 1 atomicRelaxed], [.fetchSub (-1) .acqRel]]
    (∀ c ∈ progs.flatten, c.delta = some 1) ∧
      (((start progs 0).schedule (Toolchain.msvc.exec IntType.longLong) [1, 0, 0]).history.map (·.2.2) =
          (List.range ((start progs 0).schedule (Toolchain.msvc.exec IntType.longLong) [1, 0, 0]).history.length).map
            (fun k => .value (IntType.longLong.ofBits (0 + BitVec.ofNat IntType.longLong.bits k))) ∧
        (((start progs 0).schedule (Toolchain.msvc.exec IntType.longLong) [1, 0, 0]).history.length ≤
            2 ^ IntType.longLong.bits →
          (((start progs 0).schedule (Toolchain.msvc.exec IntType.longLong) [1, 0, 0]).history.map (·.2.2)).Nodup)) := by
  intro progs
  exact ⟨by decide, schedule_tickets .msvc progs 0 [1, 0, 0] (by decide)⟩

/-- Compare-exchanges from the initial bits: either none has succeeded and the
location holds its initial bits, or exactly one has and it does not. -/
theorem Reach.casFrom_winner (hcas : ∀ c ∈ progs.flatten, c.casFrom m = true)
    (h : Reach tc progs m s) :
    (s.history.countP (·.2.2.succeeded) = 0 ∧ s.mem = m) ∨
      (s.history.countP (·.2.2.succeeded) = 1 ∧ s.mem ≠ m) := by
  induction h with
  | init => exact .inl ⟨rfl, rfl⟩
  | @step s i c rest o hs hi ho ih =>
    rw [List.countP_append, List.countP_singleton]
    rcases ho.casFrom (hcas c (hs.mem_flatten (hi ▸ List.mem_cons_self c rest))) with
      ⟨h1, hm, h2⟩ | ⟨h1, h2⟩
    · rcases ih with ⟨h0, -⟩ | ⟨-, hne⟩
      · exact .inr ⟨by simp only [h0, h1, if_true], h2⟩
      · exact absurd hm hne
    · simp only [h1, h2, Bool.false_eq_true, if_false, Nat.add_zero]
      exact ih

/-- **At most one compare-exchange wins.** When every call of every thread is a
compare-exchange (under any of its names) that expects the location's initial
bits and would change them, in every execution, spurious failures included,
either no call has succeeded and the location holds its initial bits, or exactly
one has and it does not. When no call can fail spuriously, the call the location
takes first is the one. -/
theorem reach_compareExchange_winner (hcas : ∀ c ∈ progs.flatten, c.casFrom m = true)
    (hs : Reach tc progs m s) :
    ((s.history.countP (·.2.2.succeeded) = 0 ∧ s.mem = m) ∨
        (s.history.countP (·.2.2.succeeded) = 1 ∧ s.mem ≠ m)) ∧
      ((∀ c ∈ progs.flatten, tc.definite c = true) →
        s.history.map (·.2.2.succeeded) = (List.range s.history.length).map (· == 0)) := by
  refine ⟨hs.casFrom_winner tc progs m hcas, fun hdef => ?_⟩
  obtain ⟨σ, rfl⟩ := hs.exists_schedule hdef
  have h := (linearized_start.schedule σ).spec_of_toolchain tc progs m
  have hrun := run_spec_casFrom _ (fun c hc => hcas c (h.mem_flatten hc)) m
  have hres := congrArg (List.map Ret.succeeded) h.results_eq
  simp only [List.map_map, Function.comp_def] at hres
  rw [← hres, hrun, List.length_map]
  simp

theorem reach_compareExchange_winner_three_threads :
    let progs := [[Call.compareExchange 0 1 .seqCst .relaxed],
      [.compareExchangeN 0 2 .acqRel .acquire],
      [.legacyCompareExchangeN 0 3 true atomicSeqCst atomicRelaxed]]
    let s := (start progs 0).schedule (Toolchain.gccClang.exec IntType.int) [2, 0, 1]
    (∀ c ∈ progs.flatten, c.casFrom (0 : BitVec IntType.int.bits) = true) ∧
      (((s.history.countP (·.2.2.succeeded) = 0 ∧ s.mem = 0) ∨
          (s.history.countP (·.2.2.succeeded) = 1 ∧ s.mem ≠ 0)) ∧
        ((∀ c ∈ progs.flatten, Toolchain.gccClang.definite c = true) →
          s.history.map (·.2.2.succeeded) = (List.range s.history.length).map (· == 0))) := by
  intro progs s
  exact ⟨by decide,
    reach_compareExchange_winner .gccClang progs 0 (by decide) (reach_schedule _)⟩

/-- A weak compare-exchange that fails spuriously lets a later one win: the
location's first call need not be the winner. -/
example : ∃ s, Reach .gccClang [[Call.legacyCompareExchangeN (0 : BitVec IntType.int.bits) 1 true
    atomicSeqCst atomicRelaxed], [.compareExchange 0 2 .seqCst .relaxed]] 0 s ∧
      s.history.map (·.2.2.succeeded) = [false, true] :=
  ⟨_, .step (i := 1) (.step (i := 0) .init rfl (.spurious rfl rfl)) rfl (.defined rfl), rfl⟩

end Safety

end Threads

end MtKahypar
