/-
The choice `sched_yield` makes.

`roundRobin after` lists the slots in the circular order that starts behind
the slot `after`, or at slot 0.  The search of `sched_yield` follows it unless
the current environment sits in the last slot: the start index is not wrapped,
so the search then begins behind the table and comes around to slot 1.

* `sched_yield_round_robin` — from every other position, and only from there,
  the first runnable slot of the order is run, and only statuses of the table are read;
* `sched_yield_skips_slot` — the only runnable environment is in slot 0, the
  current one in the last slot, and the processor halts;
* `sched_no_starvation` — how often a runnable environment is passed over.
-/
import Jos.Kern.Control
import Mathlib.Data.List.Nodup
import Mathlib.Data.List.Range

namespace Jos

open Prog

/-! ### The circular order -/

/-- `n` slots from `j` on, around the table. -/
def slotsFrom (j n : ℕ) : List ℕ := (List.range n).map fun k => (j + k) % nenv

/-- The slots in circular order, behind slot `after` or from slot 0 on. -/
def roundRobin (after : Option ℕ) : List ℕ :=
  match after with
  | some c => slotsFrom (c + 1) nenv
  | none => slotsFrom 0 nenv

theorem nenv_pos : 0 < nenv := by decide

theorem slotsFrom_succ (j n : ℕ) : slotsFrom j (n + 1) = j % nenv :: slotsFrom (j + 1) n := by
  rw [slotsFrom, List.range_succ_eq_map, List.map_cons, List.map_map, Nat.add_zero, slotsFrom]
  congr 1
  refine List.map_congr_left fun k _ => ?_
  show (j + (k + 1)) % nenv = _
  rw [Nat.add_assoc, Nat.add_comm 1 k]

theorem slotsFrom_mod (j n : ℕ) : slotsFrom (j % nenv) n = slotsFrom j n := by
  refine List.map_congr_left fun k _ => ?_
  rw [Nat.mod_add_mod]

theorem slotsFrom_nodup (j : ℕ) : (slotsFrom j nenv).Nodup := by
  refine List.Nodup.map_on (fun a ha b hb hab => ?_) List.nodup_range
  have ha := List.mem_range.mp ha
  have hb := List.mem_range.mp hb
  rw [nenv_eq] at *
  omega

theorem mem_slotsFrom {i j : ℕ} : i ∈ slotsFrom j nenv ↔ i < nenv := by
  rw [slotsFrom, List.mem_map, nenv_eq]
  constructor
  · rintro ⟨k, -, rfl⟩
    exact Nat.mod_lt _ (by decide)
  · intro hi
    -- the distance from `j` up to `i`, around the table
    refine ⟨(i + 1024 - j % 1024) % 1024, List.mem_range.mpr (Nat.mod_lt _ (by decide)), ?_⟩
    omega

theorem roundRobin_nodup (after : Option ℕ) : (roundRobin after).Nodup := by
  cases after with
  | none => exact slotsFrom_nodup 0
  | some c => exact slotsFrom_nodup (c + 1)

theorem mem_roundRobin {i : ℕ} {after : Option ℕ} : i ∈ roundRobin after ↔ i < nenv := by
  cases after with
  | none => exact mem_slotsFrom
  | some c => exact mem_slotsFrom

/-! ### The search -/

namespace Kern

variable {s : Kern}

/-- The slots whose status the search reads: `n` at most, from `j` on. -/
def schedReads (s : Kern) : ℕ → ℕ → List ℕ
  | _, 0 => []
  | j, n + 1 =>
    j :: if s.statusWord j = EnvStatus.runnable.code then []
      else s.schedReads ((j + 1) &&& (nenv - 1)) n

attribute [irreducible] schedReads

def firstRunnable (s : Kern) (order : List ℕ) : Option ℕ :=
  order.find? fun j => (s.envs j).envStatus = .runnable

theorem schedScan_congr_reads {s' : Kern} : ∀ {n j : ℕ},
    (∀ i ∈ s.schedReads j n, s'.statusWord i = s.statusWord i) →
      s'.schedScan j n = s.schedScan j n := by
  intro n
  induction n with
  | zero =>
    intro j _
    rw [schedScan, schedScan]
  | succ n ih =>
    intro j h
    rw [schedReads] at h
    rw [schedScan, schedScan, h j List.mem_cons_self]
    by_cases hrun : s.statusWord j = EnvStatus.runnable.code
    · rw [if_pos hrun, if_pos hrun]
    · rw [if_neg hrun] at h
      rw [if_neg hrun, if_neg hrun]
      exact ih fun i hi => h i (List.mem_cons_of_mem j hi)

theorem statusWord_eq_runnable {j : ℕ} (hj : j < nenv) :
    s.statusWord j = EnvStatus.runnable.code ↔ (s.envs j).envStatus = .runnable := by
  rw [statusWord, if_pos hj, EnvStatus.code_eq_runnable]

theorem next_slot (j : ℕ) : (j + 1) &&& (nenv - 1) = (j + 1) % nenv := by
  rw [nenv_eq]
  exact envx_eq (j + 1)

theorem schedScan_eq : ∀ {n j : ℕ}, j < nenv →
    s.schedScan j n = s.firstRunnable (slotsFrom j n) := by
  intro n
  induction n with
  | zero =>
    intro j _
    rw [schedScan]
    rfl
  | succ n ih =>
    intro j hj
    rw [schedScan, next_slot, ih (Nat.mod_lt _ nenv_pos), slotsFrom_mod, slotsFrom_succ,
      Nat.mod_eq_of_lt hj, firstRunnable, firstRunnable]
    by_cases hrun : (s.envs j).envStatus = .runnable
    · rw [if_pos ((statusWord_eq_runnable hj).mpr hrun)]
      simp [hrun]
    · rw [if_neg (mt (statusWord_eq_runnable hj).mp hrun)]
      simp [hrun]

theorem schedReads_prefix : ∀ {n j : ℕ}, j < nenv → s.schedReads j n <+: slotsFrom j n := by
  intro n
  induction n with
  | zero =>
    intro j _
    rw [schedReads]
    exact List.nil_prefix
  | succ n ih =>
    intro j hj
    rw [schedReads, next_slot, slotsFrom_succ, Nat.mod_eq_of_lt hj]
    by_cases hrun : s.statusWord j = EnvStatus.runnable.code
    · rw [if_pos hrun]
      exact ⟨slotsFrom (j + 1) n, rfl⟩
    · rw [if_neg hrun]
      have hrest := ih (j := (j + 1) % nenv) (Nat.mod_lt _ nenv_pos)
      rw [slotsFrom_mod] at hrest
      exact (List.prefix_cons_inj j).mpr hrest

theorem schedReads_all : ∀ {n j : ℕ}, s.schedScan j n = none →
    (s.schedReads j n).length = n := by
  intro n
  induction n with
  | zero =>
    intro j _
    rw [schedReads]
    rfl
  | succ n ih =>
    intro j h
    rw [schedScan] at h
    by_cases hrun : s.statusWord j = EnvStatus.runnable.code
    · rw [if_pos hrun] at h
      cases h
    · rw [if_neg hrun] at h
      rw [schedReads, if_neg hrun, List.length_cons, ih h]

/-- The current environment, if any, is not in the last slot, and its id
names its slot. -/
def NotLastSlot (s : Kern) : Prop :=
  ∀ c, s.curenv = some c → envx (s.envs c).envId = c ∧ c + 1 < nenv

theorem NotLastSlot.start (h : s.NotLastSlot) :
    s.schedStart < nenv ∧ slotsFrom s.schedStart nenv = roundRobin s.curenv := by
  rw [schedStart]
  cases hc : s.curenv with
  | none => exact ⟨nenv_pos, rfl⟩
  | some c =>
    obtain ⟨hid, hlt⟩ := h c hc
    simp only [hid]
    exact ⟨hlt, rfl⟩

end Kern

/-! ### The choice -/

theorem envRun_runs {s : Kern} {e : ℕ} (h : s.curenv = some e ∨ (s.envs e).envPgdir ≠ none) :
    ∃ s', envRun e s = .stop .user s' ∧ s'.curenv = some e := by
  by_cases hcur : s.curenv = some e
  · refine ⟨_, envRun_same hcur, ?_⟩
    rw [Kern.curenv, Kern.thiscpu, Kern.popTf_cpus, Kern.popTf_cpunum, if_pos rfl]
    exact hcur
  · obtain ⟨d, hd⟩ := Option.ne_none_iff_exists'.mp (h.resolve_left hcur)
    refine ⟨_, envRun_switch hcur hd, ?_⟩
    rw [Kern.curenv, Kern.thiscpu, Kern.runEnv_cpus, Kern.runEnv_cpunum]
    simp

theorem Kern.idle_curenv (s : Kern) : s.idle.curenv = none := by
  rw [Kern.curenv, Kern.thiscpu, Kern.idle_cpus]
  simp [Kern.idle]

theorem Kern.anyAlive_of_runnable {s : Kern} {e : ℕ} (he : e < nenv)
    (h : (s.envs e).envStatus = .runnable) : s.anyAlive = true := by
  unfold Kern.anyAlive
  exact List.any_eq_true.mpr ⟨e, List.mem_range.mpr he, decide_eq_true (.inl h)⟩

theorem schedHalt_stops (s : Kern) :
    schedHalt s = .stop .halted s.idle ∧ s.idle.curenv = none ∨
      schedHalt s = .stop .monitor s := by
  by_cases h : s.anyAlive = true
  · exact .inl ⟨schedHalt_idle h, s.idle_curenv⟩
  · exact .inr (schedHalt_monitor h)

theorem schedYield_found {s : Kern} {j : ℕ} (h : s.schedScan s.schedStart nenv = some j)
    (hj : j < nenv) : schedYield s = envRun j s := by
  rw [schedYield, get_bind]
  simp only [h]
  rw [if_pos hj]

theorem schedYield_current {s : Kern} {c : ℕ} (h : s.schedScan s.schedStart nenv = none)
    (hc : s.curenv = some c) (hrun : (s.envs c).envStatus = .running) :
    schedYield s = envRun c s := by
  rw [schedYield, get_bind]
  simp only [h, hc]
  rw [if_pos hrun]

theorem schedYield_halt {s : Kern} (h : s.schedScan s.schedStart nenv = none)
    (hc : ∀ c, s.curenv = some c → (s.envs c).envStatus ≠ .running) :
    schedYield s = schedHalt s := by
  rw [schedYield, get_bind]
  cases hcur : s.curenv with
  | none => simp only [h]
  | some c =>
    simp only [h]
    rw [if_neg (hc c hcur)]

/-- **Round robin.**  Exactly when the current environment, if any, is elsewhere
than in the last slot, `sched_yield` runs the first runnable environment in
circular order behind it, and reads statuses along that order only. -/
theorem sched_yield_round_robin (s : Kern) (hcur : ∀ c, s.curenv = some c → c < nenv) :
    s.NotLastSlot ↔
    (roundRobin s.curenv).Nodup ∧ (∀ i, i ∈ roundRobin s.curenv ↔ i < nenv) ∧
    s.schedReads s.schedStart nenv <+: roundRobin s.curenv ∧
    (∀ s' : Kern, (∀ i ∈ s.schedReads s.schedStart nenv, s'.statusWord i = s.statusWord i) →
      s'.schedScan s.schedStart nenv = s.schedScan s.schedStart nenv) ∧
    (∀ j, s.firstRunnable (roundRobin s.curenv) = some j → schedYield s = envRun j s ∧
      (s.curenv = some j ∨ (s.envs j).envPgdir ≠ none →
        ∃ s', schedYield s = .stop .user s' ∧ s'.curenv = some j)) ∧
    (s.firstRunnable (roundRobin s.curenv) = none →
      s.schedReads s.schedStart nenv = roundRobin s.curenv ∧
      (∀ c, s.curenv = some c → (s.envs c).envStatus = .running →
        ∃ s', schedYield s = .stop .user s' ∧ s'.curenv = some c) ∧
      ((∀ c, s.curenv = some c → (s.envs c).envStatus ≠ .running) →
        schedYield s = .stop .halted s.idle ∧ s.idle.curenv = none ∨
          schedYield s = .stop .monitor s)) := by
  constructor
  swap
  · rintro ⟨-, -, hreads, -⟩ c hc
    have hlt := hcur c hc
    -- the first slot read is the first of the order
    have hfirst : s.schedReads s.schedStart (1023 + 1) <+: slotsFrom (c + 1) (1023 + 1) := by
      rwa [hc] at hreads
    rw [Kern.schedReads, slotsFrom_succ, List.cons_prefix_cons, Kern.schedStart, hc] at hfirst
    have hfirst : envx (s.envs c).envId + 1 = (c + 1) % nenv := hfirst.1
    rw [nenv_eq] at *
    omega
  intro h
  obtain ⟨hlt, horder⟩ := h.start
  have hscan : s.schedScan s.schedStart nenv = s.firstRunnable (roundRobin s.curenv) := by
    rw [Kern.schedScan_eq hlt, horder]
  have hreads : s.schedReads s.schedStart nenv <+: roundRobin s.curenv := by
    rw [← horder]
    exact Kern.schedReads_prefix hlt
  refine ⟨roundRobin_nodup _, fun i => mem_roundRobin, hreads,
    fun s' => Kern.schedScan_congr_reads, fun j hj => ?_, fun hnone => ?_⟩
  · have hmem : j < nenv := mem_roundRobin.mp (List.mem_of_find?_eq_some hj)
    have hrun := schedYield_found (hscan.trans hj) hmem
    refine ⟨hrun, fun hpg => ?_⟩
    rw [hrun]
    exact envRun_runs hpg
  · have hempty := hscan.trans hnone
    refine ⟨hreads.eq_of_length ?_, fun c hc hrun => ?_, fun hc => ?_⟩
    · rw [Kern.schedReads_all hempty, ← horder, slotsFrom, List.length_map, List.length_range]
    · rw [schedYield_current hempty hc hrun]
      exact envRun_runs (.inl hc)
    · rw [schedYield_halt hempty hc]
      exact schedHalt_stops s

/-! ### The last slot -/

theorem Kern.schedScan_last {s : Kern} (n : ℕ) : s.schedScan nenv (n + 1) =
    if s.statusWord nenv = EnvStatus.runnable.code then some nenv
    else s.firstRunnable (slotsFrom 1 n) := by
  have hwrap : (nenv + 1) % nenv = 1 := by decide
  rw [Kern.schedScan, Kern.next_slot, hwrap, Kern.schedScan_eq (by decide)]

/-- A machine of two environments: the one in slot 0 is runnable, the one in
the last slot is current and waits for a message. -/
def Demo.lastSlot : Kern where
  mm := { npages := 8, mem := fun _ _ => 0, pages := fun _ => {}, pageFreeList := none
          kernPgdir := 1 }
  envs := fun e =>
    if e = 0 then { envId := 4096, envStatus := .runnable, envPgdir := some 2 }
    else if e = nenv - 1 then
      { envId := 4096 + (nenv - 1), envStatus := .notRunnable, envPgdir := some 3
        envIpcRecving := true }
    else {}
  envFreeList := some 1
  envsEnd := 4
  cpus := fun _ => { cpuStatus := .started, cpuEnv := some (nenv - 1), cr3 := 3 }

theorem Demo.lastSlot_runnable {e : ℕ} :
    (lastSlot.envs e).envStatus = .runnable ↔ e = 0 := by
  show (if e = 0 then _ else if e = nenv - 1 then _ else _ : Env).envStatus = .runnable ↔ e = 0
  by_cases h0 : e = 0
  · simp [h0]
  · rw [if_neg h0]
    by_cases hl : e = nenv - 1
    · simp [if_pos hl, h0]
    · simp [if_neg hl, h0]

theorem Demo.lastSlot_start : lastSlot.schedStart = nenv := by decide

theorem Demo.lastSlot_scan : lastSlot.schedScan lastSlot.schedStart nenv = none := by
  have hbehind : lastSlot.statusWord nenv ≠ EnvStatus.runnable.code := by decide
  have hscan := Kern.schedScan_last (s := lastSlot) 1023
  rw [if_neg hbehind] at hscan
  rw [lastSlot_start]
  refine hscan.trans (List.find?_eq_none.mpr fun j hj => ?_)
  obtain ⟨k, hk, rfl⟩ := List.mem_map.mp hj
  have hk := List.mem_range.mp hk
  rw [decide_eq_true_iff, lastSlot_runnable, nenv_eq]
  omega

open Demo

/-- The processor halts with a runnable environment in the table, after it
read the status of slot `NENV`. -/
theorem sched_yield_skips_slot :
    lastSlot.curenv = some (nenv - 1) ∧
    envx (lastSlot.envs (nenv - 1)).envId = nenv - 1 ∧
    lastSlot.firstRunnable (roundRobin lastSlot.curenv) = some 0 ∧
    nenv ∈ lastSlot.schedReads lastSlot.schedStart nenv ∧
    schedYield lastSlot = .stop .halted lastSlot.idle := by
  refine ⟨rfl, by decide, ?_, ?_, ?_⟩
  · show lastSlot.firstRunnable (slotsFrom (nenv - 1 + 1) (1023 + 1)) = some 0
    rw [slotsFrom_succ, Kern.firstRunnable, List.find?_cons_of_pos]
    · rfl
    · exact decide_eq_true (lastSlot_runnable.mpr rfl)
  · rw [lastSlot_start]
    show nenv ∈ lastSlot.schedReads nenv (1023 + 1)
    rw [Kern.schedReads]
    exact List.mem_cons_self
  · rw [schedYield_halt lastSlot_scan, schedHalt_idle
      (Kern.anyAlive_of_runnable nenv_pos (lastSlot_runnable.mpr rfl))]
    rintro c ⟨⟩
    decide

/-- The environment in slot 0 runs, the one in slot 5 waits for its turn. -/
def Demo.firstSlot : Kern :=
  { lastSlot with
    envs := fun e =>
      if e = 0 then { envId := 4096, envStatus := .running, envPgdir := some 2 }
      else if e = 5 then { envId := 4096 + 5, envStatus := .runnable, envPgdir := some 3 }
      else {}
    cpus := fun _ => { cpuStatus := .started, cpuEnv := some 0, cr3 := 2 } }

theorem Demo.firstSlot_notLast : firstSlot.NotLastSlot := by
  rintro c ⟨⟩
  decide

theorem sched_yield_round_robin_first : firstSlot.NotLastSlot ∧
    ∃ s', schedYield firstSlot = .stop .user s' ∧ s'.curenv = some 5 := by
  refine ⟨firstSlot_notLast, ?_⟩
  obtain ⟨-, -, -, -, hrun, -⟩ := (sched_yield_round_robin firstSlot
    (by rintro c ⟨⟩; decide)).mp firstSlot_notLast
  refine (hrun 5 ?_).2 (.inr (by decide))
  show firstSlot.firstRunnable (slotsFrom 1 (1019 + 5)) = some 5
  rw [slotsFrom_succ, slotsFrom_succ, slotsFrom_succ, slotsFrom_succ, slotsFrom_succ]
  rfl

/-! ### No starvation -/

/-- How far slot `e` is behind the place where the search starts. -/
def Kern.turns (s : Kern) (e : ℕ) : ℕ := (e + nenv - s.schedStart) % nenv

/-- `sched_yield` in `s` passes over the runnable environment `e` and runs another
one, which is still the current one when this processor yields next, in `t`. -/
structure Kern.Passes (e : ℕ) (s t : Kern) : Prop where
  start : s.NotLastSlot
  ready : (s.envs e).envStatus = .runnable
  other : ∃ j s', j ≠ e ∧ schedYield s = .stop .user s' ∧ s'.curenv = some j ∧ t.curenv = some j

theorem Kern.NotLastSlot.found {s : Kern} {e : ℕ} (h : s.NotLastSlot) (he : e < nenv)
    (hrun : (s.envs e).envStatus = .runnable) :
    ∃ i ≤ s.turns e, schedYield s = envRun ((s.schedStart + i) % nenv) s := by
  obtain ⟨hlt, -⟩ := h.start
  have hturn : (s.schedStart + s.turns e) % nenv = e := by
    rw [Kern.turns, nenv_eq] at *
    omega
  cases hfind : s.firstRunnable (slotsFrom s.schedStart nenv) with
  | none =>
    have hmem : e ∈ slotsFrom s.schedStart nenv := mem_slotsFrom.mpr he
    exact absurd (decide_eq_true hrun) (List.find?_eq_none.mp hfind e hmem)
  | some j =>
    obtain ⟨-, i, hi, hj, hbefore⟩ := List.find?_eq_some_iff_getElem.mp hfind
    simp only [slotsFrom, List.getElem_map, List.getElem_range] at hj hbefore
    refine ⟨i, Nat.le_of_not_lt fun hturns => ?_, ?_⟩
    · have := hbefore _ hturns
      rw [hturn] at this
      simp [hrun] at this
    · rw [hj]
      exact schedYield_found ((Kern.schedScan_eq hlt).trans hfind) (hj ▸ Nat.mod_lt _ nenv_pos)

theorem envRun_user {s s' : Kern} {e : ℕ} (h : envRun e s = .stop .user s') : s'.curenv = some e := by
  by_cases hruns : s.curenv = some e ∨ (s.envs e).envPgdir ≠ none
  · obtain ⟨t, ht, hcur⟩ := envRun_runs hruns
    cases ht.symm.trans h
    exact hcur
  · rw [not_or, not_not] at hruns
    cases (envRun_null hruns.1 hruns.2).symm.trans h

theorem Kern.Passes.turns {s t : Kern} {e : ℕ} (h : s.Passes e t) (ht : t.NotLastSlot)
    (he : e < nenv) : t.turns e + 1 ≤ s.turns e := by
  obtain ⟨hlt, -⟩ := h.start.start
  obtain ⟨i, hi, hyield⟩ := h.start.found he h.ready
  obtain ⟨j, s', hne, hrun, hcur, hnext⟩ := h.other
  have hj : (s.schedStart + i) % nenv = j :=
    Option.some.inj ((envRun_user (hyield.symm.trans hrun)).symm.trans hcur)
  obtain ⟨hid, hjlt⟩ := ht j hnext
  have hstart : t.schedStart = j + 1 := by
    rw [Kern.schedStart]
    simp only [hnext, hid]
  unfold Kern.turns at *
  rw [hstart]
  rw [nenv_eq] at *
  omega

/-- **No starvation.**  An environment that stays runnable is passed over less than
`NENV` times by a processor whose environments do not die while they run, and as
long as it is runnable the processor does not halt. -/
theorem sched_no_starvation {e n : ℕ} (σ : ℕ → Kern) (he : e < nenv)
    (h : ∀ k < n, (σ k).Passes e (σ (k + 1))) (hlast : (σ n).NotLastSlot) :
    n < nenv ∧ (((σ n).envs e).envStatus = .runnable →
      ∃ j < nenv, schedYield (σ n) = envRun j (σ n)) := by
  have hturns : ∀ k ≤ n, k + (σ k).turns e ≤ (σ 0).turns e := by
    intro k
    induction k with
    | zero => exact fun _ => (Nat.zero_add _).le
    | succ k ih =>
      intro hk
      have hnext : (σ (k + 1)).NotLastSlot := by
        rcases Nat.lt_or_eq_of_le hk with hlt | heq
        · exact (h _ hlt).start
        · exact heq ▸ hlast
      have := (h k hk).turns hnext he
      have := ih (Nat.le_of_lt hk)
      omega
  refine ⟨?_, fun hrun => ?_⟩
  · have hle := hturns n le_rfl
    have hmod : (σ 0).turns e < nenv := Nat.mod_lt _ nenv_pos
    omega
  · obtain ⟨i, -, hyield⟩ := hlast.found he hrun
    exact ⟨_, Nat.mod_lt _ nenv_pos, hyield⟩

/-- Slot 7 is runnable as well, and slot `c` is current. -/
def Demo.thirdReady (c : ℕ) : Kern :=
  { firstSlot.updEnv 7 fun _ => { envId := 4096 + 7, envStatus := .runnable, envPgdir := some 4 } with
    cpus := fun _ => { cpuEnv := some c } }

theorem sched_no_starvation_once : (thirdReady 0).Passes 7 (thirdReady 5) ∧
    ∃ j < nenv, schedYield (thirdReady 5) = envRun j (thirdReady 5) := by
  have hlast : ∀ c ∈ [0, 5], (thirdReady c).NotLastSlot := by
    rintro c hc _ ⟨⟩
    revert c
    decide
  have hscan : (thirdReady 0).schedScan 1 nenv = some 5 := by
    rw [Kern.schedScan_eq (by decide)]
    show (thirdReady 0).firstRunnable (slotsFrom 1 (1019 + 5)) = some 5
    rw [slotsFrom_succ, slotsFrom_succ, slotsFrom_succ, slotsFrom_succ, slotsFrom_succ]
    rfl
  obtain ⟨s', hs', hcur⟩ := envRun_runs (s := thirdReady 0) (e := 5) (.inr (by decide))
  have hpass : (thirdReady 0).Passes 7 (thirdReady 5) :=
    ⟨hlast 0 (by decide), by decide, 5, s', by decide,
      (schedYield_found hscan (by decide)).trans hs', hcur, rfl⟩
  refine ⟨hpass, (sched_no_starvation (e := 7) (n := 1)
    (fun k => thirdReady (if k = 0 then 0 else 5)) (by decide) (fun k hk => ?_)
    (hlast 5 (by decide))).2 (by decide)⟩
  obtain rfl : k = 0 := Nat.lt_one_iff.mp hk
  exact hpass

end Jos
