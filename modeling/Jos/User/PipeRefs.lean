/-
No false end-of-file on a pipe.

`FdInv` says that wherever an environment maps an `Fd` page of the pipe, it maps
the page of `struct Pipe` as the data page of the same descriptor.  So the pipe
page is mapped at least as often as both `Fd` pages together.

* `no_false_eof` — the reference counts, and `_pipeisclosed`;
* `fork_false_eof` — `fork` copies the `Fd` page first, and meanwhile another
  reader sees the end of the file.
-/
import Jos.Lib.Run
import Jos.User.FdTable
import Mathlib.Order.Interval.Finset.Nat

namespace Jos

open Function

variable {ok : Bool} {p : FdPage} {s : FdSys} {t : FdTask}

/-! ### The invariant -/

/-- What `dup` knows when it closes the descriptor `i` first. -/
def FdNext.Ok (i : ℕ) : FdNext → Prop
  | .dup old new => old < maxfd ∧ new = i
  | _ => True

/-- Every `Fd` page of the pipe is at a descriptor, with the pipe as its data
page, and the pipe is a data page. -/
structure FdSys.Placed (s : FdSys) (e : Fin nenv) : Prop where
  ends : ∀ k p, s.pt e k = some p → p.isEnd = true →
    fdtable ≤ k ∧ k < fdtable + maxfd ∧ s.pt e (k + maxfd) = some .pipe
  pipes : ∀ k, s.pt e k = some .pipe → fdtable + maxfd ≤ k ∧ k < fdtable + 2 * maxfd

/-- The ends that the child has are copies. -/
def FdSys.Copies (s : FdSys) (e c : Fin nenv) : Prop :=
  s.task c = .embryo e → ∀ k p, s.pt c k = some p → p.isEnd = true → s.pt e k = some p

/-- What the function that an environment is in relies on. -/
def FdSys.TaskOk (s : FdSys) (e : Fin nenv) : FdTask → Prop
  | .test i next => i < maxfd ∧ next.Ok i
  | .send i next => i < maxfd ∧ next.Ok i
  | .closeData i next => i < maxfd ∧ s.pt e (fdtable + i) = none ∧ next.Ok i
  | .closeFd i next => i < maxfd ∧ next.Ok i
  | .dupData old new => old < maxfd ∧ new < maxfd ∧ s.pt e (fdtable + new) = none
  | .dupFd old new => old < maxfd ∧ new < maxfd ∧
    ∀ p, s.pt e (fdtable + old) = some p → p.isEnd = true →
      s.pt e (fdtable + new + maxfd) = some .pipe
  | .dupErr new => new < maxfd
  | .dupErrData new => new < maxfd ∧ s.pt e (fdtable + new) = none
  | .fork c _ => s.Copies e c
  | .spawn c _ => s.Copies e c
  | _ => True

structure FdSys.PipeOk (s : FdSys) (e : Fin nenv) : Prop where
  placed : s.Placed e
  task : s.TaskOk e (s.task e)

def FdInv (s : FdSys) : Prop := ∀ e, s.PipeOk e

/-- All environments are idle or not there, and all descriptors of the pipe are
complete, as after `pipe`. -/
structure FdSys.Shared (s : FdSys) : Prop where
  placed : ∀ e, s.Placed e
  idle : ∀ e, s.task e = .idle ∨ s.task e = .free

/-- `dup` gets a descriptor number, and an `Fd` page of the pipe is copied to
the child only after the data page. -/
def FdCond (s : FdSys) : FdEvent → Prop
  | .dup _ _ new => new < maxfd
  | .run e _ => ∀ c k, s.task e = .fork c k ∨ s.task e = .spawn c k →
    ∀ p, s.pt e k = some p → p.isEnd = true → s.pt c (k + maxfd) = some .pipe
  | _ => True

namespace FdSys.Placed

variable {s : FdSys} {e : Fin nenv} {k : ℕ}

theorem congr {s' : FdSys} (h : s.Placed e) (hpt : s'.pt e = s.pt e) : s'.Placed e := by
  constructor
  · intro k p
    rw [hpt]
    exact h.ends k p
  · intro k
    rw [hpt]
    exact h.pipes k

theorem set (h : s.Placed e) {x : Option FdPage}
    (hend : ∀ p, x = some p → p.isEnd = true →
      fdtable ≤ k ∧ k < fdtable + maxfd ∧ s.pt e (k + maxfd) = some .pipe)
    (hpipe : x = some .pipe → fdtable + maxfd ≤ k ∧ k < fdtable + 2 * maxfd)
    (hdata : ∀ k' p, s.pt e k' = some p → p.isEnd = true → k' + maxfd = k → x = some .pipe) :
    (s.setPage e k x).Placed e := by
  constructor
  · intro k' p hp hpe
    by_cases hk : k' = k
    · subst hk
      rw [FdSys.setPage_pt, if_pos ⟨rfl, rfl⟩] at hp
      obtain ⟨h₁, h₂, h₃⟩ := hend p hp hpe
      refine ⟨h₁, h₂, ?_⟩
      rw [FdSys.setPage_pt, if_neg (by omega), h₃]
    · rw [FdSys.setPage_pt, if_neg (by omega)] at hp
      obtain ⟨h₁, h₂, h₃⟩ := h.ends k' p hp hpe
      refine ⟨h₁, h₂, ?_⟩
      rw [FdSys.setPage_pt]
      split
      case isTrue hk' => exact hdata k' p hp hpe hk'.2
      case isFalse => exact h₃
  · intro k' hk'
    by_cases hk : k' = k
    · subst hk
      rw [FdSys.setPage_pt, if_pos ⟨rfl, rfl⟩] at hk'
      exact hpipe hk'
    · rw [FdSys.setPage_pt, if_neg (by omega)] at hk'
      exact h.pipes k' hk'

theorem unmapFd (h : s.Placed e) {i : ℕ} (hi : i < maxfd) :
    (s.setPage e (fdtable + i) none).Placed e := by
  refine h.set nofun nofun fun k p hp hpe hk => ?_
  have := (h.ends k p hp hpe).1
  omega

theorem unmapData (h : s.Placed e) {i : ℕ} (hnone : s.pt e (fdtable + i) = none) :
    (s.setPage e (fdtable + maxfd + i) none).Placed e := by
  refine h.set nofun nofun fun k p hp hpe hk => ?_
  obtain rfl : k = fdtable + i := by omega
  rw [hnone] at hp
  cases hp

end FdSys.Placed

open FdSys

theorem FdSys.TaskOk.congr {s' : FdSys} {e : Fin nenv} (h : s.TaskOk e t) (hpt : s'.pt e = s.pt e)
    (hchild : ∀ c, s'.task c = .embryo e → s.task c = .embryo e ∧ s'.pt c = s.pt c) : s'.TaskOk e t := by
  cases t with
  | fork c k =>
    intro hc k p
    obtain ⟨hc', hpt'⟩ := hchild c hc
    rw [hpt, hpt']
    exact h hc' k p
  | spawn c k =>
    intro hc k p
    obtain ⟨hc', hpt'⟩ := hchild c hc
    rw [hpt, hpt']
    exact h hc' k p
  | _ =>
    simp only [FdSys.TaskOk, hpt] at h ⊢
    try exact h

theorem local_pipeOk : Local PipeOk := fun h hpt htask hchild =>
  ⟨h.placed.congr hpt, htask ▸ h.task.congr hpt hchild⟩

namespace FdInv

variable {s s' : FdSys} {e c : Fin nenv} {i k : ℕ} {next : FdNext}

theorem setTask (h : FdInv s) (hrun : ∀ p, t ≠ .embryo p) (hok : (s.setTask e t).TaskOk e t) :
    FdInv (s.setTask e t) := by
  refine local_pipeOk.setTask h hrun ⟨(h e).placed.congr rfl, ?_⟩
  rwa [setTask_task, if_pos rfl]

theorem setPage (h : FdInv s) {x : Option FdPage} (hrun : ∀ p, t ≠ .embryo p)
    (hplaced : (s.setPage e k x).Placed e) (hok : ((s.setPage e k x).setTask e t).TaskOk e t) :
    FdInv ((s.setPage e k x).setTask e t) := by
  refine local_pipeOk.setPage h hrun ⟨hplaced.congr rfl, ?_⟩
  rwa [setTask_task, if_pos rfl]

theorem next_ok (hnext : next.Ok i) (hi : i < maxfd) (hnone : s.pt e (fdtable + i) = none) :
    s.TaskOk e next.task := by
  cases next with
  | ret => trivial
  | closeAll j => trivial
  | dup old new =>
    obtain ⟨hold, rfl⟩ := hnext
    exact ⟨hold, hi, hnone⟩

section

variable (h : FdInv s)
include h

theorem close (hi : i < maxfd) (hnext : next.Ok i) : FdInv (s.close e i next) := by
  have hk := index2fd_of_lt hi
  have hlt : fdtable + i < userPages := place_lt (by omega)
  rw [FdSys.close, if_pos hi, hk, unmap_of_lt hlt]
  split
  case h_1 hnone =>
    exact h.setTask next.task_ne_embryo (next_ok hnext hi hnone)
  case h_2 p hp =>
    split
    case isTrue => exact h.setTask nofun ⟨hi, hnext⟩
    case isFalse =>
      split
      case isTrue =>
        refine h.setPage nofun ((h e).placed.unmapFd hi) ⟨hi, ?_, hnext⟩
        simp
      case isFalse => exact h.setTask nofun ⟨hi, hnext⟩

theorem closeData (ht : s.task e = .closeData i next) :
    FdInv ((s.unmap e (index2data i)).setTask e (.closeFd i next)) := by
  have hok := (h e).task
  rw [ht] at hok
  obtain ⟨hi, hnone, hnext⟩ := hok
  rw [index2data_of_lt hi, unmap_of_lt (place_lt (by omega))]
  exact h.setPage nofun ((h e).placed.unmapData hnone) ⟨hi, hnext⟩

theorem closeFd (ht : s.task e = .closeFd i next) :
    FdInv ((s.unmap e (index2fd i)).setTask e next.task) := by
  have hok := (h e).task
  rw [ht] at hok
  obtain ⟨hi, hnext⟩ := hok
  rw [index2fd_of_lt hi, unmap_of_lt (place_lt (by omega))]
  refine h.setPage next.task_ne_embryo ((h e).placed.unmapFd hi)
    (next_ok hnext hi ?_)
  simp

theorem dupErr (ht : s.task e = .dupErr i) :
    FdInv ((s.unmap e (index2fd i)).setTask e (.dupErrData i)) := by
  have hok := (h e).task
  rw [ht] at hok
  replace hok : i < maxfd := hok
  rw [index2fd_of_lt hok, unmap_of_lt (place_lt (by omega))]
  refine h.setPage nofun ((h e).placed.unmapFd hok) ⟨hok, ?_⟩
  simp

theorem dupErrData (ht : s.task e = .dupErrData i) :
    FdInv ((s.unmap e (fd2data (index2fd i))).setTask e .idle) := by
  have hok := (h e).task
  rw [ht] at hok
  obtain ⟨hi, hnone⟩ := hok
  rw [fd2data_index2fd hi, index2data_of_lt hi, unmap_of_lt (place_lt (by omega))]
  exact h.setPage nofun ((h e).placed.unmapData hnone) trivial

theorem dupFd {old new : ℕ} (hold : old < maxfd) (hnew : new < maxfd)
    (hdata : ∀ p, s.pt e (fdtable + old) = some p → p.isEnd = true → s.pt e (fdtable + new + maxfd) = some .pipe) :
    FdInv (s.dupFd e old new ok) := by
  have hlt : fdtable + new < userPages := place_lt (by omega)
  rw [FdSys.dupFd, index2fd_of_lt hold, index2fd_of_lt hnew]
  split
  case h_1 => exact h.setTask (by simp) hnew
  case h_2 p hp =>
    cases ok with
    | false =>
      simp only [FdSys.mapTo, Bool.false_eq_true, and_false, if_false]
      exact h.setTask (by simp) hnew
    | true =>
      rw [mapTo_of_lt _ hlt]
      refine h.setPage (by simp) ((h e).placed.set ?_ ?_ ?_) trivial
      · intro q hq hqe
        cases hq
        exact ⟨by omega, by omega, hdata p hp hqe⟩
      · intro hpipe
        cases hpipe
        -- the pipe is not at an `Fd` page
        have := ((h e).placed.pipes _ hp).1
        omega
      · intro k' q hq hqe hk
        have := ((h e).placed.ends k' q hq hqe).1
        omega

theorem dupData {old new : ℕ} (ht : s.task e = .dupData old new) :
    ∀ s', s.run e ok = some s' → FdInv s' := by
  have hok := (h e).task
  rw [ht] at hok
  obtain ⟨hold, hnew, hnone⟩ := hok
  intro s' hs
  simp only [FdSys.run, ht, index2data_of_lt hold, fd2data_index2fd hnew, index2data_of_lt hnew] at hs
  split at hs
  case h_1 hd =>
    cases hs
    refine h.dupFd hold hnew fun p hp hpe => ?_
    -- without a data page the descriptor is not one of the pipe
    have := ((h e).placed.ends _ p hp hpe).2.2
    rw [show fdtable + old + maxfd = fdtable + maxfd + old by omega, hd] at this
    cases this
  case h_2 q hq =>
    cases ok with
    | false =>
      simp only [FdSys.mapTo, Bool.false_eq_true, and_false, if_false] at hs
      cases hs
      exact h.setTask (by simp) hnew
    | true =>
      rw [mapTo_of_lt _ (place_lt (by omega))] at hs
      cases hs
      refine h.setPage (by simp) ((h e).placed.set ?_ ?_ ?_) ⟨hold, hnew, ?_⟩
      · intro q' hq' hqe
        cases hq'
        have := ((h e).placed.ends _ q hq hqe).2.1
        omega
      · intro hpipe
        exact ⟨by omega, by omega⟩
      · intro k' p hp hpe hk
        obtain rfl : k' = fdtable + new := by omega
        rw [hnone] at hp
        cases hp
      · intro p hp hpe
        have hp' : s.pt e (fdtable + old) = some p := by
          rw [setTask_pt, setPage_pt, if_neg (by omega)] at hp
          exact hp
        have hpipe := ((h e).placed.ends _ p hp' hpe).2.2
        rw [show fdtable + old + maxfd = fdtable + maxfd + old by omega, hq] at hpipe
        rw [setTask_pt, setPage_pt, if_pos ⟨rfl, by omega⟩, hpipe]

theorem envFree : FdInv (s.envFree e) := by
  refine local_pipeOk.envFree h ⟨⟨fun k p hp => ?_, fun k hk => ?_⟩, ?_⟩
  · simp at hp
  · simp at hk
  · rw [envFree_task, if_pos rfl]
    trivial

theorem exofork {f : ℕ → Option FdPage} (hce : c ≠ e)
    (hf : ∀ k p, f k = some p → p.isEnd = false ∧ p ≠ .pipe) (ht : t = .fork c 0 ∨ t = .spawn c 0) :
    FdInv ((s.exofork e c f).setTask e t) := by
  have hchild : ∀ k p, ((s.exofork e c f).setTask e t).pt c k = some p →
      p.isEnd = false ∧ p ≠ .pipe := by
    intro k p hp
    rw [setTask_pt, exofork_pt, if_pos rfl] at hp
    exact hf k p hp
  have hends : ∀ {k p} {q : Prop}, ((s.exofork e c f).setTask e t).pt c k = some p →
      p.isEnd = true → q := by
    intro k p q hp hpe
    rw [(hchild k p hp).1] at hpe
    cases hpe
  have hrun : ∀ p, t ≠ .embryo p := by
    obtain rfl | rfl := ht <;> nofun
  refine local_pipeOk.exofork h hce hrun ⟨(h e).placed.congr ?_, ?_⟩
    ⟨⟨fun _ _ hp hpe => hends hp hpe, fun k hk => absurd rfl (hchild k _ hk).2⟩, ?_⟩
  · funext k
    rw [setTask_pt, exofork_pt, if_neg hce.symm]
  · rw [setTask_task, if_pos rfl]
    obtain rfl | rfl := ht <;> exact fun _ _ _ hp hpe => hends hp hpe
  · rw [setTask_task, if_neg hce, exofork_task, if_pos rfl]
    trivial

theorem start : FdInv ((s.setTask c .idle).setTask e .idle) := by
  refine local_pipeOk.start h ⟨(h e).placed.congr rfl, ?_⟩ ⟨(h c).placed.congr rfl, ?_⟩
  · rw [setTask_task, if_pos rfl]
    trivial
  · rw [setTask_task, setTask_task, if_pos rfl]
    split <;> trivial

theorem mapChild {loop : FdTask} (hc : s.task c = .embryo e) (hrun : ∀ p, s.task e ≠ .embryo p)
    (hcopies : s.Copies e c) (hp : s.pt e k = some p)
    (hcond : p.isEnd = true → s.pt c (k + maxfd) = some .pipe) (hloop_run : ∀ p, loop ≠ .embryo p)
    (hloop : ((s.setPage c k (some p)).setTask e loop).Copies e c → ((s.setPage c k (some p)).setTask e loop).TaskOk e loop) :
    FdInv ((s.setPage c k (some p)).setTask e loop) := by
  have hce : c ≠ e := by
    rintro rfl
    exact hrun _ hc
  have hpt : ((s.setPage c k (some p)).setTask e loop).pt e = s.pt e := by
    funext k'
    rw [setTask_pt, setPage_pt, if_neg fun h => hce.symm h.1]
  refine local_pipeOk.mapChild h hc hce hloop_run ⟨(h e).placed.congr hpt, ?_⟩
    ⟨((h c).placed.set ?_ ?_ ?_).congr rfl, ?_⟩
  · rw [setTask_task, if_pos rfl]
    refine hloop fun _ k' q hq hqe => ?_
    rw [hpt]
    rw [setTask_pt, setPage_pt] at hq
    split at hq
    case isTrue hk => rw [hk.2, hp, hq]
    case isFalse => exact hcopies hc k' q hq hqe
  · intro q hq hqe
    cases hq
    obtain ⟨h₁, h₂, -⟩ := (h e).placed.ends k p hp hqe
    exact ⟨h₁, h₂, hcond hqe⟩
  · intro hq
    cases hq
    exact (h e).placed.pipes k hp
  · -- the parent has the pipe there, too
    intro k' q hq hqe hk
    have hpipe := ((h e).placed.ends k' q (hcopies hc k' q hq hqe) hqe).2.2
    rw [hk, hp] at hpipe
    exact hpipe
  · rw [setTask_task, if_neg hce, setPage_task, hc]
    trivial

theorem copyPage {wanted : FdPage → Bool} {loop : FdTask}
    (ht : s.task e = .fork c k ∨ s.task e = .spawn c k)
    (hloop : loop = .fork c (k + 1) ∨ loop = .spawn c (k + 1))
    (hcond : ∀ p, s.pt e k = some p → p.isEnd = true → s.pt c (k + maxfd) = some .pipe) :
    FdInv (s.copyPage e c k wanted loop ok) := by
  have hcopies : s.Copies e c := by
    have hok := (h e).task
    obtain ht | ht := ht <;> rw [ht] at hok <;> exact hok
  have hrun : ∀ p, s.task e ≠ .embryo p := by
    obtain ht | ht := ht <;> rw [ht] <;> nofun
  have hloop_ok : ∀ s' : FdSys, s'.Copies e c → s'.TaskOk e loop := by
    intro s' hs'
    obtain rfl | rfl := hloop <;> exact hs'
  have hloop_run : ∀ p, loop ≠ .embryo p := by
    obtain rfl | rfl := hloop <;> nofun
  have hskip : FdInv (s.setTask e loop) := by
    refine h.setTask hloop_run (hloop_ok _ fun hc => ?_)
    rw [setTask_task] at hc
    split at hc
    case isTrue => exact absurd hc (hloop_run e)
    case isFalse => exact hcopies hc
  rw [FdSys.copyPage]
  split
  case isFalse =>
    split
    case isFalse => exact h.setTask nofun trivial
    case isTrue => exact h.start
  case isTrue =>
    split
    case h_1 => exact hskip
    case h_2 p hp =>
      split
      case isFalse => exact hskip
      case isTrue =>
        split
        case isFalse => exact h.setTask nofun trivial
        case isTrue hc =>
          exact h.mapChild hc.2 hrun hcopies hp (hcond p hp) hloop_run (hloop_ok _)

theorem run (hcond : FdCond s (.run e ok)) (hs : s.run e ok = some s') : FdInv s' := by
  cases ht : s.task e with
  | test i next =>
    have hok := (h e).task
    rw [ht] at hok
    simp only [FdSys.run, ht] at hs
    cases hs
    split
    case isTrue => exact h.setTask nofun hok
    case isFalse => exact h.setTask nofun hok
  | send i next =>
    have hok := (h e).task
    rw [ht] at hok
    simp only [FdSys.run, ht] at hs
    cases hs
    have hset : FdInv (s.setTask e (.closeFd i next)) := h.setTask nofun hok
    exact fun e' => local_pipeOk (hset e') rfl rfl fun _ hc => ⟨hc, rfl⟩
  | closeData i next =>
    simp only [FdSys.run, ht] at hs
    cases hs
    exact h.closeData ht
  | closeFd i next =>
    simp only [FdSys.run, ht] at hs
    cases hs
    exact h.closeFd ht
  | dupData old new => exact h.dupData ht s' hs
  | dupFd old new =>
    have hok := (h e).task
    rw [ht] at hok
    simp only [FdSys.run, ht] at hs
    cases hs
    exact h.dupFd hok.1 hok.2.1 hok.2.2
  | dupErr new =>
    simp only [FdSys.run, ht] at hs
    cases hs
    exact h.dupErr ht
  | dupErrData new =>
    simp only [FdSys.run, ht, Option.some.injEq] at hs
    subst hs
    exact h.dupErrData ht
  | closeAll i =>
    simp only [FdSys.run, ht] at hs
    cases hs
    split
    case isTrue hi => exact h.close hi trivial
    case isFalse => exact h.envFree
  | fork c k =>
    simp only [FdSys.run, ht] at hs
    cases hs
    exact h.copyPage (.inl ht) (.inl rfl) (hcond c k (.inl ht))
  | spawn c k =>
    simp only [FdSys.run, ht] at hs
    cases hs
    exact h.copyPage (.inr ht) (.inr rfl) (hcond c k (.inr ht))
  | _ =>
    simp only [FdSys.run, ht] at hs
    cases hs

end

end FdInv

theorem fdInv_step {s' : FdSys} {l : FdEvent} (h : FdInv s) (hcond : FdCond s l) (hs : s.step l = some s') :
    FdInv s' := by
  cases l with
  | close e i =>
    obtain ⟨-, rfl⟩ := Sys.guard_eq hs
    by_cases hi : i < maxfd
    · exact h.close hi trivial
    · rw [FdSys.close, if_neg hi]
      exact h.setTask (FdNext.task_ne_embryo _) trivial
  | dup e old new =>
    obtain ⟨-, rfl⟩ := Sys.guard_eq hs
    split
    case isTrue hold => exact h.close hcond ⟨hold.1, rfl⟩
    case isFalse => exact h
  | fork e c =>
    obtain ⟨ht, rfl⟩ := Sys.guard_eq hs
    refine h.exofork ?_ (by simp) (.inl rfl)
    rintro rfl
    rw [ht.1] at ht
    cases ht.2
  | spawn e c image =>
    obtain ⟨ht, rfl⟩ := Sys.guard_eq hs
    refine h.exofork ?_ (fun k p hp => ?_) (.inr rfl)
    · rintro rfl
      rw [ht.1] at ht
      cases ht.2
    · obtain ⟨id, -, rfl⟩ := Option.map_eq_some_iff.1 hp
      exact ⟨rfl, by simp⟩
  | exit e =>
    obtain ⟨-, rfl⟩ := Sys.guard_eq hs
    exact h.setTask (by simp) trivial
  | kill e =>
    obtain ⟨-, rfl⟩ := Sys.guard_eq hs
    exact h.envFree
  | openPage e k id share devpipe =>
    obtain ⟨⟨hidle, -, hnone⟩, rfl⟩ := Sys.guard_eq hs
    have htask : s.setPage e k (some (.other id share devpipe)) =
        (s.setPage e k (some (.other id share devpipe))).setTask e .idle := by
      rw [FdSys.setTask, FdSys.setPage, ← hidle, update_eq_self]
    rw [htask]
    refine h.setPage (by simp) ((h e).placed.set ?_ (by simp) ?_) trivial
    · intro p hp hpe
      cases hp
      cases hpe
    · -- the place of a data page is taken
      intro k' q hq hqe hk
      have hpipe := ((h e).placed.ends k' q hq hqe).2.2
      rw [hk, hnone] at hpipe
      cases hpipe
  | run e ok => exact h.run hcond hs

/-! ### Counting -/

namespace FdInv

variable {s : FdSys}

theorem refs_ends_le (h : FdInv s) : s.mapRefs .rfd + s.mapRefs .wfd ≤ s.mapRefs .pipe := by
  have hdisj : Disjoint (userPlaces.filter fun x => s.pt x.1 x.2 = some .rfd)
      (userPlaces.filter fun x => s.pt x.1 x.2 = some .wfd) := by
    refine Finset.disjoint_filter.2 fun x _ hr hw => ?_
    rw [hr] at hw
    cases hw
  -- every `Fd` page has its own data page
  unfold FdSys.mapRefs refs
  rw [← Finset.card_union_of_disjoint hdisj, ← Finset.filter_or]
  refine Finset.card_le_card_of_injOn (fun x => (x.1, x.2 + maxfd)) ?_ ?_
  · intro x hx
    rw [Finset.mem_coe, Finset.mem_filter] at hx ⊢
    have hend : ∃ p, s.pt x.1 x.2 = some p ∧ p.isEnd = true := by
      obtain ⟨-, hr | hw⟩ := hx
      · exact ⟨_, hr, rfl⟩
      · exact ⟨_, hw, rfl⟩
    obtain ⟨p, hp, hpe⟩ := hend
    obtain ⟨-, hlt, hpipe⟩ := (h x.1).placed.ends x.2 p hp hpe
    have hplace : x.2 + maxfd < fdtable + 2 * maxfd := by omega
    exact ⟨mem_userPlaces.2 (place_lt hplace), hpipe⟩
  · intro x _ y _ heq
    simp only [Prod.mk.injEq, Nat.add_right_cancel_iff] at heq
    exact Prod.ext heq.1 heq.2

theorem refs_pipe_lt (h : FdInv s) : s.mapRefs .pipe < 2 ^ 16 := by
  have hsub : (userPlaces.filter fun x => s.pt x.1 x.2 = some .pipe) ⊆
      Finset.univ ×ˢ Finset.Ico (fdtable + maxfd) (fdtable + 2 * maxfd) := by
    intro x hx
    rw [Finset.mem_filter] at hx
    simp only [Finset.mem_product, Finset.mem_univ, true_and, Finset.mem_Ico]
    exact (h x.1).placed.pipes x.2 hx.2
  refine (Finset.card_le_card hsub).trans_lt ?_
  rw [Finset.card_product, Finset.card_univ, Fintype.card_fin, Nat.card_Ico]
  decide

theorem ppRef_eq (h : FdInv s) (hp : p.isEnd = true ∨ p = .pipe) : s.ppRef p = s.mapRefs p := by
  have hle := h.refs_ends_le
  have hlt := h.refs_pipe_lt
  refine Nat.mod_eq_of_lt ?_
  cases p with
  | rfd => omega
  | wfd => omega
  | pipe => exact hlt
  | _ => simp [FdPage.isEnd] at hp

theorem mapRefs_pos (h : FdInv s) {e : Fin nenv} {k : ℕ} (hp : s.pt e k = some p) (hpe : p.isEnd = true) :
    0 < s.mapRefs p := by
  have hlt := ((h e).placed.ends k p hp hpe).2.1
  have hplace : (e, k) ∈ userPlaces := mem_userPlaces.2 (place_lt (show k < _ by omega))
  exact refs_pos hplace hp

theorem pipeIsClosed_eq (h : FdInv s) {e : Fin nenv} {i : ℕ} (hi : i < maxfd)
    (hp : s.pt e (index2fd i) = some p) (hpe : p.isEnd = true) :
    s.pipeIsClosed e i = decide (s.mapRefs p = s.mapRefs .pipe) := by
  have hdata : s.pt e (fd2data (index2fd i)) = some .pipe := by
    have := (h e).placed.ends _ p hp hpe
    rw [fd2data_index2fd hi, index2data_of_lt hi]
    rw [index2fd_of_lt hi] at this
    rw [show fdtable + maxfd + i = fdtable + i + maxfd by omega]
    exact this.2.2
  simp only [FdSys.pipeIsClosed, FdSys.pageref, hp, hdata, h.ppRef_eq (.inl hpe),
    h.ppRef_eq (.inr rfl)]

end FdInv

/-- In every run, from environments that share a pipe, whose steps meet
`FdCond`: the reference count of the pipe is at least that of both ends
together, and `_pipeisclosed` says no at one end as long as some environment
holds the other. -/
theorem no_false_eof {s₀ s : FdSys} (h₀ : s₀.Shared) (hrun : Sys.Reach FdSys.step FdCond s₀ s) :
    s.ppRef .rfd + s.ppRef .wfd ≤ s.ppRef .pipe ∧
      ∀ e i, i < maxfd →
        (s.pt e (index2fd i) = some .rfd → (∃ e' k, s.pt e' k = some .wfd) →
          s.pipeIsClosed e i = false) ∧
        (s.pt e (index2fd i) = some .wfd → (∃ e' k, s.pt e' k = some .rfd) →
          s.pipeIsClosed e i = false) := by
  have h : FdInv s := by
    refine Sys.Reach.inv (fun e => ⟨h₀.placed e, ?_⟩) (fun _ _ _ => fdInv_step) hrun
    obtain he | he := h₀.idle e <;> rw [he] <;> trivial
  have hle := h.refs_ends_le
  refine ⟨?_, fun e i hi => ⟨?_, ?_⟩⟩
  · rw [h.ppRef_eq (.inl rfl), h.ppRef_eq (.inl rfl), h.ppRef_eq (.inr rfl)]
    exact hle
  · rintro hr ⟨e', k, hw⟩
    have := h.mapRefs_pos hw rfl
    rw [h.pipeIsClosed_eq hi hr rfl, decide_eq_false_iff_not]
    omega
  · rintro hw ⟨e', k, hr⟩
    have := h.mapRefs_pos hr rfl
    rw [h.pipeIsClosed_eq hi hw rfl, decide_eq_false_iff_not]
    omega

/-! ### The order in which `fork` copies -/

section

variable {s₀ s : FdSys} {e c : Fin nenv} {k m : ℕ}

theorem reach_pass (hreach : Sys.Reach FdSys.step (fun _ _ => True) s₀ s)
    (ht : s.task e = .fork c k) (hk : k ≤ m) (hm : m ≤ forkPages)
    (hnone : ∀ j, k ≤ j → j < m → s.pt e j = none) :
    Sys.Reach FdSys.step (fun _ _ => True) s₀ (s.setTask e (.fork c m)) := by
  induction m, hk using Nat.le_induction with
  | base =>
    rw [← ht]
    simpa only [FdSys.setTask, update_eq_self] using hreach
  | succ m hle ih =>
    have hlt : m < forkPages := hm
    refine (ih (by omega) fun j h₁ h₂ => hnone j h₁ (by omega)).step (l := .run e true) trivial ?_
    simp only [FdSys.step, FdSys.run, setTask_task, if_true, FdSys.copyPage, hlt,
      setTask_pt, hnone m hle (by omega), setTask_setTask]

end

namespace Demo

/-- A writer, 0, and two readers, 1 and 2. -/
def pipeShared : FdSys where
  pt e k :=
    if e = 0 then
      if k = fdtable + 1 then some .wfd else if k = fdtable + 1 + maxfd then some .pipe else none
    else if e = 1 ∨ e = 2 then
      if k = fdtable then some .rfd else if k = fdtable + maxfd then some .pipe else none
    else none
  task e := if e = 0 ∨ e = 1 ∨ e = 2 then .idle else .free
  sent := 0

theorem pipeShared_shared : pipeShared.Shared := by
  have hpos : 1 < maxfd := by decide
  refine ⟨fun e => ⟨fun k p hp hpe => ?_, fun k hk => ?_⟩, fun e => ?_⟩
  · simp only [pipeShared] at hp ⊢
    grind [FdPage.isEnd]
  · simp only [pipeShared] at hk
    grind
  · simp only [pipeShared]
    split
    · exact .inl rfl
    · exact .inr rfl

end Demo

open Demo

/-- A reader closes its descriptor: the other one does not see an end. -/
theorem no_false_eof_close : ∃ s, Sys.Reach FdSys.step FdCond pipeShared s ∧
    s.pt 1 (index2fd 0) = none ∧ s.ppRef .rfd + s.ppRef .wfd ≤ s.ppRef .pipe ∧
      s.pipeIsClosed 2 0 = false := by
  have hrun : Sys.Reach FdSys.step FdCond pipeShared (pipeShared.close 1 0 .ret) :=
    Sys.Reach.refl.step (l := .close 1 0) trivial rfl
  have hpt : ∀ e k, (pipeShared.close 1 0 .ret).pt e k =
      if e = 1 ∧ k = fdtable then none else pipeShared.pt e k := by
    intro e k
    have hpage : pipeShared.pt 1 fdtable = some .rfd := rfl
    rw [FdSys.close, if_pos (by decide), index2fd_of_lt (by decide), Nat.add_zero, hpage,
      unmap_of_lt (place_lt (by decide))]
    rfl
  have h := no_false_eof pipeShared_shared hrun
  refine ⟨_, hrun, ?_, h.1, (h.2 2 0 (by decide)).1 ?_ ⟨0, fdtable + 1, ?_⟩⟩
  · rw [hpt]
    exact if_pos ⟨rfl, rfl⟩
  · rw [hpt]
    rfl
  · rw [hpt]
    rfl

theorem FdSys.mapRefs_eq_card (S : Finset (Fin nenv × ℕ)) (h : ∀ e k, s.pt e k = some p ↔ (e, k) ∈ S)
    (hlt : ∀ x ∈ S, x.2 < fdtable + 2 * maxfd) : s.mapRefs p = S.card := by
  unfold FdSys.mapRefs refs
  congr 1
  ext x
  rw [Finset.mem_filter, mem_userPlaces, h x.1 x.2]
  exact ⟨fun hx => hx.2, fun hx => ⟨place_lt (hlt x hx), hx⟩⟩

theorem Demo.refs_copied
    (hpt : ∀ e k, s.pt e k = if e = 3 then if k = fdtable then some .rfd else none else pipeShared.pt e k) :
    s.mapRefs .rfd = 3 ∧ s.mapRefs .wfd = 1 ∧ s.mapRefs .pipe = 3 := by
  have hpos : 1 < maxfd := by decide
  have h₀ : (3 : Fin nenv) ≠ 0 ∧ (3 : Fin nenv) ≠ 1 ∧ (3 : Fin nenv) ≠ 2 := by decide
  have h₁ : (1 : Fin nenv) ≠ 0 ∧ (2 : Fin nenv) ≠ 0 ∧ (1 : Fin nenv) ≠ 2 := by decide
  have hne : ∀ {e e' : Fin nenv} {k k' : ℕ}, e ≠ e' → (e, k) ≠ (e', k') :=
    fun h heq => h (Prod.ext_iff.1 heq).1
  refine ⟨?_, ?_, ?_⟩
  · rw [mapRefs_eq_card {(1, fdtable), (2, fdtable), (3, fdtable)}]
    · exact Finset.card_eq_three.2 ⟨_, _, _, hne h₁.2.2, hne h₀.2.1.symm, hne h₀.2.2.symm, rfl⟩
    · intro e k
      rw [hpt]
      simp only [pipeShared, Finset.mem_insert, Finset.mem_singleton, Prod.mk.injEq]
      generalize fdtable = table
      clear hpt
      grind
    · simp only [Finset.forall_mem_insert, Finset.mem_singleton, forall_eq]
      omega
  · rw [mapRefs_eq_card {(0, fdtable + 1)}]
    · exact Finset.card_singleton _
    · intro e k
      rw [hpt]
      simp only [pipeShared, Finset.mem_singleton, Prod.mk.injEq]
      generalize fdtable = table
      clear hpt
      grind
    · simp only [Finset.mem_singleton, forall_eq]
      omega
  · rw [mapRefs_eq_card {(0, fdtable + 1 + maxfd), (1, fdtable + maxfd), (2, fdtable + maxfd)}]
    · exact Finset.card_eq_three.2 ⟨_, _, _, hne h₁.1.symm, hne h₁.2.1.symm, hne h₁.2.2, rfl⟩
    · intro e k
      rw [hpt]
      simp only [pipeShared, Finset.mem_insert, Finset.mem_singleton, Prod.mk.injEq]
      generalize fdtable = table
      clear hpt
      grind
    · simp only [Finset.forall_mem_insert, Finset.mem_singleton, forall_eq]
      omega

/-- Reader 1 forks: when the `Fd` page has been copied and the data page has
not, the pipe is mapped as often as its reading end, and reader 2 takes the
pipe for closed although the writer is there. -/
theorem fork_false_eof : ∃ s, Sys.Reach FdSys.step (fun _ _ => True) pipeShared s ∧
    s.pt 0 (index2fd 1) = some .wfd ∧ s.pt 2 (index2fd 0) = some .rfd ∧
      s.ppRef .pipe < s.ppRef .rfd + s.ppRef .wfd ∧ s.pipeIsClosed 2 0 = true := by
  have r₁ : Sys.Reach FdSys.step (fun _ _ => True) pipeShared
      ((pipeShared.exofork 1 3 fun _ => none).setTask 1 (.fork 3 0)) :=
    Sys.Reach.refl.step (l := .fork 1 3) trivial rfl
  have hreader : ∀ j, pipeShared.pt 1 j =
      if j = fdtable then some .rfd else if j = fdtable + maxfd then some .pipe else none :=
    fun j => rfl
  have r₂ := reach_pass (e := 1) (m := fdtable) r₁ rfl (by decide) (by decide) fun j _ hj => by
    show pipeShared.pt 1 j = none
    rw [hreader, if_neg hj.ne, if_neg (by omega)]
  have r₃ : Sys.Reach FdSys.step (fun _ _ => True) pipeShared
      (((((pipeShared.exofork 1 3 fun _ => none).setTask 1 (.fork 3 0)).setTask 1
        (.fork 3 fdtable)).setPage 3 fdtable (some .rfd)).setTask 1 (.fork 3 (fdtable + 1))) :=
    r₂.step (l := .run 1 true) trivial rfl
  obtain ⟨s, hrun, hpt⟩ : ∃ s, Sys.Reach FdSys.step (fun _ _ => True) pipeShared s ∧
      ∀ e k, s.pt e k =
        if e = 3 then if k = fdtable then some .rfd else none else pipeShared.pt e k := by
    refine ⟨_, r₃, fun e k => ?_⟩
    simp only [setTask_pt, setPage_pt, exofork_pt]
    clear r₁ hreader r₂ r₃
    generalize fdtable = table
    grind
  obtain ⟨hr, hw, hp⟩ := refs_copied hpt
  have hne : (2 : Fin nenv) ≠ 0 := by decide
  have hmax : fdtable + maxfd ≠ fdtable := by
    unfold maxfd
    omega
  have hfd₀ : index2fd 0 = fdtable := index2fd_of_lt (by decide)
  have hfd₁ : index2fd 1 = fdtable + 1 := index2fd_of_lt (by decide)
  have hdata : fd2data fdtable = fdtable + maxfd := by
    have h := fd2data_index2fd (i := 0) (by decide)
    rwa [index2data_of_lt (by decide), Nat.add_zero, hfd₀] at h
  have hwfd : s.pt 0 (fdtable + 1) = some .wfd := by
    rw [hpt, if_neg (by decide)]
    simp only [pipeShared, if_pos]
  have hrfd : s.pt 2 fdtable = some .rfd := by
    rw [hpt, if_neg (by decide)]
    simp only [pipeShared, if_neg hne, or_true, if_pos]
  have hpipe : s.pt 2 (fdtable + maxfd) = some .pipe := by
    rw [hpt, if_neg (by decide)]
    simp only [pipeShared, if_neg hne, if_neg hmax, or_true, if_pos]
  refine ⟨s, hrun, ?_, ?_, ?_, ?_⟩
  · rw [hfd₁, hwfd]
  · rw [hfd₀, hrfd]
  · simp only [FdSys.ppRef, hr, hw, hp]
    decide
  · simp only [FdSys.pipeIsClosed, FdSys.pageref, FdSys.ppRef, hfd₀, hdata, hrfd, hpipe, hr, hp]
    decide

end Jos
