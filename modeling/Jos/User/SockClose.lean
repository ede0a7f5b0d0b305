/-
Closing a shared socket: `devsock_close` of lib/sockets.c under the calls of
`FdSys`.

The `Fd` page of the socket is shared; a `close` reads its reference count,
sends `NSREQ_CLOSE` if it was one, and unmaps the page, in three steps.  What
this does to the places that map the page is a run of `LastRef`
(`SockInv.step`).

* `socket_closed_once` — while no close gives way to closes that have read the
  count before it, the socket is closed exactly once;
* `socket_never_closed` — two closes that both read the count first.
-/
import Jos.Lib.LastRef
import Jos.Lib.Run
import Jos.User.FdTable
import Mathlib.Order.Interval.Finset.Nat

namespace Jos

open Function

variable {ok : Bool} {s' : FdSys} {t : FdTask}

/-- The `Fd` page for whose socket `NSREQ_CLOSE` is sent next. -/
def FdTask.sends : FdTask → Option ℕ
  | .send i _ => some (index2fd i)
  | _ => none

def FdTask.unmaps : FdTask → Option ℕ
  | .closeFd i _ => some (index2fd i)
  | _ => none

namespace FdSys

/-! ### The places that map the socket -/

def socket (s : FdSys) : LastRef (Fin nenv × ℕ) where
  holders := {x | s.pt x.1 x.2 = some .sock}
  closing := {x | (s.task x.1).sends = some x.2}
  leaving := {x | s.pt x.1 x.2 = some .sock ∧ (s.task x.1).unmaps = some x.2}
  closed := s.sent

/-- What a step means. -/
def Refines (s s' : FdSys) : Prop := s'.socket = s.socket ∨ LastRef.Step s.socket s'.socket

theorem mapTo_cases {s : FdSys} {e : Fin nenv} {k : ℕ} (x : Option FdPage)
    (h : s.mapTo e k x ok = some s') : s' = s.setPage e k x := by
  unfold mapTo at h
  split at h
  · exact (Option.some.inj h).symm
  · cases h

/-! ### Quiet steps -/

section Quiet

variable {s s' : FdSys} {e : Fin nenv} {k : ℕ}

/-- A task that is not about to close the socket or to let go of it. -/
def Quiet (s : FdSys) (e : Fin nenv) (t : FdTask) : Prop :=
  t.sends = none ∧ ∀ k, t.unmaps = some k → s.pt e k ≠ some .sock

theorem socket_own (hpt : ∀ x k, s'.pt x k = some .sock ↔ s.pt x k = some .sock)
    (htask : ∀ x ≠ e, s'.task x = s.task x) (hsent : s'.sent = s.sent)
    (hq : s.Quiet e (s.task e)) (hq' : s.Quiet e (s'.task e)) : s'.socket = s.socket := by
  unfold socket
  congr 1
  · ext x
    exact hpt x.1 x.2
  · ext x
    by_cases hx : x.1 = e
    · simp only [Set.mem_ofPred_eq, hx, hq.1, hq'.1]
    · simp only [Set.mem_ofPred_eq, htask x.1 hx]
  · ext x
    simp only [Set.mem_ofPred_eq, hpt]
    refine and_congr_right fun hp => ?_
    by_cases hx : x.1 = e
    · rw [hx] at hp ⊢
      exact iff_of_false (fun h => hq'.2 _ h hp) fun h => hq.2 _ h hp
    · rw [htask x.1 hx]

theorem socket_setTask (hq : s.Quiet e (s.task e)) (hq' : s.Quiet e t) : (s.setTask e t).socket = s.socket := by
  refine socket_own (fun _ _ => Iff.rfl) (fun x hx => ?_) rfl hq ?_
  · rw [setTask_task, if_neg hx]
  · rwa [setTask_task, if_pos rfl]

theorem setPage_ne {x : Option FdPage} {e' : Fin nenv} {k' : ℕ} (hx : x ≠ some .sock)
    (h : s.pt e' k' ≠ some .sock) : (s.setPage e k x).pt e' k' ≠ some .sock := by
  rw [setPage_pt]
  split
  · exact hx
  · exact h

theorem socket_setPage {x : Option FdPage} (hold : s.pt e k ≠ some .sock) (hx : x ≠ some .sock) :
    (s.setPage e k x).socket = s.socket := by
  have hpt : ∀ e' k', (s.setPage e k x).pt e' k' = some .sock ↔ s.pt e' k' = some .sock := by
    intro e' k'
    rw [setPage_pt]
    split
    · next h =>
      rw [h.1, h.2]
      exact iff_of_false hx hold
    · exact Iff.rfl
  unfold socket
  simp only [hpt, setPage_task, setPage_sent]

theorem socket_share (hs : (s.task e).sends = none) (hu : (s.task e).unmaps = none) :
    (s.setPage e k (some .sock)).socket = { s.socket with holders := insert (e, k) s.socket.holders } := by
  unfold socket
  congr 1
  · ext ⟨x, k'⟩
    by_cases hx : x = e ∧ k' = k
    · simp [hx]
    · simp [hx]
      exact .inl fun hxe hk => hx ⟨hxe, hk⟩
  · ext ⟨x, k'⟩
    by_cases hx : x = e
    · subst hx
      simp [hu]
    · simp [hx]

/-- The page is mapped in one more place. -/
theorem refines_share {e' : Fin nenv} {k' : ℕ} (hp : s.pt e k = some .sock)
    (hs : (s.task e).sends = none) (hu : (s.task e).unmaps = none)
    (hs' : (s.task e').sends = none) (hu' : (s.task e').unmaps = none) :
    s.Refines (s.setPage e' k' (some .sock)) := by
  refine .inr ?_
  rw [socket_share hs' hu']
  refine .share (z := (e, k)) hp ?_ ?_ ?_ ?_
  · simp [socket, hs]
  · simp [socket, hu]
  · simp [socket, hs']
  · simp [socket, hu']

theorem quiet_of_none (hs : t.sends = none) (hu : t.unmaps = none) : s.Quiet e t := by
  refine ⟨hs, fun k h => ?_⟩
  rw [hu] at h
  cases h

theorem quiet_task (ht : s.task e = t) (hs : t.sends = none) (hu : t.unmaps = none) :
    s.Quiet e (s.task e) := ht ▸ quiet_of_none hs hu

theorem quiet_next (next : FdNext) : s.Quiet e next.task := by
  cases next <;> exact quiet_of_none rfl rfl

end Quiet

/-! ### Invariant -/

/-- What follows after a close of descriptor `i`. -/
def NextOk (s : FdSys) (e : Fin nenv) (i : ℕ) : FdNext → Prop
  | .ret => True
  | .dup old new => new = i ∧ old < maxfd
  | .closeAll j => j = i ∧ ∀ k < i, s.pt e (fdtable + k) ≠ some .sock

def SockOk (s : FdSys) (e : Fin nenv) : FdTask → Prop
  | .free => ∀ k, s.pt e k ≠ some .sock
  | .test i next => i < maxfd ∧ s.pt e (fdtable + i) = some .sock ∧ s.NextOk e i next
  | .send i next => i < maxfd ∧ s.pt e (fdtable + i) = some .sock ∧ s.NextOk e i next
  | .closeData i next => i < maxfd ∧ s.pt e (fdtable + i) ≠ some .sock ∧ s.NextOk e i next
  | .closeFd i next => i < maxfd ∧ s.NextOk e i next
  | .dupData old new => old < maxfd ∧ new < maxfd ∧ s.pt e (fdtable + new) ≠ some .sock
  | .dupFd old new => old < maxfd ∧ new < maxfd ∧ s.pt e (fdtable + new) ≠ some .sock
  | .dupErr new => new < maxfd ∧ s.pt e (fdtable + new) ≠ some .sock
  | .dupErrData new => new < maxfd
  | .closeAll i => ∀ k < i, k < maxfd → s.pt e (fdtable + k) ≠ some .sock
  | .fork c k => s.task c = .embryo e → ∀ k' ≥ k, s.pt c k' ≠ some .sock
  | .spawn c k => s.task c = .embryo e → ∀ k' ≥ k, s.pt c k' ≠ some .sock
  | _ => True

theorem NextOk.congr {s : FdSys} {e : Fin nenv} {i : ℕ} {next : FdNext} (h : s.NextOk e i next)
    (hpt : ∀ k, s.pt e k ≠ some .sock → s'.pt e k ≠ some .sock) : s'.NextOk e i next := by
  cases next with
  | ret => trivial
  | dup old new => exact h
  | closeAll j => exact ⟨h.1, fun k hk => hpt _ (h.2 k hk)⟩

theorem SockOk.congr {s : FdSys} {e : Fin nenv} (h : s.SockOk e t) (hpt : s'.pt e = s.pt e)
    (hchild : ∀ c, s'.task c = .embryo e → s.task c = .embryo e ∧ s'.pt c = s.pt c) :
    s'.SockOk e t := by
  have hnext : ∀ {i next}, s.NextOk e i next → s'.NextOk e i next := fun h =>
    h.congr fun k hk => by rwa [hpt]
  cases t with
  | test i next | send i next | closeData i next =>
    simp only [SockOk, hpt] at h ⊢
    exact ⟨h.1, h.2.1, hnext h.2.2⟩
  | closeFd i next => exact ⟨h.1, hnext h.2⟩
  | fork c k | spawn c k =>
    intro hc
    obtain ⟨hc', hpt'⟩ := hchild c hc
    rw [hpt']
    exact h hc'
  | _ =>
    simp only [SockOk, hpt] at h ⊢
    try exact h

end FdSys

/-- The socket is mapped at descriptors only, and each task finds what it
expects. -/
structure FdSys.SocketOk (s : FdSys) (e : Fin nenv) : Prop where
  placed : ∀ k, s.pt e k = some .sock → ∃ i < maxfd, k = fdtable + i
  task : s.SockOk e (s.task e)

def SockInv (s : FdSys) : Prop := ∀ e, s.SocketOk e

/-- When a step keeps to the rules: `dup` stays inside the table, an environment
that has the socket is not destroyed from outside, and a close that finds other
mappings of the socket finds one whose close has not read the count. -/
def SockCond (s : FdSys) : FdEvent → Prop
  | .dup _ _ new => new < maxfd
  | .kill e => ∀ k, s.pt e k ≠ some .sock
  | .run e _ => ∀ i next, s.task e = .test i next → s.ppRef .sock ≠ 1 →
      ∃ e' k, s.pt e' k = some .sock ∧ (e', k) ≠ (e, index2fd i) ∧
        (s.task e').sends ≠ some k ∧ (s.task e').unmaps ≠ some k
  | _ => True

/-- The start: the socket is open somewhere, at descriptors, and no call is in
progress. -/
structure FdSys.Start (s : FdSys) : Prop where
  tasks : ∀ e, s.task e = .idle ∨ s.task e = .free
  free : ∀ e, s.task e = .free → ∀ k, s.pt e k = none
  placed : ∀ e k, s.pt e k = some .sock → ∃ i < maxfd, k = fdtable + i
  opened : ∃ e k, s.pt e k = some .sock
  sent : s.sent = 0

open FdSys

theorem local_socketOk : Local SocketOk := fun h hpt htask hchild =>
  ⟨hpt ▸ h.placed, htask ▸ h.task.congr hpt hchild⟩

namespace SockInv

variable {s s' : FdSys} {e c : Fin nenv} {i k : ℕ} {next : FdNext}

theorem of_start (h : s.Start) : SockInv s ∧ s.socket.Inv := by
  refine ⟨fun e => ⟨h.placed e, ?_⟩, ?_⟩
  · rcases h.tasks e with ht | ht
    · rw [ht]
      trivial
    · rw [ht]
      intro k
      rw [h.free e ht]
      exact nofun
  · obtain ⟨e, k, hp⟩ := h.opened
    have htask : ∀ e, (s.task e).sends = none ∧ (s.task e).unmaps = none := by
      intro e
      rcases h.tasks e with ht | ht <;> rw [ht] <;> exact ⟨rfl, rfl⟩
    refine .isOpen (e, k) hp ?_ ?_ (fun x hx => hx.1) h.sent
    · rintro ⟨-, hu⟩
      rw [(htask e).2] at hu
      cases hu
    · rw [Set.eq_empty_iff_forall_notMem]
      intro x hx
      have hx : (s.task x.1).sends = some x.2 := hx
      rw [(htask x.1).1] at hx
      cases hx

/-- A step keeps the invariant and means what it should. -/
def Good (s s' : FdSys) : Prop := SockInv s' ∧ s.Refines s'

theorem task_ok (h : SockInv s) (ht : s.task e = t) : s.SockOk e t := ht ▸ (h e).task

theorem setTask (h : SockInv s) (hq : s.Quiet e (s.task e)) (hq' : s.Quiet e t) (hrun : ∀ p, t ≠ .embryo p)
    (hok : (s.setTask e t).SockOk e t) : Good s (s.setTask e t) := by
  refine ⟨local_socketOk.setTask h hrun ⟨(h e).placed, ?_⟩, .inl (socket_setTask hq hq')⟩
  rwa [setTask_task, if_pos rfl]

theorem setPage_inv (h : SockInv s) {x : Option FdPage}
    (hplaced : x = some .sock → ∃ i < maxfd, k = fdtable + i) (hrun : ∀ p, t ≠ .embryo p)
    (hok : ((s.setPage e k x).setTask e t).SockOk e t) : SockInv ((s.setPage e k x).setTask e t) := by
  refine local_socketOk.setPage h hrun ⟨fun k' hp => ?_, ?_⟩
  · rw [setTask_pt, setPage_pt] at hp
    split at hp
    · next hk => exact hk.2 ▸ hplaced hp
    · exact (h e).placed k' hp
  · rwa [setTask_task, if_pos rfl]

theorem setPage (h : SockInv s) {x : Option FdPage} (hq : s.Quiet e (s.task e))
    (hold : s.pt e k ≠ some .sock) (hx : x ≠ some .sock) (hq' : (s.setPage e k x).Quiet e t)
    (hrun : ∀ p, t ≠ .embryo p) (hok : ((s.setPage e k x).setTask e t).SockOk e t) :
    Good s ((s.setPage e k x).setTask e t) := by
  have hquiet : (s.setPage e k x).Quiet e ((s.setPage e k x).task e) :=
    ⟨hq.1, fun i ht => setPage_ne hx (hq.2 i ht)⟩
  exact ⟨h.setPage_inv (fun hc => absurd hc hx) hrun hok,
    .inl ((socket_setTask hquiet hq').trans (socket_setPage hold hx))⟩

theorem fd_lt (hi : i < maxfd) : fdtable + i < userPages :=
  place_lt (by omega)

theorem data_lt (hi : i < maxfd) : index2data i < userPages := by
  rw [index2data_of_lt hi]
  exact place_lt (by omega)

theorem not_data (h : SockInv s) (e : Fin nenv) (hi : i < maxfd) :
    s.pt e (index2data i) ≠ some .sock := by
  intro hp
  obtain ⟨j, hj, heq⟩ := (h e).placed _ hp
  rw [index2data_of_lt hi] at heq
  omega

theorem next_ok (hnext : s.NextOk e i next) (hi : i < maxfd)
    (hnone : s.pt e (fdtable + i) ≠ some .sock) : s.SockOk e next.task := by
  cases next with
  | ret => trivial
  | dup old new =>
    obtain ⟨rfl, hold⟩ := hnext
    exact ⟨hold, hi, hnone⟩
  | closeAll j =>
    obtain ⟨rfl, hlt⟩ := hnext
    intro k hk _
    rcases Nat.lt_succ_iff_lt_or_eq.mp hk with hk | rfl
    · exact hlt k hk
    · exact hnone

theorem next_congr (h : s.SockOk e next.task) (hpt : s'.pt e = s.pt e) :
    s'.SockOk e next.task := by
  cases next with
  | ret => trivial
  | dup old new | closeAll j =>
    simp only [FdNext.task, SockOk, hpt] at h ⊢
    exact h

/-! ### One lemma for each step -/

section

variable (h : SockInv s)
include h

theorem close (hq : s.Quiet e (s.task e)) (hi : i < maxfd) (hnext : s.NextOk e i next) :
    Good s (s.close e i next) := by
  unfold FdSys.close
  rw [if_pos hi, index2fd_of_lt hi]
  cases hp : s.pt e (fdtable + i) with
  | none =>
    refine h.setTask hq (quiet_next next) next.task_ne_embryo ?_
    exact next_congr (next_ok hnext hi (by rw [hp]; exact nofun)) rfl
  | some p =>
    simp only
    split
    · next hsock =>
      refine h.setTask hq (quiet_of_none rfl rfl) nofun ?_
      exact ⟨hi, hsock ▸ hp, hnext⟩
    · next hsock =>
      have hne : s.pt e (fdtable + i) ≠ some .sock := by
        rw [hp]
        exact fun hc => hsock (Option.some.inj hc)
      split
      · rw [unmap_of_lt (fd_lt hi)]
        refine h.setPage hq hne nofun (quiet_of_none rfl rfl) nofun ⟨hi, ?_, ?_⟩
        · rw [setTask_pt, setPage_pt, if_pos ⟨rfl, rfl⟩]
          exact nofun
        · exact FdSys.NextOk.congr hnext fun k hk => setPage_ne nofun hk
      · refine h.setTask hq ⟨rfl, fun k hk => ?_⟩ nofun ⟨hi, hnext⟩
        cases hk
        rwa [index2fd_of_lt hi]

theorem advance (hpt : s'.pt = s.pt) (htask : s'.task = update s.task e t) (hrun : ∀ p, t ≠ .embryo p)
    (hok : s'.SockOk e t) : SockInv s' := by
  refine local_socketOk.own (e := e) h (fun _ _ => by rw [hpt]) (fun x hx => ?_) (fun p => ?_)
    ⟨hpt ▸ (h e).placed, ?_⟩
  · rw [htask, update_of_ne hx]
  · rw [htask, update_self]
    exact hrun p
  · rwa [htask, update_self]

theorem test_last (ht : s.task e = .test i next) (hsole : s.socket.holders = {(e, fdtable + i)}) :
    Good s (s.setTask e (.send i next)) := by
  obtain ⟨hi, hp, hnext⟩ := h.task_ok ht
  have hsocket : (s.setTask e (.send i next)).socket =
      { s.socket with closing := insert (e, fdtable + i) s.socket.closing } := by
    unfold FdSys.socket
    congr 1
    · ext ⟨x, k⟩
      by_cases hx : x = e
      · subst hx
        simp [ht, FdTask.sends, index2fd_of_lt hi, eq_comm]
      · simp [hx]
    · ext ⟨x, k⟩
      by_cases hx : x = e
      · subst hx
        simp [ht, FdTask.unmaps]
      · simp [hx]
  refine ⟨h.advance rfl rfl nofun ⟨hi, hp, hnext⟩, .inr ?_⟩
  rw [hsocket]
  refine .last hp ?_ ?_ hsole
  · simp [FdSys.socket, ht, FdTask.sends]
  · simp [FdSys.socket, ht, FdTask.unmaps]

theorem test_pass (ht : s.task e = .test i next) {z : Fin nenv × ℕ} (hz : z ∈ s.socket.holders)
    (hne : z ≠ (e, fdtable + i)) (hzc : z ∉ s.socket.closing) (hzl : z ∉ s.socket.leaving) :
    Good s (s.setTask e (.closeFd i next)) := by
  obtain ⟨hi, hp, hnext⟩ := h.task_ok ht
  have hsocket : (s.setTask e (.closeFd i next)).socket =
      { s.socket with leaving := insert (e, fdtable + i) s.socket.leaving } := by
    unfold FdSys.socket
    congr 1
    · ext ⟨x, k⟩
      by_cases hx : x = e
      · subst hx
        simp [ht, FdTask.sends]
      · simp [hx]
    · ext ⟨x, k⟩
      by_cases hx : x = e
      · subst hx
        have hk : (s.pt x k = some .sock ∧ fdtable + i = k) ↔ k = fdtable + i :=
          ⟨fun h => h.2.symm, fun h => ⟨h ▸ hp, h.symm⟩⟩
        simp [ht, FdTask.unmaps, index2fd_of_lt hi, hk]
      · simp [hx]
  refine ⟨h.advance rfl rfl nofun ⟨hi, hnext⟩, .inr ?_⟩
  rw [hsocket]
  refine .pass hp ?_ ?_ hz hne hzc hzl
  · simp [FdSys.socket, ht, FdTask.sends]
  · simp [FdSys.socket, ht, FdTask.unmaps]

theorem send (ht : s.task e = .send i next) :
    Good s { s.setTask e (.closeFd i next) with sent := s.sent + 1 } := by
  obtain ⟨hi, hp, hnext⟩ := h.task_ok ht
  have hsocket : FdSys.socket { s.setTask e (.closeFd i next) with sent := s.sent + 1 } =
      { s.socket with closing := s.socket.closing \ {(e, fdtable + i)}
                      leaving := insert (e, fdtable + i) s.socket.leaving
                      closed := s.socket.closed + 1 } := by
    unfold FdSys.socket
    congr 1
    · ext ⟨x, k⟩
      by_cases hx : x = e
      · subst hx
        simp [ht, FdTask.sends, index2fd_of_lt hi, eq_comm]
      · simp [hx]
    · ext ⟨x, k⟩
      by_cases hx : x = e
      · subst hx
        have hk : (s.pt x k = some .sock ∧ fdtable + i = k) ↔ k = fdtable + i :=
          ⟨fun h => h.2.symm, fun h => ⟨h ▸ hp, h.symm⟩⟩
        simp [ht, FdTask.unmaps, index2fd_of_lt hi, hk]
      · simp [hx]
  refine ⟨h.advance rfl rfl nofun ⟨hi, hnext⟩, .inr ?_⟩
  rw [hsocket]
  refine .close ?_
  simp [FdSys.socket, ht, FdTask.sends, index2fd_of_lt hi]

theorem closeFd (ht : s.task e = .closeFd i next) :
    Good s ((s.unmap e (index2fd i)).setTask e next.task) := by
  obtain ⟨hi, hnext⟩ := h.task_ok ht
  rw [index2fd_of_lt hi, unmap_of_lt (fd_lt hi)]
  have hgone : ∀ k, s.pt e k ≠ some .sock →
      ((s.setPage e (fdtable + i) none).setTask e next.task).pt e k ≠ some .sock := fun k hk =>
    setPage_ne nofun hk
  have hself : ((s.setPage e (fdtable + i) none).setTask e next.task).pt e (fdtable + i) = none :=
    if_pos ⟨rfl, rfl⟩
  have hok' : ((s.setPage e (fdtable + i) none).setTask e next.task).SockOk e next.task :=
    next_ok (hnext.congr hgone) hi (by rw [hself]; exact nofun)
  by_cases hp : s.pt e (fdtable + i) = some .sock
  · have hsocket : ((s.setPage e (fdtable + i) none).setTask e next.task).socket =
        { s.socket with holders := s.socket.holders \ {(e, fdtable + i)}
                        leaving := s.socket.leaving \ {(e, fdtable + i)} } := by
      have hs : (s.task e).sends = none := by
        rw [ht]
        rfl
      have hs' : next.task.sends = none := by cases next <;> rfl
      have hu : (s.task e).unmaps = some (fdtable + i) := by
        rw [ht, ← index2fd_of_lt hi]
        rfl
      have hu' : next.task.unmaps = none := by cases next <;> rfl
      unfold FdSys.socket
      congr 1
      · ext ⟨x, k⟩
        by_cases hx : x = e ∧ k = fdtable + i
        · simp [hx]
        · simp [hx]
          exact fun _ hxe hk => hx ⟨hxe, hk⟩
      · ext ⟨x, k⟩
        by_cases hx : x = e
        · subst hx
          simp [hs, hs']
        · simp [hx]
      · ext ⟨x, k⟩
        by_cases hx : x = e
        · subst hx
          simp [hu, hu', eq_comm]
        · simp [hx]
    refine ⟨h.setPage_inv nofun next.task_ne_embryo hok', .inr ?_⟩
    rw [hsocket]
    refine .drop ⟨hp, ?_⟩
    simp [ht, FdTask.unmaps, index2fd_of_lt hi]
  · refine h.setPage ⟨by rw [ht]; rfl, fun k hk => ?_⟩ hp nofun (quiet_next next)
      next.task_ne_embryo hok'
    rw [ht] at hk
    cases hk
    rwa [index2fd_of_lt hi]

theorem closeData (ht : s.task e = .closeData i next) :
    Good s ((s.unmap e (index2data i)).setTask e (.closeFd i next)) := by
  obtain ⟨hi, hne, hnext⟩ := h.task_ok ht
  have hkeep : ∀ k, s.pt e k ≠ some .sock →
      (s.setPage e (index2data i) none).pt e k ≠ some .sock := fun k hk => setPage_ne nofun hk
  rw [unmap_of_lt (data_lt hi)]
  refine h.setPage (quiet_task ht rfl rfl) (h.not_data e hi) nofun
    ⟨rfl, fun k hk => ?_⟩ nofun ⟨hi, hnext.congr hkeep⟩
  cases hk
  rw [index2fd_of_lt hi]
  exact hkeep _ hne

theorem dupErr {new : ℕ} (hq : s.Quiet e (s.task e)) (hnew : new < maxfd)
    (hne : s.pt e (fdtable + new) ≠ some .sock) : Good s (s.setTask e (.dupErr new)) :=
  h.setTask hq (quiet_of_none rfl rfl) nofun ⟨hnew, hne⟩

theorem dupFd {old new : ℕ} (hu : (s.task e).unmaps = none) (hs : (s.task e).sends = none)
    (hold : old < maxfd) (hnew : new < maxfd) (hne : s.pt e (fdtable + new) ≠ some .sock) :
    Good s (s.dupFd e old new ok) := by
  have hq : s.Quiet e (s.task e) := quiet_of_none hs hu
  unfold FdSys.dupFd
  cases hp : s.pt e (index2fd old) with
  | none => exact h.dupErr hq hnew hne
  | some p =>
    simp only
    cases hm : s.mapTo e (index2fd new) (some p) ok with
    | none => exact h.dupErr hq hnew hne
    | some s' =>
      rw [mapTo_cases _ hm, index2fd_of_lt hnew]
      rw [index2fd_of_lt hold] at hp
      simp only
      by_cases hsock : p = .sock
      · subst hsock
        refine ⟨h.setPage_inv (fun _ => ⟨new, hnew, rfl⟩) nofun trivial, ?_⟩
        rw [Refines, socket_setTask (s := s.setPage _ _ _) (quiet_of_none hs hu) (quiet_of_none rfl rfl)]
        exact refines_share hp hs hu hs hu
      · have hx : some p ≠ some .sock := fun hc => hsock (Option.some.inj hc)
        exact h.setPage hq hne hx (quiet_of_none rfl rfl) nofun trivial

theorem dupData {old new : ℕ} (ht : s.task e = .dupData old new) (hs : s.run e ok = some s') :
    Good s s' := by
  obtain ⟨hold, hnew, hne⟩ := h.task_ok ht
  have hq : s.Quiet e (s.task e) := quiet_task ht rfl rfl
  simp only [FdSys.run, ht] at hs
  cases hp : s.pt e (index2data old) with
  | none =>
    rw [hp] at hs
    cases hs
    exact h.dupFd (by rw [ht]; rfl) (by rw [ht]; rfl) hold hnew hne
  | some p =>
    rw [hp, fd2data_index2fd hnew] at hs
    simp only at hs
    have hpne : some p ≠ some .sock := hp ▸ h.not_data e hold
    cases hm : s.mapTo e (index2data new) (some p) ok with
    | none =>
      rw [hm] at hs
      cases hs
      exact h.dupErr hq hnew hne
    | some s₁ =>
      rw [hm] at hs
      cases hs
      rw [mapTo_cases _ hm]
      exact h.setPage hq (h.not_data e hnew) hpne (quiet_of_none rfl rfl) nofun
        ⟨hold, hnew, setPage_ne hpne hne⟩

theorem unmap_new (hq : s.Quiet e (s.task e)) (hk : k < userPages) (hne : s.pt e k ≠ some .sock)
    (ht : (∃ new < maxfd, t = .dupErrData new) ∨ t = .idle) : Good s ((s.unmap e k).setTask e t) := by
  rw [unmap_of_lt hk]
  rcases ht with ⟨new, hnew, rfl⟩ | rfl
  · exact h.setPage hq hne nofun (quiet_of_none rfl rfl) nofun hnew
  · exact h.setPage hq hne nofun (quiet_of_none rfl rfl) nofun trivial

theorem envFree (hq : s.Quiet e (s.task e)) (hnone : ∀ k, s.pt e k ≠ some .sock) : Good s (s.envFree e) := by
  refine ⟨local_socketOk.envFree h ⟨fun k hk => ?_, ?_⟩,
    .inl (socket_own (e := e) (fun x k => ?_) (fun y hy => ?_) rfl hq ?_)⟩
  · simp at hk
  · rw [envFree_task, if_pos rfl]
    intro k
    simp
  · rw [envFree_pt]
    split
    · next hx =>
      rw [hx]
      exact iff_of_false nofun (hnone k)
    · exact Iff.rfl
  · rw [envFree_task, if_neg hy]
  · rw [envFree_task, if_pos rfl]
    exact quiet_of_none rfl rfl

/-- The loops of `fork` and `copy_shared_pages`. -/
theorem loop (ht : s.task e = .fork c k ∨ s.task e = .spawn c k) :
    (s.task e).sends = none ∧ (s.task e).unmaps = none ∧ (∀ p, s.task e ≠ .embryo p) ∧
      (s.task c = .embryo e → ∀ k' ≥ k, s.pt c k' ≠ some .sock) := by
  rcases ht with ht | ht <;> have hok := h.task_ok ht <;> rw [ht] <;> exact ⟨rfl, rfl, nofun, hok⟩

theorem mapChild (ht : s.task e = .fork c k ∨ s.task e = .spawn c k)
    (hloop : t = .fork c (k + 1) ∨ t = .spawn c (k + 1)) (hc : s.task c = .embryo e) {p : FdPage}
    (hp : s.pt e k = some p) : Good s ((s.setPage c k (some p)).setTask e t) := by
  obtain ⟨hs, hu, hrun, hok⟩ := h.loop ht
  have hce : c ≠ e := by
    rintro rfl
    exact hrun _ hc
  have hq : ((s.setPage c k (some p)).Quiet e t) ∧ ∀ p, t ≠ .embryo p := by
    rcases hloop with rfl | rfl <;> exact ⟨quiet_of_none rfl rfl, nofun⟩
  have hinv : SockInv ((s.setPage c k (some p)).setTask e t) := by
    refine local_socketOk.mapChild h hc hce hq.2 ⟨fun k' hp' => ?_, ?_⟩ ⟨fun k' hp' => ?_, ?_⟩
    · rw [setTask_pt, setPage_pt, if_neg fun hh => hce.symm hh.1] at hp'
      exact (h e).placed k' hp'
    · have hrest : ∀ k' ≥ k + 1, ((s.setPage c k (some p)).setTask e t).pt c k' ≠ some .sock := by
        intro k' hk'
        rw [setTask_pt, setPage_pt, if_neg (by omega)]
        exact hok hc k' (Nat.le_of_succ_le hk')
      rw [setTask_task, if_pos rfl]
      rcases hloop with rfl | rfl <;> exact fun _ => hrest
    · rw [setTask_pt, setPage_pt] at hp'
      split at hp'
      · next hk =>
        rw [hk.2]
        exact (h e).placed k (hp.trans hp')
      · exact (h c).placed k' hp'
    · rw [setTask_task, if_neg hce, setPage_task, hc]
      trivial
  refine ⟨hinv, ?_⟩
  rw [Refines, socket_setTask (s := s.setPage _ _ _) (quiet_of_none hs hu) hq.1]
  by_cases hsock : p = .sock
  · subst hsock
    refine refines_share hp hs hu ?_ ?_ <;> rw [hc] <;> rfl
  · exact .inl (socket_setPage (hok hc k (Nat.le_refl k)) fun hx => hsock (Option.some.inj hx))

theorem copyPage {wanted : FdPage → Bool} (ht : s.task e = .fork c k ∨ s.task e = .spawn c k)
    (hloop : t = .fork c (k + 1) ∨ t = .spawn c (k + 1)) : Good s (s.copyPage e c k wanted t ok) := by
  obtain ⟨hs, hu, hrun, hok⟩ := h.loop ht
  have hquiet : s.Quiet e (s.task e) := quiet_of_none hs hu
  have hstuck : Good s (s.setTask e .stuck) :=
    h.setTask hquiet (quiet_of_none rfl rfl) nofun trivial
  have hskip : Good s (s.setTask e t) := by
    have hrest : (s.setTask e t).task c = .embryo e → ∀ k' ≥ k + 1, s.pt c k' ≠ some .sock := by
      intro hc k' hk'
      rw [setTask_task] at hc
      split at hc
      · rcases hloop with rfl | rfl <;> cases hc
      · exact hok hc k' (Nat.le_of_succ_le hk')
    rcases hloop with rfl | rfl <;>
      exact h.setTask hquiet (quiet_of_none rfl rfl) nofun hrest
  unfold FdSys.copyPage
  split
  · cases hp : s.pt e k with
    | none => exact hskip
    | some p =>
      simp only
      split
      · split
        · next hcond => exact h.mapChild ht hloop hcond.2 hp
        · exact hstuck
      · exact hskip
  · split
    · next hcond =>
      have hc := hcond.2
      have hce : e ≠ c := by
        rintro rfl
        exact hrun _ hc
      have hidle : ∀ s : FdSys, ∀ x, s.Quiet x .idle := fun _ _ => quiet_of_none rfl rfl
      have hqc : s.Quiet c (s.task c) := quiet_task hc rfl rfl
      have hqe : (s.setTask c .idle).Quiet e ((s.setTask c .idle).task e) := by
        rw [setTask_task, if_neg hce]
        exact hquiet
      obtain ⟨h₁, -⟩ := h.setTask hqc (hidle _ _) nofun trivial
      refine ⟨(h₁.setTask hqe (hidle _ _) nofun trivial).1, .inl ?_⟩
      rw [socket_setTask hqe (hidle _ _), socket_setTask hqc (hidle _ _)]
    · exact hstuck

theorem exofork {f : ℕ → Option FdPage} (hf : ∀ k, f k ≠ some .sock) (ht : s.task e = .idle)
    (hc : s.task c = .free) (hloop : t = .fork c 0 ∨ t = .spawn c 0) :
    Good s ((s.exofork e c f).setTask e t) := by
  have hce : c ≠ e := by
    rintro rfl
    rw [ht] at hc
    cases hc
  have hnone : ∀ k, s.pt c k ≠ some .sock := h.task_ok hc
  have hexo : (s.exofork e c f).socket = s.socket := by
    refine socket_own (e := c) (fun x k => ?_) (fun x hx => ?_) rfl ?_ ?_
    · rw [exofork_pt]
      split
      · next hx =>
        rw [hx]
        exact iff_of_false (hf k) (hnone k)
      · exact Iff.rfl
    · rw [exofork_task, if_neg hx]
    · rw [hc]
      exact quiet_of_none rfl rfl
    · rw [exofork_task, if_pos rfl]
      exact quiet_of_none rfl rfl
  have hqe : (s.exofork e c f).Quiet e ((s.exofork e c f).task e) := by
    rw [exofork_task, if_neg hce.symm, ht]
    exact quiet_of_none rfl rfl
  have hq : (s.exofork e c f).Quiet e t ∧ ∀ p, t ≠ .embryo p := by
    rcases hloop with rfl | rfl <;> exact ⟨quiet_of_none rfl rfl, nofun⟩
  have hchild : ∀ k, ((s.exofork e c f).setTask e t).pt c k ≠ some .sock := by
    intro k
    rw [setTask_pt, exofork_pt, if_pos rfl]
    exact hf k
  refine ⟨local_socketOk.exofork h hce hq.2 ⟨fun k hp => ?_, ?_⟩ ⟨fun k hp => absurd hp (hchild k), ?_⟩,
    .inl ((socket_setTask hqe hq.1).trans hexo)⟩
  · rw [setTask_pt, exofork_pt, if_neg hce.symm] at hp
    exact (h e).placed k hp
  · rw [setTask_task, if_pos rfl]
    rcases hloop with rfl | rfl <;> exact fun _ k _ => hchild k
  · rw [setTask_task, if_neg hce, exofork_task, if_pos rfl]
    trivial

/-- An environment that does not map the socket is not closing it. -/
theorem quiet_of_pt (hnone : ∀ k, s.pt e k ≠ some .sock) : s.Quiet e (s.task e) := by
  refine ⟨?_, fun k _ => hnone k⟩
  cases ht : s.task e with
  | send i next => exact absurd (h.task_ok ht).2.1 (hnone _)
  | _ => rfl

end

/-! ### The count -/

theorem mapRefs_lt (h : SockInv s) : s.mapRefs .sock < 2 ^ 16 := by
  have hsub : (userPlaces.filter fun x => s.pt x.1 x.2 = some .sock) ⊆
      Finset.univ ×ˢ Finset.Ico fdtable (fdtable + maxfd) := by
    intro x hx
    rw [Finset.mem_filter] at hx
    simp only [Finset.mem_product, Finset.mem_univ, true_and, Finset.mem_Ico]
    obtain ⟨i, hi, hk⟩ := (h x.1).placed x.2 hx.2
    omega
  refine (Finset.card_le_card hsub).trans_lt ?_
  rw [Finset.card_product, Finset.card_univ, Fintype.card_fin, Nat.card_Ico]
  decide

theorem sole_of_ppRef (h : SockInv s) (hp : s.pt e k = some .sock) (h1 : s.ppRef .sock = 1) :
    s.socket.holders = {(e, k)} := by
  have hmem : ∀ x, x ∈ s.socket.holders →
      x ∈ userPlaces.filter fun x => s.pt x.1 x.2 = some .sock := by
    rintro ⟨x, k'⟩ hx
    obtain ⟨i, hi, hk'⟩ := (h x).placed k' hx
    refine Finset.mem_filter.mpr ⟨mem_userPlaces.mpr ?_, hx⟩
    rw [hk']
    exact fd_lt hi
  have hcard : s.mapRefs .sock = 1 := by
    rw [← h1, FdSys.ppRef, Nat.mod_eq_of_lt h.mapRefs_lt]
  obtain ⟨a, ha⟩ := Finset.card_eq_one.mp hcard
  have hall : ∀ x ∈ s.socket.holders, x = a := fun x hx => by
    have := hmem x hx
    rwa [ha, Finset.mem_singleton] at this
  have hek : (e, k) = a := hall (e, k) hp
  rw [hek]
  exact Set.eq_singleton_iff_unique_mem.mpr ⟨hek ▸ hp, hall⟩

/-! ### Steps and runs -/

theorem run (h : SockInv s) (hcond : SockCond s (.run e ok)) (hs : s.run e ok = some s') : Good s s' := by
  cases ht : s.task e with
  | test i next =>
    obtain ⟨hi, hp, -⟩ := h.task_ok ht
    simp only [FdSys.run, ht] at hs
    cases hs
    split
    · next h1 => exact h.test_last ht (h.sole_of_ppRef hp h1)
    · next h1 =>
      obtain ⟨e', k, hz, hne, hsend, hunmap⟩ := hcond i next ht h1
      rw [index2fd_of_lt hi] at hne
      exact h.test_pass ht (z := (e', k)) hz hne hsend fun hl => hunmap hl.2
  | send i next =>
    simp only [FdSys.run, ht] at hs
    cases hs
    exact h.send ht
  | closeData i next =>
    simp only [FdSys.run, ht] at hs
    cases hs
    exact h.closeData ht
  | closeFd i next =>
    simp only [FdSys.run, ht] at hs
    cases hs
    exact h.closeFd ht
  | dupData old new => exact h.dupData ht hs
  | dupFd old new =>
    have hok := h.task_ok ht
    simp only [FdSys.run, ht] at hs
    cases hs
    exact h.dupFd (by rw [ht]; rfl) (by rw [ht]; rfl) hok.1 hok.2.1 hok.2.2
  | dupErr new =>
    have hok := h.task_ok ht
    simp only [FdSys.run, ht, index2fd_of_lt hok.1] at hs
    cases hs
    exact h.unmap_new (quiet_task ht rfl rfl) (fd_lt hok.1) hok.2
      (.inl ⟨new, hok.1, rfl⟩)
  | dupErrData new =>
    have hok := h.task_ok ht
    simp only [FdSys.run, ht, fd2data_index2fd hok] at hs
    cases hs
    exact h.unmap_new (quiet_task ht rfl rfl) (data_lt hok)
      (h.not_data e hok) (.inr rfl)
  | closeAll i =>
    have hok := h.task_ok ht
    have hq : s.Quiet e (s.task e) := quiet_task ht rfl rfl
    simp only [FdSys.run, ht] at hs
    cases hs
    split
    · next hi => exact h.close hq hi ⟨rfl, fun k hk => hok k hk (hk.trans hi)⟩
    · next hi =>
      refine h.envFree hq fun k hp => ?_
      obtain ⟨j, hj, rfl⟩ := (h e).placed k hp
      exact hok j (by omega) hj hp
  | fork c k =>
    simp only [FdSys.run, ht] at hs
    cases hs
    exact h.copyPage (.inl ht) (.inl rfl)
  | spawn c k =>
    simp only [FdSys.run, ht] at hs
    cases hs
    exact h.copyPage (.inr ht) (.inr rfl)
  | free | embryo _ | stuck | idle =>
    simp only [FdSys.run, ht] at hs
    cases hs

theorem step {l : FdEvent} (h : SockInv s) (hcond : SockCond s l) (hs : s.step l = some s') :
    Good s s' := by
  have hidle : ∀ {x}, s.task x = .idle → s.Quiet x (s.task x) := fun hx => quiet_task hx rfl rfl
  cases l with
  | close e i =>
    obtain ⟨ht, rfl⟩ := Sys.guard_eq hs
    by_cases hi : i < maxfd
    · exact h.close (hidle ht) hi trivial
    · rw [FdSys.close, if_neg hi]
      exact h.setTask (hidle ht) (quiet_of_none rfl rfl) nofun trivial
  | dup e old new =>
    obtain ⟨ht, rfl⟩ := Sys.guard_eq hs
    split
    · next hold => exact h.close (hidle ht) hcond ⟨rfl, hold.1⟩
    · exact ⟨h, .inl rfl⟩
  | fork e c =>
    obtain ⟨⟨ht, hc⟩, rfl⟩ := Sys.guard_eq hs
    exact h.exofork (fun _ => nofun) ht hc (.inl rfl)
  | spawn e c image =>
    obtain ⟨⟨ht, hc⟩, rfl⟩ := Sys.guard_eq hs
    refine h.exofork (fun k hk => ?_) ht hc (.inr rfl)
    obtain ⟨id, -, hid⟩ := Option.map_eq_some_iff.1 hk
    cases hid
  | kill e =>
    obtain ⟨-, rfl⟩ := Sys.guard_eq hs
    exact h.envFree (h.quiet_of_pt hcond) hcond
  | exit e =>
    obtain ⟨ht, rfl⟩ := Sys.guard_eq hs
    exact h.setTask (hidle ht) (quiet_of_none rfl rfl) nofun
      fun k hk => absurd hk (Nat.not_lt_zero k)
  | openPage e k id share devpipe =>
    obtain ⟨⟨ht, -, hnone⟩, rfl⟩ := Sys.guard_eq hs
    have hsame : (s.setPage e k (some (.other id share devpipe))).setTask e .idle =
        s.setPage e k (some (.other id share devpipe)) := by
      rw [← ht]
      unfold FdSys.setTask FdSys.setPage
      rw [update_eq_self]
    rw [← hsame]
    exact h.setPage (hidle ht) (by rw [hnone]; exact nofun) nofun (quiet_of_none rfl rfl)
      nofun trivial
  | run e ok => exact h.run hcond hs

end SockInv

theorem FdSys.Refines.inv {s : FdSys} (h : s.Refines s') (hi : s.socket.Inv) : s'.socket.Inv := by
  rcases h with h | h
  · rwa [h]
  · exact hi.step h

/-- For environments that share a socket through `fork`, `spawn` and `dup`, and
close it or exit: while `dup` stays inside the table, no environment that has
the socket is destroyed from outside, and no close that finds other mappings
leaves the socket to closes that have read the count already, `NSREQ_CLOSE` is
sent at most once; when no place maps the `Fd` page any more it has been sent;
and when it is sent, only the sender maps the page. -/
theorem socket_closed_once {s₀ s : FdSys} (h₀ : s₀.Start)
    (hr : Sys.Reach FdSys.step SockCond s₀ s) :
    s.sent ≤ 1 ∧ ((∀ e k, s.pt e k ≠ some .sock) → s.sent = 1) ∧
      ∀ e i next, s.task e = .send i next → ∀ e' k, s.pt e' k = some .sock →
        e' = e ∧ k = index2fd i := by
  have hinv : SockInv s ∧ s.socket.Inv := by
    refine Sys.Reach.inv (I := fun s => SockInv s ∧ s.socket.Inv) (SockInv.of_start h₀)
      (fun s l s' h hcond hs => ?_) hr
    obtain ⟨h', href⟩ := h.1.step hcond hs
    exact ⟨h', href.inv h.2⟩
  obtain ⟨hle, hone⟩ := hinv.2.closed_once
  refine ⟨hle, fun hnone => hone ?_, fun e i next ht e' k hp => ?_⟩
  · exact Set.eq_empty_iff_forall_notMem.mpr fun x => hnone x.1 x.2
  · have hc : (e, index2fd i) ∈ s.socket.closing := by
      show (s.task e).sends = some (index2fd i)
      rw [ht]
      rfl
    have := hinv.2.sole hc (y := (e', k)) hp
    exact Prod.mk.inj this

/-! ### Two closes -/

section TwoCloses

variable {s : FdSys} {e : Fin nenv}

theorem FdSys.step_close (ht : s.task e = .idle) (hp : s.pt e fdtable = some .sock) :
    s.step (.close e 0) = some (s.setTask e (.test 0 .ret)) := by
  have hi : index2fd 0 = fdtable := index2fd_of_lt (by decide)
  simp only [step, if_pos ht, close, if_pos (show 0 < maxfd by decide), hi, hp,
    if_true]

theorem FdSys.step_test (ht : s.task e = .test 0 .ret) :
    s.step (.run e true) =
      some (s.setTask e (if s.ppRef .sock = 1 then .send 0 .ret else .closeFd 0 .ret)) := by
  simp only [step, run, ht]

theorem FdSys.step_send (ht : s.task e = .send 0 .ret) :
    s.step (.run e true) = some { s.setTask e (.closeFd 0 .ret) with sent := s.sent + 1 } := by
  simp only [step, run, ht]

def FdSys.closed (s : FdSys) (e : Fin nenv) : FdSys :=
  (s.setPage e fdtable none).setTask e .idle

theorem FdSys.step_unmap (ht : s.task e = .closeFd 0 .ret) :
    s.step (.run e true) = some (s.closed e) := by
  have hi : index2fd 0 = fdtable := index2fd_of_lt (by decide)
  have hlt : fdtable < userPages := SockInv.fd_lt (show 0 < maxfd by decide)
  simp only [step, run, ht, hi, unmap_of_lt hlt, FdNext.task, closed]

theorem FdSys.setTask_closed (t : FdTask) : (s.setTask e t).closed e = s.closed e :=
  setTask_setTask (s.setPage e fdtable none) e t .idle

theorem SockInv.ppRef_ne_one (h : SockInv s) {e' : Fin nenv} (hne : e ≠ e')
    (hp : s.pt e fdtable = some .sock) (hp' : s.pt e' fdtable = some .sock) : s.ppRef .sock ≠ 1 := by
  intro h1
  have hmem : (e', fdtable) ∈ s.socket.holders := hp'
  rw [h.sole_of_ppRef hp h1] at hmem
  exact hne (Prod.mk.inj hmem).1.symm

theorem FdSys.ppRef_eq_one (hp : ∀ x k, s.pt x k = some .sock ↔ x = e ∧ k = fdtable) :
    s.ppRef .sock = 1 := by
  have hcard : s.mapRefs .sock = 1 := by
    refine Finset.card_eq_one.mpr ⟨(e, fdtable), ?_⟩
    ext ⟨x, k⟩
    rw [Finset.mem_filter, mem_userPlaces, hp, Finset.mem_singleton, Prod.mk.injEq]
    refine and_iff_right_of_imp fun h => ?_
    rw [h.2]
    exact SockInv.fd_lt (show 0 < maxfd by decide)
  rw [ppRef, hcard, Nat.mod_eq_of_lt (by decide)]

variable {s₀ : FdSys}

theorem FdSys.reach_leave {e' : Fin nenv} (hr : Sys.Reach step SockCond s₀ s)
    (ht : s.task e = .idle) (hp : s.pt e fdtable = some .sock) (h1 : s.ppRef .sock ≠ 1) (hne : e' ≠ e)
    (ht' : s.task e' = .idle) (hp' : s.pt e' fdtable = some .sock) :
    Sys.Reach step SockCond s₀ (s.closed e) := by
  have hself : ∀ t, (s.setTask e t).task e = t := fun t => by rw [setTask_task, if_pos rfl]
  have hother : ∀ t, (s.setTask e t).task e' = .idle := fun t => by
    rw [setTask_task, if_neg hne, ht']
  have r₁ := hr.step (show SockCond s (.close e 0) from trivial) (step_close ht hp)
  have hcond : SockCond (s.setTask e (.test 0 .ret)) (.run e true) := by
    intro i next hi _
    refine ⟨e', fdtable, hp', fun h => hne (Prod.mk.inj h).1, ?_, ?_⟩ <;> rw [hother] <;> exact nofun
  have r₂ := r₁.step hcond (step_test (hself _))
  rw [setTask_ppRef, if_neg h1, setTask_setTask] at r₂
  have hcond₂ : SockCond (s.setTask e (.closeFd 0 .ret)) (.run e true) := by
    intro i next hi
    rw [hself] at hi
    cases hi
  have r₃ := r₂.step hcond₂ (step_unmap (hself _))
  rwa [setTask_closed] at r₃

theorem FdSys.reach_last (hr : Sys.Reach step SockCond s₀ s) (ht : s.task e = .idle)
    (hp : s.pt e fdtable = some .sock) (h1 : s.ppRef .sock = 1) :
    Sys.Reach step SockCond s₀ { s.closed e with sent := s.sent + 1 } := by
  have hself : ∀ t, (s.setTask e t).task e = t := fun t => by rw [setTask_task, if_pos rfl]
  have hcond : ∀ t n, (∀ i next, t ≠ .test i next) →
      SockCond { s.setTask e t with sent := n } (.run e true) := by
    intro t n hne i next hi
    exact absurd ((hself t).symm.trans hi) (hne i next)
  have r₁ := hr.step (show SockCond s (.close e 0) from trivial) (step_close ht hp)
  have hcond₁ : SockCond (s.setTask e (.test 0 .ret)) (.run e true) :=
    fun i next _ hne => absurd h1 hne
  have r₂ := r₁.step hcond₁ (step_test (hself _))
  rw [setTask_ppRef, if_pos h1, setTask_setTask] at r₂
  have r₃ := r₂.step (hcond _ s.sent nofun) (step_send (hself _))
  rw [setTask_setTask] at r₃
  have r₄ := r₃.step (hcond _ _ nofun) (step_unmap (hself _))
  have hfinal : FdSys.closed { s.setTask e (.closeFd 0 .ret) with sent := s.sent + 1 } e =
      { (s.setTask e (.closeFd 0 .ret)).closed e with sent := s.sent + 1 } := rfl
  rwa [setTask_sent, hfinal, setTask_closed] at r₄

/-- Environments 0 and 1 share a socket as their descriptor 0. -/
def Demo.sockShared : FdSys where
  pt := fun e k => if (e = 0 ∨ e = 1) ∧ k = fdtable then some .sock else none
  task := fun e => if e = 0 ∨ e = 1 then .idle else .free
  sent := 0

theorem Demo.sockShared_pt (e : Fin nenv) (k : ℕ) : sockShared.pt e k =
    if (e = 0 ∨ e = 1) ∧ k = fdtable then some .sock else none := rfl

theorem Demo.sockShared_task (e : Fin nenv) :
    sockShared.task e = if e = 0 ∨ e = 1 then .idle else .free := rfl

theorem Demo.sockShared_sock {e : Fin nenv} (he : e = 0 ∨ e = 1) :
    sockShared.pt e fdtable = some .sock := by
  rw [sockShared_pt, if_pos ⟨he, rfl⟩]

theorem Demo.sockShared_start : sockShared.Start := by
  refine ⟨fun e => ?_, fun e he k => ?_, fun e k hp => ?_,
    ⟨0, fdtable, sockShared_sock (.inl rfl)⟩, rfl⟩
  · rw [sockShared_task]
    split
    · exact .inl rfl
    · exact .inr rfl
  · rw [sockShared_task] at he
    split at he
    · cases he
    · next hne => rw [sockShared_pt, if_neg fun h => hne h.1]
  · rw [sockShared_pt] at hp
    split at hp
    · next hk => exact ⟨0, by decide, hk.2⟩
    · cases hp

theorem Demo.sockShared_count : sockShared.ppRef .sock ≠ 1 :=
  (SockInv.of_start sockShared_start).1.ppRef_ne_one (show (0 : Fin nenv) ≠ 1 by decide)
    (sockShared_sock (.inl rfl)) (sockShared_sock (.inr rfl))

open Demo

/-- One after the other the two closes send one message. -/
theorem socket_closed_once_by_two : ∃ s, Sys.Reach FdSys.step SockCond sockShared s ∧
    (∀ e k, s.pt e k ≠ some .sock) ∧ s.sent = 1 := by
  have h01 : (1 : Fin nenv) ≠ 0 := by decide
  have hidle : ∀ e : Fin nenv, e = 0 ∨ e = 1 → sockShared.task e = .idle := fun e he => by
    rw [sockShared_task, if_pos he]
  have r₁ := reach_leave .refl (hidle 0 (.inl rfl)) (sockShared_sock (.inl rfl))
    sockShared_count h01 (hidle 1 (.inr rfl)) (sockShared_sock (.inr rfl))
  have hpt : ∀ x k, (sockShared.closed 0).pt x k = some .sock ↔ x = 1 ∧ k = fdtable := by
    intro x k
    simp only [FdSys.closed, setTask_pt, setPage_pt, sockShared_pt]
    by_cases hk : k = fdtable
    · by_cases hx : x = 0
      · simp [hx, hk, h01.symm]
      · simp [hx, hk]
    · simp [hk]
  have r₂ := reach_last (e := 1) r₁ ?_ ((hpt 1 fdtable).mpr ⟨rfl, rfl⟩)
    (ppRef_eq_one hpt)
  · have hnone : ∀ e k, ({ (sockShared.closed 0).closed 1 with
        sent := (sockShared.closed 0).sent + 1 } : FdSys).pt e k ≠ some .sock := by
      intro e k hp
      have hp : ((sockShared.closed 0).setPage 1 fdtable none).pt e k = some .sock := hp
      rw [setPage_pt] at hp
      split at hp
      · cases hp
      · next hne => exact hne ((hpt e k).mp hp)
    exact ⟨_, r₂, hnone, (socket_closed_once sockShared_start r₂).2.1 hnone⟩
  · rw [FdSys.closed, setTask_task, if_neg h01, setPage_task]
    exact hidle 1 (.inr rfl)

/-- Both closes read the count, then both unmap: nobody tells the server. -/
theorem socket_never_closed : sockShared.Start ∧
    ∃ s, Sys.Reach FdSys.step (fun _ _ => True) sockShared s ∧
      (∀ e k, s.pt e k ≠ some .sock) ∧ s.sent = 0 := by
  refine ⟨sockShared_start, ?_⟩
  have h01 : (1 : Fin nenv) ≠ 0 := by decide
  have hidle : ∀ e : Fin nenv, e = 0 ∨ e = 1 → sockShared.task e = .idle := fun e he => by
    rw [sockShared_task, if_pos he]
  have hsock : ∀ e : Fin nenv, e = 0 ∨ e = 1 → sockShared.pt e fdtable = some .sock :=
    fun e he => sockShared_sock he
  generalize hS : sockShared = S at *
  have hS1 : S.ppRef .sock ≠ 1 := by
    rw [← hS]
    exact sockShared_count
  have r₁ : Sys.Reach FdSys.step (fun _ _ => True) S _ :=
    .step .refl trivial (step_close (e := 0) (hidle 0 (.inl rfl)) (hsock 0 (.inl rfl)))
  have r₂ := r₁.step trivial (step_close (e := 1)
    (by rw [setTask_task, if_neg h01, hidle 1 (.inr rfl)]) (hsock 1 (.inr rfl)))
  have r₃ := r₂.step trivial (step_test (e := 0)
    (by rw [setTask_task, if_neg h01.symm, setTask_task, if_pos rfl]))
  rw [setTask_ppRef, setTask_ppRef, if_neg hS1] at r₃
  have r₄ := r₃.step trivial (step_test (e := 1)
    (by rw [setTask_task, if_neg h01, setTask_task, if_pos rfl]))
  rw [setTask_ppRef, setTask_ppRef, setTask_ppRef, if_neg hS1] at r₄
  have r₅ := r₄.step trivial (step_unmap (e := 0)
    (by rw [setTask_task, if_neg h01.symm, setTask_task, if_pos rfl]))
  have r₆ := r₅.step trivial (step_unmap (e := 1)
    (by rw [FdSys.closed, setTask_task, if_neg h01, setPage_task,
      setTask_task, if_pos rfl]))
  refine ⟨_, r₆, fun e k hp => ?_, ?_⟩
  · simp only [FdSys.closed, setTask_pt, setPage_pt, ← hS, sockShared_pt] at hp
    by_cases hk : k = fdtable
    · by_cases he : e = 0
      · simp [hk, he, h01.symm] at hp
      · by_cases he' : e = 1
        · simp [hk, he'] at hp
        · simp [he, he'] at hp
    · simp [hk] at hp
  · rw [← hS]
    rfl

end TwoCloses

end Jos
