/-
File descriptors as shared pages: `dup` and `close` of lib/fd.c, `devpipe_close`
and `_pipeisclosed` of lib/pipe.c, `devsock_close` of lib/sockets.c, and what
`fork` and `spawn` do to the pages of a pipe and of a socket.

A pipe has three pages: the `Fd` page of its reading end, the one of its
writing end, and the page of `struct Pipe`, which every descriptor of either
end maps as its data page.  A socket has an `Fd` page.  Whether the other end of
the pipe is still open, and whether a close of the socket is the last one, is
read off the reference counts of these pages.  An environment runs one library
function at a time, by one system call at a time.
-/
import Jos.User.Places
import Jos.Lib.RefPool

namespace Jos

open Function

/-! ### Places -/

def maxfd : ℕ := 32

def fdtable : ℕ := 0xD0000000 / pgsize

/-- `INDEX2FD`, as a page number; `i` is a 32-bit integer. -/
def index2fd (i : ℕ) : ℕ := (fdtable + i) % 2 ^ 20

def index2data (i : ℕ) : ℕ := (fdtable + maxfd + i) % 2 ^ 20

/-- `fd2num`, of a page number. -/
def fd2num (k : ℕ) : ℕ := (k + (2 ^ 20 - fdtable)) % 2 ^ 20

def fd2data (k : ℕ) : ℕ := index2data (fd2num k)

theorem index2fd_of_lt {i : ℕ} (h : i < maxfd) : index2fd i = fdtable + i := by
  unfold index2fd fdtable maxfd pgsize at *
  omega

theorem index2data_of_lt {i : ℕ} (h : i < maxfd) : index2data i = fdtable + maxfd + i := by
  unfold index2data fdtable maxfd pgsize at *
  omega

theorem fd2data_index2fd {i : ℕ} (h : i < maxfd) : fd2data (index2fd i) = index2data i := by
  rw [index2fd_of_lt h]
  unfold fd2data fd2num index2data fdtable maxfd pgsize at *
  omega

theorem place_lt {k : ℕ} (h : k < fdtable + 2 * maxfd) : k < userPages := by
  refine h.trans_le ?_
  decide

/-! ### Pages -/

/-- The pages of the pipe, the `Fd` page of the socket, and the others: whether
one has `PTE_SHARE`, and whether it is an `Fd` page of another pipe. -/
inductive FdPage where
  | rfd
  | wfd
  | pipe
  | sock
  | other (id : ℕ) (share devpipe : Bool)
  deriving DecidableEq

namespace FdPage

/-- The pages of a pipe have `PTE_SHARE` from `pipe` on, that of a socket from
`alloc_sockfd` on. -/
def shared : FdPage → Bool
  | .other _ share _ => share
  | _ => true

/-- `dev_lookup` finds `devpipe`. -/
def isDevpipe : FdPage → Bool
  | .rfd => true
  | .wfd => true
  | .other _ _ devpipe => devpipe
  | _ => false

/-- The `Fd` page of an end of the pipe. -/
def isEnd : FdPage → Bool
  | .rfd => true
  | .wfd => true
  | _ => false

end FdPage

/-- What comes after `close`: nothing, the rest of `dup`, or the rest of
`close_all`. -/
inductive FdNext where
  | ret
  | dup (old new : ℕ)
  | closeAll (i : ℕ)
  deriving DecidableEq

/-- What an environment is doing; the names say which step is next. -/
inductive FdTask where
  | free
  /-- created by `parent`, which has not started it yet -/
  | embryo (parent : Fin nenv)
  /-- a library function has panicked -/
  | stuck
  | idle
  /-- `devsock_close` reads the reference count -/
  | test (i : ℕ) (next : FdNext)
  /-- `nsipc_close` -/
  | send (i : ℕ) (next : FdNext)
  /-- `devpipe_close` unmaps the data page -/
  | closeData (i : ℕ) (next : FdNext)
  /-- `fd_close` unmaps the `Fd` page -/
  | closeFd (i : ℕ) (next : FdNext)
  | dupData (old new : ℕ)
  | dupFd (old new : ℕ)
  | dupErr (new : ℕ)
  | dupErrData (new : ℕ)
  | closeAll (i : ℕ)
  /-- the loop of `fork`, at page `k` -/
  | fork (child : Fin nenv) (k : ℕ)
  /-- the loop of `copy_shared_pages` in `spawn`, at page `k` -/
  | spawn (child : Fin nenv) (k : ℕ)
  deriving DecidableEq

def FdNext.task : FdNext → FdTask
  | .ret => .idle
  | .dup old new => .dupData old new
  | .closeAll i => .closeAll (i + 1)

theorem FdNext.task_ne_embryo (next : FdNext) (p : Fin nenv) : next.task ≠ .embryo p := by
  cases next <;> exact FdTask.noConfusion

/-- The address spaces, and how many `NSREQ_CLOSE` have been sent for the
socket. -/
structure FdSys where
  pt : Fin nenv → ℕ → Option FdPage
  task : Fin nenv → FdTask
  sent : ℕ

/-- What happens.  `spawn` loads a program, whose pages are `image`, before it
copies the shared pages; `openPage` maps another page where nothing is mapped;
`run` is the next step of the function an environment is in, and `ok` says
whether there is memory for it. -/
inductive FdEvent where
  | close (e : Fin nenv) (i : ℕ)
  | dup (e : Fin nenv) (old new : ℕ)
  | fork (e c : Fin nenv)
  | spawn (e c : Fin nenv) (image : ℕ → Option ℕ)
  | exit (e : Fin nenv)
  | kill (e : Fin nenv)
  | openPage (e : Fin nenv) (k id : ℕ) (share devpipe : Bool)
  | run (e : Fin nenv) (ok : Bool)

namespace FdSys

def setPage (s : FdSys) (e : Fin nenv) (k : ℕ) (x : Option FdPage) : FdSys :=
  { s with pt := fun e' k' => if e' = e ∧ k' = k then x else s.pt e' k' }

def setTask (s : FdSys) (e : Fin nenv) (t : FdTask) : FdSys :=
  { s with task := update s.task e t }

def envFree (s : FdSys) (e : Fin nenv) : FdSys :=
  { s with pt := update s.pt e fun _ => none
           task := update s.task e .free }

/-- `sys_exofork`, and what the child has mapped before the loop. -/
def exofork (s : FdSys) (e c : Fin nenv) (pages : ℕ → Option FdPage) : FdSys :=
  { s with pt := update s.pt c pages
           task := update s.task c (.embryo e) }

/-- `sys_page_map` and `sys_page_unmap` refuse addresses from `UTOP` on. -/
def mapTo (s : FdSys) (e : Fin nenv) (k : ℕ) (x : Option FdPage) (ok : Bool) : Option FdSys :=
  if k < userPages ∧ ok then some (s.setPage e k x) else none

def unmap (s : FdSys) (e : Fin nenv) (k : ℕ) : FdSys :=
  (s.mapTo e k none true).getD s

def mapRefs (s : FdSys) (p : FdPage) : ℕ := refs userPlaces (fun x => s.pt x.1 x.2) p

/-- `pp_ref`, a 16-bit number. -/
def ppRef (s : FdSys) (p : FdPage) : ℕ := s.mapRefs p % 2 ^ 16

/-- `close`, up to its first system call. -/
def close (s : FdSys) (e : Fin nenv) (i : ℕ) (next : FdNext) : FdSys :=
  if i < maxfd then
    match s.pt e (index2fd i) with
    | none => s.setTask e next.task
    | some p =>
      if p = .sock then s.setTask e (.test i next)
      else if p.isDevpipe then (s.unmap e (index2fd i)).setTask e (.closeData i next)
      else s.setTask e (.closeFd i next)
  else s.setTask e next.task

/-- The system call with which `dup` maps the `Fd` page. -/
def dupFd (s : FdSys) (e : Fin nenv) (old new : ℕ) (ok : Bool) : FdSys :=
  match s.pt e (index2fd old) with
  | none => s.setTask e (.dupErr new)
  | some p =>
    match s.mapTo e (index2fd new) (some p) ok with
    | some s' => s'.setTask e .idle
    | none => s.setTask e (.dupErr new)

/-- One turn of the loops of `fork` and `copy_shared_pages`; `loop` is where the
caller goes on.  The child may have been destroyed meanwhile. -/
def copyPage (s : FdSys) (e c : Fin nenv) (k : ℕ) (wanted : FdPage → Bool) (loop : FdTask)
    (ok : Bool) : FdSys :=
  if k < forkPages then
    match s.pt e k with
    | none => s.setTask e loop
    | some p =>
      if wanted p then
        if ok ∧ s.task c = .embryo e then (s.setPage c k (some p)).setTask e loop
        else s.setTask e .stuck
      else s.setTask e loop
  else if ok ∧ s.task c = .embryo e then (s.setTask c .idle).setTask e .idle
  else s.setTask e .stuck

def run (s : FdSys) (e : Fin nenv) (ok : Bool) : Option FdSys :=
  match s.task e with
  | .test i next => some (s.setTask e (if s.ppRef .sock = 1 then .send i next else .closeFd i next))
  | .send i next => some { s.setTask e (.closeFd i next) with sent := s.sent + 1 }
  | .closeData i next => some ((s.unmap e (index2data i)).setTask e (.closeFd i next))
  | .closeFd i next => some ((s.unmap e (index2fd i)).setTask e next.task)
  | .dupData old new =>
    match s.pt e (index2data old) with
    | none => some (s.dupFd e old new ok)
    | some p =>
      match s.mapTo e (fd2data (index2fd new)) (some p) ok with
      | some s' => some (s'.setTask e (.dupFd old new))
      | none => some (s.setTask e (.dupErr new))
  | .dupFd old new => some (s.dupFd e old new ok)
  | .dupErr new => some ((s.unmap e (index2fd new)).setTask e (.dupErrData new))
  | .dupErrData new => some ((s.unmap e (fd2data (index2fd new))).setTask e .idle)
  | .closeAll i => some (if i < maxfd then s.close e i (.closeAll i) else s.envFree e)
  | .fork c k => some (s.copyPage e c k (fun _ => true) (.fork c (k + 1)) ok)
  | .spawn c k => some (s.copyPage e c k FdPage.shared (.spawn c (k + 1)) ok)
  | _ => none

def step (s : FdSys) : FdEvent → Option FdSys
  | .close e i => if s.task e = .idle then some (s.close e i .ret) else none
  | .dup e old new =>
    if s.task e = .idle then
      some (if old < maxfd ∧ s.pt e (index2fd old) ≠ none then s.close e new (.dup old new) else s)
    else none
  | .fork e c =>
    if s.task e = .idle ∧ s.task c = .free then
      some ((s.exofork e c fun _ => none).setTask e (.fork c 0))
    else none
  | .spawn e c image =>
    if s.task e = .idle ∧ s.task c = .free then
      let pages := fun k => (image k).map fun id => FdPage.other id false false
      some ((s.exofork e c pages).setTask e (.spawn c 0))
    else none
  | .exit e => if s.task e = .idle then some (s.setTask e (.closeAll 0)) else none
  | .kill e => if s.task e ≠ .free then some (s.envFree e) else none
  | .openPage e k id share devpipe =>
    if s.task e = .idle ∧ k < userPages ∧ s.pt e k = none then
      some (s.setPage e k (some (.other id share devpipe)))
    else none
  | .run e ok => s.run e ok

/-- `pageref`, of the page `k` of environment `e`. -/
def pageref (s : FdSys) (e : Fin nenv) (k : ℕ) : ℕ :=
  match s.pt e k with
  | none => 0
  | some p => s.ppRef p

/-- `_pipeisclosed`, for the descriptor `i`. -/
def pipeIsClosed (s : FdSys) (e : Fin nenv) (i : ℕ) : Bool :=
  s.pageref e (index2fd i) = s.pageref e (fd2data (index2fd i))

/-! ### Updates -/

section Updates

variable (s : FdSys) (e : Fin nenv) (k : ℕ) (x : Option FdPage) (t : FdTask)

@[simp, grind =] theorem setTask_pt (e' : Fin nenv) : (s.setTask e t).pt e' = s.pt e' := rfl
@[simp, grind =] theorem setTask_task (e' : Fin nenv) :
    (s.setTask e t).task e' = if e' = e then t else s.task e' := update_apply ..
@[simp, grind =] theorem setPage_pt (e' : Fin nenv) (k' : ℕ) :
    (s.setPage e k x).pt e' k' = if e' = e ∧ k' = k then x else s.pt e' k' := rfl
@[simp, grind =] theorem setPage_task (e' : Fin nenv) : (s.setPage e k x).task e' = s.task e' := rfl
@[simp, grind =] theorem envFree_pt (e' : Fin nenv) (k' : ℕ) :
    (s.envFree e).pt e' k' = if e' = e then none else s.pt e' k' := by
  simp only [envFree, update_apply]
  split <;> rfl
@[simp, grind =] theorem envFree_task (e' : Fin nenv) :
    (s.envFree e).task e' = if e' = e then .free else s.task e' := update_apply ..
@[simp, grind =] theorem exofork_pt (c : Fin nenv) (f : ℕ → Option FdPage) (e' : Fin nenv) (k' : ℕ) :
    (s.exofork e c f).pt e' k' = if e' = c then f k' else s.pt e' k' := by
  simp only [exofork, update_apply]
  split <;> rfl
@[simp, grind =] theorem exofork_task (c : Fin nenv) (f : ℕ → Option FdPage) (e' : Fin nenv) :
    (s.exofork e c f).task e' = if e' = c then .embryo e else s.task e' := update_apply ..

@[simp] theorem setTask_sent : (s.setTask e t).sent = s.sent := rfl
@[simp] theorem setTask_ppRef (p : FdPage) : (s.setTask e t).ppRef p = s.ppRef p := rfl
@[simp] theorem setPage_sent : (s.setPage e k x).sent = s.sent := rfl

theorem setTask_setTask (t t' : FdTask) : (s.setTask e t).setTask e t' = s.setTask e t' := by
  simp only [setTask, update_idem]

variable {s e k}

theorem unmap_of_lt (h : k < userPages) : s.unmap e k = s.setPage e k none := by
  simp only [unmap, mapTo, h, and_self, if_true, Option.getD_some]

theorem mapTo_of_lt (h : k < userPages) : s.mapTo e k x true = some (s.setPage e k x) := by
  simp only [mapTo, h, and_self, if_true]

end Updates

/-! ### Invariants -/

/-- What `P` says about an environment depends on its pages, its task and the
pages of the child it is making. -/
def Local (P : FdSys → Fin nenv → Prop) : Prop :=
  ∀ {s s' : FdSys} {e : Fin nenv}, P s e → s'.pt e = s.pt e → s'.task e = s.task e →
    (∀ c, s'.task c = .embryo e → s.task c = .embryo e ∧ s'.pt c = s.pt c) → P s' e

namespace Local

variable {P : FdSys → Fin nenv → Prop} {s s' : FdSys} {e c : Fin nenv} {k : ℕ} {x : Option FdPage}
  {f : ℕ → Option FdPage} {t : FdTask}

/-- A step of `e` that changes `e` and its child `c` only. -/
theorem pair (hP : Local P) (h : ∀ y, P s y) (hpt : ∀ y, y ≠ e → y ≠ c → s'.pt y = s.pt y)
    (htask : ∀ y, y ≠ e → y ≠ c → s'.task y = s.task y) (hrun : ∀ p, s'.task e ≠ .embryo p)
    (hchild : ∀ p, s'.task c = .embryo p → p = e) (he : P s' e) (hc : P s' c) (y : Fin nenv) :
    P s' y := by
  by_cases hye : y = e
  · exact hye ▸ he
  by_cases hyc : y = c
  · exact hyc ▸ hc
  refine hP (h y) (hpt y hye hyc) (htask y hye hyc) fun d hd => ?_
  -- a child of somebody else is neither
  have hde : d ≠ e := by
    rintro rfl
    exact hrun y hd
  have hdc : d ≠ c := by
    rintro rfl
    exact hye (hchild y hd)
  exact ⟨htask d hde hdc ▸ hd, hpt d hde hdc⟩

theorem own (hP : Local P) (h : ∀ y, P s y) (hpt : ∀ y ≠ e, s'.pt y = s.pt y)
    (htask : ∀ y ≠ e, s'.task y = s.task y) (hrun : ∀ p, s'.task e ≠ .embryo p) (he : P s' e) :
    ∀ y, P s' y :=
  hP.pair h (fun y hy _ => hpt y hy) (fun y hy _ => htask y hy) hrun (fun p hp => absurd hp (hrun p)) he he

theorem setPage (hP : Local P) (h : ∀ y, P s y) (hrun : ∀ p, t ≠ .embryo p)
    (he : P ((s.setPage e k x).setTask e t) e) : ∀ y, P ((s.setPage e k x).setTask e t) y := by
  refine hP.own h (fun y hy => ?_) (fun y hy => ?_) (fun p => ?_) he
  · funext k'
    simp [hy]
  · simp [hy]
  · simpa using hrun p

theorem setTask (hP : Local P) (h : ∀ y, P s y) (hrun : ∀ p, t ≠ .embryo p)
    (he : P (s.setTask e t) e) : ∀ y, P (s.setTask e t) y := by
  refine hP.own h (fun _ _ => rfl) (fun y hy => ?_) (fun p => ?_) he
  · simp [hy]
  · simpa using hrun p

theorem envFree (hP : Local P) (h : ∀ y, P s y) (he : P (s.envFree e) e) : ∀ y, P (s.envFree e) y := by
  refine hP.own h (fun y hy => ?_) (fun y hy => ?_) (fun p => ?_) he
  · funext k'
    simp [hy]
  · simp [hy]
  · simp

theorem exofork (hP : Local P) (h : ∀ y, P s y) (hce : c ≠ e) (hrun : ∀ p, t ≠ .embryo p)
    (he : P ((s.exofork e c f).setTask e t) e) (hc : P ((s.exofork e c f).setTask e t) c) :
    ∀ y, P ((s.exofork e c f).setTask e t) y := by
  refine hP.pair h (fun y hy hy' => ?_) (fun y hy hy' => ?_) (fun p => ?_) (fun p hp => ?_) he hc
  · funext k'
    simp [hy']
  · simp [hy, hy']
  · simpa using hrun p
  · simp only [setTask_task, if_neg hce, exofork_task, if_true] at hp
    cases hp
    rfl

theorem mapChild (hP : Local P) (h : ∀ y, P s y) (hchild : s.task c = .embryo e) (hce : c ≠ e)
    (hrun : ∀ p, t ≠ .embryo p) (he : P ((s.setPage c k x).setTask e t) e)
    (hc : P ((s.setPage c k x).setTask e t) c) : ∀ y, P ((s.setPage c k x).setTask e t) y := by
  refine hP.pair h (fun y hy hy' => ?_) (fun y hy hy' => ?_) (fun p => ?_) (fun p hp => ?_) he hc
  · funext k'
    simp [hy']
  · simp [hy]
  · simpa using hrun p
  · simp only [setTask_task, if_neg hce, setPage_task, hchild] at hp
    cases hp
    rfl

theorem start (hP : Local P) (h : ∀ y, P s y) (he : P ((s.setTask c .idle).setTask e .idle) e)
    (hc : P ((s.setTask c .idle).setTask e .idle) c) :
    ∀ y, P ((s.setTask c .idle).setTask e .idle) y := by
  refine hP.pair h (fun _ _ _ => rfl) (fun y hy hy' => ?_) (fun p => ?_) (fun p hp => ?_) he hc
  · simp [hy, hy']
  · simp
  · simp at hp

end Local

end FdSys

end Jos
