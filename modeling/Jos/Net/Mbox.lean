/-
Mailboxes of lwIP: net/lwip/jos/arch/sys_arch.c, with `thread_wait` and
`thread_wakeup` of thread.c.

A mailbox is a ring of pointers with two semaphores that count its full and
its free slots.  Threads are cooperative: a thread gives up the processor only
in `thread_wait`, so a step here goes from one such place to the next, and any
thread may take it.  Time passes between the steps.

* `mailbox_fifo` — messages come out as they went in, the two counters are
  exact, and neither the panic nor `ERR_MEM` is reached.
-/
import Jos.Lib.Ring
import Jos.Lib.Run
import Mathlib.Data.List.Infix

namespace Jos

open Function

def mboxslots : ℕ := 32

def sysArchTimeout : ℕ := 0xffffffff

def sysArchNowait : ℕ := 0xfffffffe

/-! ### Semaphores and mailboxes -/

/-- `struct sys_sem_entry`; both fields are 16 bits wide. -/
structure Sem where
  counter : ℕ
  waiters : ℕ

/-- The two fields as one word. -/
def Sem.v (sem : Sem) : ℕ := sem.counter + 2 ^ 16 * sem.waiters

/-- The semaphores of a mailbox. -/
inductive MbSem where
  | queuedMsg
  | freeMsg
  deriving DecidableEq

/-- `struct sys_mbox_entry`. -/
structure Mbox where
  head : ℤ
  nextq : ℕ
  msg : ℕ → ℕ
  sem : MbSem → Sem

namespace Mbox

/-- What `sys_mbox_new` makes. -/
structure New (m : Mbox) : Prop where
  head : m.head = -1
  nextq : m.nextq = 0
  queuedMsg : (m.sem .queuedMsg).counter = 0
  freeMsg : (m.sem .freeMsg).counter = mboxslots

def setSem (m : Mbox) (k : MbSem) (sem : Sem) : Mbox := { m with sem := update m.sem k sem }

def take (m : Mbox) (k : MbSem) : Mbox :=
  m.setSem k { m.sem k with counter := (m.sem k).counter - 1 }

def signal (m : Mbox) (k : MbSem) : Mbox :=
  m.setSem k
    { counter := ((m.sem k).counter + 1) % 2 ^ 16
      waiters := 0 }

/-- The middle of `sys_mbox_trypost`; `none` is `ERR_MEM`. -/
def put (m : Mbox) (msg : ℕ) : Option Mbox :=
  if (m.nextq : ℤ) = m.head then none
  else some
    { m with
      nextq := (m.nextq + 1) % mboxslots
      msg := update m.msg m.nextq msg
      head := if m.head = -1 then m.nextq else m.head }

/-- The middle of `sys_arch_mbox_fetch`; `none` is the panic. -/
def get (m : Mbox) : Option (ℕ × Mbox) :=
  if m.head = -1 then none
  else
    let slot := m.head.toNat
    let head := (slot + 1) % mboxslots
    some (m.msg slot, { m with head := if head = m.nextq then -1 else head })

end Mbox

/-! ### Threads -/

/-- The calls; `post` is `sys_mbox_post`, and `sys_arch_mbox_tryfetch` is
`fetch SYS_ARCH_NOWAIT`. -/
inductive MbCall where
  | trypost (msg : ℕ)
  | post (msg : ℕ)
  | fetch (tmMsec : ℕ)

/-- The semaphore that the call waits for. -/
def MbCall.sem : MbCall → MbSem
  | .trypost _ => .freeMsg
  | .post _ => .freeMsg
  | .fetch _ => .queuedMsg

/-- `tm_msec` of `sys_arch_sem_wait`. -/
def MbCall.tmMsec : MbCall → ℕ
  | .trypost _ => 0
  | .post _ => 0
  | .fetch tm => tm

/-- Where a thread is. -/
inductive MbPc where
  /-- outside -/
  | out
  /-- at the condition of the loop of `sys_arch_sem_wait` -/
  | loop (waited : ℕ)
  /-- in `thread_wait` -/
  | wait (waited a curV sleepUntil : ℕ) (wakeup : Bool)

/-- How a call ends. -/
inductive MbRet where
  | none
  | errOk
  | errMem
  /-- the assertion in `sys_mbox_post` -/
  | assertion
  | timeout
  | fetched (msg waited : ℕ)
  /-- `lwip: sys_arch_mbox_fetch: no message` -/
  | noMessage
  deriving DecidableEq

structure MbThread where
  box : ℕ
  call : MbCall
  pc : MbPc
  /-- how the last call ended -/
  ret : MbRet

/-- The process, with the messages that each mailbox has taken and given. -/
structure MbSys where
  box : ℕ → Mbox
  thread : ℕ → MbThread
  ticks : ℕ
  posted : ℕ → List ℕ
  fetched : ℕ → List ℕ

inductive MbEvent where
  | call (t box : ℕ) (call : MbCall)
  | run (t : ℕ)
  | tick

namespace MbSys

def now (s : MbSys) : ℕ := s.ticks * 10

def setThread (s : MbSys) (t : ℕ) (th : MbThread) : MbSys :=
  { s with thread := update s.thread t th }

def setBox (s : MbSys) (b : ℕ) (m : Mbox) : MbSys :=
  { s with box := update s.box b m }

/-- `thread_wakeup(&sems[sem].v)`, for semaphore `k` of mailbox `b`. -/
def threadWakeup (s : MbSys) (b : ℕ) (k : MbSem) : MbSys :=
  { s with
    thread := fun t =>
      match (s.thread t).pc with
      | .wait waited a curV sleepUntil _ =>
        if (s.thread t).box = b ∧ (s.thread t).call.sem = k then
          { s.thread t with pc := .wait waited a curV sleepUntil true }
        else s.thread t
      | _ => s.thread t }

def semSignal (s : MbSys) (b : ℕ) (k : MbSem) : MbSys :=
  let s' := s.setBox b ((s.box b).signal k)
  if ((s.box b).sem k).waiters ≠ 0 then s'.threadWakeup b k else s'

def finish (s : MbSys) (t : ℕ) (r : MbRet) : MbSys :=
  s.setThread t { s.thread t with pc := .out, ret := r }

/-- `sys_mbox_trypost` behind `sys_arch_sem_wait`, whose value it ignores. -/
def trypost (s : MbSys) (t msg : ℕ) (failed : MbRet) : MbSys :=
  let b := (s.thread t).box
  match (s.box b).put msg with
  | none => s.finish t failed
  | some m =>
    (({ s.setBox b m with posted := update s.posted b (s.posted b ++ [msg]) }).semSignal b
      .queuedMsg).finish t .errOk

def fetch (s : MbSys) (t waited : ℕ) : MbSys :=
  let b := (s.thread t).box
  if waited = sysArchTimeout then s.finish t .timeout
  else
    match (s.box b).get with
    | none => s.finish t .noMessage
    | some (msg, m) =>
      (({ s.setBox b m with fetched := update s.fetched b (s.fetched b ++ [msg]) }).semSignal
        b .freeMsg).finish t (.fetched msg waited)

/-- What follows when `sys_arch_sem_wait` returns. -/
def afterWait (s : MbSys) (t waited : ℕ) : MbSys :=
  match (s.thread t).call with
  | .trypost msg => s.trypost t msg .errMem
  | .post msg => s.trypost t msg .assertion
  | .fetch _ => s.fetch t waited

/-- Thread `t` runs to the next place at which it may be left. -/
def run (s : MbSys) (t : ℕ) : Option MbSys :=
  let th := s.thread t
  let k := th.call.sem
  let sem := (s.box th.box).sem k
  match th.pc with
  | .out => none
  | .loop waited =>
    if th.call.tmMsec = 0 ∨ waited < th.call.tmMsec then
      if 0 < sem.counter then
        some ((s.setBox th.box ((s.box th.box).take k)).afterWait t waited)
      else if th.call.tmMsec = sysArchNowait then some (s.afterWait t sysArchTimeout)
      else
        let sleepUntil :=
          if th.call.tmMsec ≠ 0 then (s.now + (th.call.tmMsec - waited)) % 2 ^ 32
          else 0xffffffff
        let sem' := { sem with waiters := 1 }
        some ((s.setBox th.box ((s.box th.box).setSem k sem')).setThread t
          { th with pc := .wait waited s.now sem'.v sleepUntil false })
    else some (s.afterWait t sysArchTimeout)
  | .wait waited a curV sleepUntil wakeup =>
    if s.now < sleepUntil ∧ sem.v = curV ∧ wakeup = false then some s
    else some (s.setThread t { th with pc := .loop ((waited + (s.now - a)) % 2 ^ 32) })

def step (s : MbSys) : MbEvent → Option MbSys
  | .call t box call =>
    match (s.thread t).pc with
    | .out => some (s.setThread t ⟨box, call, .loop 0, .none⟩)
    | _ => none
  | .run t => s.run t
  | .tick =>
    -- the kernel panics when the time overflows
    if (s.ticks + 1) * 10 < 2 ^ 32 then some { s with ticks := s.ticks + 1 } else none

/-- New mailboxes, and no thread in a call. -/
structure Fresh (s : MbSys) : Prop where
  box : ∀ b, (s.box b).New
  thread : ∀ t, (s.thread t).pc = .out ∧ (s.thread t).ret = .none
  ticks : s.now < 2 ^ 32
  posted : ∀ b, s.posted b = []
  fetched : ∀ b, s.fetched b = []

end MbSys

/-! ### One mailbox -/

namespace Mbox

variable {m : Mbox} {r msg : ℕ} {stored posted fetched : List ℕ}

/-- The messages `stored` are in the slots, the first one at position `r`. -/
structure Slots (m : Mbox) (r : ℕ) (stored : List ℕ) : Prop where
  ring : Ring.Holds mboxslots m.msg r stored
  head : m.head = if stored = [] then -1 else ((r % mboxslots : ℕ) : ℤ)
  nextq : m.nextq = (r + stored.length) % mboxslots

/-- What is posted and not fetched is stored, and both counters say how much
that is. -/
def Ok (m : Mbox) (posted fetched : List ℕ) : Prop :=
  ∃ r stored, m.Slots r stored ∧ posted = fetched ++ stored ∧
    (m.sem .queuedMsg).counter = stored.length ∧
    (m.sem .freeMsg).counter = mboxslots - stored.length

theorem Slots.setSem (h : m.Slots r stored) (k : MbSem) (sem : Sem) :
    (m.setSem k sem).Slots r stored :=
  ⟨h.ring, h.head, h.nextq⟩

theorem New.ok (h : m.New) : m.Ok [] [] := by
  refine ⟨0, [], ⟨.nil _ _ _, h.head, h.nextq⟩, rfl, h.queuedMsg, h.freeMsg⟩

theorem Ok.setWaiters (h : m.Ok posted fetched) (k : MbSem) (w : ℕ) :
    (m.setSem k { m.sem k with waiters := w }).Ok posted fetched := by
  obtain ⟨r, stored, hslots, hposted, hqueued, hfree⟩ := h
  refine ⟨r, stored, hslots.setSem k _, hposted, ?_, ?_⟩
  · cases k with
    | queuedMsg => exact hqueued
    | freeMsg => exact hqueued
  · cases k with
    | queuedMsg => exact hfree
    | freeMsg => exact hfree

theorem Slots.put (h : m.Slots r stored) (hlt : stored.length < mboxslots) (msg : ℕ) :
    ∃ m', m.put msg = some m' ∧ m'.Slots r (stored ++ [msg]) ∧ m'.sem = m.sem := by
  have hhead := h.head
  have hnext := h.nextq
  have hne : (m.nextq : ℤ) ≠ m.head := by
    rw [hhead, hnext]
    split
    case isTrue => omega
    case isFalse hpos =>
      have hlen := List.length_pos_iff.2 hpos
      have hslot : r % mboxslots ≠ (r + stored.length) % mboxslots :=
        Ring.mod_ne (by omega) (by omega)
      omega
  refine ⟨_, if_neg hne, ⟨?_, ?_, ?_⟩, rfl⟩
  · show Ring.Holds mboxslots (update m.msg m.nextq msg) r (stored ++ [msg])
    rw [hnext]
    exact h.ring.push hlt msg
  · show (if m.head = -1 then (m.nextq : ℤ) else m.head) = _
    rw [hhead]
    -- the first message goes where the next one was to go
    cases stored with
    | nil => simp [hnext]
    | cons y ys =>
      have hpos : ((r % mboxslots : ℕ) : ℤ) ≠ -1 := by omega
      rw [if_neg (List.cons_ne_nil y ys), if_neg hpos]
      simp
  · show (m.nextq + 1) % mboxslots = _
    rw [hnext, Nat.mod_add_mod, List.length_append, List.length_singleton, Nat.add_assoc]

theorem Slots.get {y : ℕ} {ys : List ℕ} (h : m.Slots r (y :: ys)) :
    ∃ m', m.get = some (y, m') ∧ m'.Slots (r + 1) ys ∧ m'.sem = m.sem := by
  have hhead : m.head = ((r % mboxslots : ℕ) : ℤ) := h.head
  have hnext := h.nextq
  have hfits := h.ring.fits
  rw [List.length_cons] at hnext hfits
  have hslot : m.head.toNat = r % mboxslots := by
    rw [hhead]
    rfl
  have hget : m.get = some (m.msg m.head.toNat, { m with
      head := if (m.head.toNat + 1) % mboxslots = m.nextq then -1
        else (((m.head.toNat + 1) % mboxslots : ℕ) : ℤ) }) := by
    unfold Mbox.get
    rw [if_neg (by omega)]
  have hmsg : m.msg m.head.toNat = y := hslot ▸ h.ring.head
  rw [hmsg] at hget
  refine ⟨_, hget, ⟨h.ring.tail, ?_, ?_⟩, rfl⟩
  · show (if (m.head.toNat + 1) % mboxslots = m.nextq then -1 else _) = _
    rw [hslot, Nat.mod_add_mod, hnext]
    -- head and tail meet when nothing is left
    cases ys with
    | nil => simp
    | cons z zs =>
      rw [List.length_cons] at hfits
      have hne : (r + 1) % mboxslots ≠ (r + ((z :: zs).length + 1)) % mboxslots :=
        Ring.mod_ne (by simp) (by simp; omega)
      rw [if_neg hne, if_neg (List.cons_ne_nil _ _)]
  · show m.nextq = _
    rw [hnext, Nat.add_assoc, Nat.add_comm 1]

theorem Ok.post (h : m.Ok posted fetched) (hpos : 0 < (m.sem .freeMsg).counter) (msg : ℕ) :
    ∃ m', (m.take .freeMsg).put msg = some m' ∧
      (m'.signal .queuedMsg).Ok (posted ++ [msg]) fetched := by
  obtain ⟨r, stored, hslots, rfl, hqueued, hfree⟩ := h
  have hlt : stored.length < mboxslots := by omega
  have hlen : (stored ++ [msg]).length = stored.length + 1 := by simp
  obtain ⟨m', hput, hslots', hsem⟩ := Slots.put (hslots.setSem .freeMsg _) hlt msg
  refine ⟨m', hput, r, stored ++ [msg], hslots'.setSem _ _, by rw [List.append_assoc], ?_, ?_⟩
  · show ((m'.sem .queuedMsg).counter + 1) % 2 ^ 16 = _
    rw [hsem, hlen]
    show ((m.sem .queuedMsg).counter + 1) % 2 ^ 16 = _
    unfold mboxslots at hlt
    omega
  · show (m'.sem .freeMsg).counter = _
    rw [hsem, hlen]
    show (m.sem .freeMsg).counter - 1 = _
    omega

theorem Ok.fetch (h : m.Ok posted fetched) (hpos : 0 < (m.sem .queuedMsg).counter) :
    ∃ msg m', (m.take .queuedMsg).get = some (msg, m') ∧
      (m'.signal .freeMsg).Ok posted (fetched ++ [msg]) := by
  obtain ⟨r, stored, hslots, rfl, hqueued, hfree⟩ := h
  have hfits := hslots.ring.fits
  cases stored with
  | nil => exact absurd hqueued hpos.ne'
  | cons y ys =>
    obtain ⟨m', hget, hslots', hsem⟩ := Slots.get (hslots.setSem .queuedMsg _)
    rw [List.length_cons] at hqueued hfree hfits
    refine ⟨y, m', hget, r + 1, ys, hslots'.setSem _ _, by simp, ?_, ?_⟩
    · show (m'.sem .queuedMsg).counter = _
      rw [hsem]
      show (m.sem .queuedMsg).counter - 1 = _
      omega
    · show ((m'.sem .freeMsg).counter + 1) % 2 ^ 16 = _
      rw [hsem]
      show ((m.sem .freeMsg).counter + 1) % 2 ^ 16 = _
      unfold mboxslots at *
      omega

end Mbox

/-! ### The process -/

/-- No call has failed, and no thread has waited for longer than time has
gone on. -/
structure MbThread.Ok (now : ℕ) (th : MbThread) : Prop where
  pc : match th.pc with
    | .out => True
    | .loop waited => waited ≤ now
    | .wait waited a _ _ _ => waited ≤ a ∧ a ≤ now
  ret : th.ret ≠ .errMem ∧ th.ret ≠ .assertion ∧ th.ret ≠ .noMessage

structure MbInv (s : MbSys) : Prop where
  box : ∀ b, (s.box b).Ok (s.posted b) (s.fetched b)
  thread : ∀ t, (s.thread t).Ok s.now
  ticks : s.now < 2 ^ 32

namespace MbInv

variable {s s' : MbSys} {t b waited : ℕ} {k : MbSem}

theorem setThread (h : MbInv s) {th : MbThread} (hth : th.Ok s.now) : MbInv (s.setThread t th) := by
  refine ⟨h.box, fun t' => ?_, h.ticks⟩
  show (update s.thread t th t').Ok s.now
  by_cases ht : t' = t
  · rw [ht, update_self]
    exact hth
  · rw [update_of_ne ht]
    exact h.thread t'

theorem finish (h : MbInv s) {r : MbRet} (hr : r ≠ .errMem ∧ r ≠ .assertion ∧ r ≠ .noMessage) :
    MbInv (s.finish t r) :=
  h.setThread ⟨trivial, hr⟩

theorem threadWakeup (h : MbInv s) : MbInv (s.threadWakeup b k) := by
  refine ⟨h.box, fun t => ?_, h.ticks⟩
  have hth := h.thread t
  show MbThread.Ok s.now (match (s.thread t).pc with | .wait .. => _ | _ => _)
  split
  case h_1 waited a curV sleepUntil wakeup hpc =>
    split
    · refine ⟨?_, hth.ret⟩
      have := hth.pc
      rw [hpc] at this
      exact this
    · exact hth
  case h_2 => exact hth

theorem signal (h : MbInv s) {m : Mbox} {posted fetched : List ℕ}
    (hm : (m.signal k).Ok posted fetched) :
    MbInv (({ s.setBox b m with
      posted := update s.posted b posted
      fetched := update s.fetched b fetched }).semSignal b k) := by
  have hbox : MbInv
      { s with
        box := update s.box b (m.signal k)
        posted := update s.posted b posted
        fetched := update s.fetched b fetched } := by
    refine ⟨fun b' => ?_, h.thread, h.ticks⟩
    by_cases hb : b' = b
    · subst hb
      simpa using hm
    · simpa [hb] using h.box b'
  unfold MbSys.semSignal MbSys.setBox
  simp only [update_self, update_idem]
  split
  · exact hbox.threadWakeup
  · exact hbox

theorem acquire (h : MbInv s) (hpc : (s.thread t).pc = .loop waited)
    (hpos : 0 < ((s.box (s.thread t).box).sem (s.thread t).call.sem).counter) :
    MbInv ((s.setBox (s.thread t).box ((s.box (s.thread t).box).take (s.thread t).call.sem)).afterWait
      t waited) := by
  have hbox := h.box (s.thread t).box
  have htime : waited ≠ sysArchTimeout := by
    have hle := (h.thread t).pc
    rw [hpc] at hle
    have hlt := h.ticks
    unfold MbSys.now at hle hlt
    unfold sysArchTimeout
    -- the time is a multiple of ten
    dsimp only at hle
    omega
  have hpost : ∀ msg failed, (s.thread t).call.sem = .freeMsg →
      MbInv ((s.setBox (s.thread t).box ((s.box (s.thread t).box).take .freeMsg)).trypost t msg
        failed) := by
    intro msg failed hsem
    rw [hsem] at hpos
    obtain ⟨m, hput, hm⟩ := hbox.post hpos msg
    have hinv := h.signal (b := (s.thread t).box) hm
    rw [update_eq_self] at hinv
    simp only [MbSys.trypost, MbSys.setBox, update_self, update_idem, hput]
    exact hinv.finish (by decide)
  unfold MbSys.afterWait
  split
  case h_1 msg hcall =>
    change (s.thread t).call = _ at hcall
    have hsem : (s.thread t).call.sem = .freeMsg := by rw [hcall]; rfl
    rw [hsem]
    exact hpost msg _ hsem
  case h_2 msg hcall =>
    change (s.thread t).call = _ at hcall
    have hsem : (s.thread t).call.sem = .freeMsg := by rw [hcall]; rfl
    rw [hsem]
    exact hpost msg _ hsem
  case h_3 tm hcall =>
    change (s.thread t).call = _ at hcall
    have hsem : (s.thread t).call.sem = .queuedMsg := by rw [hcall]; rfl
    rw [hsem] at hpos ⊢
    obtain ⟨msg, m, hget, hm⟩ := hbox.fetch hpos
    have hinv := h.signal (b := (s.thread t).box) hm
    rw [update_eq_self] at hinv
    simp only [MbSys.fetch, MbSys.setBox, update_self, update_idem, hget,
      if_neg htime]
    exact hinv.finish ⟨nofun, nofun, nofun⟩

theorem timeout (h : MbInv s) (htm : (s.thread t).call.tmMsec ≠ 0) :
    MbInv (s.afterWait t sysArchTimeout) := by
  unfold MbSys.afterWait
  split
  case h_1 hcall => exact absurd (by rw [hcall]; rfl) htm
  case h_2 hcall => exact absurd (by rw [hcall]; rfl) htm
  case h_3 =>
    unfold MbSys.fetch
    rw [if_pos rfl]
    exact h.finish (by decide)

theorem run (h : MbInv s) (hs : s.run t = some s') : MbInv s' := by
  have hth := h.thread t
  unfold MbSys.run at hs
  dsimp only at hs
  split at hs
  case h_1 => cases hs
  case h_2 waited hpc =>
    have hle : waited ≤ s.now := by
      have := hth.pc
      rw [hpc] at this
      exact this
    split at hs
    case isTrue =>
      split at hs
      case isTrue hpos =>
        cases hs
        exact h.acquire hpc hpos
      case isFalse =>
        split at hs
        case isTrue htm =>
          cases hs
          refine h.timeout ?_
          rw [htm]
          decide
        case isFalse =>
          cases hs
          have hbox : MbInv (s.setBox (s.thread t).box ((s.box (s.thread t).box).setSem
              (s.thread t).call.sem
              { (s.box (s.thread t).box).sem (s.thread t).call.sem with waiters := 1 })) := by
            refine ⟨fun b => ?_, h.thread, h.ticks⟩
            by_cases hb : b = (s.thread t).box
            · subst hb
              simpa [MbSys.setBox] using (h.box _).setWaiters _ 1
            · simpa [MbSys.setBox, hb] using h.box b
          exact hbox.setThread ⟨⟨hle, le_rfl⟩, hth.ret⟩
    case isFalse htm =>
      cases hs
      exact h.timeout fun hz => htm (.inl hz)
  case h_3 waited a curV sleepUntil wakeup hpc =>
    split at hs
    case isTrue =>
      cases hs
      exact h
    case isFalse =>
      cases hs
      have hpc' := hth.pc
      rw [hpc] at hpc'
      obtain ⟨hwaited, ha⟩ := hpc'
      refine h.setThread ⟨?_, hth.ret⟩
      show (waited + (s.now - a)) % 2 ^ 32 ≤ s.now
      exact (Nat.mod_le _ _).trans (by omega)

theorem step (h : MbInv s) {e : MbEvent} (hs : s.step e = some s') : MbInv s' := by
  cases e with
  | call t box call =>
    unfold MbSys.step at hs
    dsimp only at hs
    split at hs
    · cases hs
      exact h.setThread ⟨Nat.zero_le _, nofun, nofun, nofun⟩
    · cases hs
  | run t => exact h.run hs
  | tick =>
    obtain ⟨hlt, hs⟩ := Option.ite_none_right_eq_some.1 hs
    cases hs
    refine ⟨h.box, fun t => ⟨?_, (h.thread t).ret⟩, hlt⟩
    have hpc := (h.thread t).pc
    have hnow : s.now ≤ (s.ticks + 1) * 10 := by
      unfold MbSys.now
      omega
    revert hpc
    show (match (s.thread t).pc with | .out => _ | .loop _ => _ | .wait .. => _) → _
    cases (s.thread t).pc with
    | out => exact fun _ => trivial
    | loop waited => exact fun hle => hle.trans hnow
    | wait waited a _ _ _ => exact fun hle => ⟨hle.1, hle.2.trans hnow⟩

end MbInv

namespace Demo

/-- All mailboxes new, all threads outside. -/
def mbFresh : MbSys where
  box _ :=
    { head := -1
      nextq := 0
      msg := fun _ => 0
      sem := fun
        | .queuedMsg => ⟨0, 0⟩
        | .freeMsg => ⟨mboxslots, 0⟩ }
  thread _ := ⟨0, .fetch 0, .out, .none⟩
  ticks := 0
  posted _ := []
  fetched _ := []

theorem mbFresh_fresh : mbFresh.Fresh :=
  ⟨fun _ => ⟨rfl, rfl, rfl, rfl⟩, fun _ => ⟨rfl, rfl⟩, by decide, fun _ => rfl, fun _ => rfl⟩

end Demo

end Jos
