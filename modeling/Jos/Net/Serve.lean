/-
The network server: `serve` and `serve_thread` of net/serv.c.

The main thread claims a buffer, receives a message into it and, if the message
is a request, starts a thread for it; the thread makes the lwIP call, replies
and gives the buffer back.  Threads are cooperative: while the main thread
waits in `ipc_recv` the whole environment does, otherwise the other threads
run when it yields, in any order.

* `requests_served` — one reply for each request, and one buffer;
* `server_mishandles` — `NSREQ_SOCKET`, and messages without a page.
-/
import Jos.Lib.Run
import Jos.Kern.Layout
import Mathlib.Data.List.Nodup
import Mathlib.Data.Fintype.Card

namespace Jos

open Function

def queueSize : ℕ := 20

/-! ### Requests -/

/-- The lwIP calls clients ask for. -/
inductive NsCall where
  | accept
  | bind
  | shutdown
  | close
  | connect
  | listen
  | recv
  | send
  | socket
  deriving DecidableEq

/-- A request code of inc/ns.h.  `NSREQ_OUTPUT` is never sent to the server, so
the server has no case for it. -/
inductive NsReq where
  | call (c : NsCall)
  | input
  | timer
  | invalid (code : ℤ)
  deriving DecidableEq

def NsReq.decode (reqno : ℤ) : NsReq :=
  if reqno = 1 then .call .accept
  else if reqno = 2 then .call .bind
  else if reqno = 3 then .call .shutdown
  else if reqno = 4 then .call .close
  else if reqno = 5 then .call .connect
  else if reqno = 6 then .call .listen
  else if reqno = 7 then .call .recv
  else if reqno = 8 then .call .send
  else if reqno = 9 then .call .socket
  else if reqno = 10 then .input
  else if reqno = 12 then .timer
  else .invalid reqno

/-- The `switch` of `serve_thread`, when the lwIP call returns `ret`: the value
of `r` behind it, and whether `jif_input` was called. -/
def NsReq.serve (req : NsReq) (ret : ℤ) : ℤ × Bool :=
  match req with
  | .call .socket => (0, true)
  | .call _ => (ret, false)
  | .input => (0, true)
  | _ => (-eInval, false)

/-! ### The server -/

/-- A thread that runs `serve_thread`: its request, the buffer, and `r` once the
`switch` is done.  Requests are numbered as they arrive. -/
structure NsThread where
  id : ℕ
  req : NsReq
  whom : ℕ
  slot : Fin queueSize
  r : Option ℤ
  deriving DecidableEq

/-- Where the main thread is: before `get_buffer`, in `ipc_recv`, in
`process_timer`, or in a panic. -/
inductive NsMain where
  | top
  | recv (i : Fin queueSize)
  | timer (i : Fin queueSize)
  | panic (msg : String)
  deriving DecidableEq

/-- The server, and what it has done: the requests with a page it got, what the
lwIP calls returned, for which requests it called `jif_input`, and its
replies. -/
structure NsSys where
  buse : Fin queueSize → Bool
  main : NsMain
  threads : List NsThread
  requests : List (NsReq × ℕ)
  returned : List (ℕ × NsCall × ℤ)
  inputs : List ℕ
  replies : List (ℕ × ℕ × ℤ)

/-- How far memory goes: `malloc` fails, `thread_create` fails, or neither. -/
inductive NsMem where
  | noArgs
  | noThread
  | enough
  deriving DecidableEq

/-- What happens: the main thread goes on from the top of its loop; a message
arrives; `process_timer` replies; the lwIP call of a thread returns; a thread
replies.  `gone` says that `ipc_send` finds no such environment. -/
inductive NsEvent where
  | loop
  | msg (reqno : ℤ) (whom : ℕ) (page : Bool) (mem : NsMem)
  | timerSent (gone : Bool)
  | call (id : ℕ) (ret : ℤ)
  | reply (id : ℕ) (gone : Bool)

namespace NsSys

def init : NsSys where
  buse := fun _ => false
  main := .top
  threads := []
  requests := []
  returned := []
  inputs := []
  replies := []

/-- `get_buffer`: the first buffer that is not in use. -/
def getBuffer (s : NsSys) : Option (Fin queueSize) :=
  (List.finRange queueSize).find? fun i => !s.buse i

def putBuffer (s : NsSys) (i : Fin queueSize) : NsSys :=
  { s with buse := update s.buse i false }

/-- Threads run while the main thread is not blocked in `ipc_recv`. -/
def yields (s : NsSys) : Bool :=
  match s.main with
  | .top => true
  | .timer _ => true
  | _ => false

/-- `serve`, from the arrival of a message in buffer `i`. -/
def receive (timerEnvid : ℕ) (s : NsSys) (i : Fin queueSize) (req : NsReq) (whom : ℕ) (page : Bool)
    (mem : NsMem) : NsSys :=
  if req = .timer then
    if whom ≠ timerEnvid then { s.putBuffer i with main := .top }
    else { s with main := .timer i }
  else if ¬ page then { s with main := .top }
  else
    match mem with
    | .noArgs => { s with main := .panic "could not allocate thread args structure" }
    | .noThread => { s with main := .top }
    | .enough =>
      { s with
        main := .top
        threads := ⟨s.requests.length - 1, req, whom, i, none⟩ :: s.threads }

/-- The `switch` of thread `t`. -/
def serve (s : NsSys) (t : NsThread) (ret : ℤ) : NsSys :=
  { s with
    threads := s.threads.map fun x => if x.id = t.id then { x with r := some (t.req.serve ret).1 } else x
    returned := match t.req with
      | .call c => (t.id, c, ret) :: s.returned
      | _ => s.returned
    inputs := if (t.req.serve ret).2 then t.id :: s.inputs else s.inputs }

/-- The rest of `serve_thread`. -/
def finish (s : NsSys) (t : NsThread) (r : ℤ) : NsSys :=
  { s.putBuffer t.slot with
    threads := s.threads.filter fun x => x.id ≠ t.id
    replies := if t.req ≠ .input then (t.id, t.whom, r) :: s.replies else s.replies }

def step (timerEnvid : ℕ) (s : NsSys) : NsEvent → Option NsSys
  | .loop =>
    match s.main with
    | .top =>
      match s.getBuffer with
      | none => some { s with main := .panic "NS: buffer overflow" }
      | some i => some { s with buse := update s.buse i true, main := .recv i }
    | _ => none
  | .msg reqno whom page mem =>
    match s.main with
    | .recv i =>
      let req := NsReq.decode reqno
      let s := if page then { s with requests := s.requests ++ [(req, whom)] } else s
      some (s.receive timerEnvid i req whom page mem)
    | _ => none
  | .timerSent gone =>
    match s.main with
    | .timer i =>
      if gone then some { s with main := .panic "ipc_send() : sys_ipc_try_send(): %e\n" }
      else some { s.putBuffer i with main := .top }
    | _ => none
  | .call id ret =>
    match s.yields, s.threads.find? (·.id = id) with
    | true, some t => if t.r = none then some (s.serve t ret) else none
    | _, _ => none
  | .reply id gone =>
    match s.yields, s.threads.find? (·.id = id) with
    | true, some t =>
      match t.r with
      | none => none
      | some r =>
        if t.req ≠ .input ∧ gone then
          some { s with main := .panic "ipc_send() : sys_ipc_try_send(): %e\n" }
        else some (s.finish t r)
    | _, _ => none

def mainSlot (s : NsSys) : List (Fin queueSize) :=
  match s.main with
  | .recv i => [i]
  | .timer i => [i]
  | _ => []

/-- The buffers of the requests in service and of the main thread. -/
def held (s : NsSys) : List (Fin queueSize) := s.threads.map (·.slot) ++ s.mainSlot

end NsSys

/-- When the server does as it should: requests other than `NSREQ_TIMER` carry a
page and `NSREQ_TIMER` does not, no request is `NSREQ_SOCKET`, memory suffices,
and the environments that are to get a reply still exist. -/
def NsCond : NsEvent → Prop
  | .msg reqno _ page mem =>
    (page = true ↔ NsReq.decode reqno ≠ .timer) ∧ NsReq.decode reqno ≠ .call .socket ∧ mem = .enough
  | .timerSent gone => gone = false
  | .reply _ gone => gone = false
  | _ => True

instance : DecidablePred NsCond
  | .msg reqno _ page mem => inferInstanceAs (Decidable
      ((page = true ↔ NsReq.decode reqno ≠ .timer) ∧ NsReq.decode reqno ≠ .call .socket ∧
        mem = .enough))
  | .timerSent gone => inferInstanceAs (Decidable (gone = false))
  | .reply _ gone => inferInstanceAs (Decidable (gone = false))
  | .loop => inferInstanceAs (Decidable True)
  | .call _ _ => inferInstanceAs (Decidable True)

/-! ### The invariant -/

/-- The value a request is to be answered with: what the lwIP call it names
returned, or that there is no such call. -/
def NsSys.Answer (s : NsSys) (id : ℕ) (req : NsReq) (r : ℤ) : Prop :=
  match req with
  | .call c => s.returned.filter (·.1 = id) = [(id, c, r)]
  | .input => True
  | _ => r = -eInval

structure NsInv (s : NsSys) : Prop where
  /-- A buffer belongs to one request or to the main thread. -/
  held_nodup : s.held.Nodup
  buse : ∀ i, s.buse i = true ↔ i ∈ s.held
  ids : (s.threads.map (·.id)).Nodup
  known : ∀ t ∈ s.threads, s.requests[t.id]? = some (t.req, t.whom)
  codes : ∀ x ∈ s.requests, x.1 ≠ .call .socket ∧ x.1 ≠ .timer
  /-- Requests in service have no reply yet, and those whose call has not
  returned have no value. -/
  running : ∀ t ∈ s.threads, t.r = none → ∀ x ∈ s.returned, x.1 ≠ t.id
  results : ∀ t ∈ s.threads, ∀ r, t.r = some r → s.Answer t.id t.req r
  silent : ∀ t ∈ s.threads, ∀ x ∈ s.replies, x.1 ≠ t.id
  past : (∀ x ∈ s.replies, x.1 < s.requests.length) ∧ ∀ x ∈ s.returned, x.1 < s.requests.length
  /-- The others have one. -/
  answered : ∀ id req whom, s.requests[id]? = some (req, whom) → req ≠ .input →
    (∀ t ∈ s.threads, t.id ≠ id) →
      ∃ r, s.replies.filter (·.1 = id) = [(id, whom, r)] ∧ s.Answer id req r
  inputs : ∀ id ∈ s.inputs, ∃ whom, s.requests[id]? = some (.input, whom)
  full : s.main = .panic "NS: buffer overflow" → s.threads.length = queueSize

namespace NsInv

variable {s s' : NsSys} {t : NsThread} {i : Fin queueSize} {timerEnvid : ℕ}

theorem init : NsInv NsSys.init := by
  constructor <;> simp [NsSys.init, NsSys.held, NsSys.mainSlot]

section

variable (h : NsInv s)
include h

theorem card_buse : (Finset.univ.filter fun i => s.buse i = true).card = s.held.length := by
  rw [← List.toFinset_card_of_nodup h.held_nodup]
  congr 1
  ext i
  simp [h.buse i]

theorem move (hthreads : s'.threads = s.threads) (hrequests : s'.requests = s.requests)
    (hreturned : s'.returned = s.returned) (hinputs : s'.inputs = s.inputs)
    (hreplies : s'.replies = s.replies) (hheld : s'.held.Nodup)
    (hbuse : ∀ i, s'.buse i = true ↔ i ∈ s'.held)
    (hfull : s'.main = .panic "NS: buffer overflow" → s'.threads.length = queueSize) : NsInv s' := by
  have hanswer : ∀ id req r, s'.Answer id req r ↔ s.Answer id req r := by
    intro id req r
    unfold NsSys.Answer
    rw [hreturned]
  constructor
  · exact hheld
  · exact hbuse
  · rw [hthreads]
    exact h.ids
  · rw [hthreads, hrequests]
    exact h.known
  · rw [hrequests]
    exact h.codes
  · rw [hthreads, hreturned]
    exact h.running
  · rw [hthreads]
    exact fun t ht r hr => (hanswer _ _ _).mpr (h.results t ht r hr)
  · rw [hthreads, hreplies]
    exact h.silent
  · rw [hreplies, hreturned, hrequests]
    exact h.past
  · rw [hthreads, hrequests, hreplies]
    intro id req whom hreq hne hnone
    obtain ⟨r, hr, ha⟩ := h.answered id req whom hreq hne hnone
    exact ⟨r, hr, (hanswer _ _ _).mpr ha⟩
  · rw [hinputs, hrequests]
    exact h.inputs
  · exact hfull

theorem putMain (hm : s.mainSlot = [i]) : NsInv { s.putBuffer i with main := .top } := by
  have hheld : s.held = s.threads.map (·.slot) ++ [i] := by rw [NsSys.held, hm]
  have hnd := h.held_nodup
  rw [hheld] at hnd
  have hnot : i ∉ s.threads.map (·.slot) := fun hi =>
    (List.nodup_append.mp hnd).2.2 i hi i List.mem_cons_self rfl
  have hheld' : NsSys.held { s.putBuffer i with main := .top } = s.threads.map (·.slot) :=
    List.append_nil _
  refine h.move rfl rfl rfl rfl rfl ?_ (fun j => ?_) nofun
  · rw [hheld']
    exact (List.nodup_append.mp hnd).1
  · rw [hheld']
    show update s.buse i false j = true ↔ _
    by_cases hj : j = i
    · subst hj
      rw [update_self]
      exact iff_of_false nofun hnot
    · rw [update_of_ne hj, h.buse j, hheld, List.mem_append, List.mem_singleton,
        or_iff_left hj]

theorem loop (hs : s.step timerEnvid .loop = some s') : NsInv s' := by
  simp only [NsSys.step] at hs
  split at hs
  · next hm =>
    have hheld : s.held = s.threads.map (·.slot) := by
      rw [NsSys.held, NsSys.mainSlot, hm]
      exact List.append_nil _
    split at hs
    · next hbuf =>
      cases hs
      refine h.move rfl rfl rfl rfl rfl ?_ ?_ fun _ => ?_
      · show (s.threads.map NsThread.slot ++ []).Nodup
        rw [List.append_nil, ← hheld]
        exact h.held_nodup
      · show ∀ i, s.buse i = true ↔ i ∈ s.threads.map (·.slot) ++ []
        rw [List.append_nil, ← hheld]
        exact h.buse
      · -- every buffer is in use, by a request
        have hall : ∀ i, s.buse i = true := by
          intro i
          have := List.find?_eq_none.mp hbuf i (List.mem_finRange i)
          simpa using this
        have hcard := h.card_buse
        rw [Finset.filter_true_of_mem fun i _ => hall i, Finset.card_univ, Fintype.card_fin, hheld,
          List.length_map] at hcard
        exact hcard.symm
    · next i hbuf =>
      cases hs
      have hfree : s.buse i = false := by
        have := List.find?_some hbuf
        simpa using this
      have hnot : i ∉ s.held := fun hi => by
        rw [(h.buse i).mpr hi] at hfree
        cases hfree
      have hheld' : NsSys.held { s with buse := update s.buse i true, main := .recv i } =
          s.held ++ [i] := by
        rw [hheld]
        rfl
      refine h.move rfl rfl rfl rfl rfl ?_ (fun j => ?_) nofun
      · rw [hheld']
        refine List.nodup_append.mpr ⟨h.held_nodup, List.nodup_singleton i, ?_⟩
        rintro a ha b hb rfl
        exact hnot (List.mem_singleton.mp hb ▸ ha)
      · rw [hheld', List.mem_append, List.mem_singleton]
        show update s.buse i true j = true ↔ _
        by_cases hj : j = i
        · subst hj
          rw [update_self]
          exact iff_of_true rfl (.inr rfl)
        · rw [update_of_ne hj, h.buse j, or_iff_left hj]
  · cases hs

theorem request (hm : s.main = .recv i) {req : NsReq} {whom : ℕ} (hsock : req ≠ .call .socket)
    (htimer : req ≠ .timer) :
    NsInv { s with
      main := .top
      requests := s.requests ++ [(req, whom)]
      threads := ⟨s.requests.length, req, whom, i, none⟩ :: s.threads } := by
  have hheld : s.held = s.threads.map (·.slot) ++ [i] := by
    rw [NsSys.held, NsSys.mainSlot, hm]
  have hlt : ∀ t ∈ s.threads, t.id < s.requests.length := by
    intro t ht
    exact (List.getElem?_eq_some_iff.mp (h.known t ht)).1
  have hold : ∀ (id : ℕ) x, s.requests[id]? = some x →
      (s.requests ++ [(req, whom)])[id]? = some x := by
    intro id x hx
    rw [List.getElem?_append_left (List.getElem?_eq_some_iff.mp hx).1, hx]
  have hnd := h.held_nodup
  rw [hheld] at hnd
  have hperm : (i :: s.threads.map (·.slot)).Perm s.held := by
    rw [hheld]
    exact (List.perm_append_singleton i _).symm
  constructor
  · show (i :: s.threads.map NsThread.slot ++ []).Nodup
    rw [List.append_nil]
    exact hperm.nodup_iff.mpr h.held_nodup
  · intro j
    show s.buse j = true ↔ j ∈ i :: s.threads.map NsThread.slot ++ []
    rw [List.append_nil, h.buse j, hperm.mem_iff]
  · show (s.requests.length :: s.threads.map NsThread.id).Nodup
    refine List.nodup_cons.mpr ⟨fun hmem => ?_, h.ids⟩
    obtain ⟨t, ht, hid⟩ := List.mem_map.mp hmem
    exact absurd (hlt t ht) (by omega)
  · intro t ht
    rcases List.mem_cons.mp ht with rfl | ht
    · show (s.requests ++ [(req, whom)])[s.requests.length]? = _
      rw [List.getElem?_append_right (Nat.le_refl _), Nat.sub_self]
      rfl
    · exact hold _ _ (h.known t ht)
  · intro x hx
    rcases List.mem_append.mp hx with hx | hx
    · exact h.codes x hx
    · rw [List.mem_singleton.mp hx]
      exact ⟨hsock, htimer⟩
  · intro t ht hr x hx
    rcases List.mem_cons.mp ht with rfl | ht
    · exact Nat.ne_of_lt (h.past.2 x hx)
    · exact h.running t ht hr x hx
  · intro t ht r hr
    rcases List.mem_cons.mp ht with rfl | ht
    · cases hr
    · exact h.results t ht r hr
  · intro t ht x hx
    rcases List.mem_cons.mp ht with rfl | ht
    · exact Nat.ne_of_lt (h.past.1 x hx)
    · exact h.silent t ht x hx
  · have hle : s.requests.length ≤ (s.requests ++ [(req, whom)]).length := by simp
    exact ⟨fun x hx => (h.past.1 x hx).trans_le hle, fun x hx => (h.past.2 x hx).trans_le hle⟩
  · intro id q w hreq hne hnone
    have hid : s.requests.length ≠ id := hnone _ List.mem_cons_self
    have hreq' : s.requests[id]? = some (q, w) := by
      have hlen := (List.getElem?_eq_some_iff.mp hreq).1
      rw [List.length_append, List.length_singleton] at hlen
      rwa [List.getElem?_append_left (by omega)] at hreq
    exact h.answered id q w hreq' hne fun t ht => hnone t (List.mem_cons_of_mem _ ht)
  · intro id hid
    obtain ⟨w, hw⟩ := h.inputs id hid
    exact ⟨w, hold _ _ hw⟩
  · exact nofun

theorem msg {reqno : ℤ} {whom : ℕ} {page : Bool} {mem : NsMem} (hc : NsCond (.msg reqno whom page mem))
    (hs : s.step timerEnvid (.msg reqno whom page mem) = some s') : NsInv s' := by
  obtain ⟨hpage, hsock, rfl⟩ := hc
  simp only [NsSys.step] at hs
  split at hs
  · next i hm =>
    have hslot : s.mainSlot = [i] := by rw [NsSys.mainSlot, hm]
    by_cases ht : NsReq.decode reqno = .timer
    · have hp : page = false := by
        rw [← Bool.not_eq_true, hpage]
        exact not_not.mpr ht
      rw [hp, if_neg nofun, NsSys.receive, if_pos ht] at hs
      split at hs
      · cases hs
        exact h.putMain hslot
      · cases hs
        refine h.move rfl rfl rfl rfl rfl ?_ ?_ nofun
        · show (s.threads.map NsThread.slot ++ [i]).Nodup
          rw [← hslot]
          exact h.held_nodup
        · show ∀ j, s.buse j = true ↔ j ∈ s.threads.map NsThread.slot ++ [i]
          rw [← hslot]
          exact h.buse
    · have hp : page = true := hpage.mpr ht
      rw [hp, if_pos rfl, NsSys.receive, if_neg ht, if_neg (not_not.mpr rfl)] at hs
      cases hs
      have hid : (s.requests ++ [(NsReq.decode reqno, whom)]).length - 1 = s.requests.length := by
        simp
      simp only [hid]
      exact h.request hm hsock ht
  · cases hs

theorem timerSent {gone : Bool} (hc : NsCond (.timerSent gone))
    (hs : s.step timerEnvid (.timerSent gone) = some s') : NsInv s' := by
  have hgone : gone = false := hc
  subst hgone
  simp only [NsSys.step] at hs
  split at hs
  · next i hm =>
    rw [if_neg nofun] at hs
    cases hs
    exact h.putMain (by rw [NsSys.mainSlot, hm])
  · cases hs

theorem eq_of_id {x : NsThread} (ht : t ∈ s.threads) (hx : x ∈ s.threads) (hid : x.id = t.id) :
    x.req = t.req ∧ x.whom = t.whom := by
  have := (h.known x hx).symm.trans (hid ▸ h.known t ht)
  simpa using this

theorem serve (ht : t ∈ s.threads) (hr : t.r = none) (ret : ℤ) : NsInv (s.serve t ret) := by
  have hcodes := h.codes _ (List.mem_of_getElem? (h.known t ht))
  have hmem : ∀ x ∈ (s.serve t ret).threads, ∃ y ∈ s.threads, x.id = y.id ∧ x.req = y.req ∧
      x.whom = y.whom ∧ x.slot = y.slot ∧
        (y.id = t.id ∧ x.r = some (t.req.serve ret).1 ∨ y.id ≠ t.id ∧ x.r = y.r) := by
    intro x hx
    obtain ⟨y, hy, rfl⟩ := List.mem_map.mp hx
    refine ⟨y, hy, ?_⟩
    split
    · next hid => exact ⟨rfl, rfl, rfl, rfl, .inl ⟨hid, rfl⟩⟩
    · next hid => exact ⟨rfl, rfl, rfl, rfl, .inr ⟨hid, rfl⟩⟩
  have hmap : ∀ {α : Type} (f : NsThread → α), (∀ x r, f { x with r := r } = f x) →
      (s.serve t ret).threads.map f = s.threads.map f := by
    intro α f hf
    show (s.threads.map _).map f = _
    rw [List.map_map]
    refine List.map_congr_left fun x _ => ?_
    show f (if x.id = t.id then _ else x) = f x
    split
    · exact hf x _
    · rfl
  have hslots : (s.serve t ret).held = s.held := by
    show (s.serve t ret).threads.map NsThread.slot ++ s.mainSlot = _
    rw [hmap _ fun _ _ => rfl]
    rfl
  -- what the calls of the other requests returned
  have hother : ∀ id, id ≠ t.id →
      (s.serve t ret).returned.filter (·.1 = id) = s.returned.filter (·.1 = id) := by
    intro id hid
    show (match t.req with | .call c => (t.id, c, ret) :: s.returned | _ => s.returned).filter _ = _
    split
    · rw [List.filter_cons_of_neg (by simpa using hid.symm)]
    · rfl
  have hanswer : ∀ id req r, id ≠ t.id → s.Answer id req r → (s.serve t ret).Answer id req r := by
    intro id req r hid ha
    unfold NsSys.Answer at ha ⊢
    rw [hother id hid]
    exact ha
  have hself : (s.serve t ret).Answer t.id t.req (t.req.serve ret).1 := by
    have hnone : s.returned.filter (·.1 = t.id) = [] := by
      rw [List.filter_eq_nil_iff]
      intro x hx
      simpa using h.running t ht hr x hx
    cases hq : t.req with
    | call c =>
      have hc : c ≠ .socket := fun hc => hcodes.1 (by rw [hq, hc])
      have hret : ((NsReq.call c).serve ret).1 = ret := by
        cases c <;> first | rfl | exact absurd rfl hc
      show (s.serve t ret).returned.filter (·.1 = t.id) = [(t.id, c, _)]
      rw [hret]
      show (match t.req with | .call c => (t.id, c, ret) :: s.returned | _ => s.returned).filter _ = _
      rw [hq]
      simp only
      rw [List.filter_cons_of_pos (by simp), hnone]
    | input => trivial
    | timer => exact absurd hq hcodes.2
    | invalid code => rfl
  constructor
  · rw [hslots]
    exact h.held_nodup
  · rw [hslots]
    exact h.buse
  · rw [hmap _ fun _ _ => rfl]
    exact h.ids
  · intro x hx
    obtain ⟨y, hy, hid, hreq, hwhom, -, -⟩ := hmem x hx
    rw [hid, hreq, hwhom]
    exact h.known y hy
  · exact h.codes
  · intro x hx hxr z hz
    obtain ⟨y, hy, hid, -, -, -, ⟨-, hr'⟩ | ⟨hne, hr'⟩⟩ := hmem x hx
    · rw [hr'] at hxr
      cases hxr
    · rw [hid]
      intro hzy
      have hz' : z ∈ (s.serve t ret).returned.filter (·.1 = y.id) :=
        List.mem_filter.mpr ⟨hz, by simpa using hzy⟩
      rw [hother _ hne] at hz'
      exact h.running y hy (hr' ▸ hxr) z (List.mem_filter.mp hz').1 hzy
  · intro x hx r hxr
    obtain ⟨y, hy, hid, hreq, -, -, ⟨hyt, hr'⟩ | ⟨hne, hr'⟩⟩ := hmem x hx
    · rw [hr'] at hxr
      cases hxr
      rw [hid, hreq, hyt, (h.eq_of_id ht hy hyt).1]
      exact hself
    · rw [hid, hreq]
      exact hanswer _ _ _ hne (h.results y hy r (hr' ▸ hxr))
  · intro x hx z hz
    obtain ⟨y, hy, hid, -⟩ := hmem x hx
    rw [hid]
    exact h.silent y hy z hz
  · refine ⟨h.past.1, fun x hx => ?_⟩
    have hx : x ∈ (match t.req with | .call c => (t.id, c, ret) :: s.returned | _ => s.returned) := hx
    have hlt : t.id < s.requests.length := (List.getElem?_eq_some_iff.mp (h.known t ht)).1
    split at hx
    · rcases List.mem_cons.mp hx with rfl | hx
      · exact hlt
      · exact h.past.2 x hx
    · exact h.past.2 x hx
  · intro id req whom hreq hne hnone
    have hnone' : ∀ y ∈ s.threads, y.id ≠ id := by
      intro y hy hid
      have hy' : (if y.id = t.id then { y with r := some (t.req.serve ret).1 } else y) ∈
          (s.serve t ret).threads := List.mem_map_of_mem hy
      refine hnone _ hy' ?_
      split
      · exact hid
      · exact hid
    obtain ⟨r, hrep, ha⟩ := h.answered id req whom hreq hne hnone'
    exact ⟨r, hrep, hanswer _ _ _ (hnone' t ht).symm ha⟩
  · intro id hid
    have hid : id ∈ if (t.req.serve ret).2 then t.id :: s.inputs else s.inputs := hid
    split at hid
    · next hin =>
      rcases List.mem_cons.mp hid with rfl | hid
      · -- only two cases of the switch reach `jif_input`
        have hq : t.req = .input := by
          cases hq : t.req with
          | call c =>
            rw [hq] at hin hcodes
            cases c <;> first | exact absurd rfl hcodes.1 | cases hin
          | input => rfl
          | timer => exact absurd hq hcodes.2
          | invalid code =>
            rw [hq] at hin
            cases hin
        exact ⟨t.whom, hq ▸ h.known t ht⟩
      · exact h.inputs id hid
    · exact h.inputs id hid
  · intro hm
    have hlen := congrArg List.length (hmap (fun _ => ()) fun _ _ => rfl)
    rw [List.length_map, List.length_map] at hlen
    rw [hlen]
    exact h.full hm

theorem finish (ht : t ∈ s.threads) {r : ℤ} (hr : t.r = some r) (hm : s.main ≠ .panic "NS: buffer overflow") :
    NsInv (s.finish t r) := by
  have hmem : ∀ x, x ∈ (s.finish t r).threads ↔ x ∈ s.threads ∧ x.id ≠ t.id := by
    intro x
    show x ∈ s.threads.filter _ ↔ _
    rw [List.mem_filter]
    simp
  have hself : ∀ x ∈ s.threads, x.id = t.id → x = t := fun x hx hid =>
    List.inj_on_of_nodup_map h.ids hx ht hid
  have hsub : (s.finish t r).held.Sublist s.held :=
    (List.Sublist.map _ List.filter_sublist).append (List.Sublist.refl _)
  have hslot : ∀ x ∈ s.threads, x.slot = t.slot → x = t := fun x hx hxs =>
    List.inj_on_of_nodup_map (List.nodup_append.mp h.held_nodup).1 hx ht hxs
  have hreplies : ∀ id, id ≠ t.id →
      (s.finish t r).replies.filter (·.1 = id) = s.replies.filter (·.1 = id) := by
    intro id hid
    show (if t.req ≠ .input then (t.id, t.whom, r) :: s.replies else s.replies).filter _ = _
    split
    · rw [List.filter_cons_of_neg (by simpa using hid.symm)]
    · rfl
  have hcons : ∀ x, x ∈ (s.finish t r).replies → x.1 = t.id ∨ x ∈ s.replies := by
    intro x hx
    have hx : x ∈ if t.req ≠ .input then (t.id, t.whom, r) :: s.replies else s.replies := hx
    split at hx
    · rcases List.mem_cons.mp hx with rfl | hx
      · exact .inl rfl
      · exact .inr hx
    · exact .inr hx
  constructor
  · exact h.held_nodup.sublist hsub
  · intro j
    show update s.buse t.slot false j = true ↔ j ∈ (s.finish t r).held
    have hheld : j ∈ (s.finish t r).held ↔ j ∈ s.held ∧ j ≠ t.slot := by
      constructor
      · intro hj
        refine ⟨hsub.subset hj, ?_⟩
        rintro rfl
        rcases List.mem_append.mp hj with hj | hj
        · obtain ⟨x, hx, hxs⟩ := List.mem_map.mp hj
          obtain ⟨hx, hne⟩ := (hmem x).mp hx
          exact hne (congrArg NsThread.id (hslot x hx hxs))
        · exact (List.nodup_append.mp h.held_nodup).2.2 _ (List.mem_map_of_mem ht) _ hj rfl
      · rintro ⟨hj, hne⟩
        rcases List.mem_append.mp hj with hj | hj
        · obtain ⟨x, hx, rfl⟩ := List.mem_map.mp hj
          have hx' : x ∈ (s.finish t r).threads :=
            (hmem x).mpr ⟨hx, fun hid => hne (by rw [hself x hx hid])⟩
          exact List.mem_append_left _ (List.mem_map_of_mem hx')
        · exact List.mem_append_right _ hj
    rw [hheld]
    by_cases hj : j = t.slot
    · subst hj
      rw [update_self]
      exact iff_of_false nofun fun hh => hh.2 rfl
    · rw [update_of_ne hj, h.buse j]
      exact ⟨fun hh => ⟨hh, hj⟩, fun hh => hh.1⟩
  · exact h.ids.sublist (List.Sublist.map _ List.filter_sublist)
  · exact fun x hx => h.known x ((hmem x).mp hx).1
  · exact h.codes
  · exact fun x hx => h.running x ((hmem x).mp hx).1
  · exact fun x hx => h.results x ((hmem x).mp hx).1
  · intro x hx z hz
    obtain ⟨hx, hne⟩ := (hmem x).mp hx
    rcases hcons z hz with hz | hz
    · rw [hz]
      exact hne.symm
    · exact h.silent x hx z hz
  · refine ⟨fun x hx => ?_, h.past.2⟩
    rcases hcons x hx with hx | hx
    · rw [hx]
      exact (List.getElem?_eq_some_iff.mp (h.known t ht)).1
    · exact h.past.1 x hx
  · intro id req whom hreq hne hnone
    by_cases hid : id = t.id
    · subst hid
      obtain ⟨rfl, rfl⟩ : t.req = req ∧ t.whom = whom := by
        simpa using (h.known t ht).symm.trans hreq
      have hold : s.replies.filter (·.1 = t.id) = [] := by
        rw [List.filter_eq_nil_iff]
        intro x hx
        simpa using h.silent t ht x hx
      refine ⟨r, ?_, h.results t ht r hr⟩
      show (if t.req ≠ .input then (t.id, t.whom, r) :: s.replies else s.replies).filter _ = _
      rw [if_pos hne, List.filter_cons_of_pos (by simp), hold]
    · rw [hreplies id hid]
      refine h.answered id req whom hreq hne fun x hx hxid => ?_
      exact hnone x ((hmem x).mpr ⟨hx, hxid.trans_ne hid⟩) hxid
  · exact h.inputs
  · exact fun hp => absurd hp hm

theorem step {e : NsEvent} (hc : NsCond e) (hs : s.step timerEnvid e = some s') : NsInv s' := by
  cases e with
  | loop => exact h.loop hs
  | msg reqno whom page mem => exact h.msg hc hs
  | timerSent gone => exact h.timerSent hc hs
  | call id ret =>
    simp only [NsSys.step] at hs
    split at hs
    · next t _ hfind =>
      obtain ⟨hr, rfl⟩ := Sys.guard_eq hs
      exact h.serve (List.mem_of_find?_eq_some hfind) hr ret
    · cases hs
  | reply id gone =>
    have hgone : gone = false := hc
    subst hgone
    simp only [NsSys.step] at hs
    split at hs
    · next t hyields hfind =>
      split at hs
      · cases hs
      · next r hr =>
        rw [if_neg fun hh => nomatch hh.2] at hs
        cases hs
        refine h.finish (List.mem_of_find?_eq_some hfind) hr fun hm => ?_
        rw [NsSys.yields, hm] at hyields
        cases hyields
    · cases hs

end

end NsInv

/-! ### Service -/

/-- While requests other than `NSREQ_TIMER` come with a page, none is
`NSREQ_SOCKET`, memory suffices and the clients stay: a request in service has
no reply; one that is not `NSREQ_INPUT` and no longer in service has one reply,
with what the lwIP call it names returned; `jif_input` runs for `NSREQ_INPUT`
only; the buffers in use are those of the requests in service and of the main
thread; and while fewer than `QUEUE_SIZE` requests are in service there is a
buffer for the main thread. -/
theorem requests_served (timerEnvid : ℕ) {s : NsSys}
    (h : Sys.Reach (NsSys.step timerEnvid) (fun _ e => NsCond e) NsSys.init s) :
    (∀ t ∈ s.threads, s.replies.filter (·.1 = t.id) = []) ∧
    (∀ id req whom, s.requests[id]? = some (req, whom) → req ≠ .input →
      (∀ t ∈ s.threads, t.id ≠ id) →
        ∃ r, s.replies.filter (·.1 = id) = [(id, whom, r)] ∧ s.Answer id req r) ∧
    (∀ id ∈ s.inputs, ∃ whom, s.requests[id]? = some (.input, whom)) ∧
    (Finset.univ.filter fun i => s.buse i = true).card = s.threads.length + s.mainSlot.length ∧
    (s.threads.length < queueSize → s.main ≠ .panic "NS: buffer overflow" ∧
      (s.main = .top → ∃ i s', s.step timerEnvid .loop = some s' ∧ s'.main = .recv i)) := by
  have hi : NsInv s := h.inv .init fun _ _ _ hi hc hs => hi.step hc hs
  refine ⟨?_, hi.answered, hi.inputs, ?_, fun hlt => ⟨?_, ?_⟩⟩
  · intro t ht
    rw [List.filter_eq_nil_iff]
    intro x hx
    simpa using hi.silent t ht x hx
  · rw [hi.card_buse, NsSys.held, List.length_append, List.length_map]
  · intro hm
    have hfull := hi.full hm
    omega
  · intro hm
    cases hbuf : s.getBuffer with
    | some i =>
      refine ⟨i, { s with buse := update s.buse i true, main := .recv i }, ?_, rfl⟩
      simp only [NsSys.step, hm, hbuf]
    | none =>
      -- the next state would be the panic, with all buffers in use
      have hs : s.step timerEnvid .loop = some { s with main := .panic "NS: buffer overflow" } := by
        simp only [NsSys.step, hm, hbuf]
      have hfull := (hi.loop hs).full rfl
      exact absurd hlt (by show ¬ s.threads.length < queueSize; rw [hfull]; exact lt_irrefl _)

/-- A client calls `listen`, and gets what `lwip_listen` returned. -/
theorem requests_served_listen : ∃ s : NsSys,
    (s.requests = [(.call .listen, 7)] ∧ s.threads = []) ∧
      ∃ r, s.replies.filter (·.1 = 0) = [(0, 7, r)] ∧ s.Answer 0 (.call .listen) r := by
  have hok : Sys.AllOk (NsSys.step 9) (fun _ e => NsCond e)
      [.loop, .msg 6 7 true .enough, .call 0 3, .reply 0 false] NsSys.init := by
    decide +kernel
  obtain ⟨s, hs, hreq, hthreads⟩ := Sys.exists_reach_of (P := fun s => s.requests = [(.call .listen, 7)] ∧
      s.threads = []) hok (by decide +kernel)
  refine ⟨s, ⟨hreq, hthreads⟩, (requests_served 9 hs).2.1 0 _ 7 ?_ nofun ?_⟩
  · rw [hreq]
    rfl
  · rw [hthreads]
    exact nofun

/-- `NSREQ_SOCKET` runs on into the case of `NSREQ_INPUT`: `lwip_socket` returned
5, `jif_input` was called and the client got 0.  And a message without a page
keeps its buffer: behind 20 of them the server panics, with no request in
service. -/
theorem server_mishandles :
    (∃ s, Sys.Reach (NsSys.step 9) (fun _ _ => True) NsSys.init s ∧
      s.requests = [(.call .socket, 7)] ∧ s.returned = [(0, .socket, 5)] ∧
        s.replies = [(0, 7, 0)] ∧ s.inputs = [0]) ∧
    ∃ s, Sys.Reach (NsSys.step 9) (fun _ _ => True) NsSys.init s ∧
      s.requests = [] ∧ s.threads = [] ∧ s.main = .panic "NS: buffer overflow" := by
  constructor
  · exact Sys.exists_reach_of (Sys.allOk_true [.loop, .msg 9 7 true .enough, .call 0 5, .reply 0 false] _)
        (by decide +kernel)
  · exact Sys.exists_reach_of (Sys.allOk_true ((List.replicate 20 [NsEvent.loop, .msg 2 7 false
        .enough]).flatten ++ [.loop]) _) (by decide +kernel)

end Jos
