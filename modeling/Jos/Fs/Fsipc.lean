/-
File system calls over IPC: `fsipc` of lib/file.c, `ipc_send` and `ipc_recv` of
lib/ipc.c, and the loop `serve` of fs/serv.c.

A client `c` sends a request to the file server `f` and then waits for a
message, from anybody.  Other environments send and receive as they like.  The
kernel knows the fields `env_ipc_*` of every environment and what it has
mapped for it.

* `fsipc_answered` — what `fsipc` returns is the answer to its request, as long
  as nobody else sends to the client while it waits;
* `fsipc_confused` — otherwise the client takes the message of a third party for
  the answer.
-/
import Jos.Fs.OpenFile
import Mathlib.Data.List.Nodup

namespace Jos

open Function Demo

/-! ### The kernel -/

/-- The fields `env_ipc_*` of an environment; `ipcDstva` is nothing for
addresses from `UTOP` on.  `call` goes with the messages between client and
server and says to which call of `fsipc` they belong; no code looks at it. -/
structure IpcEnv where
  ipcRecving : Bool
  ipcDstva : Option ℕ
  ipcValue : ℤ
  ipcFrom : ℕ
  ipcPerm : Bool
  call : ℕ

/-- Where the client is: outside of `fsipc`, in `ipc_send`, between the two, or
in `ipc_recv`. -/
inductive FsipcPc where
  | idle
  | send (type : ℤ) (dstva : Option ℕ)
  | recv (dstva : Option ℕ)
  | wait (dstva : Option ℕ)
  | panic
  deriving DecidableEq

/-- Where the server is: in `ipc_recv` or behind it, or in `ipc_send`. -/
inductive ServePc where
  | recv
  | reply (whom : ℕ) (r : ℤ) (pg : Option ℕ) (call : ℕ)
  | panic
  deriving DecidableEq

/-- What the server answers to a request of the client. -/
structure FsAnswer where
  call : ℕ
  type : ℤ
  r : ℤ
  pg : Option ℕ
  deriving DecidableEq

/-- What a call of `fsipc` returns, and what is mapped at `dstva` then. -/
structure FsReturn where
  call : ℕ
  value : ℤ
  page : Option ℕ
  deriving DecidableEq

/-- The environments, and what has happened: the calls of `fsipc`, what the
server answered to the client, and what the calls returned. -/
structure FsSys where
  env : ℕ → IpcEnv
  mapped : ℕ → ℕ → Option ℕ
  client : FsipcPc
  server : ServePc
  asked : List (ℤ × Option ℕ)
  answers : List FsAnswer
  returned : List FsReturn

namespace FsSys

/-- `sys_ipc_try_send`, with page `pg` if there is one; nothing for
`-E_IPC_NOT_RECV`. -/
def sysIpcTrySend (s : FsSys) (src dst : ℕ) (value : ℤ) (pg : Option ℕ) (call : ℕ) :
    Option FsSys :=
  let d := s.env dst
  if d.ipcRecving then
    some { s with
      env := update s.env dst
        { d with
          ipcRecving := false
          ipcValue := value
          ipcFrom := src
          ipcPerm := d.ipcDstva.isSome && pg.isSome
          call := call }
      mapped := match d.ipcDstva, pg with
        | some va, some p => update s.mapped dst (update (s.mapped dst) va (some p))
        | _, _ => s.mapped }
  else none

def sysIpcRecv (s : FsSys) (e : ℕ) (dstva : Option ℕ) : FsSys :=
  { s with env := update s.env e { s.env e with ipcRecving := true, ipcDstva := dstva } }

/-! ### The programs -/

/-- The number of the current call. -/
def current (s : FsSys) : ℕ := s.asked.length - 1

/-- The next step of `fsipc`, which sends the page `buf`; `fail` says that
`sys_ipc_try_send` has failed otherwise than by `-E_IPC_NOT_RECV`. -/
def runClient (c f buf : ℕ) (s : FsSys) (fail : Bool) : Option FsSys :=
  match s.client with
  | .idle => none
  | .send type dstva =>
    if fail then some { s with client := .panic }
    else
      match s.sysIpcTrySend c f type (some buf) s.current with
      | none => some s
      | some s' => some { s' with client := .recv dstva }
  | .recv dstva => some { s.sysIpcRecv c dstva with client := .wait dstva }
  | .wait dstva =>
    if (s.env c).ipcRecving then none
    else some { s with
      client := .idle
      returned := ⟨s.current, (s.env c).ipcValue, dstva.bind (s.mapped c)⟩ :: s.returned }
  | .panic => none

/-- The next step of `serve`; the handlers return `r`, and `pg` for a page. -/
def runServer (c f : ℕ) (s : FsSys) (r : ℤ) (pg : Option ℕ) (fail : Bool) : Option FsSys :=
  match s.server with
  | .recv =>
    let m := s.env f
    if m.ipcRecving then none
    else if m.ipcPerm = false then some (s.sysIpcRecv f (some fsreq))
    else some { s with
      server := .reply m.ipcFrom r pg m.call
      answers := if m.ipcFrom = c then ⟨m.call, m.ipcValue, r, pg⟩ :: s.answers else s.answers }
  | .reply whom r pg call =>
    if fail then some { s with server := .panic }
    else
      match s.sysIpcTrySend f whom r pg call with
      | none => some s
      | some s' =>
        some (sysIpcRecv
          { s' with
            server := .recv
            mapped := update s'.mapped f (update (s'.mapped f) fsreq none) }
          f (some fsreq))
  | .panic => none

end FsSys

/-- What happens: the client calls `fsipc`; client or server go on; another
environment receives or sends. -/
inductive FsEvent where
  | call (type : ℤ) (dstva : Option ℕ)
  | client (fail : Bool)
  | server (r : ℤ) (pg : Option ℕ) (fail : Bool)
  | recv (e : ℕ) (dstva : Option ℕ)
  | send (e dst : ℕ) (value : ℤ) (pg : Option ℕ)

def FsSys.step (c f buf : ℕ) (s : FsSys) : FsEvent → Option FsSys
  | .call type dstva =>
    if s.client = .idle then
      some { s with client := .send type dstva, asked := s.asked ++ [(type, dstva)] }
    else none
  | .client fail => s.runClient c f buf fail
  | .server r pg fail => s.runServer c f r pg fail
  | .recv e dstva => if e = c ∨ e = f then none else some (s.sysIpcRecv e dstva)
  | .send e dst value pg =>
    if e = c ∨ e = f then none else some ((s.sysIpcTrySend e dst value pg 0).getD s)

/-- Nobody but the server sends to the client while it waits. -/
def FsCond (c : ℕ) (s : FsSys) : FsEvent → Prop
  | .send _ dst _ _ => dst = c → (s.env c).ipcRecving = false
  | _ => True

instance (c : ℕ) (s : FsSys) : DecidablePred (FsCond c s)
  | .send _ dst _ _ => inferInstanceAs (Decidable (dst = c → (s.env c).ipcRecving = false))
  | .call _ _ => inferInstanceAs (Decidable True)
  | .client _ => inferInstanceAs (Decidable True)
  | .server _ _ _ => inferInstanceAs (Decidable True)
  | .recv _ _ => inferInstanceAs (Decidable True)

/-- Before the first call: the server waits for requests. -/
structure FsSys.Start (c f : ℕ) (s : FsSys) : Prop where
  client : s.client = .idle
  server : s.server = .recv
  recving : (s.env c).ipcRecving = false
  serving : (s.env f).ipcRecving = true
  dstva : (s.env f).ipcDstva = some fsreq
  asked : s.asked = []
  answers : s.answers = []
  returned : s.returned = []

/-! ### The invariant -/

namespace FsSys

variable (c f : ℕ)

/-- The server has no request of the client. -/
def Quiet (s : FsSys) : Prop :=
  (s.server = .recv → (s.env f).ipcRecving = false → (s.env f).ipcFrom ≠ c) ∧
    ∀ r pg call, s.server ≠ .reply c r pg call

/-- The server has the request of call `k`: it has not looked at it yet, or it
is about to send the answer; or it has stopped. -/
def Serving (s : FsSys) (k : ℕ) (type : ℤ) : Prop :=
  (s.server = .recv ∧ (s.env f).ipcRecving = false ∧ (s.env f).ipcFrom = c ∧
    (s.env f).call = k ∧ (s.env f).ipcValue = type ∧ (s.env f).ipcPerm = true ∧
      ∀ x ∈ s.answers, x.call ≠ k) ∨
  (∃ r pg, s.server = .reply c r pg k ∧ ⟨k, type, r, pg⟩ ∈ s.answers) ∨
  s.server = .panic

/-- The client has got the answer to call `k`. -/
def Answered (s : FsSys) (k : ℕ) (type : ℤ) (dstva : Option ℕ) : Prop :=
  ∃ pg, ⟨k, type, (s.env c).ipcValue, pg⟩ ∈ s.answers ∧
    ∀ va p, dstva = some va → pg = some p → s.mapped c va = some p

/-- Where the current request is, by where the client is. -/
def Phase (s : FsSys) : Prop :=
  match s.client with
  | .idle => s.Quiet c f ∧ (s.env c).ipcRecving = false
  | .send type dstva => s.Quiet c f ∧ (s.env c).ipcRecving = false ∧
      s.asked[s.current]? = some (type, dstva) ∧ ∀ x ∈ s.answers, x.call ≠ s.current
  | .recv dstva => (s.env c).ipcRecving = false ∧
      ∃ type, s.asked[s.current]? = some (type, dstva) ∧ s.Serving c f s.current type
  | .wait dstva => (s.env c).ipcDstva = dstva ∧
      ∃ type, s.asked[s.current]? = some (type, dstva) ∧
        if (s.env c).ipcRecving then s.Serving c f s.current type
        else s.Quiet c f ∧ s.Answered c s.current type dstva
  | .panic => s.Quiet c f ∧ (s.env c).ipcRecving = false

end FsSys

structure FsInv (c f : ℕ) (s : FsSys) : Prop where
  serving : (s.env f).ipcRecving = true → s.server = .recv ∧ (s.env f).ipcDstva = some fsreq
  phase : s.Phase c f
  known : ∀ x ∈ s.answers, x.call < s.asked.length
  once : (s.answers.map (·.call)).Nodup
  results : ∀ x ∈ s.returned, ∃ type dstva pg, s.asked[x.call]? = some (type, dstva) ∧
    ⟨x.call, type, x.value, pg⟩ ∈ s.answers ∧
      ∀ va p, dstva = some va → pg = some p → x.page = some p

namespace FsInv

variable {c f buf : ℕ} {s s' : FsSys}

theorem of_start (h : s.Start c f) : FsInv c f s := by
  refine ⟨fun _ => ⟨h.server, h.dstva⟩, ?_, ?_, ?_, ?_⟩
  · rw [FsSys.Phase, h.client]
    refine ⟨⟨fun _ hr => ?_, fun r pg call hs => ?_⟩, h.recving⟩
    · rw [h.serving] at hr
      cases hr
    · rw [h.server] at hs
      cases hs
  · rw [h.answers]
    exact nofun
  · rw [h.answers]
    exact .nil
  · rw [h.returned]
    exact nofun

/-- What a message changes. -/
structure Sent (src dst : ℕ) (value : ℤ) (pg : Option ℕ) (call : ℕ) (s s' : FsSys) : Prop where
  recving : (s.env dst).ipcRecving = true
  env : s'.env = update s.env dst
    { s.env dst with
      ipcRecving := false
      ipcValue := value
      ipcFrom := src
      ipcPerm := (s.env dst).ipcDstva.isSome && pg.isSome
      call := call }
  others : ∀ e ≠ dst, s'.mapped e = s.mapped e
  page : ∀ va p, (s.env dst).ipcDstva = some va → pg = some p → s'.mapped dst va = some p
  client : s'.client = s.client
  server : s'.server = s.server
  asked : s'.asked = s.asked
  answers : s'.answers = s.answers
  returned : s'.returned = s.returned

theorem Sent.self {src dst call : ℕ} {value : ℤ} {pg : Option ℕ}
    (h : Sent src dst value pg call s s') :
    s'.env dst = { s.env dst with
      ipcRecving := false
      ipcValue := value
      ipcFrom := src
      ipcPerm := (s.env dst).ipcDstva.isSome && pg.isSome
      call := call } := by
  rw [h.env, update_self]

theorem Sent.other {src dst call e : ℕ} {value : ℤ} {pg : Option ℕ}
    (h : Sent src dst value pg call s s') (he : e ≠ dst) : s'.env e = s.env e := by
  rw [h.env, update_of_ne he]

theorem sent_of_trySend {src dst call : ℕ} {value : ℤ} {pg : Option ℕ}
    (h : s.sysIpcTrySend src dst value pg call = some s') : Sent src dst value pg call s s' := by
  obtain ⟨hrecv, rfl⟩ := Sys.guard_eq h
  refine ⟨hrecv, rfl, fun e he => ?_, fun va p hva hp => ?_, rfl, rfl, rfl, rfl, rfl⟩
  · cases hd : (s.env dst).ipcDstva with
    | none => simp only
    | some va =>
      cases pg with
      | none => simp only
      | some p => simp only [update_of_ne he]
  · simp only [hva, hp, update_self]

/-- A message is not recorded. -/
theorem records_sent {src dst call : ℕ} {value : ℤ} {pg : Option ℕ} (h : FsInv c f s)
    (hsent : Sent src dst value pg call s s') :
    (∀ x ∈ s'.answers, x.call < s'.asked.length) ∧ (s'.answers.map (·.call)).Nodup ∧
      ∀ x ∈ s'.returned, ∃ type dstva pg, s'.asked[x.call]? = some (type, dstva) ∧
        ⟨x.call, type, x.value, pg⟩ ∈ s'.answers ∧
          ∀ va p, dstva = some va → pg = some p → x.page = some p := by
  rw [hsent.answers, hsent.asked, hsent.returned]
  exact ⟨h.known, h.once, h.results⟩

theorem quiet_congr (h : s.Quiet c f) (hf : s'.env f = s.env f) (hserver : s'.server = s.server) :
    s'.Quiet c f := by
  unfold FsSys.Quiet at *
  rw [hf, hserver]
  exact h

theorem serving_congr {k : ℕ} {type : ℤ} (h : s.Serving c f k type) (hf : s'.env f = s.env f)
    (hserver : s'.server = s.server) (hanswers : s'.answers = s.answers) :
    s'.Serving c f k type := by
  unfold FsSys.Serving at *
  rw [hf, hserver, hanswers]
  exact h

theorem phase_of (h : s.Phase c f) (hc : s'.env c = s.env c) (hm : s'.mapped c = s.mapped c)
    (hclient : s'.client = s.client) (hasked : s'.asked = s.asked)
    (hquiet : s.Quiet c f → s'.Quiet c f ∧ s'.answers = s.answers)
    (hserving : ∀ type, s.Serving c f s.current type → s'.Serving c f s.current type) :
    s'.Phase c f := by
  have hcur : s'.current = s.current := by rw [FsSys.current, hasked, FsSys.current]
  unfold FsSys.Phase at h ⊢
  rw [hclient, hc, hasked, hcur]
  cases hpc : s.client with
  | idle =>
    rw [hpc] at h
    exact ⟨(hquiet h.1).1, h.2⟩
  | send type dstva =>
    rw [hpc] at h
    obtain ⟨hq, hrecv, hask, hfresh⟩ := h
    refine ⟨(hquiet hq).1, hrecv, hask, ?_⟩
    rw [(hquiet hq).2]
    exact hfresh
  | recv dstva =>
    rw [hpc] at h
    obtain ⟨hrecv, type, hask, hserv⟩ := h
    exact ⟨hrecv, type, hask, hserving type hserv⟩
  | wait dstva =>
    rw [hpc] at h
    obtain ⟨hdst, type, hask, h⟩ := h
    refine ⟨hdst, type, hask, ?_⟩
    by_cases hrecv : (s.env c).ipcRecving = true
    · rw [if_pos hrecv] at h ⊢
      exact hserving type h
    · rw [if_neg hrecv] at h ⊢
      refine ⟨(hquiet h.1).1, ?_⟩
      unfold FsSys.Answered at h ⊢
      rw [hc, hm, (hquiet h.1).2]
      exact h.2
  | panic =>
    rw [hpc] at h
    exact ⟨(hquiet h.1).1, h.2⟩

theorem phase_answered {type : ℤ} {dstva : Option ℕ} (hclient : s.client = .wait dstva)
    (hdst : (s.env c).ipcDstva = dstva) (hask : s.asked[s.current]? = some (type, dstva))
    (hr : (s.env c).ipcRecving = false) (hquiet : s.Quiet c f)
    (hans : s.Answered c s.current type dstva) : s.Phase c f := by
  unfold FsSys.Phase
  rw [hclient]
  refine ⟨hdst, type, hask, ?_⟩
  rw [hr]
  exact ⟨hquiet, hans⟩

theorem call (h : FsInv c f s) {type : ℤ} {dstva : Option ℕ} (hidle : s.client = .idle) :
    FsInv c f { s with client := .send type dstva, asked := s.asked ++ [(type, dstva)] } := by
  have hphase := h.phase
  rw [FsSys.Phase, hidle] at hphase
  have hcur : (s.asked ++ [(type, dstva)]).length - 1 = s.asked.length := by simp
  have hlen : s.asked.length ≤ (s.asked ++ [(type, dstva)]).length := by simp
  refine ⟨h.serving, ⟨hphase.1, hphase.2, ?_, fun x hx => ?_⟩, fun x hx => (h.known x hx).trans_le hlen,
    h.once, fun x hx => ?_⟩
  · show (s.asked ++ [(type, dstva)])[(s.asked ++ [(type, dstva)]).length - 1]? = _
    rw [hcur, List.getElem?_append_right (le_refl _), Nat.sub_self]
    rfl
  · show x.call ≠ (s.asked ++ [(type, dstva)]).length - 1
    rw [hcur]
    exact (h.known x hx).ne
  · obtain ⟨t, d, pg, hask, hans, hpage⟩ := h.results x hx
    refine ⟨t, d, pg, ?_, hans, hpage⟩
    show (s.asked ++ [(type, dstva)])[x.call]? = _
    rw [List.getElem?_append_left (List.getElem?_eq_some_iff.mp hask).1, hask]

theorem runClient (h : FsInv c f s) (hcf : c ≠ f) {fail : Bool}
    (hs : s.runClient c f buf fail = some s') : FsInv c f s' := by
  have hphase := h.phase
  unfold FsSys.Phase at hphase
  unfold FsSys.runClient at hs
  split at hs
  · cases hs
  · next type dstva hpc =>
    rw [hpc] at hphase
    obtain ⟨hquiet, hrecv, hask, hfresh⟩ := hphase
    split at hs
    · cases hs
      exact ⟨h.serving, ⟨hquiet, hrecv⟩, h.known, h.once, h.results⟩
    split at hs
    · cases hs
      exact h
    · next t ht =>
      cases hs
      have hsent := sent_of_trySend ht
      obtain ⟨hpcf, hdst⟩ := h.serving hsent.recving
      have hself := hsent.self
      have hclient : t.env c = s.env c := hsent.other hcf
      obtain ⟨hknown, honce, hresults⟩ := h.records_sent hsent
      refine ⟨fun hr => ?_, ⟨?_, type, ?_, .inl ?_⟩, hknown, honce, hresults⟩
      · have hr : (t.env f).ipcRecving = true := hr
        rw [hself] at hr
        cases hr
      · show (t.env c).ipcRecving = false
        rw [hclient, hrecv]
      · show t.asked[t.asked.length - 1]? = _
        rw [hsent.asked]
        exact hask
      · show t.server = _ ∧ (t.env f).ipcRecving = _ ∧ (t.env f).ipcFrom = _ ∧
          (t.env f).call = t.asked.length - 1 ∧ (t.env f).ipcValue = _ ∧ (t.env f).ipcPerm = _ ∧
            ∀ x ∈ t.answers, x.call ≠ t.asked.length - 1
        rw [hself, hsent.server, hsent.asked, hsent.answers, hdst]
        exact ⟨hpcf, rfl, rfl, rfl, rfl, rfl, hfresh⟩
  · next dstva hpc =>
    rw [hpc] at hphase
    obtain ⟨hrecv, type, hask, hserv⟩ := hphase
    cases hs
    have hf : update s.env c { s.env c with ipcRecving := true, ipcDstva := dstva } f =
        s.env f := update_of_ne hcf.symm _ _
    refine ⟨fun hr => ?_, ⟨?_, type, hask, ?_⟩, h.known, h.once, h.results⟩
    · show s.server = _ ∧ (update s.env c _ f).ipcDstva = _
      have hr : (update s.env c _ f).ipcRecving = true := hr
      rw [hf] at hr ⊢
      exact h.serving hr
    · show (update s.env c _ c).ipcDstva = _
      rw [update_self]
    · show if (update s.env c _ c).ipcRecving then _ else _
      rw [update_self, if_pos rfl]
      exact serving_congr hserv hf rfl rfl
  · next dstva hpc =>
    rw [hpc] at hphase
    obtain ⟨-, type, hask, hphase⟩ := hphase
    split at hs
    · cases hs
    · next hrecv =>
      cases hs
      rw [if_neg hrecv] at hphase
      obtain ⟨hquiet, pg, hans, hpage⟩ := hphase
      refine ⟨h.serving, ⟨hquiet, by simpa using hrecv⟩, h.known, h.once, fun x hx => ?_⟩
      rcases List.mem_cons.mp hx with rfl | hx
      · refine ⟨type, dstva, pg, hask, hans, fun va p hva hp => ?_⟩
        show dstva.bind (s.mapped c) = some p
        rw [hva]
        exact hpage va p hva hp
      · exact h.results x hx
  · cases hs

theorem not_serving_of_recving (h : FsInv c f s) (hr : (s.env f).ipcRecving = true) {k : ℕ}
    {type : ℤ} : ¬ s.Serving c f k type := by
  have hpc := (h.serving hr).1
  rintro (⟨-, hr', -⟩ | ⟨r, pg, hs, -⟩ | hs)
  · rw [hr] at hr'
    cases hr'
  · rw [hpc] at hs
    cases hs
  · rw [hpc] at hs
    cases hs

theorem request (h : FsInv c f s) (hpc : s.server = .recv) (hr : (s.env f).ipcRecving = false)
    (hfrom : (s.env f).ipcFrom = c) :
    (s.env f).call = s.current ∧ (s.env f).ipcPerm = true ∧ (∀ x ∈ s.answers, x.call ≠ s.current) ∧
      ∃ dstva, s.asked[s.current]? = some ((s.env f).ipcValue, dstva) := by
  have hphase := h.phase
  have hnot : ¬ s.Quiet c f := fun hq => hq.1 hpc hr hfrom
  have hserv : ∀ {type dstva}, s.asked[s.current]? = some (type, dstva) →
      s.Serving c f s.current type →
      (s.env f).call = s.current ∧ (s.env f).ipcPerm = true ∧
        (∀ x ∈ s.answers, x.call ≠ s.current) ∧
        ∃ dstva, s.asked[s.current]? = some ((s.env f).ipcValue, dstva) := by
    rintro type dstva hask (⟨-, -, -, hcall, hval, hperm, hfresh⟩ | ⟨r, pg, hs, -⟩ | hs)
    · exact ⟨hcall, hperm, hfresh, dstva, by rw [hask, hval]⟩
    · rw [hpc] at hs
      cases hs
    · rw [hpc] at hs
      cases hs
  unfold FsSys.Phase at hphase
  cases hcl : s.client with
  | idle =>
    rw [hcl] at hphase
    exact absurd hphase.1 hnot
  | send type dstva =>
    rw [hcl] at hphase
    exact absurd hphase.1 hnot
  | recv dstva =>
    rw [hcl] at hphase
    obtain ⟨-, type, hask, hs⟩ := hphase
    exact hserv hask hs
  | wait dstva =>
    rw [hcl] at hphase
    obtain ⟨-, type, hask, hphase⟩ := hphase
    split at hphase
    · exact hserv hask hphase
    · exact absurd hphase.1 hnot
  | panic =>
    rw [hcl] at hphase
    exact absurd hphase.1 hnot

theorem replying (h : FsInv c f s) {r : ℤ} {pg : Option ℕ} {call : ℕ}
    (hpc : s.server = .reply c r pg call) (hr : (s.env c).ipcRecving = true) :
    ∃ type dstva, s.client = .wait dstva ∧ (s.env c).ipcDstva = dstva ∧
      s.asked[s.current]? = some (type, dstva) ∧ ⟨s.current, type, r, pg⟩ ∈ s.answers := by
  have hphase := h.phase
  have hnot : ¬ s.Quiet c f := fun hq => hq.2 r pg call hpc
  unfold FsSys.Phase at hphase
  cases hcl : s.client with
  | idle =>
    rw [hcl] at hphase
    exact absurd hphase.1 hnot
  | send type dstva =>
    rw [hcl] at hphase
    exact absurd hphase.1 hnot
  | recv dstva =>
    rw [hcl] at hphase
    rw [hphase.1] at hr
    cases hr
  | wait dstva =>
    rw [hcl] at hphase
    obtain ⟨hdst, type, hask, hphase⟩ := hphase
    rw [if_pos hr] at hphase
    refine ⟨type, dstva, rfl, hdst, hask, ?_⟩
    obtain ⟨hs, -⟩ | ⟨r', pg', hs, hans⟩ | hs := hphase
    · rw [hpc] at hs
      cases hs
    · rw [hpc] at hs
      cases hs
      exact hans
    · rw [hpc] at hs
      cases hs
  | panic =>
    rw [hcl] at hphase
    exact absurd hphase.1 hnot

theorem quiet_recv (s : FsSys) (hpc : s.server = .recv) (hr : (s.env f).ipcRecving = true) :
    s.Quiet c f := by
  refine ⟨fun _ hr' => ?_, fun r pg call hs => ?_⟩
  · rw [hr] at hr'
    cases hr'
  · rw [hpc] at hs
    cases hs

theorem serveRecv (h : FsInv c f s) (hcf : c ≠ f) (hpc : s.server = .recv)
    (hr : (s.env f).ipcRecving = false) (r : ℤ) (pg : Option ℕ) :
    FsInv c f
      { s with
        server := .reply (s.env f).ipcFrom r pg (s.env f).call
        answers := if (s.env f).ipcFrom = c then
          ⟨(s.env f).call, (s.env f).ipcValue, r, pg⟩ :: s.answers else s.answers } := by
  have hmono : ∀ x ∈ s.answers, x ∈ if (s.env f).ipcFrom = c then
      ⟨(s.env f).call, (s.env f).ipcValue, r, pg⟩ :: s.answers else s.answers := by
    intro x hx
    split
    · exact List.mem_cons_of_mem _ hx
    · exact hx
  refine ⟨fun hr' => ?_, ?_, ?_, ?_, fun x hx => ?_⟩
  · rw [show (s.env f).ipcRecving = true from hr'] at hr
    cases hr
  · refine phase_of h.phase rfl rfl rfl rfl (fun hq => ?_) fun type hserv => ?_
    · have hne := hq.1 hpc hr
      refine ⟨⟨nofun, fun r' pg' call hs => ?_⟩, if_neg hne⟩
      cases hs
      exact hne rfl
    · obtain ⟨-, -, hfrom, hcall, hval, -⟩ | ⟨r', pg', hs, -⟩ | hs := hserv
      · refine .inr (.inl ⟨r, pg, ?_, ?_⟩)
        · show ServePc.reply (s.env f).ipcFrom r pg (s.env f).call = _
          rw [hfrom, hcall]
        · show _ ∈ if (s.env f).ipcFrom = c then _ else _
          rw [if_pos hfrom, hcall, hval]
          exact List.mem_cons_self
      · rw [hpc] at hs
        cases hs
      · rw [hpc] at hs
        cases hs
  · intro x hx
    have hx : x ∈ if (s.env f).ipcFrom = c then _ :: s.answers else s.answers := hx
    split at hx
    · next hfrom =>
      obtain ⟨hcall, -, -, dstva, hask⟩ := h.request hpc hr hfrom
      rcases List.mem_cons.mp hx with rfl | hx
      · show (s.env f).call < s.asked.length
        rw [hcall]
        exact (List.getElem?_eq_some_iff.mp hask).1
      · exact h.known x hx
    · exact h.known x hx
  · show (List.map FsAnswer.call (if (s.env f).ipcFrom = c then _ :: s.answers else s.answers)).Nodup
    split
    · next hfrom =>
      obtain ⟨hcall, -, hfresh, -⟩ := h.request hpc hr hfrom
      refine List.nodup_cons.mpr ⟨fun hmem => ?_, h.once⟩
      obtain ⟨x, hx, hxc⟩ := List.mem_map.mp hmem
      exact hfresh x hx (hxc.trans hcall)
    · exact h.once
  · obtain ⟨type, dstva, pg', hask, hans, hpage⟩ := h.results x hx
    exact ⟨type, dstva, pg', hask, hmono _ hans, hpage⟩

theorem serveReply (h : FsInv c f s) (hcf : c ≠ f) {whom call : ℕ} {r : ℤ} {pg : Option ℕ} {t : FsSys}
    (hpc : s.server = .reply whom r pg call) (hsent : Sent f whom r pg call s t) :
    FsInv c f (FsSys.sysIpcRecv
      { t with
        server := .recv
        mapped := update t.mapped f (update (t.mapped f) fsreq none) }
      f (some fsreq)) := by
  have hpcf := hsent.recving
  have hmem : update t.mapped f (update (t.mapped f) fsreq none) c = t.mapped c :=
    update_of_ne hcf _ _
  have hself : ∀ x : IpcEnv, update t.env f x f = x := fun x => update_self ..
  have hclient : ∀ x : IpcEnv, update t.env f x c = t.env c := fun x =>
    update_of_ne hcf _ _
  obtain ⟨hknown, honce, hresults⟩ := h.records_sent hsent
  refine ⟨fun _ => ⟨rfl, ?_⟩, ?_, hknown, honce, hresults⟩
  · show (update t.env f _ f).ipcDstva = _
    rw [hself]
  · have hquiet := quiet_recv (c := c) (f := f) (FsSys.sysIpcRecv
      { t with
        server := .recv
        mapped := update t.mapped f (update (t.mapped f) fsreq none) }
      f (some fsreq)) rfl (by
        show (update t.env f _ f).ipcRecving = true
        rw [hself])
    by_cases hwhom : whom = c
    · subst hwhom
      obtain ⟨type, dstva, hwait, hdst, hask, hans⟩ := h.replying hpc hpcf
      have henv := hsent.self
      have hask' : t.asked[t.asked.length - 1]? = some (type, dstva) := by
        rw [hsent.asked]
        exact hask
      refine phase_answered (hsent.client.trans hwait) ?_ hask' ?_ hquiet
        ⟨pg, ?_, fun va p hva hp => ?_⟩
      · show (update t.env f _ whom).ipcDstva = _
        rw [hclient, henv]
        exact hdst
      · show (update t.env f _ whom).ipcRecving = false
        rw [hclient, henv]
      · show ⟨t.asked.length - 1, type, (update t.env f _ whom).ipcValue, pg⟩ ∈ t.answers
        rw [hclient, henv, hsent.asked, hsent.answers]
        exact hans
      · show update t.mapped f _ whom va = _
        rw [hmem]
        exact hsent.page va p (hdst.trans hva) hp
    · refine phase_of h.phase ?_ ?_ hsent.client hsent.asked (fun _ => ⟨hquiet, hsent.answers⟩)
        fun type hserv => ?_
      · show update t.env f _ c = _
        rw [hclient, hsent.other (Ne.symm hwhom)]
      · show update t.mapped f _ c = _
        rw [hmem, hsent.others c (Ne.symm hwhom)]
      · obtain ⟨hs, -⟩ | ⟨r', pg', hs, -⟩ | hs := hserv
        · rw [hpc] at hs
          cases hs
        · rw [hpc] at hs
          cases hs
          exact absurd rfl hwhom
        · rw [hpc] at hs
          cases hs

theorem runServer (h : FsInv c f s) (hcf : c ≠ f) {r : ℤ} {pg : Option ℕ} {fail : Bool}
    (hs : s.runServer c f r pg fail = some s') : FsInv c f s' := by
  unfold FsSys.runServer at hs
  split at hs
  · next hpc =>
    simp only at hs
    split at hs
    · cases hs
    · next hrecv =>
      have hr : (s.env f).ipcRecving = false := by simpa using hrecv
      split at hs
      · next hperm =>
        -- a message without a page: not from the client
        cases hs
        have hself : ∀ x : IpcEnv, update s.env f x f = x := fun x =>
          update_self ..
        refine ⟨fun _ => ⟨hpc, ?_⟩, ?_, h.known, h.once, h.results⟩
        · show (update s.env f _ f).ipcDstva = _
          rw [hself]
        · refine phase_of h.phase (update_of_ne hcf _ _) rfl rfl rfl
            (fun _ => ⟨quiet_recv _ hpc ?_, rfl⟩) fun type hserv => ?_
          · show (update s.env f _ f).ipcRecving = true
            rw [hself]
          · obtain ⟨-, -, -, -, -, hperm', -⟩ | ⟨r', pg', hs, -⟩ | hs := hserv
            · rw [hperm] at hperm'
              cases hperm'
            · rw [hpc] at hs
              cases hs
            · rw [hpc] at hs
              cases hs
      · cases hs
        exact h.serveRecv hcf hpc hr r pg
  · next whom r' pg' call hpc =>
    split at hs
    · cases hs
      refine ⟨fun hr => ?_, ?_, h.known, h.once, h.results⟩
      · have hs := (h.serving hr).1
        rw [hpc] at hs
        cases hs
      · exact phase_of h.phase rfl rfl rfl rfl (fun _ => ⟨⟨nofun, nofun⟩, rfl⟩)
          fun _ _ => .inr (.inr rfl)
    split at hs
    · cases hs
      exact h
    · next t ht =>
      cases hs
      exact h.serveReply hcf hpc (sent_of_trySend ht)
  · cases hs

theorem otherSend (h : FsInv c f s) {e dst : ℕ} {value : ℤ} {pg : Option ℕ} (he : e ≠ c)
    (hdst : dst ≠ c) (hsent : Sent e dst value pg 0 s s') : FsInv c f s' := by
  have henv : ∀ e' ≠ dst, s'.env e' = s.env e' := fun e' he' => hsent.other he'
  have hres : ∀ x ∈ s'.returned, ∃ type dstva pg, s'.asked[x.call]? = some (type, dstva) ∧
      ⟨x.call, type, x.value, pg⟩ ∈ s'.answers ∧
        ∀ va p, dstva = some va → pg = some p → x.page = some p := by
    rw [hsent.returned, hsent.asked, hsent.answers]
    exact h.results
  have hknown : ∀ x ∈ s'.answers, x.call < s'.asked.length := by
    rw [hsent.answers, hsent.asked]
    exact h.known
  have honce : (s'.answers.map (·.call)).Nodup := by
    rw [hsent.answers]
    exact h.once
  by_cases hf : dst = f
  · subst hf
    have hself := hsent.self
    refine ⟨fun hr => ?_, ?_, hknown, honce, hres⟩
    · rw [hself] at hr
      cases hr
    · refine phase_of h.phase (henv c hdst.symm) (hsent.others c hdst.symm) hsent.client hsent.asked
        (fun _ => ⟨⟨fun _ _ => ?_, fun r pg call hs => ?_⟩, hsent.answers⟩) fun type hserv => ?_
      · rw [hself]
        exact he
      · rw [hsent.server, (h.serving hsent.recving).1] at hs
        cases hs
      · exact absurd hserv (h.not_serving_of_recving hsent.recving)
  · refine ⟨fun hr => ?_, ?_, hknown, honce, hres⟩
    · rw [henv f (Ne.symm hf)] at hr ⊢
      rw [hsent.server]
      exact h.serving hr
    · exact phase_of h.phase (henv c hdst.symm) (hsent.others c hdst.symm) hsent.client hsent.asked
        (fun hq => ⟨quiet_congr hq (henv f (Ne.symm hf)) hsent.server, hsent.answers⟩)
        fun type hserv => serving_congr hserv (henv f (Ne.symm hf)) hsent.server hsent.answers

theorem step (h : FsInv c f s) (hcf : c ≠ f) {l : FsEvent} (hok : FsCond c s l)
    (hs : s.step c f buf l = some s') : FsInv c f s' := by
  cases l with
  | call type dstva =>
    obtain ⟨hidle, rfl⟩ := Sys.guard_eq hs
    exact h.call hidle
  | client fail => exact h.runClient hcf hs
  | server r pg fail => exact h.runServer hcf hs
  | recv e dstva =>
    simp only [FsSys.step] at hs
    split at hs
    · cases hs
    · next he =>
      cases hs
      have henv : ∀ e' ≠ e, (s.sysIpcRecv e dstva).env e' = s.env e' := fun e' he' =>
        update_of_ne he' _ _
      have hc := henv c fun hcon => he (.inl hcon.symm)
      have hf := henv f fun hcon => he (.inr hcon.symm)
      refine ⟨fun hr => ?_, ?_, h.known, h.once, h.results⟩
      · rw [hf] at hr ⊢
        exact h.serving hr
      · exact phase_of h.phase hc rfl rfl rfl (fun hq => ⟨quiet_congr hq hf rfl, rfl⟩)
          fun type hserv => serving_congr hserv hf rfl rfl
  | send e dst value pg =>
    simp only [FsSys.step] at hs
    split at hs
    · cases hs
    · next he =>
      cases hs
      cases ht : s.sysIpcTrySend e dst value pg 0 with
      | none => exact h
      | some t =>
        have hsent := sent_of_trySend ht
        refine h.otherSend (fun hcon => he (.inl hcon)) (fun hcon => ?_) hsent
        -- this is what the condition rules out
        subst hcon
        have hrecv := hsent.recving
        rw [show (s.env dst).ipcRecving = false from hok rfl] at hrecv
        cases hrecv

end FsInv

/-! ### Calls -/

theorem filter_key_eq {α β : Type} [DecidableEq β] {key : α → β} {a : α} :
    ∀ {l : List α}, (l.map key).Nodup → a ∈ l → l.filter (fun x => key x = key a) = [a] := by
  intro l
  induction l with
  | nil => exact fun _ ha => absurd ha List.not_mem_nil
  | cons b l ih =>
    intro hnd ha
    obtain ⟨hb, hl⟩ := List.nodup_cons.mp hnd
    rcases List.mem_cons.mp ha with rfl | ha
    · rw [List.filter_cons_of_pos (by simp), List.cons.injEq, List.filter_eq_nil_iff]
      refine ⟨rfl, fun x hx => ?_⟩
      have hne : key x ≠ key a := fun hcon => hb (hcon ▸ List.mem_map_of_mem hx)
      simpa using hne
    · have hne : key b ≠ key a := fun hcon => hb (hcon ▸ List.mem_map_of_mem ha)
      rw [List.filter_cons_of_neg (by simpa using hne), ih hl ha]

/-- As long as nobody but the server sends to the client while it waits: a call
of `fsipc` returns the one answer that the server has given to its request, and
if a page came with it, and the call wanted one, the page is mapped. -/
theorem fsipc_answered {c f : ℕ} (hcf : c ≠ f) (buf : ℕ) {s₀ s : FsSys} (h₀ : s₀.Start c f)
    (hr : Sys.Reach (FsSys.step c f buf) (FsCond c) s₀ s) :
    ∀ x ∈ s.returned, ∃ type dstva pg, s.asked[x.call]? = some (type, dstva) ∧
      s.answers.filter (·.call = x.call) = [⟨x.call, type, x.value, pg⟩] ∧
      ∀ va p, dstva = some va → pg = some p → x.page = some p := by
  have hi : FsInv c f s := hr.inv (.of_start h₀) fun _ _ _ hi hok hs => hi.step hcf hok hs
  intro x hx
  obtain ⟨type, dstva, pg, hask, hans, hpage⟩ := hi.results x hx
  exact ⟨type, dstva, pg, hask, filter_key_eq hi.once hans, hpage⟩

/-- The client 1 and the server 2, before the first call. -/
def Demo.fsSys : FsSys where
  env := fun e => ⟨decide (e = 2), if e = 2 then some fsreq else none, 0, 0, false, 0⟩
  mapped := fun _ _ => none
  client := .idle
  server := .recv
  asked := []
  answers := []
  returned := []

theorem Demo.fsSys_start : fsSys.Start 1 2 :=
  ⟨rfl, rfl, rfl, rfl, rfl, rfl, rfl, rfl⟩

/-- An `open`, which the server answers with 0 and page 77; another environment
sends to the client before it waits, which has no effect. -/
theorem fsipc_answered_open : ∃ s, Sys.Reach (FsSys.step 1 2 50) (FsCond 1) fsSys s ∧
    s.returned = [⟨0, 0, some 77⟩] ∧
    ∃ type dstva pg, s.asked[0]? = some (type, dstva) ∧
      s.answers.filter (·.call = 0) = [⟨0, type, 0, pg⟩] ∧
      ∀ va p, dstva = some va → pg = some p → some 77 = some p := by
  have hok : Sys.AllOk (FsSys.step 1 2 50) (FsCond 1)
      [.call 1 (some 0xd0000), .client false, .send 3 1 9 none, .client false,
        .server 0 (some 77) false, .server 0 none false, .client false] fsSys := by
    decide +kernel
  obtain ⟨s, hs, hret⟩ := Sys.exists_reach_of (P := fun s => s.returned = [⟨0, 0, some 77⟩]) hok
    (by decide +kernel)
  exact ⟨s, hs, hret, fsipc_answered (by decide) 50 fsSys_start hs ⟨0, 0, some 77⟩
    (by rw [hret]; exact List.mem_cons_self)⟩

/-- Environment 3 sends 9 to the client while it waits: the call returns 9
although the server answers 0. -/
theorem fsipc_confused : fsSys.Start 1 2 ∧
    ∃ s, Sys.Reach (FsSys.step 1 2 50) (fun _ _ => True) fsSys s ∧
      s.returned = [⟨0, 9, none⟩] ∧ s.answers = [⟨0, 2, 0, none⟩] := by
  refine ⟨fsSys_start, ?_⟩
  exact Sys.exists_reach_of (Sys.allOk_true [.call 2 none, .client false, .client false, .server 0 none
      false, .send 3 1 9 none, .client false] _) (by decide +kernel)

end Jos
