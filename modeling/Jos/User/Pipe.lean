/-
Pipes: `devpipe_read` and `devpipe_write` of lib/pipe.c.

One reader and one writer work on a shared `struct Pipe`.  Each of them is a
thread that executes its call in steps: the test of the loop, the look at the
other end, the yield, the byte, the counter.  Any interleaving of the steps is
a run.  What `_pipeisclosed` answers is up to the environment.

* `pipe_fifo` — the bytes delivered are a prefix of the bytes accepted, at
  most `PIPEBUFSIZ` are in flight, and the next access is inside `p_buf`;
* `pipe_index_negative` — the condition is needed: the positions are signed,
  and the byte after the first `2^31 + 1` is stored in front of `p_buf`.
-/
import Jos.Lib.Ring
import Jos.Lib.Run
import Mathlib.Data.List.Infix
import Mathlib.Tactic.NormNum

namespace Jos

open Function

variable {c : PipeCall} {s s' : PipeSys}

def pipebufsiz : ℕ := 32

/-- `struct Pipe`.  The positions are 32-bit signed integers, and wrap around
as the compiled code does. -/
structure Pipe where
  pRpos : BitVec 32
  pWpos : BitVec 32
  pBuf : ℕ → UInt8

/-- `pos % PIPEBUFSIZ`: the remainder has the sign of `pos`. -/
def Pipe.index (pos : BitVec 32) : ℤ := pos.toInt.tmod pipebufsiz

/-- The index is one of `p_buf`. -/
def Pipe.InBuf (pos : BitVec 32) : Prop := 0 ≤ Pipe.index pos ∧ Pipe.index pos < pipebufsiz
  deriving Decidable

/-- `p->p_rpos == p->p_wpos`. -/
def Pipe.empty (p : Pipe) : Prop := p.pRpos = p.pWpos
  deriving Decidable

/-- `p->p_wpos >= p->p_rpos + sizeof(p->p_buf)`: with `sizeof` in it the
comparison is one of unsigned integers. -/
def Pipe.full (p : Pipe) : Prop := (p.pRpos + BitVec.ofNat 32 pipebufsiz).toNat ≤ p.pWpos.toNat
  deriving Decidable

/-- Where a thread is in `devpipe_read` or `devpipe_write`. -/
inductive PipePc where
  /-- outside, between two calls -/
  | out
  /-- at the conditions of the two loops -/
  | test
  /-- the pipe was empty, or full: at `_pipeisclosed` -/
  | closed
  | yield
  /-- at the assignment that moves the byte -/
  | move
  /-- at the increment of the position -/
  | incr
  deriving DecidableEq

/-- A call of `devpipe_read` or `devpipe_write`: its arguments and locals, and
what the last call returned. -/
structure PipeCall where
  pc : PipePc
  n : ℕ
  i : ℕ
  vbuf : ℕ → UInt8
  ret : ℕ

def PipeCall.return (c : PipeCall) (r : ℕ) : PipeCall := { c with pc := .out, ret := r }

/-- The two threads and their pipe, with the bytes the writer has handed over
and the bytes the reader has got. -/
structure PipeSys where
  pipe : Pipe
  reader : PipeCall
  writer : PipeCall
  accepted : List UInt8
  delivered : List UInt8

/-- One step of `devpipe_read`; `closed` is what `_pipeisclosed` answers.
There is no step that accesses memory outside `p_buf`. -/
def devpipeRead (closed : Bool) (s : PipeSys) : Option PipeSys :=
  let c := s.reader
  match c.pc with
  | .out => none
  | .test =>
    if c.n ≤ c.i then some { s with reader := c.return c.i }
    else if s.pipe.empty then
      if 0 < c.i then some { s with reader := c.return c.i }
      else some { s with reader := { c with pc := .closed } }
    else some { s with reader := { c with pc := .move } }
  | .closed =>
    if closed then some { s with reader := c.return 0 }
    else some { s with reader := { c with pc := .yield } }
  | .yield => some { s with reader := { c with pc := .test } }
  | .move =>
    if Pipe.InBuf s.pipe.pRpos then
      let b := s.pipe.pBuf (Pipe.index s.pipe.pRpos).toNat
      some { s with
        reader := { c with pc := .incr, vbuf := update c.vbuf c.i b }
        delivered := s.delivered ++ [b] }
    else none
  | .incr =>
    some { s with
      pipe := { s.pipe with pRpos := s.pipe.pRpos + 1#32 }
      reader := { c with pc := .test, i := c.i + 1 } }

/-- One step of `devpipe_write`. -/
def devpipeWrite (closed : Bool) (s : PipeSys) : Option PipeSys :=
  let c := s.writer
  match c.pc with
  | .out => none
  | .test =>
    if c.n ≤ c.i then some { s with writer := c.return c.i }
    else if s.pipe.full then some { s with writer := { c with pc := .closed } }
    else some { s with writer := { c with pc := .move } }
  | .closed =>
    if closed then some { s with writer := c.return 0 }
    else some { s with writer := { c with pc := .yield } }
  | .yield => some { s with writer := { c with pc := .test } }
  | .move =>
    if Pipe.InBuf s.pipe.pWpos then
      let buf := update s.pipe.pBuf (Pipe.index s.pipe.pWpos).toNat (c.vbuf c.i)
      some { s with
        pipe := { s.pipe with pBuf := buf }
        writer := { c with pc := .incr } }
    else none
  | .incr =>
    some { s with
      pipe := { s.pipe with pWpos := s.pipe.pWpos + 1#32 }
      writer := { c with pc := .test, i := c.i + 1 }
      accepted := s.accepted ++ [c.vbuf c.i] }

/-- What can happen: a thread starts a call, or takes a step. -/
inductive PipeEvent where
  | read (n : UInt32)
  | write (n : UInt32) (vbuf : ℕ → UInt8)
  | reader (closed : Bool)
  | writer (closed : Bool)

def PipeSys.step (s : PipeSys) : PipeEvent → Option PipeSys
  | .read n =>
    if s.reader.pc = .out then
      some { s with reader := { s.reader with pc := .test, n := n.toNat, i := 0 } }
    else none
  | .write n vbuf =>
    if s.writer.pc = .out then
      some { s with writer := { s.writer with pc := .test, n := n.toNat, i := 0, vbuf := vbuf } }
    else none
  | .reader closed => devpipeRead closed s
  | .writer closed => devpipeWrite closed s

def PipeCall.idle : PipeCall := ⟨.out, 0, 0, fun _ => 0, 0⟩

/-- After `pipe`: the data page is zero. -/
def PipeSys.init : PipeSys := ⟨⟨0, 0, fun _ => 0⟩, .idle, .idle, [], []⟩

/-! ### Positions -/

theorem Pipe.index_eq {pos : BitVec 32} (h : pos.toNat ≤ 2 ^ 31) :
    Pipe.index pos = (pos.toNat % pipebufsiz : ℕ) := by
  unfold Pipe.index
  rw [BitVec.toInt_eq_toNat_cond]
  rcases Nat.lt_or_eq_of_le h with hlt | heq
  · rw [if_pos (by omega)]
    rfl
  · rw [heq]
    decide

theorem Pipe.inBuf_of_le {pos : BitVec 32} (h : pos.toNat ≤ 2 ^ 31) : Pipe.InBuf pos := by
  have hlt : pos.toNat % pipebufsiz < pipebufsiz := Nat.mod_lt _ (by decide)
  rw [Pipe.InBuf, Pipe.index_eq h]
  omega

theorem Pipe.toNat_succ {pos : BitVec 32} (h : pos.toNat ≤ 2 ^ 31) :
    (pos + 1#32).toNat = pos.toNat + 1 := by
  rw [BitVec.toNat_add, BitVec.toNat_ofNat]
  omega

theorem Pipe.full_iff {p : Pipe} (h : p.pRpos.toNat ≤ 2 ^ 31 + 1) :
    p.full ↔ p.pRpos.toNat + pipebufsiz ≤ p.pWpos.toNat := by
  have hadd : (p.pRpos + BitVec.ofNat 32 pipebufsiz).toNat = p.pRpos.toNat + pipebufsiz := by
    rw [BitVec.toNat_add, BitVec.toNat_ofNat]
    unfold pipebufsiz
    omega
  rw [Pipe.full, hadd]

/-! ### The invariant -/

/-- The byte that is stored but not yet counted in `p_wpos`. -/
def PipeSys.pending (s : PipeSys) : List UInt8 :=
  if s.writer.pc = .incr then [s.writer.vbuf s.writer.i] else []

/-- The reader has taken a byte that is not yet counted in `p_rpos`. -/
def PipeSys.ahead (s : PipeSys) : ℕ := if s.reader.pc = .incr then 1 else 0

/-- The writer puts a byte in only while at most `2^31` bytes have been put
in before. -/
def PipeCond (s : PipeSys) : PipeEvent → Prop
  | .writer _ => s.writer.pc = .test → ¬ s.pipe.full → s.pipe.pWpos.toNat ≤ 2 ^ 31
  | _ => True

instance (s : PipeSys) : ∀ l, Decidable (PipeCond s l)
  | .writer _ => inferInstanceAs (Decidable (_ → _ → _))
  | .reader _ => inferInstanceAs (Decidable True)
  | .read _ => inferInstanceAs (Decidable True)
  | .write _ _ => inferInstanceAs (Decidable True)

structure PipeInv (s : PipeSys) : Prop where
  wpos : s.accepted.length = s.pipe.pWpos.toNat
  rpos : s.delivered.length = s.pipe.pRpos.toNat + s.ahead
  pre : s.delivered <+: s.accepted
  cells : Ring.Holds pipebufsiz s.pipe.pBuf s.pipe.pRpos.toNat
    (s.accepted.drop s.pipe.pRpos.toNat ++ s.pending)
  avail : s.reader.pc = .move → s.pipe.pRpos.toNat < s.pipe.pWpos.toNat
  room : s.writer.pc = .move → s.pipe.pWpos.toNat < s.pipe.pRpos.toNat + pipebufsiz
  small : s.pipe.pWpos.toNat ≤ 2 ^ 31 + 1
  moving : s.writer.pc = .move ∨ s.writer.pc = .incr → s.pipe.pWpos.toNat ≤ 2 ^ 31

namespace PipeInv

variable {s : PipeSys}

section

variable (h : PipeInv s)
include h

theorem rpos_le_wpos : s.pipe.pRpos.toNat ≤ s.pipe.pWpos.toNat := by
  have hlen := h.pre.length_le
  have hw := h.wpos
  have hr := h.rpos
  omega

theorem congr (hpipe : s'.pipe = s.pipe) (hacc : s'.accepted = s.accepted)
    (hdel : s'.delivered = s.delivered) (hahead : s'.ahead = s.ahead) (hpend : s'.pending = s.pending)
    (havail : s'.reader.pc = .move → s.pipe.pRpos.toNat < s.pipe.pWpos.toNat)
    (hroom : s'.writer.pc = .move → s.pipe.pWpos.toNat < s.pipe.pRpos.toNat + pipebufsiz)
    (hmoving : s'.writer.pc = .move ∨ s'.writer.pc = .incr → s.pipe.pWpos.toNat ≤ 2 ^ 31) : PipeInv s' := by
  refine ⟨?_, ?_, ?_, ?_, ?_, ?_, ?_, ?_⟩
  · rw [hpipe, hacc, h.wpos]
  · rw [hpipe, hdel, hahead, h.rpos]
  · rw [hacc, hdel]
    exact h.pre
  · rw [hpipe, hacc, hpend]
    exact h.cells
  · rwa [hpipe]
  · rwa [hpipe]
  · rw [hpipe]
    exact h.small
  · rwa [hpipe]

theorem readerAt (hold : s.reader.pc ≠ .incr) (hnew : c.pc ≠ .incr)
    (havail : c.pc = .move → s.pipe.pRpos.toNat < s.pipe.pWpos.toNat) : PipeInv { s with reader := c } := by
  refine h.congr rfl rfl rfl ?_ rfl havail h.room h.moving
  rw [PipeSys.ahead, PipeSys.ahead, if_neg hold]
  exact if_neg hnew

theorem writerAt (hold : s.writer.pc ≠ .incr) (hnew : c.pc ≠ .incr)
    (hmove : c.pc = .move → s.pipe.pWpos.toNat < s.pipe.pRpos.toNat + pipebufsiz ∧ s.pipe.pWpos.toNat ≤ 2 ^ 31) :
    PipeInv { s with writer := c } := by
  refine h.congr rfl rfl rfl rfl ?_ h.avail (fun hc => (hmove hc).1) fun hc => ?_
  · rw [PipeSys.pending, PipeSys.pending, if_neg hold]
    exact if_neg hnew
  · exact (hmove (hc.resolve_right hnew)).2

theorem take (hpc : s.reader.pc = .move) :
    PipeInv { s with
      reader := { s.reader with
        pc := .incr
        vbuf := update s.reader.vbuf s.reader.i
          (s.pipe.pBuf (Pipe.index s.pipe.pRpos).toNat) }
      delivered := s.delivered ++ [s.pipe.pBuf (Pipe.index s.pipe.pRpos).toNat] } := by
  have hlt := h.avail hpc
  have hidx : (Pipe.index s.pipe.pRpos).toNat = s.pipe.pRpos.toNat % pipebufsiz := by
    have hsmall := h.small
    rw [Pipe.index_eq (by omega)]
    rfl
  have hlen : s.delivered.length = s.pipe.pRpos.toNat := by
    have hr := h.rpos
    rwa [PipeSys.ahead, hpc, if_neg (by decide)] at hr
  have hget : s.pipe.pRpos.toNat < s.accepted.length := h.wpos ▸ hlt
  have hcell : s.pipe.pBuf (s.pipe.pRpos.toNat % pipebufsiz) = s.accepted[s.pipe.pRpos.toNat] := by
    have hcells := h.cells
    rw [List.drop_eq_getElem_cons hget, List.cons_append] at hcells
    exact hcells.head
  refine ⟨h.wpos, ?_, ?_, h.cells, fun hc => ?_, h.room, h.small, h.moving⟩
  · show (s.delivered ++ [_]).length = s.pipe.pRpos.toNat + 1
    rw [List.length_append, hlen]
    rfl
  · have hpre := List.prefix_iff_eq_take.mp h.pre
    show s.delivered ++ [_] <+: s.accepted
    rw [hidx, hcell, hpre, hlen, List.take_concat_get' _ _ hget]
    exact List.take_prefix _ _
  · cases hc

theorem release (hpc : s.reader.pc = .incr) (hc : c.pc = .test) :
    PipeInv { s with
      pipe := { s.pipe with pRpos := s.pipe.pRpos + 1#32 }
      reader := c } := by
  have hlen : s.delivered.length = s.pipe.pRpos.toNat + 1 := by
    have hr := h.rpos
    rwa [PipeSys.ahead, if_pos hpc] at hr
  have hlt : s.pipe.pRpos.toNat < s.accepted.length := by
    have := h.pre.length_le
    omega
  have hsucc : (s.pipe.pRpos + 1#32).toNat = s.pipe.pRpos.toNat + 1 := by
    have hw := h.wpos
    have hsmall := h.small
    exact Pipe.toNat_succ (by omega)
  refine ⟨h.wpos, ?_, h.pre, ?_, fun hm => ?_, fun hm => ?_, h.small, h.moving⟩
  · show s.delivered.length = (s.pipe.pRpos + 1#32).toNat + (if c.pc = .incr then 1 else 0)
    rw [hc, if_neg (by decide), hsucc, hlen]
  · have hcells := h.cells
    rw [List.drop_eq_getElem_cons hlt, List.cons_append] at hcells
    show Ring.Holds _ _ (s.pipe.pRpos + 1#32).toNat (s.accepted.drop (s.pipe.pRpos + 1#32).toNat ++ _)
    rw [hsucc]
    exact hcells.tail
  · exact absurd (hc.symm.trans hm) (by decide)
  · show s.pipe.pWpos.toNat < (s.pipe.pRpos + 1#32).toNat + pipebufsiz
    have hroom := h.room hm
    omega

theorem length_drop :
    s.pipe.pRpos.toNat + (s.accepted.drop s.pipe.pRpos.toNat).length = s.pipe.pWpos.toNat := by
  have hle := h.rpos_le_wpos
  have hw := h.wpos
  rw [List.length_drop]
  omega

theorem put (hpc : s.writer.pc = .move) :
    PipeInv { s with
      pipe := { s.pipe with
        pBuf := update s.pipe.pBuf (Pipe.index s.pipe.pWpos).toNat
          (s.writer.vbuf s.writer.i) }
      writer := { s.writer with pc := .incr } } := by
  have hidx : (Pipe.index s.pipe.pWpos).toNat = s.pipe.pWpos.toNat % pipebufsiz := by
    rw [Pipe.index_eq (h.moving (.inl hpc))]
    rfl
  have hdrop := h.length_drop
  have hroom := h.room hpc
  have hcells : Ring.Holds pipebufsiz s.pipe.pBuf s.pipe.pRpos.toNat
      (s.accepted.drop s.pipe.pRpos.toNat) := by
    have hcells := h.cells
    rwa [PipeSys.pending, hpc, if_neg (by decide), List.append_nil] at hcells
  refine ⟨h.wpos, h.rpos, h.pre, ?_, h.avail, fun hm => ?_, h.small,
    fun _ => h.moving (.inl hpc)⟩
  · have hpush := hcells.push (by omega) (s.writer.vbuf s.writer.i)
    rwa [hdrop, ← hidx] at hpush
  · cases hm

theorem publish (hpc : s.writer.pc = .incr) (hc : c.pc = .test) :
    PipeInv { s with
      pipe := { s.pipe with pWpos := s.pipe.pWpos + 1#32 }
      writer := c
      accepted := s.accepted ++ [s.writer.vbuf s.writer.i] } := by
  have hle := h.moving (.inr hpc)
  have hsucc := Pipe.toNat_succ hle
  have hrw := h.rpos_le_wpos
  have hw := h.wpos
  refine ⟨?_, h.rpos, h.pre.trans (List.prefix_append _ _), ?_, fun hm => ?_, fun hm => ?_, ?_,
    fun hm => ?_⟩
  · show (s.accepted ++ [_]).length = (s.pipe.pWpos + 1#32).toNat
    rw [List.length_append, hsucc, hw]
    rfl
  · have hcells := h.cells
    rw [PipeSys.pending, if_pos hpc] at hcells
    show Ring.Holds _ _ _ ((s.accepted ++ [_]).drop s.pipe.pRpos.toNat ++
      (if c.pc = .incr then _ else _))
    rw [hc, if_neg (by decide), List.append_nil, List.drop_append_of_le_length (by omega)]
    exact hcells
  · show s.pipe.pRpos.toNat < (s.pipe.pWpos + 1#32).toNat
    omega
  · exact absurd (hc.symm.trans hm) (by decide)
  · show (s.pipe.pWpos + 1#32).toNat ≤ 2 ^ 31 + 1
    omega
  · rcases hm with hm | hm
    · exact absurd (hc.symm.trans hm) (by decide)
    · exact absurd (hc.symm.trans hm) (by decide)

end

theorem init : PipeInv PipeSys.init := by
  refine ⟨rfl, rfl, List.prefix_rfl, ⟨by decide, ?_⟩, ?_, ?_, by decide, ?_⟩
  · intro k y hk
    cases hk
  · intro h
    cases h
  · intro h
    cases h
  · rintro (h | h) <;> cases h

end PipeInv

/-! ### Every step keeps it -/

theorem pipeInv_read {closed : Bool} (h : PipeInv s) (hs : devpipeRead closed s = some s') : PipeInv s' := by
  unfold devpipeRead at hs
  cases hpc : s.reader.pc with
  | out => simp [hpc] at hs
  | test =>
    have hne : s.reader.pc ≠ .incr := by rw [hpc]; decide
    simp only [hpc] at hs
    split at hs
    · cases hs
      exact h.readerAt hne nofun nofun
    · split at hs
      · split at hs
        · cases hs
          exact h.readerAt hne nofun nofun
        · cases hs
          exact h.readerAt hne nofun nofun
      · next hempty =>
        cases hs
        refine h.readerAt hne nofun fun _ => ?_
        have hle := h.rpos_le_wpos
        have hpos : s.pipe.pRpos.toNat ≠ s.pipe.pWpos.toNat :=
          fun heq => hempty (BitVec.eq_of_toNat_eq heq)
        omega
  | closed =>
    have hne : s.reader.pc ≠ .incr := by rw [hpc]; decide
    simp only [hpc] at hs
    split at hs
    · cases hs
      exact h.readerAt hne nofun nofun
    · cases hs
      exact h.readerAt hne nofun nofun
  | yield =>
    simp only [hpc] at hs
    cases hs
    exact h.readerAt (by rw [hpc]; decide) nofun nofun
  | move =>
    simp only [hpc] at hs
    obtain ⟨-, rfl⟩ := Sys.guard_eq hs
    exact h.take hpc
  | incr =>
    simp only [hpc] at hs
    cases hs
    exact h.release hpc rfl

theorem pipeInv_write {closed : Bool} (h : PipeInv s) (hok : PipeCond s (.writer closed))
    (hs : devpipeWrite closed s = some s') : PipeInv s' := by
  unfold devpipeWrite at hs
  cases hpc : s.writer.pc with
  | out => simp [hpc] at hs
  | test =>
    have hne : s.writer.pc ≠ .incr := by rw [hpc]; decide
    simp only [hpc] at hs
    split at hs
    · cases hs
      exact h.writerAt hne nofun nofun
    · split at hs
      · cases hs
        exact h.writerAt hne nofun nofun
      · next hfull =>
        cases hs
        refine h.writerAt hne nofun fun _ => ⟨?_, hok hpc hfull⟩
        have hle := h.rpos_le_wpos
        have hsmall := h.small
        rw [Pipe.full_iff (by omega)] at hfull
        omega
  | closed =>
    have hne : s.writer.pc ≠ .incr := by rw [hpc]; decide
    simp only [hpc] at hs
    split at hs
    · cases hs
      exact h.writerAt hne nofun nofun
    · cases hs
      exact h.writerAt hne nofun nofun
  | yield =>
    simp only [hpc] at hs
    cases hs
    exact h.writerAt (by rw [hpc]; decide) nofun nofun
  | move =>
    simp only [hpc] at hs
    obtain ⟨-, rfl⟩ := Sys.guard_eq hs
    exact h.put hpc
  | incr =>
    simp only [hpc] at hs
    cases hs
    exact h.publish hpc rfl

theorem pipeInv_step {l : PipeEvent} (h : PipeInv s) (hok : PipeCond s l) (hs : s.step l = some s') :
    PipeInv s' := by
  cases l with
  | read n =>
    obtain ⟨hpc, rfl⟩ := Sys.guard_eq hs
    exact h.readerAt (by rw [hpc]; decide) nofun nofun
  | write n vbuf =>
    obtain ⟨hpc, rfl⟩ := Sys.guard_eq hs
    exact h.writerAt (by rw [hpc]; decide) nofun nofun
  | reader closed => exact pipeInv_read h hs
  | writer closed => exact pipeInv_write h hok hs

/-- A pipe is a FIFO: what the reader got is a prefix of what the writer put
in, `PIPEBUFSIZ` bytes at most are between them, and the byte that is to be
moved next is inside `p_buf`. -/
theorem pipe_fifo {s : PipeSys} (hr : Sys.Reach PipeSys.step PipeCond PipeSys.init s) :
    s.delivered <+: s.accepted ∧ s.accepted.length ≤ s.delivered.length + pipebufsiz ∧
      (s.reader.pc = .move → Pipe.InBuf s.pipe.pRpos) ∧
      (s.writer.pc = .move → Pipe.InBuf s.pipe.pWpos) := by
  have h : PipeInv s := hr.inv PipeInv.init fun _ _ _ => pipeInv_step
  refine ⟨h.pre, ?_, fun hpc => ?_, fun hpc => ?_⟩
  · have hfits := h.cells.fits
    have hdrop := h.length_drop
    have hw := h.wpos
    have hr := h.rpos
    rw [List.length_append] at hfits
    omega
  · have havail := h.avail hpc
    have hsmall := h.small
    exact Pipe.inBuf_of_le (by omega)
  · exact Pipe.inBuf_of_le (h.moving (.inl hpc))

/-- One byte that was written and read. -/
theorem pipe_fifo_one : ∃ s, Sys.Reach PipeSys.step PipeCond PipeSys.init s ∧
    s.delivered = [7] ∧ [7] <+: s.accepted := by
  have hall : Sys.AllOk PipeSys.step PipeCond
      (.write 1 (fun _ => 7) :: List.replicate 4 (.writer false) ++
        .read 1 :: List.replicate 3 (.reader false)) PipeSys.init := by
    decide
  obtain ⟨s, hs, hdel⟩ := Sys.exists_reach_of (P := fun s => s.delivered = [7]) hall (by decide)
  exact ⟨s, hs, hdel, hdel ▸ (pipe_fifo hs).1⟩

/-! ### Long streams -/

/-- Both threads are between calls, and `k` bytes have gone through. -/
structure PipeSys.Passed (k : ℕ) (s : PipeSys) : Prop where
  reader : s.reader.pc = .out
  writer : s.writer.pc = .out
  rpos : s.pipe.pRpos = BitVec.ofNat 32 k
  wpos : s.pipe.pWpos = BitVec.ofNat 32 k

theorem PipeSys.Passed.full {k : ℕ} (h : s.Passed k) (hk : k ≤ 2 ^ 31 + 1) : ¬ s.pipe.full := by
  have hr : s.pipe.pRpos.toNat = k := by
    rw [h.rpos, BitVec.toNat_ofNat]
    omega
  rw [Pipe.full_iff (by omega), h.rpos, h.wpos]
  unfold pipebufsiz
  omega

theorem PipeSys.writeOne (hpc : s.writer.pc = .out) (hfull : ¬ s.pipe.full) (hin : Pipe.InBuf s.pipe.pWpos) :
    ∃ s', Sys.runAll PipeSys.step (.write 1 (fun _ => 0) :: List.replicate 4 (.writer false)) s =
        some s' ∧ s'.reader = s.reader ∧ s'.writer.pc = .out ∧ s'.pipe.pRpos = s.pipe.pRpos ∧
      s'.pipe.pWpos = s.pipe.pWpos + 1#32 := by
  simp only [List.replicate, Sys.runAll, PipeSys.step, if_pos hpc, Option.bind_some, devpipeWrite,
    show ¬ UInt32.toNat 1 ≤ 0 by decide, hfull, hin, if_true, if_false,
    show UInt32.toNat 1 ≤ 0 + 1 by decide]
  exact ⟨_, rfl, rfl, rfl, rfl, rfl⟩

theorem PipeSys.readOne (hpc : s.reader.pc = .out) (hempty : ¬ s.pipe.empty) (hin : Pipe.InBuf s.pipe.pRpos) :
    ∃ s', Sys.runAll PipeSys.step (.read 1 :: List.replicate 4 (.reader false)) s = some s' ∧
      s'.reader.pc = .out ∧ s'.writer = s.writer ∧ s'.pipe.pRpos = s.pipe.pRpos + 1#32 ∧
      s'.pipe.pWpos = s.pipe.pWpos := by
  simp only [List.replicate, Sys.runAll, PipeSys.step, if_pos hpc, Option.bind_some, devpipeRead,
    show ¬ UInt32.toNat 1 ≤ 0 by decide, hempty, hin, if_true, if_false,
    show UInt32.toNat 1 ≤ 0 + 1 by decide]
  exact ⟨_, rfl, rfl, rfl, rfl, rfl⟩

theorem reach_passed (k : ℕ) (hk : k ≤ 2 ^ 31 + 1) :
    ∃ s, Sys.Reach PipeSys.step (fun _ _ => True) PipeSys.init s ∧ s.Passed k := by
  induction k with
  | zero => exact ⟨_, .refl, rfl, rfl, rfl, rfl⟩
  | succ k ih =>
    obtain ⟨s, hs, hp⟩ := ih (by omega)
    have hpos : (BitVec.ofNat 32 k).toNat = k := by
      rw [BitVec.toNat_ofNat]
      omega
    have hin : Pipe.InBuf (BitVec.ofNat 32 k) := Pipe.inBuf_of_le (by omega)
    have hsucc : BitVec.ofNat 32 k + 1#32 = BitVec.ofNat 32 (k + 1) := by
      rw [BitVec.ofNat_add]
    obtain ⟨s₁, hrun₁, hr₁, hw₁, hrpos₁, hwpos₁⟩ :=
      PipeSys.writeOne hp.writer (hp.full (by omega)) (hp.wpos ▸ hin)
    rw [hp.rpos] at hrpos₁
    rw [hp.wpos, hsucc] at hwpos₁
    have hempty : ¬ s₁.pipe.empty := by
      intro he
      have hne := congrArg BitVec.toNat ((hrpos₁.symm.trans he).trans hwpos₁)
      rw [hpos, BitVec.toNat_ofNat] at hne
      omega
    obtain ⟨s₂, hrun₂, hr₂, hw₂, hrpos₂, hwpos₂⟩ :=
      PipeSys.readOne (hr₁ ▸ hp.reader) hempty (hrpos₁ ▸ hin)
    refine ⟨s₂, ?_, hr₂, ?_, ?_, ?_⟩
    · exact (hs.runAll (Sys.allOk_true _ _) hrun₁).runAll (Sys.allOk_true _ _) hrun₂
    · rw [hw₂, hw₁]
    · rw [hrpos₂, hrpos₁, hsucc]
    · rw [hwpos₂, hwpos₁]

/-- After `2^31 + 1` bytes the writer is about to store at `p_buf[-31]`. -/
theorem pipe_index_negative :
    ∃ s, Sys.Reach PipeSys.step (fun _ _ => True) PipeSys.init s ∧ s.writer.pc = .move ∧
      Pipe.index s.pipe.pWpos = -31 := by
  obtain ⟨s, hs, hp⟩ := reach_passed (2 ^ 31 + 1) (le_refl _)
  have hfull := hp.full (le_refl _)
  have hrun : ∃ s', Sys.runAll PipeSys.step [.write 1 (fun _ => 0), .writer false] s = some s' ∧
      s'.writer.pc = .move ∧ s'.pipe = s.pipe := by
    simp only [Sys.runAll, PipeSys.step, if_pos hp.writer, Option.bind_some, devpipeWrite,
      show ¬ UInt32.toNat 1 ≤ 0 by decide, hfull, if_false]
    exact ⟨_, rfl, rfl, rfl⟩
  obtain ⟨s', hrun, hpc, hpipe⟩ := hrun
  refine ⟨s', hs.runAll (Sys.allOk_true _ _) hrun, hpc, ?_⟩
  rw [hpipe, hp.wpos]
  decide

end Jos
