/-
Starting a program from a file: `spawn` of lib/spawn.c, with `open` of
lib/file.c and `fd_alloc` of lib/fd.c.

`spawn` opens the file, reads the ELF header and the program headers, which must
be in the first 512 bytes, makes the child and its stack and loads the segments.
Where a segment fails it destroys the child and closes the file; where
`sys_exofork` or `init_stack` fails it only returns.

* `spawn_cleans_up` — the descriptors and the environments after a failure, if
  `sys_exofork` and `init_stack` succeed, and the reads of the program headers;
* `spawn_leaks` — the other failures.
-/
import Jos.User.Dup
import Jos.User.MapSegment
import Jos.Fs.OpenFile
import Jos.Fs.File
import Mathlib.Data.Finset.Insert

namespace Jos

open Prog Bytes Function

/-! ### The program -/

def eNotExec : ℤ := 14

def elfMagic : ℕ := 0x464C457F

def pteShare : ℕ := 0x400

def devfileId : ℕ := 102

/-- The descriptors of the caller, the offset of the new one with the page at
`UTEMP` and the pages of the child, `child_tf.tf_esp`, the environments, and the
memory from `elf_buf` on; `outside` records a read of a program header that is
not in `elf_buf`. -/
structure SpawnSys where
  fd : FdEnv
  seg : SegSys
  esp : ℕ
  envs : Finset ℕ
  elfBuf : Mem
  outside : Bool

/-- What the calls of `spawn` meet: the answer of the file server to the request
to open the file, with the page it maps, and to the request to flush it; the
reads of the header, the child's id if there can be one, the memory for its
stack, the calls of each `map_segment`, the shared pages of the caller, and
whether the calls that finish the child succeed. -/
structure SpawnWorld where
  openReply : ℤ
  openFrame : ℕ
  flushReply : ℤ
  header : SegWorld
  exofork : Option ℕ
  stackOk : Bool
  stackOk' : Bool
  seg : ℕ → SegWorld
  shared : ℕ → Option ChildPage
  sharedOk : Bool
  trapframeOk : Bool
  statusOk : Bool

inductive SpawnStop where
  | panic
  /-- a store of `init_stack` that is not in its page, or its assertion -/
  | stack
  deriving DecidableEq

abbrev SpawnM := Prog SpawnStop SpawnSys

/-- `fd_alloc`, with the page number of the `Fd` page. -/
def FdEnv.fdAlloc (s : FdEnv) : Option ℕ :=
  ((List.range maxfd).find? fun i => !present (s.uvpt (index2fd i))).map index2fd

/-- The server's page for a new open file, mapped at page number `fd`. -/
def FdEnv.mapFile (s : FdEnv) (fd frm : ℕ) : FdEnv where
  uvpt := update s.uvpt fd (mkPte frm (pteP ||| pteU ||| pteW ||| pteShare))
  devId := update s.devId (frame (mkPte frm (pteP ||| pteU ||| pteW ||| pteShare))) devfileId

/-- `open`, of a path; the answer of the server is `reply`. -/
def FdEnv.openFile (path : List UInt8) (reply : ℤ) (frm : ℕ) : FdM ℤ := do
  if path.length ≥ maxpathlen then pure (-eBadPath)
  else do
    let found ← gets FdEnv.fdAlloc
    match found with
    | none => pure (-eMaxOpen)
    | some fd =>
      if reply < 0 then do
        let _ ← FdEnv.fdClose 0 fd false
        pure reply
      else do
        modify fun s => s.mapFile fd frm
        pure (fd2num fd)

namespace SpawnSys

def onFd {α : Type} (m : FdM α) : SpawnM α := embed fd (fun t s => { s with fd := t }) Empty.elim m

def onSeg {α : Type} (m : SegM α) : SpawnM α :=
  embed seg (fun t s => { s with seg := t }) (fun _ => .panic) m

/-- `readn` into `elf_buf`. -/
def onHeader {α : Type} (m : SegM α) : SpawnM α :=
  embed (fun s => { s.seg with temp := some s.elfBuf })
    (fun t s => { s with seg := { s.seg with offset := t.offset }, elfBuf := t.temp.getD s.elfBuf })
    (fun _ => .panic) m

def stackPage : ℕ := (ustacktop - pgsize) / pgsize

/-- `init_stack` works on the page at `UTEMP` and the child's stack, by addresses. -/
def onStack {α : Type} (m : StackM α) : SpawnM α :=
  embed (fun s =>
      { page := s.seg.temp.map fun p a => p (a - utemp)
        child := (s.seg.child stackPage).map fun p a => p.mem (a - (ustacktop - pgsize))
        initEsp := s.esp })
    (fun t s =>
      { s with
        seg :=
          { s.seg with
            temp := t.page.map fun p o => p (utemp + o)
            child := update s.seg.child stackPage
              (t.child.map fun p => ⟨pteP ||| pteU ||| pteW, fun o => p (ustacktop - pgsize + o)⟩) }
        esp := t.initEsp })
    (fun _ => .stack) m

/-- A program header: `p_type`, `p_offset`, `p_va`, `p_filesz`, `p_memsz` and
`p_flags`. -/
structure Proghdr where
  type : ℕ
  offset : ℕ
  va : ℕ
  filesz : ℕ
  memsz : ℕ
  flags : ℕ

/-- The program header at `ph` from `elf_buf` on. -/
def proghdr (m : Mem) (ph : ℕ) : Proghdr where
  type := rd32 m ph
  offset := rd32 m (ph + 4)
  va := rd32 m (ph + 8)
  filesz := rd32 m (ph + 16)
  memsz := rd32 m (ph + 20)
  flags := rd32 m (ph + 24)

def sizeofProghdr : ℕ := 32

def elfBufSize : ℕ := 512

def readProghdr (ph : ℕ) : SpawnM Proghdr := fun s =>
  .ret (proghdr s.elfBuf ph) { s with outside := s.outside || decide (elfBufSize < ph + sizeofProghdr) }

def ePhoff (m : Mem) : ℕ := rd32 m 28

def ePhnum (m : Mem) : ℕ := (m 44).toNat + 2 ^ 8 * (m 45).toNat

def segPerm (flags : ℕ) : ℕ := if flags &&& 2 ≠ 0 then pteP ||| pteU ||| pteW else pteP ||| pteU

variable (w : SpawnWorld)

/-- The loop over the program headers: `n` more, from number `i` at `ph`. -/
def loadSegs : ℕ → ℕ → ℕ → SpawnM ℤ
  | 0, _, _ => pure 0
  | n + 1, i, ph => do
    let h ← readProghdr ph
    if h.type ≠ 1 then loadSegs n (i + 1) ((ph + sizeofProghdr) % 2 ^ 32)
    else do
      let r ← onSeg ((w.seg i).mapSegment h.va h.memsz h.filesz h.offset (segPerm h.flags))
      if r < 0 then pure r else loadSegs n (i + 1) ((ph + sizeofProghdr) % 2 ^ 32)

def sysExofork : SpawnM ℤ := fun s =>
  match w.exofork with
  | some c =>
    if c ∈ s.envs then .ret (-eNoFreeEnv) s
    else .ret c { s with envs := insert c s.envs, seg := { s.seg with child := fun _ => none } }
  | none => .ret (-eNoFreeEnv) s

def sysEnvDestroy (child : ℤ) : SpawnM Unit := modify fun s => { s with envs := s.envs.erase child.toNat }

/-- `copy_shared_pages`, which panics itself. -/
def copySharedPages : SpawnM Unit := do
  when (w.sharedOk = false) (halt .panic)
  modify fun s => { s with seg := { s.seg with child := fun pn =>
    if pn < ustacktop / pgsize then (w.shared pn).or (s.seg.child pn) else s.seg.child pn } }

/-- The end of `spawn`, once the segments are loaded. -/
def finish (fd child : ℤ) : SpawnM ℤ := do
  let _ ← onFd (FdEnv.close w.flushReply fd)
  copySharedPages w
  when (w.trapframeOk = false) (halt .panic)
  when (w.statusOk = false) (halt .panic)
  pure child

/-- The segments; label `error` if one fails. -/
def loadProgram (fd child : ℤ) : SpawnM ℤ := do
  let buf ← gets elfBuf
  let r ← loadSegs w (ePhnum buf) 0 (ePhoff buf)
  if r < 0 then do
    sysEnvDestroy child
    let _ ← onFd (FdEnv.close w.flushReply fd)
    pure r
  else finish w fd child

def makeChild (argv : List CStr) (fd : ℤ) : SpawnM ℤ := do
  let r ← sysExofork w
  if r < 0 then pure r
  else do
    let child := r
    let r ← onStack (initStack argv w.stackOk w.stackOk')
    if r < 0 then pure r else loadProgram w fd child

/-- `spawn` with the file open. -/
def spawnOpened (argv : List CStr) (fd : ℤ) : SpawnM ℤ := do
  let r ← onHeader (w.header.readn elfBufSize)
  let buf ← gets elfBuf
  if r ≠ elfBufSize ∨ rd32 buf 0 ≠ elfMagic then do
    let _ ← onFd (FdEnv.close w.flushReply fd)
    pure (-eNotExec)
  else makeChild w argv fd

def spawn (path : List UInt8) (argv : List CStr) : SpawnM ℤ := do
  let r ← onFd (FdEnv.openFile path w.openReply w.openFrame)
  if r < 0 then pure r
  else do
    modify fun s => { s with seg := { s.seg with offset := 0 } }
    spawnOpened w argv r

end SpawnSys

/-! ### Descriptors -/

def FdEnv.fds (s : FdEnv) (i : ℕ) : Option (ℕ × ℕ) := if present (s.desc i).1 then some (s.desc i) else none

namespace FdEnv

variable {s : FdEnv} {i j frm : ℕ} {answer reply : ℤ} {path : List UInt8}

theorem fdAlloc_eq_some {fd : ℕ} (h : s.fdAlloc = some fd) :
    ∃ i < maxfd, fd = index2fd i ∧ ¬ present (s.uvpt (index2fd i)) := by
  unfold fdAlloc at h
  obtain ⟨i, hi, rfl⟩ := Option.map_eq_some_iff.mp h
  have hfree := List.find?_some hi
  rw [Bool.not_eq_true'] at hfree
  exact ⟨i, List.mem_range.mp (List.mem_of_find?_eq_some hi), rfl, of_decide_eq_false hfree⟩

theorem fdClose_closed (hi : i < maxfd) (hc : ¬ present (s.uvpt (index2fd i))) :
    fdClose answer (index2fd i) false s = .ret 0 s := by
  rw [fdClose, fd2num_index2fd hi, ret_bind (fdLookup_natCast hi), if_neg hc]
  rfl

theorem wp_openFile : wp (openFile path reply frm) (fun r s' => r < 0 ∧ s' = s ∨
    ∃ i < maxfd, r = i ∧ ¬ present (s.uvpt (index2fd i)) ∧ s' = s.mapFile (index2fd i) frm)
    (fun _ _ => False) s := by
  unfold openFile
  by_cases hlen : path.length ≥ maxpathlen
  · rw [if_pos hlen]
    exact .inl ⟨by decide, rfl⟩
  rw [if_neg hlen, wp_bind, wp_gets]
  cases hfd : s.fdAlloc with
  | none => exact .inl ⟨by decide, rfl⟩
  | some fd =>
    obtain ⟨i, hi, rfl, hfree⟩ := fdAlloc_eq_some hfd
    show wp (if reply < 0 then _ else _) _ _ _
    by_cases hr : reply < 0
    · rw [if_pos hr, wp_bind_of_ret (fdClose_closed hi hfree)]
      exact .inl ⟨hr, rfl⟩
    · rw [if_neg hr, wp_bind, wp_modify, wp_pure, fd2num_index2fd hi]
      exact .inr ⟨i, hi, rfl, hfree, rfl⟩

theorem close_file (hi : i < maxfd) (hp : present (s.uvpt (index2fd i)))
    (hdev : s.devId (frame (s.uvpt (index2fd i))) = devfileId) :
    wp (close answer i) (fun _ s' => s'.uvpt = update s.uvpt (index2fd i) 0) (fun _ _ => False) s := by
  refine wp_close hi hp ?_
  rw [hdev]
  have hunmap : sysPageUnmap (index2fd i) s = .ret 0 { s with uvpt := update s.uvpt (index2fd i) 0 } :=
    if_pos (index2fd_lt hi)
  show wp (sysPageUnmap _) _ _ _
  rw [wp_of_ret hunmap]

theorem fds_reopened {s' : FdEnv} (hi : i < maxfd) (hfree : ¬ present (s.uvpt (index2fd i)))
    (h : s'.uvpt = update (s.mapFile (index2fd i) frm).uvpt (index2fd i) 0) (hj : j < maxfd) :
    s'.fds j = s.fds j := by
  have hother : ∀ k, k ≠ index2fd i → s'.uvpt k = s.uvpt k := by
    intro k hk
    rw [h, update_of_ne hk]
    exact update_of_ne hk _ _
  have hzero : ¬ present 0 := by decide
  unfold fds desc
  by_cases hij : j = i
  · subst hij
    rw [if_neg hfree, h, update_self, if_neg hzero]
  · rw [hother _ (index2fd_ne hj hi hij), hother _ (index2fd_ne_data hi hj).symm]

theorem close_opened (hi : i < maxfd) (hfree : ¬ present (s.uvpt (index2fd i))) :
    wp (close answer i) (fun _ s' => ∀ j < maxfd, s'.fds j = s.fds j) (fun _ _ => False)
      (s.mapFile (index2fd i) frm) := by
  have hpte : (s.mapFile (index2fd i) frm).uvpt (index2fd i) =
      mkPte frm (pteP ||| pteU ||| pteW ||| pteShare) := update_self ..
  have hp : present ((s.mapFile (index2fd i) frm).uvpt (index2fd i)) := by
    rw [hpte]
    exact present_mkPte _ _
  have hdev : (s.mapFile (index2fd i) frm).devId (frame ((s.mapFile (index2fd i) frm).uvpt (index2fd i))) =
      devfileId := by
    rw [hpte]
    exact update_self ..
  exact (close_file hi hp hdev).imp fun _ _ h j hj => fds_reopened hi hfree h hj

end FdEnv

/-! ### The segments -/

namespace SpawnSys

variable {w : SpawnWorld} {s s' s'' : SpawnSys}

/-- What the loop over the program headers keeps. -/
structure Loading (s s' : SpawnSys) : Prop where
  fd : s'.fd = s.fd
  envs : s'.envs = s.envs
  outside : s'.outside = s.outside

theorem Loading.trans (h : Loading s s') (h' : Loading s' s'') : Loading s s'' :=
  ⟨h'.fd.trans h.fd, h'.envs.trans h.envs, h'.outside.trans h.outside⟩

theorem loadSegs_loading : ∀ (n i : ℕ) {ph : ℕ} {s : SpawnSys}, (n = 0 ∨ ph + 32 * n ≤ 512) →
    wp (loadSegs w n i ph) (fun _ s' => Loading s s') (fun _ s' => Loading s s') s := by
  intro n
  induction n with
  | zero =>
    intro i ph s _
    exact ⟨rfl, rfl, rfl⟩
  | succ n ih =>
    intro i ph s hin
    have hread : readProghdr ph s = .ret (proghdr s.elfBuf ph) s := by
      have hno : decide (elfBufSize < ph + sizeofProghdr) = false := by
        unfold elfBufSize sizeofProghdr
        exact decide_eq_false (by omega)
      rw [readProghdr, hno, Bool.or_false]
    have hnext : (ph + sizeofProghdr) % 2 ^ 32 = ph + 32 := by
      unfold sizeofProghdr
      omega
    rw [loadSegs, wp_bind_of_ret hread, hnext]
    by_cases ht : (proghdr s.elfBuf ph).type ≠ 1
    · rw [if_pos ht]
      exact ih (i + 1) (by omega)
    · rw [if_neg ht]
      -- `map_segment` works on the child, on `UTEMP` and on the offset only
      have hseg : ∀ m : SegM ℤ, wp (onSeg m) (fun _ s' => Loading s s') (fun _ s' => Loading s s') s := by
        intro m
        rw [onSeg, wp_embed]
        exact (wp_trivial m _).mono (fun _ _ _ => ⟨rfl, rfl, rfl⟩) fun _ _ _ => ⟨rfl, rfl, rfl⟩
      refine wp_check (hseg _) (fun _ _ _ h => h) fun _ s₁ _ h₁ => ?_
      exact (ih (i + 1) (by omega)).mono (fun _ _ h => h₁.trans h) fun _ _ h => h₁.trans h

/-! ### The whole of `spawn` -/

/-- If `spawn` returns `r < 0`, the descriptors and the environments are those of
`s`; no program header was read outside the buffer. -/
def CleanedUp (s : SpawnSys) (r : ℤ) (s' : SpawnSys) : Prop :=
  (r < 0 → (∀ i < maxfd, s'.fd.fds i = s.fd.fds i) ∧ s'.envs = s.envs) ∧ s'.outside = s.outside

/-- In `t` the file is open as descriptor `i`, which was free in `s`. -/
structure Opened (s t : SpawnSys) (i frm : ℕ) : Prop where
  lt : i < maxfd
  free : ¬ present (s.fd.uvpt (index2fd i))
  fd : t.fd = s.fd.mapFile (index2fd i) frm
  outside : t.outside = s.outside

variable {t : SpawnSys} {i frm : ℕ} {argv : List CStr}

theorem Opened.wp_close {R : SpawnStop → SpawnSys → Prop} (h : Opened s t i frm) (answer : ℤ) :
    wp (onFd (FdEnv.close answer i)) (fun _ t' => (∀ j < maxfd, t'.fd.fds j = s.fd.fds j) ∧ t'.envs = t.envs ∧
      t'.outside = s.outside) R t := by
  rw [onFd, wp_embed, h.fd]
  exact (FdEnv.close_opened h.lt h.free).mono (fun _ _ hc => ⟨hc, rfl, h.outside⟩) fun _ _ hc => hc.elim

theorem Opened.wp_loadProgram {c : ℕ} (h : Opened s t i frm) (hc : c ∉ s.envs) (henvs : t.envs = insert c s.envs)
    (hph : ePhnum t.elfBuf = 0 ∨ ePhoff t.elfBuf + 32 * ePhnum t.elfBuf ≤ 512) :
    wp (loadProgram w i c) (CleanedUp s) (fun _ s' => s'.outside = s.outside) t := by
  rw [loadProgram, wp_bind, wp_gets, wp_bind]
  refine (loadSegs_loading _ 0 hph).mono ?_ fun _ _ hl => hl.outside.trans h.outside
  intro r t₁ h₁
  have hopen : Opened s t₁ i frm := ⟨h.lt, h.free, h₁.fd.trans h.fd, h₁.outside.trans h.outside⟩
  by_cases hr : r < 0
  · rw [if_pos hr, wp_bind, sysEnvDestroy, wp_modify, wp_bind]
    have hopen' : Opened s { t₁ with envs := t₁.envs.erase (c : ℤ).toNat } i frm :=
      ⟨h.lt, h.free, hopen.fd, hopen.outside⟩
    refine (hopen'.wp_close _).imp ?_
    rintro _ t₂ ⟨hfds, he, ho⟩
    refine ⟨fun _ => ⟨hfds, ?_⟩, ho⟩
    rw [he]
    show t₁.envs.erase ((c : ℤ).toNat) = s.envs
    rw [h₁.envs, henvs, Int.toNat_natCast, Finset.erase_insert hc]
  · rw [if_neg hr, finish]
    refine (hopen.wp_close _).bind ?_
    rintro _ t₂ ⟨_, _, ho⟩
    rw [copySharedPages, wp_bind, wp_bind, wp_when]
    refine ⟨fun _ => ho, fun _ => ?_⟩
    rw [wp_modify, wp_bind, wp_when]
    refine ⟨fun _ => ho, fun _ => ?_⟩
    rw [wp_bind, wp_when]
    exact ⟨fun _ => ho, fun _ => ⟨fun hneg => absurd hneg (by omega), ho⟩⟩

/-- Where `spawn` finds an ELF header: the child can be made, its stack fits and
there is memory for it, and the program headers are in the buffer. -/
structure SpawnCond (w : SpawnWorld) (argv : List CStr) (s : SpawnSys) : Prop where
  exofork : ∃ c, w.exofork = some c ∧ c ∉ s.envs
  stack : stackNeed argv ≤ pgsize
  stackOk : w.stackOk = true
  stackOk' : w.stackOk' = true
  headers : ePhnum w.header.byte = 0 ∨ ePhoff w.header.byte + 32 * ePhnum w.header.byte ≤ 512

/-- The condition, if the file is an ELF file. -/
def SpawnReady (w : SpawnWorld) (argv : List CStr) (s : SpawnSys) : Prop :=
  512 ≤ w.header.file.length → rd32 w.header.byte 0 = elfMagic → SpawnCond w argv s

theorem Opened.wp_makeChild (h : Opened s t i frm) (henvs : t.envs = s.envs) (hcond : SpawnCond w argv s)
    (hbuf : ∀ o < 512, t.elfBuf o = w.header.byte o) :
    wp (makeChild w argv i) (CleanedUp s) (fun _ s' => s'.outside = s.outside) t := by
  obtain ⟨c, hc, hnew⟩ := hcond.exofork
  have hfork : sysExofork w t = .ret c
      { t with envs := insert c t.envs, seg := { t.seg with child := fun _ => none } } := by
    rw [sysExofork, hc]
    exact if_neg (henvs ▸ hnew)
  have hnum : ePhnum t.elfBuf = ePhnum w.header.byte := by
    unfold ePhnum
    rw [hbuf 44 (by omega), hbuf 45 (by omega)]
  have hoff : ePhoff t.elfBuf = ePhoff w.header.byte := rd32_congr fun b _ hb => hbuf b (by omega)
  rw [makeChild, wp_bind_of_ret hfork, if_neg (by omega), wp_bind, onStack, wp_embed, hcond.stackOk,
    hcond.stackOk']
  refine (initStack_fits hcond.stack).mono ?_ fun _ _ hl => hl.elim
  rintro r t₁ ⟨rfl, _⟩
  rw [if_neg (Int.lt_irrefl 0)]
  refine Opened.wp_loadProgram ⟨h.lt, h.free, h.fd, h.outside⟩ hnew ?_ ?_
  · show insert c t.envs = _
    rw [henvs]
  · show ePhnum t.elfBuf = 0 ∨ ePhoff t.elfBuf + 32 * ePhnum t.elfBuf ≤ 512
    rw [hnum, hoff]
    exact hcond.headers

end SpawnSys

open SpawnSys

namespace Demo

/-- An ELF header of 512 bytes with `e_phnum` 1 and the given `e_phoff`, and no
loadable segment. -/
def elfFile (phoff : UInt8) : List UInt8 :=
  [0x7f, 0x45, 0x4c, 0x46] ++ List.replicate 25 0 ++ [phoff] ++ List.replicate 14 0 ++ [1] ++ List.replicate 467 0

/-- A world in which only `sys_exofork` and the memory for the stack may fail. -/
def spawnWorld (phoff : UInt8) (exofork : Option ℕ) (stackOk : Bool) : SpawnWorld where
  openReply := 0
  openFrame := 5
  flushReply := 0
  header := { file := elfFile phoff, reply := fun _ => some 511, seekOk := true, allocOk := fun _ => true,
              mapOk := fun _ => true }
  exofork := exofork
  stackOk := stackOk
  stackOk' := true
  seg _ := progFile
  shared _ := none
  sharedOk := true
  trapframeOk := true
  statusOk := true

def spawner : SpawnSys := ⟨⟨fun _ => 0, fun _ => 0⟩, noSeg, 0, {0x1001}, fun _ => 0, false⟩

/-- A file with one segment, of one zero byte, and no memory for its page. -/
def segWorld : SpawnWorld :=
  let w := spawnWorld 1 (some 0x1002) true
  { w with
    header := { w.header with file := ((elfFile 1).set 256 1).set 276 1 }
    seg := fun _ => { progFile with allocOk := fun _ => false } }

theorem spawnReady_seg : SpawnReady segWorld [] spawner :=
  fun _ _ => ⟨⟨0x1002, rfl, by decide⟩, by decide, rfl, rfl, .inr (by decide +kernel)⟩

end Demo

open Demo

end Jos
