/-
What the parts of the kernel leave alone.

* `Mm.Ext` — no function of `kern/pmap.c` changes the size of memory or the
  kernel's page directory, and what it adds to the trace are null entry reads;
  the functions that follow a user's pointer also add those accesses;
* `Kern.SameCtl` — the system calls on pages, the clock and the network card
  change neither the environment table nor the processors;
* `keeps_*` — one lemma for each function of either kind; none of them leaves
  the kernel.
-/
import Jos.Kern.Trap

namespace Jos

open Prog

/-! ### Memory management -/

/-- Observations about memory accesses. -/
def Obs.ofMm : Obs → Bool
  | .nullPte => true
  | .read _ => true
  | .write _ => true
  | _ => false

/-- The null entry reads among them. -/
def Obs.isNullPte : Obs → Bool
  | .nullPte => true
  | _ => false

/-- What every function of `kern/pmap.c` keeps; `p` is what it may add to the
trace. -/
structure Mm.Ext (p : Obs → Bool) (m m' : Mm) : Prop where
  npages : m'.npages = m.npages
  kernPgdir : m'.kernPgdir = m.kernPgdir
  trace : ∃ l, m'.trace = l ++ m.trace ∧ ∀ o ∈ l, p o

namespace Mm.Ext

variable {p : Obs → Bool}

theorem of_eq {m m' : Mm} (hn : m'.npages = m.npages) (hk : m'.kernPgdir = m.kernPgdir)
    (ht : m'.trace = m.trace) : m.Ext p m' :=
  ⟨hn, hk, [], ht, by simp⟩

theorem refl (m : Mm) : m.Ext p m := of_eq rfl rfl rfl

theorem trans {a b c : Mm} (h : a.Ext p b) (h' : b.Ext p c) : a.Ext p c := by
  obtain ⟨l, hl, hlo⟩ := h.trace
  obtain ⟨l', hl', hlo'⟩ := h'.trace
  refine ⟨h'.npages.trans h.npages, h'.kernPgdir.trans h.kernPgdir, l' ++ l, ?_, ?_⟩
  · rw [hl', hl, List.append_assoc]
  · intro o ho
    rcases List.mem_append.mp ho with ho | ho
    · exact hlo' o ho
    · exact hlo o ho

instance : IsPreorder Mm (Ext p) where
  refl := refl
  trans _ _ _ := trans

theorem log {m : Mm} {o : Obs} (ho : p o) : m.Ext p (m.log o) :=
  ⟨rfl, rfl, [o], rfl, by simpa using ho⟩

end Mm.Ext

/-- Programs that keep to this and never leave the kernel; they follow no user
pointer. -/
abbrev Mm.Quiet {α : Type} (m : MmM α) : Prop := Keeps (Mm.Ext Obs.isNullPte) Stop.bad m

/-- Those that may follow a user's pointer. -/
abbrev Mm.Logs {α : Type} (m : MmM α) : Prop := Keeps (Mm.Ext Obs.ofMm) Stop.bad m

theorem Mm.Quiet.logs {α : Type} {m : MmM α} (h : Mm.Quiet m) : Mm.Logs m := by
  refine Keeps.mono h fun m m' hm => ?_
  obtain ⟨l, hl, hlo⟩ := hm.trace
  refine ⟨hm.npages, hm.kernPgdir, l, hl, fun o ho => ?_⟩
  have := hlo o ho
  cases o <;> first | rfl | cases this

open Mm (Ext Quiet Logs)

theorem keeps_vload (pd va : ℕ) : Quiet (vload pd va) :=
  .get_bind fun _ => .ite (.pure _) (.halt rfl)

theorem keeps_vstore (pd va b : ℕ) : Quiet (vstore pd va b) :=
  .get_bind fun _ => .ite
    (.modify fun _ => .of_eq rfl rfl rfl) (.halt rfl)

theorem keeps_uload (pd va : ℕ) : Logs (uload pd va) :=
  .modify_bind (fun _ => .log rfl) (keeps_vload pd va).logs

theorem keeps_ustore (pd va b : ℕ) : Logs (ustore pd va b) :=
  .modify_bind (fun _ => .log rfl) (keeps_vstore pd va b).logs

theorem keeps_uload32 (pd va : ℕ) : Logs (uload32 pd va) :=
  .bind (keeps_uload _ _) fun _ => .bind (keeps_uload _ _) fun _ =>
    .bind (keeps_uload _ _) fun _ => .bind (keeps_uload _ _) fun _ => .pure _

theorem keeps_ustore32 (pd va w : ℕ) : Logs (ustore32 pd va w) :=
  .bind (keeps_ustore _ _ _) fun _ => .bind (keeps_ustore _ _ _) fun _ =>
    .bind (keeps_ustore _ _ _) fun _ => keeps_ustore _ _ _

theorem keeps_kaddr (pa : ℕ) : Quiet (kaddr pa) :=
  .get_bind fun _ => .ite (.halt rfl) (.pure _)

theorem keeps_pa2page (pa : ℕ) : Quiet (pa2page pa) :=
  .get_bind fun _ => .ite (.halt rfl) (.pure _)

theorem keeps_pageAlloc (allocFlags : ℕ) : Quiet (pageAlloc allocFlags) := by
  refine .get_bind fun m => ?_
  cases m.pageFreeList with
  | none => exact .pure _
  | some pp =>
    refine .modify_bind (fun _ => .of_eq rfl rfl rfl) (.ite ?_ (.pure _))
    exact .bind (keeps_kaddr _) fun _ =>
      .modify_bind (fun _ => .of_eq rfl rfl rfl) (.pure _)

theorem keeps_pageFree (pp : ℕ) : Quiet (pageFree pp) :=
  .get_bind fun _ => .ite (.halt rfl) <| .ite (.halt rfl) <|
    .modify fun _ => .of_eq rfl rfl rfl

theorem keeps_pageDecref (pp : ℕ) : Quiet (pageDecref pp) :=
  .modify_bind (fun _ => .of_eq rfl rfl rfl) <|
    .get_bind fun _ => .when (keeps_pageFree pp)

theorem keeps_pgdirWalk (pgdir va : ℕ) (create : Bool) : Quiet (pgdirWalk pgdir va create) := by
  refine .get_bind fun m => .bind (keeps_kaddr _) fun _ =>
    .ite (.pure _) (.ite (.bind (keeps_pageAlloc _) fun pp => ?_) (.pure _))
  cases pp with
  | none => exact .pure _
  | some pp =>
    exact .modify_bind (fun _ => .of_eq rfl rfl rfl) <|
      .modify_bind (fun _ => .of_eq rfl rfl rfl) <|
        .bind (keeps_kaddr _) fun _ => .pure _

theorem keeps_readPte (cr3 : ℕ) (pte : Option (ℕ × ℕ)) : Quiet (readPte cr3 pte) := by
  cases pte with
  | some loc => exact .gets _
  | none =>
    exact .modify_bind (fun _ => .log rfl) <| .bind (keeps_vload _ _) fun _ =>
      .bind (keeps_vload _ _) fun _ => .bind (keeps_vload _ _) fun _ =>
        .bind (keeps_vload _ _) fun _ => .pure _

theorem keeps_pageLookup (cr3 pgdir va : ℕ) : Quiet (pageLookup cr3 pgdir va) := by
  refine .bind (keeps_pgdirWalk _ _ _) fun pte => .bind (keeps_readPte _ _) fun w =>
    .ite (.pure _) ?_
  cases pte with
  | none => exact .pure _
  | some loc => exact .bind (keeps_pa2page _) fun _ => .pure _

theorem keeps_pageRemove (cr3 pgdir va : ℕ) : Quiet (pageRemove cr3 pgdir va) := by
  refine .bind (keeps_pageLookup _ _ _) fun found => ?_
  match found with
  | none => exact .pure _
  | some (pp, p, i) =>
    exact .bind (keeps_pageDecref _) fun _ =>
      .modify fun _ => .of_eq rfl rfl rfl

theorem keeps_pageInsert (cr3 pgdir pp va perm : ℕ) :
    Quiet (pageInsert cr3 pgdir pp va perm) := by
  refine .bind (keeps_pgdirWalk _ _ _) fun pte => ?_
  match pte with
  | none => exact .pure _
  | some (p, i) =>
    refine .modify_bind (fun _ => .of_eq rfl rfl rfl) <| .get_bind fun m => ?_
    exact .bind (.when (keeps_pageRemove _ _ _)) fun _ =>
      .modify_bind (fun _ => .of_eq rfl rfl rfl) (.pure _)

theorem keeps_userMemScan (pgdir va vaR perm : ℕ) :
    ∀ n i, Quiet (userMemScan pgdir va vaR perm i n) := by
  intro n
  induction n with
  | zero => exact fun i => .pure _
  | succ n ih =>
    intro i
    refine .bind (keeps_pgdirWalk _ _ _) fun pte => .get_bind fun m => .ite ?_ (ih _)
    exact .modify_bind (fun _ => .of_eq rfl rfl rfl) (.pure _)

theorem keeps_userMemCheck (pgdir va len perm : ℕ) :
    Quiet (userMemCheck pgdir va len perm) :=
  keeps_userMemScan _ _ _ _ _ _

/-! ### Loading a program, copying user data -/

theorem keeps_regionLoop (cr3 pgdir : ℕ) : ∀ n i, Quiet (regionLoop cr3 pgdir i n) := by
  intro n
  induction n with
  | zero => exact fun i => .pure _
  | succ n ih =>
    intro i
    refine .bind (keeps_pageAlloc _) fun pp => ?_
    cases pp with
    | none => exact .halt rfl
    | some pp =>
      exact .bind (keeps_pageInsert _ _ _ _ _) fun r => .ite (.halt rfl) (ih _)

theorem keeps_regionAlloc (cr3 pgdir va len : ℕ) : Quiet (regionAlloc cr3 pgdir va len) :=
  keeps_regionLoop _ _ _ _

theorem keeps_loadSegments (cr3 pgdir : ℕ) :
    ∀ gs, Quiet (loadSegments cr3 pgdir gs) := by
  intro gs
  induction gs with
  | nil => exact .pure _
  | cons g gs ih =>
    refine .bind ?_ fun _ => ih
    exact .bind (keeps_regionAlloc _ _ _ _) fun _ =>
      .bind (.forFrom (fun _ => keeps_vstore _ _ _) _ _) fun _ =>
        .forFrom (fun _ => keeps_vstore _ _ _) _ _

theorem keeps_freePde (cr3 d pdeno : ℕ) : Quiet (freePde cr3 d pdeno) := by
  refine .get_bind fun m => .ite (.pure _) (.bind (keeps_kaddr _) fun pt => ?_)
  refine .bind (.forFrom (fun pteno => ?_) _ _) fun _ => ?_
  · exact .get_bind fun m => .when (keeps_pageRemove _ _ _)
  · exact .modify_bind (fun _ => .of_eq rfl rfl rfl) <|
      .bind (keeps_pa2page _) fun pp => keeps_pageDecref pp

theorem keeps_printChars (cr3 : ℕ) : ∀ n p precision, Logs (printChars cr3 n p precision) := by
  intro n
  induction n with
  | zero => exact fun p precision => .halt rfl
  | succ n ih =>
    intro p precision
    exact .bind (keeps_uload _ _) fun ch => .ite (.pure _) <|
      .ite (ih _ _) <| .ite (ih _ _) (.pure _)

theorem loadTrapframe_words {r : Mm → Mm → Prop} [IsPreorder Mm r] {b : Stop → Prop} {cr3 tf : ℕ}
    (w : ∀ k < 17, Keeps r b (uload32 cr3 ((tf + 4 * k) % 2 ^ 32))) : Keeps r b (loadTrapframe cr3 tf) := by
  unfold loadTrapframe
  exact .bind (w 0 (by decide)) fun _ => .bind (w 1 (by decide)) fun _ => .bind (w 2 (by decide)) fun _ =>
    .bind (w 3 (by decide)) fun _ => .bind (w 4 (by decide)) fun _ => .bind (w 5 (by decide)) fun _ =>
    .bind (w 6 (by decide)) fun _ => .bind (w 7 (by decide)) fun _ => .bind (w 8 (by decide)) fun _ =>
    .bind (w 9 (by decide)) fun _ => .bind (w 10 (by decide)) fun _ => .bind (w 11 (by decide)) fun _ =>
    .bind (w 12 (by decide)) fun _ => .bind (w 13 (by decide)) fun _ => .bind (w 14 (by decide)) fun _ =>
    .bind (w 15 (by decide)) fun _ => .bind (w 16 (by decide)) fun _ => .pure _

theorem keeps_loadTrapframe (cr3 tf : ℕ) : Logs (loadTrapframe cr3 tf) :=
  loadTrapframe_words fun _ _ => keeps_uload32 _ _

theorem keeps_orUserCs (cr3 tf : ℕ) : Logs (orUserCs cr3 tf) :=
  .bind (keeps_uload _ _) fun _ => .bind (keeps_uload _ _) fun _ =>
    .bind (keeps_ustore _ _ _) fun _ => keeps_ustore _ _ _

theorem keeps_vstore32 (pd va w : ℕ) : Quiet (vstore32 pd va w) :=
  .bind (keeps_vstore _ _ _) fun _ => .bind (keeps_vstore _ _ _) fun _ =>
    .bind (keeps_vstore _ _ _) fun _ => keeps_vstore _ _ _

theorem keeps_storeUtf (cr3 utf : ℕ) (tf : Trapframe) (faultVa : ℕ) :
    Quiet (storeUtf cr3 utf tf faultVa) := by
  have w := fun va x => keeps_vstore32 cr3 va x
  exact .bind (w _ _) fun _ => .bind (w _ _) fun _ => .bind (w _ _) fun _ =>
    .bind (w _ _) fun _ => .bind (w _ _) fun _ => .bind (w _ _) fun _ =>
    .bind (w _ _) fun _ => .bind (w _ _) fun _ => .bind (w _ _) fun _ =>
    .bind (w _ _) fun _ => .bind (w _ _) fun _ => .bind (w _ _) fun _ => w _ _

/-! ### Calls that only touch memory and devices -/

/-- The environment table and the processors are as before. -/
structure Kern.SameCtl (s s' : Kern) : Prop where
  envs : s'.envs = s.envs
  envFreeList : s'.envFreeList = s.envFreeList
  cpus : s'.cpus = s.cpus
  cpunum : s'.cpunum = s.cpunum
  envsEnd : s'.envsEnd = s.envsEnd
  mm : s.mm.Ext Obs.ofMm s'.mm

namespace Kern.SameCtl

theorem refl (s : Kern) : s.SameCtl s := ⟨rfl, rfl, rfl, rfl, rfl, Ext.refl _⟩

theorem trans {a b c : Kern} (h : a.SameCtl b) (h' : b.SameCtl c) : a.SameCtl c :=
  ⟨h'.envs.trans h.envs, h'.envFreeList.trans h.envFreeList, h'.cpus.trans h.cpus,
    h'.cpunum.trans h.cpunum, h'.envsEnd.trans h.envsEnd, h.mm.trans h'.mm⟩

instance : IsPreorder Kern SameCtl where
  refl := refl
  trans _ _ _ := trans

theorem thiscpu {s s' : Kern} (h : s.SameCtl s') : s'.thiscpu = s.thiscpu := by
  unfold Kern.thiscpu
  rw [h.cpus, h.cpunum]

theorem curenv {s s' : Kern} (h : s.SameCtl s') : s'.curenv = s.curenv := by
  unfold Kern.curenv
  rw [h.thiscpu]

end Kern.SameCtl

/-- Programs that keep to this and never leave the kernel. -/
abbrev Kern.KeepsCtl {α : Type} (m : KernM α) : Prop := Keeps Kern.SameCtl Stop.bad m

theorem Mm.Logs.ctl {α : Type} {m : MmM α} (h : Logs m) : Kern.KeepsCtl (liftMm m) :=
  Keeps.zoom h fun _ _ hm => ⟨rfl, rfl, rfl, rfl, rfl, hm⟩

theorem Mm.Quiet.ctl {α : Type} {m : MmM α} (h : Quiet m) : Kern.KeepsCtl (liftMm m) := h.logs.ctl

open Kern (SameCtl KeepsCtl)

theorem keeps_curenvPtr : KeepsCtl curenvPtr := by
  refine .get_bind fun s => ?_
  cases s.curenv with
  | none => exact .halt rfl
  | some e => exact .pure e

theorem keeps_envPgdirPtr (e : ℕ) : KeepsCtl (envPgdirPtr e) := by
  refine .get_bind fun s => ?_
  cases (s.envs e).envPgdir with
  | none => exact .halt rfl
  | some d => exact .pure d

theorem keeps_rcr3 : KeepsCtl rcr3 := .gets _

theorem keeps_envid2env (envid : ℕ) (checkperm : Bool) :
    KeepsCtl (envid2env envid checkperm) := by
  refine .ite (.bind keeps_curenvPtr fun _ => .pure _) ?_
  refine .get_bind fun s => .ite (.pure _) (.ite ?_ (.pure _))
  exact .bind keeps_curenvPtr fun _ => .ite (.pure _) (.pure _)

theorem keeps_envPageInsert (e pp va perm : ℕ) : KeepsCtl (envPageInsert e pp va perm) :=
  .bind (keeps_envPgdirPtr e) fun _ => .bind keeps_rcr3 fun _ =>
    (keeps_pageInsert _ _ _ _ _).ctl

theorem keeps_envPageLookup (e va : ℕ) : KeepsCtl (envPageLookup e va) :=
  .bind (keeps_envPgdirPtr e) fun _ => .bind keeps_rcr3 fun _ =>
    (keeps_pageLookup _ _ _).ctl

theorem keeps_sysGetenvid : KeepsCtl sysGetenvid :=
  .bind keeps_curenvPtr fun _ => .gets _

theorem keeps_sysPageAlloc (envid va perm : ℕ) : KeepsCtl (sysPageAlloc envid va perm) := by
  refine .bind (keeps_envid2env _ _) fun r => ?_
  cases r with
  | none => exact .pure _
  | some e =>
    refine .ite (.pure _) (.ite (.pure _) ?_)
    refine .bind (keeps_pageAlloc _).ctl fun pp => ?_
    cases pp with
    | none => exact .pure _
    | some pp =>
      refine .bind (keeps_envPageInsert _ _ _ _) fun ret => .ite ?_ (.pure _)
      exact .bind (keeps_pageFree _).ctl fun _ => .pure _

theorem keeps_sysPageMap (srcenvid srcva dstenvid dstva perm : ℕ) :
    KeepsCtl (sysPageMap srcenvid srcva dstenvid dstva perm) := by
  refine .bind (keeps_envid2env _ _) fun r => ?_
  cases r with
  | none => exact .pure _
  | some srce =>
    refine .bind (keeps_envid2env _ _) fun r => ?_
    cases r with
    | none => exact .pure _
    | some dste =>
      refine .ite (.pure _) (.bind (keeps_envPageLookup _ _) fun found => ?_)
      match found with
      | none => exact .pure _
      | some (pp, _) =>
        exact .bind (keeps_envPageInsert _ _ _ _) fun ret =>
          .ite (.pure _) (.pure _)

theorem keeps_sysPageUnmap (envid va : ℕ) : KeepsCtl (sysPageUnmap envid va) := by
  refine .bind (keeps_envid2env _ _) fun r => ?_
  cases r with
  | none => exact .pure _
  | some e =>
    refine .ite (.pure _) (.bind (keeps_envPgdirPtr _) fun d => ?_)
    exact .bind keeps_rcr3 fun cr3 =>
      .bind (keeps_pageRemove _ _ _).ctl fun _ => .pure _

theorem keeps_nicTransmit (cr3 pkt len : ℕ) : KeepsCtl (nicTransmit cr3 pkt len) := by
  refine .ite (.pure _) (.get_bind fun s => .ite (.pure _) ?_)
  refine .bind (.forFrom (fun k => ?_) _ _) fun _ => ?_
  · exact .bind (keeps_uload _ _).ctl fun _ =>
      .modify fun _ => ⟨rfl, rfl, rfl, rfl, rfl, .refl _⟩
  · exact .modify_bind (fun _ => ⟨rfl, rfl, rfl, rfl, rfl, .refl _⟩) <| .pure _

theorem keeps_sysSendPacket (va len : ℕ) : KeepsCtl (sysSendPacket va len) :=
  .bind keeps_curenvPtr fun _ => .bind (keeps_envPgdirPtr _) fun _ =>
    .bind (keeps_userMemCheck _ _ _ _).ctl fun _ =>
      .ite (.pure _) (.bind keeps_rcr3 fun _ => keeps_nicTransmit _ _ _)

theorem keeps_e1000Receive (cr3 pkt length : ℕ) : KeepsCtl (e1000Receive cr3 pkt length) := by
  refine .get_bind fun s =>
    .ite (.pure _) (.ite (.pure _) ?_)
  refine .bind (keeps_ustore32 _ _ _).ctl fun _ =>
    .bind (keeps_uload32 _ _).ctl fun n => ?_
  refine .bind (Logs.ctl (.forFrom (fun _ => keeps_ustore _ _ _) _ _)) fun _ => ?_
  exact .modify_bind (fun _ => ⟨rfl, rfl, rfl, rfl, rfl, .refl _⟩) <| .pure _

theorem keeps_sysRcvPacket (va len : ℕ) : KeepsCtl (sysRcvPacket va len) :=
  .bind keeps_curenvPtr fun _ => .bind keeps_rcr3 fun _ =>
    .bind (keeps_uload32 _ _).ctl fun _ =>
      .bind (keeps_envPgdirPtr _) fun _ =>
        .bind (keeps_userMemCheck _ _ _ _).ctl fun _ =>
          .ite (.pure _) (keeps_e1000Receive _ _ _)

theorem keeps_timeTick : KeepsCtl timeTick :=
  .modify_bind (fun _ => ⟨rfl, rfl, rfl, rfl, rfl, .refl _⟩) <|
    .get_bind fun _ => .when (.halt rfl)

theorem keeps_userStore (va b : ℕ) : KeepsCtl (userStore va b) :=
  .bind keeps_rcr3 fun _ => .get_bind fun _ => .when <|
    Logs.ctl (.modify fun _ => .of_eq rfl rfl rfl)

/-! ### A kernel entry touches no other processor -/

/-- This processor still holds the lock, and the others are as before. -/
structure Kern.SameOthers (s s' : Kern) : Prop where
  cpunum : s'.cpunum = s.cpunum
  cpus : ∀ c ≠ s.cpunum, s'.cpus c = s.cpus c

/-- Any way out will do. -/
def Stop.any (_ : Stop) : Prop := True

namespace Kern.SameOthers

theorem refl (s : Kern) : s.SameOthers s := ⟨rfl, fun _ _ => rfl⟩

instance : IsPreorder Kern SameOthers where
  refl := refl
  trans _ _ _ h h' :=
    ⟨h'.cpunum.trans h.cpunum, fun x hx => (h'.cpus x (h.cpunum ▸ hx)).trans (h.cpus x hx)⟩

theorem cpu (f : Kern → CpuInfo → CpuInfo) :
    Keeps SameOthers Stop.any (Prog.modify fun s => s.updCpu s.cpunum (f s)) :=
  Keeps.modify fun _ => ⟨rfl, fun _ hc => Function.update_of_ne hc _ _⟩

end Kern.SameOthers

/-- Programs that keep to this. -/
abbrev Kern.KeepsOthers {α : Type} (m : KernM α) : Prop := Keeps Kern.SameOthers Stop.any m

theorem Kern.KeepsCtl.others {α : Type} {m : KernM α} (h : KeepsCtl m) : Kern.KeepsOthers m :=
  fun s => (h s).mono (fun _ _ hs => ⟨hs.cpunum, fun _ _ => by rw [hs.cpus]⟩)
    fun _ _ hs => ⟨⟨hs.1.cpunum, fun _ _ => by rw [hs.1.cpus]⟩, trivial⟩

open Kern (SameOthers KeepsOthers)

theorem others_envRun (e : ℕ) : KeepsOthers (envRun e) := by
  have hpop : KeepsOthers (envPopTf e) :=
    .modify_bind (fun _ => ⟨rfl, fun _ _ => rfl⟩) <|
      .bind (SameOthers.cpu _) fun _ => .halt trivial
  have hpre : KeepsOthers preemptCurenv := by
    refine .get_bind fun s => ?_
    cases s.curenv with
    | none => exact .pure _
    | some c => exact .when (.modify fun _ => ⟨rfl, fun _ _ => rfl⟩)
  refine .get_bind fun s => .ite ?_ hpop
  exact .bind hpre fun _ => .bind (SameOthers.cpu _) fun _ =>
    .modify_bind (fun _ => ⟨rfl, fun _ _ => rfl⟩) <|
    .modify_bind (fun _ => ⟨rfl, fun _ _ => rfl⟩) <|
    .bind (keeps_envPgdirPtr e).others fun _ =>
    .bind (SameOthers.cpu _) fun _ => hpop

theorem others_schedYield : KeepsOthers schedYield := by
  have hhalt : KeepsOthers schedHalt :=
    .get_bind fun _ => .ite (.halt trivial) <|
      .bind (SameOthers.cpu _) fun _ => .bind (SameOthers.cpu _) fun _ =>
        .bind (SameOthers.cpu _) fun _ => .halt trivial
  refine .get_bind fun s => ?_
  cases s.schedScan s.schedStart nenv with
  | some j => exact .ite (others_envRun j) (.halt trivial)
  | none =>
    cases s.curenv with
    | none => exact hhalt
    | some c => exact .ite (others_envRun c) hhalt

theorem others_envFree (e : ℕ) : KeepsOthers (envFree e) := by
  refine .modify_bind (fun _ => ⟨rfl, fun _ _ => rfl⟩) <|
    .get_bind fun s =>
    .bind (.when (SameOthers.cpu _)) fun _ =>
    .bind (keeps_envPgdirPtr e).others fun d =>
    .bind keeps_rcr3.others fun cr3 =>
    .bind (Quiet.ctl (.forFrom (fun i => keeps_freePde _ d i) _ _)).others fun _ =>
    .modify_bind (fun _ => ⟨rfl, fun _ _ => rfl⟩) <|
    .bind (Quiet.ctl ((keeps_pa2page _).bind keeps_pageDecref)).others fun _ => ?_
  exact .modify_bind (fun _ => ⟨rfl, fun _ _ => rfl⟩) <|
    .modify fun _ => ⟨rfl, fun _ _ => rfl⟩

theorem others_envDestroy (e : ℕ) : KeepsOthers (envDestroy e) :=
  .get_bind fun _ => .ite (.modify fun _ => ⟨rfl, fun _ _ => rfl⟩) <|
    .bind (others_envFree e) fun _ => .get_bind fun _ =>
      .ite (.bind (SameOthers.cpu _) fun _ => others_schedYield) (.pure _)

theorem others_userMemAssert (e va len perm : ℕ) :
    KeepsOthers (userMemAssert e va len perm) :=
  .bind (keeps_envPgdirPtr e).others fun _ =>
    .bind (keeps_userMemCheck _ _ _ _).ctl.others fun _ =>
      .when (others_envDestroy e)

theorem others_envAlloc (parentId : ℕ) : KeepsOthers (envAlloc parentId) := by
  refine .get_bind fun s => ?_
  cases s.envFreeList with
  | none => exact .pure _
  | some e =>
    refine .bind ?_ fun r => .ite (.pure _) ?_
    · refine .bind (keeps_pageAlloc _).ctl.others fun p => ?_
      cases p with
      | none => exact .pure _
      | some p =>
        exact .bind (keeps_kaddr _).ctl.others fun _ =>
          .modify_bind (fun _ => ⟨rfl, fun _ _ => rfl⟩) <|
          .bind (KeepsCtl.others (Quiet.ctl (.modify fun _ => .of_eq rfl rfl rfl))) fun _ => .pure _
    · exact .modify_bind (fun _ => ⟨rfl, fun _ _ => rfl⟩) <|
        .modify_bind (fun _ => ⟨rfl, fun _ _ => rfl⟩) <| .pure _

theorem others_envCreate (binary : Image) (type : EnvType) :
    KeepsOthers (envCreate binary type) := by
  refine .bind (others_envAlloc 0) fun r => ?_
  cases r with
  | error _ => exact .halt trivial
  | ok e =>
    refine .bind (.when
      (.modify fun _ => ⟨rfl, fun _ _ => rfl⟩)) fun _ => .bind ?_ fun _ =>
        .modify fun _ => ⟨rfl, fun _ _ => rfl⟩
    exact .ite (.halt trivial) <|
      .bind (keeps_envPgdirPtr e).others fun _ =>
      .bind (SameOthers.cpu _) fun _ =>
      .bind (keeps_loadSegments _ _ _).ctl.others fun _ =>
      .bind (keeps_regionAlloc _ _ _ _).ctl.others fun _ =>
      .modify_bind (fun _ => ⟨rfl, fun _ _ => rfl⟩) <|
      .get_bind fun _ => SameOthers.cpu _

theorem others_run (no : Sysno) (a1 a2 a3 a4 a5 : ℕ) :
    KeepsOthers (no.run a1 a2 a3 a4 a5) := by
  have hdeliver : ∀ cur dst value perm,
      KeepsOthers (ipcDeliver cur dst value perm) := fun cur dst value perm =>
    .modify_bind (fun _ => ⟨rfl, fun _ _ => rfl⟩) <|
      .modify_bind (fun _ => ⟨rfl, fun _ _ => rfl⟩) <| .pure _
  cases no with
  | cputs =>
    refine .bind ?_ fun _ => .pure _
    exact .bind keeps_curenvPtr.others fun _ =>
      .bind (others_userMemAssert _ _ _ _) fun _ =>
      .bind keeps_rcr3.others fun _ => .when
        (keeps_printChars _ _ _ _).ctl.others
  | cgetc => exact .gets _
  | getenvid => exact keeps_sysGetenvid.others
  | envDestroy =>
    refine .bind (keeps_envid2env _ _).others fun r => ?_
    cases r with
    | none => exact .pure _
    | some e => exact .bind (others_envDestroy e) fun _ => .pure _
  | pageAlloc => exact (keeps_sysPageAlloc _ _ _).others
  | pageMap => exact (keeps_sysPageMap _ _ _ _ _).others
  | pageUnmap => exact (keeps_sysPageUnmap _ _).others
  | exofork =>
    refine .bind keeps_curenvPtr.others fun cur => .get_bind fun s =>
      .bind (others_envAlloc _) fun r => ?_
    cases r with
    | error _ => exact .pure _
    | ok e =>
      exact .modify_bind (fun _ => ⟨rfl, fun _ _ => rfl⟩) <|
        .modify_bind (fun _ => ⟨rfl, fun _ _ => rfl⟩) <|
          .gets _
  | envSetStatus =>
    refine .bind (keeps_envid2env _ _).others fun r => ?_
    cases r with
    | none => exact .pure _
    | some e =>
      exact .ite
        (.modify_bind (fun _ => ⟨rfl, fun _ _ => rfl⟩) <| .pure _) <|
        .ite
        (.modify_bind (fun _ => ⟨rfl, fun _ _ => rfl⟩) <| .pure _)
        (.pure _)
  | envSetTrapframe =>
    refine .bind (keeps_envid2env _ _).others fun r => ?_
    cases r with
    | none => exact .pure _
    | some e =>
      exact .bind (keeps_envPgdirPtr e).others fun _ =>
        .bind (keeps_userMemCheck _ _ _ _).ctl.others fun _ =>
        .ite (.pure _) <| .bind keeps_rcr3.others fun _ =>
        .bind (keeps_loadTrapframe _ _).ctl.others fun _ =>
        .modify_bind (fun _ => ⟨rfl, fun _ _ => rfl⟩) <|
        .modify_bind (fun _ => ⟨rfl, fun _ _ => rfl⟩) <|
        .bind (keeps_orUserCs _ _).ctl.others fun _ =>
          .pure _
  | envSetPgfaultUpcall =>
    refine .bind (keeps_envid2env _ _).others fun r => ?_
    cases r with
    | none => exact .pure _
    | some e =>
      exact .modify_bind (fun _ => ⟨rfl, fun _ _ => rfl⟩) <| .pure _
  | yield => exact .bind others_schedYield fun _ => .pure _
  | ipcTrySend =>
    refine .bind keeps_curenvPtr.others fun cur =>
      .bind (keeps_envPageLookup _ _).others fun found =>
      .bind (keeps_envid2env _ _).others fun r => ?_
    cases r with
    | none => exact .pure _
    | some dst =>
      refine .get_bind fun s => .ite (.pure _) <|
        .ite (.pure _) ?_
      match found with
      | none => exact hdeliver _ _ _ _
      | some (pp, _) =>
        exact .ite (.bind (keeps_envPageInsert _ _ _ _).others fun _ =>
          .ite (.pure _) (hdeliver _ _ _ _)) (hdeliver _ _ _ _)
  | ipcRecv =>
    exact .ite (.pure _) <| .bind keeps_curenvPtr.others fun _ =>
      .modify_bind (fun _ => ⟨rfl, fun _ _ => rfl⟩) <|
      .modify_bind (fun _ => ⟨rfl, fun _ _ => rfl⟩) <|
      .bind others_schedYield fun _ => .pure _
  | timeMsec => exact .gets _
  | sendPacket => exact (keeps_sysSendPacket _ _).others
  | rcvPacket => exact (keeps_sysRcvPacket _ _).others

theorem others_trapDispatch (tf : Trapframe) (e : Option ℕ) (cr2 : ℕ) :
    KeepsOthers (trapDispatch tf e cr2) := by
  refine .ite ?_ <| .ite (.pure _) <| .ite ?_ <|
    .ite (.pure _) <| .ite
      (.bind keeps_timeTick.others fun _ => others_schedYield) <|
    .ite (.pure _) <| .ite (.pure _) <|
    .ite (.halt trivial) <|
      .bind keeps_curenvPtr.others fun _ => others_envDestroy _
  · exact .ite (.halt trivial) <| .bind keeps_curenvPtr.others fun _ =>
      .get_bind fun _ =>
      .bind (.when (others_envDestroy _)) fun _ =>
      .bind (others_userMemAssert _ _ _ _) fun _ =>
      .bind keeps_rcr3.others fun _ =>
      .bind (keeps_storeUtf _ _ _ _).ctl.others fun _ =>
      .modify_bind (fun _ => ⟨rfl, fun _ _ => rfl⟩) <| others_envRun _
  · refine .bind ?_ fun r => ?_
    · unfold syscall
      cases Sysno.decode tf.tfRegs.regEax.toNat with
      | none => exact .pure _
      | some no => exact others_run no _ _ _ _ _
    · cases e with
      | none => exact .pure _
      | some e => exact .modify fun _ => ⟨rfl, fun _ _ => rfl⟩

theorem others_exec (ev : Event) : KeepsOthers ev.exec := by
  have hret : KeepsOthers trapReturn := by
    refine .get_bind fun s => ?_
    cases s.curenv with
    | none => exact others_schedYield
    | some e => exact .ite (others_envRun e) others_schedYield
  have htrap : ∀ tf cr2, KeepsOthers (trap tf cr2) := by
    intro tf cr2
    refine .bind (SameOthers.cpu _) fun _ => .ite
      (.get_bind fun s => ?_)
      (.bind (others_trapDispatch _ _ _) fun _ => hret)
    cases s.curenv with
    | none => exact .halt trivial
    | some e =>
      refine .ite ?_ ?_
      · exact .bind (others_envFree e) fun _ =>
          .bind (SameOthers.cpu _) fun _ => others_schedYield
      · exact .modify_bind (fun _ => ⟨rfl, fun _ _ => rfl⟩) <|
          .bind (others_trapDispatch _ _ _) fun _ => hret
  cases ev with
  | trap tf cr2 => exact htrap tf cr2
  | intr trapno => exact htrap _ _
  | start => exact others_schedYield
  | store va b => exact (keeps_userStore va b).others
  | create binary type => exact others_envCreate binary type
  | device nic g => exact .modify fun _ => ⟨rfl, fun _ _ => rfl⟩

end Jos
