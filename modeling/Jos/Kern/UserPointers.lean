/-
Accesses through user pointers.

Four system calls follow a pointer the caller passes in.  Each byte they read
or write through it is an observation of the trace; `Kern.OwnAccess` says of a
call that the caller could make all its accesses itself.

* `sysCputs_accesses`, `sysEnvSetTrapframe_accesses`, `sysSendPacket_accesses`,
  `sysRcvPacket_accesses` — the bytes each of the calls accesses.
-/
import Jos.Kern.RunState
import Jos.Kern.UserMem

namespace Jos

open Prog Demo

variable {m : Mm} {s : Kern} {va : ℕ}

/-! ### What a program adds to the trace -/

def Obs.isWrite : Obs → Bool
  | .write _ => true
  | _ => false

/-- The trace has grown by observations in `A`, at most `w` of them writes. -/
def Mm.Adds (A : Obs → Prop) (w : ℕ) (m m' : Mm) : Prop :=
  ∃ l, m'.trace = l ++ m.trace ∧ (∀ o ∈ l, A o) ∧ l.countP Obs.isWrite ≤ w

namespace Mm.Adds

variable {A : Obs → Prop} {v w : ℕ}

theorem of_eq {m' : Mm} (h : m'.trace = m.trace) : m.Adds A w m' :=
  ⟨[], h, by simp, Nat.zero_le w⟩

theorem refl (m : Mm) : m.Adds A w m := of_eq rfl

theorem mono {m' : Mm} (h : m.Adds A v m') (hw : v ≤ w) : m.Adds A w m' := by
  obtain ⟨l, hl, hA, hc⟩ := h
  exact ⟨l, hl, hA, hc.trans hw⟩

theorem trans {a b c : Mm} (h : a.Adds A v b) (h' : b.Adds A w c) : a.Adds A (v + w) c := by
  obtain ⟨l, hl, hA, hc⟩ := h
  obtain ⟨l', hl', hA', hc'⟩ := h'
  refine ⟨l' ++ l, by rw [hl', hl, List.append_assoc], fun o ho => ?_, ?_⟩
  · rcases List.mem_append.mp ho with ho | ho
    · exact hA' o ho
    · exact hA o ho
  · rw [List.countP_append]
    omega

theorem log {o : Obs} (ho : A o) (hw : (if o.isWrite then 1 else 0) ≤ w) : m.Adds A w (m.log o) :=
  ⟨[o], rfl, by simpa using ho, by simpa [List.countP_cons] using hw⟩

end Mm.Adds

/-- The same for the whole kernel. -/
def Kern.Adds (A : Obs → Prop) (w : ℕ) (s s' : Kern) : Prop := s.mm.Adds A w s'.mm

/-- Programs of which this is all that they add. -/
abbrev Mm.Accesses {α : Type} (A : Obs → Prop) (w : ℕ) (m : MmM α) : Prop :=
  Keeps (Mm.Adds A w) Stop.any m

abbrev Kern.Accesses {α : Type} (A : Obs → Prop) (w : ℕ) (m : KernM α) : Prop :=
  Keeps (Kern.Adds A w) Stop.any m

section Rules

variable {α β σ : Type} {A : Obs → Prop} {v w : ℕ}

instance : IsPreorder Mm (Mm.Adds A 0) where
  refl := Mm.Adds.refl
  trans _ _ _ h h' := h.trans h'

instance : IsPreorder Kern (Kern.Adds A 0) where
  refl s := Mm.Adds.refl s.mm
  trans _ _ _ h h' := Mm.Adds.trans h h'

theorem keeps_add {r : ℕ → σ → σ → Prop}
    (ht : ∀ {v w : ℕ} {a b c : σ}, r v a b → r w b c → r (v + w) a c)
    (hm : ∀ {v w : ℕ} {a b : σ}, r v a b → v ≤ w → r w a b) {m : Prog Stop σ α}
    {f : α → Prog Stop σ β} (h : Keeps (r v) Stop.any m) (hf : ∀ a, Keeps (r w) Stop.any (f a)) :
    Keeps (r (v + w)) Stop.any (m >>= f) := by
  intro s
  rw [wp_bind]
  refine (h s).mono (fun a s' hs => ?_) fun _ _ hs => ⟨hm hs.1 (by omega), trivial⟩
  exact (hf a s').mono (fun _ _ h' => ht hs h') fun _ _ h' => ⟨ht hs h'.1, trivial⟩

theorem Mm.Adds.bind {m : MmM α} {f : α → MmM β} (h : Mm.Accesses A v m)
    (hf : ∀ a, Mm.Accesses A w (f a)) : Mm.Accesses A (v + w) (m >>= f) :=
  keeps_add (fun h h' => h.trans h') (fun h hw => h.mono hw) h hf

theorem Kern.Adds.bind {m : KernM α} {f : α → KernM β} (h : Kern.Accesses A v m)
    (hf : ∀ a, Kern.Accesses A w (f a)) : Kern.Accesses A (v + w) (m >>= f) :=
  keeps_add (r := Kern.Adds A) (fun h h' => Mm.Adds.trans h h') (fun h hw => Mm.Adds.mono h hw) h hf

theorem Mm.Accesses.lift {m : MmM α} (h : Mm.Accesses A w m) : Kern.Accesses A w (liftMm m) :=
  Keeps.zoom h fun _ _ hm => hm

theorem Mm.Quiet.adds {m : MmM α} (h : Mm.Quiet m) (hA : A .nullPte) : Mm.Accesses A 0 m := by
  have hle : ∀ {m m' : Mm}, m.Ext Obs.isNullPte m' → m.Adds A 0 m' := by
    intro m m' hm
    obtain ⟨l, hl, hlo⟩ := hm.trace
    have hnull : ∀ o ∈ l, o = .nullPte := fun o ho => by
      have := hlo o ho
      cases o <;> first | rfl | cases this
    refine ⟨l, hl, fun o ho => hnull o ho ▸ hA, Nat.le_of_eq (List.countP_eq_zero.mpr fun o ho => ?_)⟩
    rw [hnull o ho]
    exact Bool.false_ne_true
  exact fun s => (h s).mono (fun _ _ h => hle h) fun _ _ h => ⟨hle h.1, trivial⟩

theorem Kern.Adds.of_eq {s' : Kern} (h : s'.mm.trace = s.mm.trace) : s.Adds A w s' :=
  Mm.Adds.of_eq h

end Rules

/-! ### Loads and stores -/

section Accesses

variable {A : Obs → Prop}

theorem adds_uload (pd : ℕ) (h : A (.read va)) : Mm.Accesses A 0 (uload pd va) := by
  intro m
  rw [uload, wp_bind, wp_modify, vload, wp_bind, wp_get, wp_ite]
  exact ⟨fun _ => Mm.Adds.log h (Nat.le_refl 0), fun _ => ⟨Mm.Adds.log h (Nat.le_refl 0), trivial⟩⟩

theorem adds_ustore (pd b : ℕ) (h : A (.write va)) : Mm.Accesses A 1 (ustore pd va b) := by
  intro m
  have hlog : m.Adds A 1 (m.log (.write va)) := Mm.Adds.log h (Nat.le_refl 1)
  rw [ustore, wp_bind, wp_modify, vstore, wp_bind, wp_get, wp_ite]
  exact ⟨fun _ => hlog, fun _ => ⟨hlog, trivial⟩⟩

theorem adds_uload32 (pd : ℕ) (hva : va < 2 ^ 32) (h : ∀ k < 4, A (.read ((va + k) % 2 ^ 32))) :
    Mm.Accesses A 0 (uload32 pd va) := by
  have h0 := h 0 (by decide)
  rw [Nat.add_zero, Nat.mod_eq_of_lt hva] at h0
  exact .bind (adds_uload _ h0) fun _ => .bind (adds_uload _ (h 1 (by decide))) fun _ =>
    .bind (adds_uload _ (h 2 (by decide))) fun _ => .bind (adds_uload _ (h 3 (by decide))) fun _ => .pure _

theorem adds_ustore32 (pd w : ℕ) (hva : va < 2 ^ 32) (h : ∀ k < 4, A (.write ((va + k) % 2 ^ 32))) :
    Mm.Accesses A 4 (ustore32 pd va w) := by
  have h0 := h 0 (by decide)
  rw [Nat.add_zero, Nat.mod_eq_of_lt hva] at h0
  exact Mm.Adds.bind (v := 1) (w := 3) (adds_ustore _ _ h0) fun _ =>
    Mm.Adds.bind (v := 1) (w := 2) (adds_ustore _ _ (h 1 (by decide))) fun _ =>
    Mm.Adds.bind (v := 1) (w := 1) (adds_ustore _ _ (h 2 (by decide))) fun _ =>
      adds_ustore _ _ (h 3 (by decide))

theorem adds_loadTrapframe (pd : ℕ) {tf : ℕ} (h : ∀ k < sizeofTrapframe, A (.read ((tf + k) % 2 ^ 32))) :
    Mm.Accesses A 0 (loadTrapframe pd tf) := by
  refine loadTrapframe_words fun k hk => adds_uload32 _ (Nat.mod_lt _ (by decide)) fun j hj => ?_
  rw [Nat.mod_add_mod, Nat.add_assoc]
  exact h (4 * k + j) (by simp only [sizeofTrapframe]; omega)

theorem adds_orUserCs (pd : ℕ) {tf : ℕ}
    (hr : ∀ k < sizeofTrapframe, A (.read ((tf + k) % 2 ^ 32)))
    (hw : A (.write ((tf + 52) % 2 ^ 32)) ∧ A (.write ((tf + 53) % 2 ^ 32))) :
    Mm.Accesses A 2 (orUserCs pd tf) :=
  Mm.Adds.bind (v := 0) (w := 2) (adds_uload _ (hr 52 (by decide))) fun _ =>
    Mm.Adds.bind (v := 0) (w := 2) (adds_uload _ (hr 53 (by decide))) fun _ =>
    Mm.Adds.bind (v := 1) (w := 1) (adds_ustore _ _ hw.1) fun _ => adds_ustore _ _ hw.2

theorem adds_printChars {pd : ℕ} {m₀ : Mm} :
    ∀ k n p precision m, m.mem = m₀.mem → m₀.byteAt pd (p + k) = 0 →
      (∀ j ≤ k, A (.read (p + j))) → p + k < 2 ^ 32 → k < n →
      wp (printChars pd n p precision) (fun _ m' => m.Adds A 0 m') (fun _ m' => m.Adds A 0 m') m := by
  intro k
  induction k with
  | zero =>
    intro n p precision m hm hz hA _ hn
    obtain ⟨n, rfl⟩ := Nat.exists_eq_succ_of_ne_zero (by omega : n ≠ 0)
    rw [printChars, wp_bind]
    have hv := wp_uload (R := fun _ _ => True) m₀ pd p hm fun _ => trivial
    refine ((adds_uload _ (hA 0 (Nat.le_refl 0)) m).and hv).mono (fun ch m₁ h₁ => ?_) fun _ _ h => h.1.1
    have hch : ch = 0 := h₁.2.1.trans hz
    rw [if_pos hch]
    exact h₁.1
  | succ k ih =>
    intro n p precision m hm hz hA hp hn
    obtain ⟨n, rfl⟩ := Nat.exists_eq_succ_of_ne_zero (by omega : n ≠ 0)
    rw [printChars, wp_bind]
    have hv := wp_uload (R := fun _ _ => True) m₀ pd p hm fun _ => trivial
    refine ((adds_uload _ (hA 0 (Nat.zero_le _)) m).and hv).mono (fun ch m₁ h₁ => ?_) fun _ _ h => h.1.1
    -- one character further on, whatever is left of the precision
    have hnext : ∀ q, wp (printChars pd n ((p + 1) % 2 ^ 32) q) (fun _ m' => m.Adds A 0 m')
        (fun _ m' => m.Adds A 0 m') m₁ := by
      intro q
      have hp1 : (p + 1) % 2 ^ 32 = p + 1 := Nat.mod_eq_of_lt (by omega)
      rw [hp1]
      refine (ih n (p + 1) q m₁ h₁.2.2 ?_ (fun j hj => ?_) (by omega) (by omega)).mono
        (fun _ _ h => h₁.1.trans h) fun _ _ h => h₁.1.trans h
      · rw [← hz]
        congr 1
        omega
      · have := hA (j + 1) (by omega)
        rwa [show p + 1 + j = p + (j + 1) by omega]
    rw [wp_ite, wp_ite, wp_ite]
    exact ⟨fun _ => h₁.1, fun _ => ⟨fun _ => hnext _, fun _ => ⟨fun _ => hnext _, fun _ => h₁.1⟩⟩⟩

end Accesses

/-! ### Giving up -/

section Quiet

variable {A : Obs → Prop}

theorem adds_envPgdirPtr (e : ℕ) : Kern.Accesses A 0 (envPgdirPtr e) := by
  refine .get_bind fun s => ?_
  cases (s.envs e).envPgdir with
  | none => exact .halt trivial
  | some d => exact .pure d

theorem adds_envRun (e : ℕ) : Kern.Accesses A 0 (envRun e) := by
  have hpop : Kern.Accesses A 0 (envPopTf e) :=
    .modify_bind (fun _ => .of_eq rfl) <|
      .modify_bind (fun _ => .of_eq rfl) <| .halt trivial
  have hpre : Kern.Accesses A 0 preemptCurenv := by
    refine .get_bind fun s => ?_
    cases s.curenv with
    | none => exact .pure _
    | some c => exact .when (.modify fun _ => .of_eq rfl)
  refine .get_bind fun s => .ite ?_ hpop
  exact .bind hpre fun _ => .modify_bind (fun _ => .of_eq rfl) <|
    .modify_bind (fun _ => .of_eq rfl) <| .modify_bind (fun _ => .of_eq rfl) <|
    .bind (adds_envPgdirPtr e) fun _ => .modify_bind (fun _ => .of_eq rfl) <| hpop

theorem adds_schedYield : Kern.Accesses A 0 schedYield := by
  have hhalt : Kern.Accesses A 0 schedHalt :=
    .get_bind fun _ => .ite (.halt trivial) <|
      .modify_bind (fun _ => .of_eq rfl) <| .modify_bind (fun _ => .of_eq rfl) <|
        .modify_bind (fun _ => .of_eq rfl) <| .halt trivial
  refine .get_bind fun s => ?_
  cases s.schedScan s.schedStart nenv with
  | some j => exact .ite (adds_envRun j) (.halt trivial)
  | none =>
    cases s.curenv with
    | none => exact hhalt
    | some c => exact .ite (adds_envRun c) hhalt

theorem adds_envDestroy (hnull : A .nullPte) (hfree : ∀ e, A (.envFree e)) (e : ℕ) :
    Kern.Accesses A 0 (envDestroy e) := by
  have hlog : Kern.Accesses A 0 (Prog.modify (·.log (.envFree e)) : KernM Unit) :=
    Keeps.modify fun s => Mm.Adds.log (hfree e) (Nat.le_refl 0)
  have hfreeing : Kern.Accesses A 0 (envFree e) := by
    refine .bind hlog fun _ => .get_bind fun s =>
      .bind (.when (.modify fun _ => .of_eq rfl)) fun _ =>
      .bind (adds_envPgdirPtr e) fun d => .bind (.gets _) fun cr3 =>
      .bind (Mm.Quiet.adds (.forFrom (fun i => keeps_freePde cr3 d i) _ _) hnull).lift fun _ =>
      .modify_bind (fun _ => .of_eq rfl) <|
      .bind (Mm.Quiet.adds (.bind (keeps_pa2page _) keeps_pageDecref) hnull).lift fun _ => ?_
    exact .modify_bind (fun _ => .of_eq rfl) <| .modify fun _ => .of_eq rfl
  exact .get_bind fun _ => .ite (.modify fun _ => .of_eq rfl) <|
    .bind hfreeing fun _ => .get_bind fun _ =>
      .ite (.modify_bind (fun _ => .of_eq rfl) <| adds_schedYield)
        (.pure _)

end Quiet

/-! ### The check -/

/-- One page of a range passes `user_mem_check`. -/
def Mm.PageOk (m : Mm) (pd perm i : ℕ) : Prop :=
  present (m.pde pd i) ∧ i < ulim ∧ m.pte pd i &&& perm = perm
  deriving Decidable

/-- The range passes: every page from its first one on, as many as the C
arithmetic counts. -/
def Mm.Accepts (m : Mm) (pd va len perm : ℕ) : Prop :=
  ∀ k < (roundup ((va + len) % 2 ^ 32) pgsize - rounddown va pgsize) / pgsize,
    m.PageOk pd perm (rounddown va pgsize + k * pgsize)

theorem wp_userMemScan (pd va vaR perm : ℕ) (m : Mm) : ∀ n i m', m.SameButAddr m' →
    wp (userMemScan pd va vaR perm i n)
      (fun r _ => r = -eFault ∨ (r = 0 ∧ ∀ k < n, m.PageOk pd perm (i + k * pgsize)))
      (fun _ _ => True) m' := by
  intro n
  induction n with
  | zero =>
    intro i m' _
    exact .inr ⟨rfl, fun k hk => absurd hk (Nat.not_lt_zero k)⟩
  | succ n ih =>
    rintro i m' ⟨a, rfl⟩
    rw [userMemScan, wp_bind, pgdirWalk, wp_bind, wp_get, wp_bind, kaddr, wp_bind, wp_get, wp_ite]
    refine ⟨fun _ => trivial, fun _ => ?_⟩
    rw [wp_pure, wp_ite]
    refine ⟨fun hp => ?_, fun hp => ?_⟩
    · rw [wp_pure, wp_bind, wp_get, wp_ite]
      refine ⟨fun _ => .inl rfl, fun hf => ?_⟩
      refine (ih (i + pgsize) _ ⟨a, rfl⟩).imp fun r _ h => h.imp_right fun hr => ?_
      refine ⟨hr.1, fun k hk => ?_⟩
      cases k with
      | zero =>
        simp only [decide_eq_true_eq, not_or, not_not, not_le] at hf
        rw [Nat.zero_mul, Nat.add_zero]
        exact ⟨hp, hf.1, hf.2⟩
      | succ k =>
        rw [Nat.succ_mul, Nat.add_comm (k * pgsize), ← Nat.add_assoc]
        exact hr.2 k (by omega)
    · rw [if_neg Bool.false_ne_true, wp_pure, wp_bind, wp_get, wp_ite]
      exact ⟨fun _ => .inl rfl, fun hf => absurd rfl hf⟩

theorem wp_userMemCheck (pd va len perm : ℕ) (m : Mm) :
    wp (userMemCheck pd va len perm)
      (fun r m' => m.SameButAddr m' ∧ (r = -eFault ∨ (r = 0 ∧ m.Accepts pd va len perm)))
      (fun _ m' => m.SameButAddr m') m := by
  have hs := wp_userMemScan pd va (rounddown va pgsize) perm m
    ((roundup ((va + len) % 2 ^ 32) pgsize - rounddown va pgsize) / pgsize) (rounddown va pgsize) m
    ⟨m.userMemCheckAddr, rfl⟩
  exact ((addr_userMemCheck pd va len perm m).and hs).mono (fun _ _ h => h) fun _ _ h => h.1.1

theorem wp_liftCheck {β : Type} {f : ℤ → KernM β} {Q : β → Kern → Prop} {R : Stop → Kern → Prop}
    (pd va len perm : ℕ)
    (hf : ∀ r s', s.SameMem s' → s'.mm.trace = s.mm.trace → s'.nic = s.nic → (r = -eFault ∨ (r = 0 ∧ s.mm.Accepts pd va len perm)) → wp (f r) Q R s')
    (hR : ∀ st s', s'.mm.trace = s.mm.trace → R st s') :
    wp (liftMm (userMemCheck pd va len perm) >>= f) Q R s := by
  rw [wp_bind, liftMm, wp_zoom]
  refine (wp_userMemCheck pd va len perm s.mm).mono (fun r m' h => ?_) fun st m' h => ?_
  · obtain ⟨⟨a, rfl⟩, hr⟩ := h
    exact hf r _ ⟨⟨rfl, rfl, rfl, rfl, rfl, Mm.Ext.of_eq rfl rfl rfl⟩, rfl⟩ rfl rfl hr
  · obtain ⟨a, rfl⟩ := h
    exact hR st _ rfl

theorem Mm.accepts_congr {m' : Mm} (h : m'.mem = m.mem) (pd va len perm : ℕ) :
    m'.Accepts pd va len perm ↔ m.Accepts pd va len perm := by
  simp only [Mm.Accepts, Mm.PageOk, Mm.pte, Mm.pde, h]

/-! ### The calls -/

/-- The environment with page directory `pd` could make the access itself. -/
def Mm.Allows (m : Mm) (pd : ℕ) : Obs → Prop
  | .read va => va < ulim ∧ m.uReads pd va
  | .write va => va < ulim ∧ m.uWrites pd va
  | _ => True

/-- The packet the driver would hand out next. -/
def Kern.rxNext (s : Kern) : RxDesc := s.nic.rxq ((s.nic.rdt + 1) % nrxdesc)

/-- The calls that follow a user pointer. -/
def Sysno.pointer : Sysno → Bool
  | .cputs => true
  | .envSetTrapframe => true
  | .sendPacket => true
  | .rcvPacket => true
  | _ => false

/-- The accesses of a call are the caller's own; `pd` is its page directory,
`a1` and `a2` are its arguments. -/
def Kern.OwnAccess (s : Kern) (pd : ℕ) (no : Sysno) (a1 a2 : ℕ) : Prop :=
  match no with
  | .cputs => a1 ≠ 0 → s.mm.Accepts pd a1 a2 (pteU ||| pteP ||| pteU) →
      ∃ i < a2, s.mm.byteAt pd (a1 + i) = 0 ∧ ∀ j ≤ i, s.mm.Allows pd (.read (a1 + j))
  | .envSetTrapframe => ∀ e ∈ s.envOf a1 true, ∀ d ∈ (s.envs e).envPgdir,
      s.mm.Accepts d a2 sizeofTrapframe (pteW ||| pteU) →
      (∀ k < sizeofTrapframe, s.mm.Allows pd (.read ((a2 + k) % 2 ^ 32))) ∧
        s.mm.Allows pd (.write ((a2 + 52) % 2 ^ 32)) ∧ s.mm.Allows pd (.write ((a2 + 53) % 2 ^ 32))
  | .sendPacket => s.mm.Accepts pd a1 a2 pteU → a2 ≤ pktBufSize →
      (s.nic.txDesc s.nic.tdt).status &&& 1 ≠ 0 →
      ∀ k < a2, s.mm.Allows pd (.read ((a1 + k) % 2 ^ 32))
  | .rcvPacket => (∀ k < 4, s.mm.Allows pd (.read ((a2 + k) % 2 ^ 32))) ∧
      (s.mm.Accepts pd a1 (s.mm.wordAt pd a2) (pteU ||| pteW) →
        s.rxNext.status &&& 1 ≠ 0 → s.rxNext.status &&& 2 ≠ 0 →
        (∀ k < 4, s.mm.Allows pd (.write ((a2 + k) % 2 ^ 32))) ∧
        (s.mm.setWord32 pd a2 s.rxNext.length).wordAt pd a2 ≤ s.mm.wordAt pd a2 ∧
        ∀ k < (s.mm.setWord32 pd a2 s.rxNext.length).wordAt pd a2,
          s.mm.Allows pd (.write ((a1 + k) % 2 ^ 32)))
  | _ => True

section Calls

variable {s : Kern} {e d a1 a2 : ℕ}

theorem sysCputs_accesses (hcur : s.curenv = some e) (hd : (s.envs e).envPgdir = some d)
    (hcr3 : s.thiscpu.cr3 = d) (hok : s.OwnAccess d .cputs a1 a2) :
    wp (sysCputs a1 a2)
      (fun _ s' => s.Adds (fun o => s.mm.Allows d o ∧ ∀ va, o = .read va → a1 ≤ va ∧ va < a1 + a2) 0 s')
      (fun _ s' => s.Adds (fun o => s.mm.Allows d o ∧ ∀ va, o = .read va → a1 ≤ va ∧ va < a1 + a2) 0 s')
      s := by
  generalize hA : (fun o => s.mm.Allows d o ∧ ∀ va, o = Obs.read va → a1 ≤ va ∧ va < a1 + a2) = A
  have hA' : ∀ o, A o ↔ s.mm.Allows d o ∧ ∀ va, o = Obs.read va → a1 ≤ va ∧ va < a1 + a2 := by
    intro o
    rw [← hA]
  rw [sysCputs, wp_bind_of_ret (curenvPtr_eq hcur), wp_bind, userMemAssert, wp_bind,
    wp_of_ret (envPgdirPtr_eq hd)]
  refine wp_liftCheck _ _ _ _ (fun r s₁ h₁ htr _ hr => ?_) fun _ s' htr => Mm.Adds.of_eq htr
  have hsame : s.Adds A 0 s₁ := Mm.Adds.of_eq htr
  rw [wp_when]
  refine ⟨fun _ => ?_, fun hneg => ?_⟩
  · -- the environment is destroyed, and nothing of it is looked at
    have hdes : Kern.Accesses A 0 (envDestroy e) :=
      adds_envDestroy ((hA' _).mpr ⟨trivial, fun _ h => by cases h⟩)
        (fun _ => (hA' _).mpr ⟨trivial, fun _ h => by cases h⟩) e
    have hno := envDestroy_no_ret (h₁.curenv.trans hcur)
    exact ((hdes s₁).and hno).mono (fun _ _ h => h.2.elim) fun _ _ h => hsame.trans h.1.1
  · have hacc : s.mm.Accepts d a1 a2 (pteU ||| pteP ||| pteU) := by
      rcases hr with rfl | hr
      · exact absurd (by decide) hneg
      · exact hr.2
    rw [wp_bind, rcr3, wp_gets, h₁.thiscpu, hcr3, wp_when]
    refine ⟨fun hne => ?_, fun _ => hsame⟩
    obtain ⟨i, hi, hz, hread⟩ := hok hne hacc
    have hlast : a1 + i < ulim := (hread i (Nat.le_refl i)).1
    have hbound : a1 + i < 2 ^ 32 := hlast.trans (by decide)
    rw [liftMm, wp_zoom]
    refine (adds_printChars (A := A) i (2 ^ 32) a1 (toInt32 a2) s₁.mm h₁.mem hz
      (fun j hj => (hA' _).mpr ⟨hread j hj, fun va hva => ?_⟩) hbound (by omega)).mono
      (fun _ _ h => hsame.trans h) fun _ _ h => hsame.trans h
    cases hva
    omega

theorem sysEnvSetTrapframe_accesses (hcur : s.curenv = some e) (hcr3 : s.thiscpu.cr3 = d)
    (hok : s.OwnAccess d .envSetTrapframe a1 a2) :
    wp (sysEnvSetTrapframe a1 a2) (fun _ s' => s.Adds (s.mm.Allows d) 2 s')
      (fun _ s' => s.Adds (s.mm.Allows d) 2 s') s := by
  have hnone : s.Adds (s.mm.Allows d) 2 s := Mm.Adds.refl _
  rw [sysEnvSetTrapframe, wp_bind_of_ret (envid2env_eq hcur a1 true)]
  cases hx : s.envOf a1 true with
  | none => exact hnone
  | some x =>
    simp only
    rw [wp_bind]
    cases hdx : (s.envs x).envPgdir with
    | none => exact (wp_of_stop (envPgdirPtr_none hdx)).mpr hnone
    | some dx =>
      rw [wp_of_ret (envPgdirPtr_eq hdx)]
      refine wp_liftCheck _ _ _ _ (fun r s₁ h₁ htr _ hr => ?_) fun _ s' htr => Mm.Adds.of_eq htr
      rw [wp_ite]
      refine ⟨fun _ => Mm.Adds.of_eq htr, fun hneg => ?_⟩
      have hacc : s.mm.Accepts dx a2 sizeofTrapframe (pteW ||| pteU) := by
        rcases hr with rfl | hr
        · exact absurd (by decide) hneg
        · exact hr.2
      obtain ⟨hread, hwrite⟩ := hok x hx dx hdx hacc
      rw [wp_bind, rcr3, wp_gets, h₁.thiscpu, hcr3]
      have hload := (adds_loadTrapframe (A := s.mm.Allows d) d hread).lift
      have hor := (adds_orUserCs (A := s.mm.Allows d) d hread hwrite).lift
      have hall : Keeps (Kern.Adds (s.mm.Allows d) (0 + (0 + (0 + (2 + 0))))) Stop.any (do
          let frame ← liftMm (loadTrapframe d a2)
          modify (·.updEnv x ({ · with envTf := frame }))
          modify (·.updEnv x fun x =>
            { x with envTf := { x.envTf with tfEflags := x.envTf.tfEflags ||| flIf } })
          liftMm (orUserCs d a2)
          pure 0 : KernM ℤ) :=
        Kern.Adds.bind hload fun _ => Kern.Adds.bind (.modify fun _ => .of_eq rfl) fun _ =>
          Kern.Adds.bind (.modify fun _ => .of_eq rfl) fun _ => Kern.Adds.bind hor fun _ =>
            .pure _
      have hsame : s.Adds (s.mm.Allows d) 0 s₁ := Mm.Adds.of_eq htr
      exact (hall s₁).mono (fun _ _ h => hsame.trans h) fun _ _ h => hsame.trans h.1

theorem sysSendPacket_accesses (hcur : s.curenv = some e) (hd : (s.envs e).envPgdir = some d)
    (hcr3 : s.thiscpu.cr3 = d) (hok : s.OwnAccess d .sendPacket a1 a2) :
    wp (sysSendPacket a1 a2) (fun _ s' => s.Adds (s.mm.Allows d) 0 s')
      (fun _ s' => s.Adds (s.mm.Allows d) 0 s') s := by
  rw [sysSendPacket, wp_bind_of_ret (curenvPtr_eq hcur), wp_bind_of_ret (envPgdirPtr_eq hd)]
  refine wp_liftCheck _ _ _ _ (fun r s₁ h₁ htr hnic hr => ?_) fun _ s' htr => Mm.Adds.of_eq htr
  have hsame : s.Adds (s.mm.Allows d) 0 s₁ := Mm.Adds.of_eq htr
  rw [wp_ite]
  refine ⟨fun _ => hsame, fun h0 => ?_⟩
  have hacc : s.mm.Accepts d a1 a2 pteU := by
    rcases hr with rfl | hr
    · exact absurd (by decide) h0
    · exact hr.2
  rw [wp_bind, rcr3, wp_gets, h₁.thiscpu, hcr3, nicTransmit, wp_ite]
  refine ⟨fun _ => hsame, fun hlen => ?_⟩
  rw [wp_bind, wp_get, wp_ite]
  refine ⟨fun _ => hsame, fun hfree => ?_⟩
  have hread := hok hacc (Nat.le_of_not_lt hlen) (hnic ▸ hfree)
  -- the copying loop reads one byte a round
  rw [wp_bind]
  refine (wp_forFrom (R := fun _ s' => s.Adds (s.mm.Allows d) 0 s')
    (fun _ s' => s.Adds (s.mm.Allows d) 0 s') hsame fun k t _ hk ht => ?_).imp
    fun _ t ht => ht
  have hload := (adds_uload (A := s.mm.Allows d) d
    (hread k (by omega))).lift t
  rw [wp_bind]
  refine hload.mono (fun b t' h => ?_) fun _ t' h => ?_
  · exact Mm.Adds.trans (v := 0) (w := 0) ht h
  · exact Mm.Adds.trans (v := 0) (w := 0) ht h.1

theorem e1000Receive_accesses {n : ℕ} (ha2 : a2 < 2 ^ 32)
    (hread : ∀ k < 4, s.mm.Allows d (.read ((a2 + k) % 2 ^ 32)))
    (hok : s.rxNext.status &&& 1 ≠ 0 → s.rxNext.status &&& 2 ≠ 0 →
      (∀ k < 4, s.mm.Allows d (.write ((a2 + k) % 2 ^ 32))) ∧
      (s.mm.setWord32 d a2 s.rxNext.length).wordAt d a2 ≤ n ∧
      ∀ k < (s.mm.setWord32 d a2 s.rxNext.length).wordAt d a2,
        s.mm.Allows d (.write ((a1 + k) % 2 ^ 32)))
    {t : Kern} (hmem : t.mm.mem = s.mm.mem) (hnic : t.nic = s.nic) :
    wp (e1000Receive d a1 a2) (fun _ s' => t.Adds (s.mm.Allows d) (4 + n) s')
      (fun _ s' => t.Adds (s.mm.Allows d) (4 + n) s') t := by
  have hnone : t.Adds (s.mm.Allows d) (4 + n) t := Mm.Adds.refl _
  rw [e1000Receive, wp_bind, wp_get, wp_ite, wp_ite, hnic]
  refine ⟨fun _ => hnone, fun h1 => ⟨fun _ => hnone, fun h2 => ?_⟩⟩
  obtain ⟨hlen, hn, hcopy⟩ := hok h1 h2
  -- store the length
  rw [wp_bind, liftMm, wp_zoom]
  refine ((adds_ustore32 d _ ha2 hlen t.mm).and (wp_ustore32 s.mm d a2 s.rxNext.length hmem)).mono
    (fun _ m₁ h₁ => ?_) fun _ m₁ h₁ => h₁.1.1.mono (by omega)
  -- read it back
  rw [wp_bind, liftMm, wp_zoom]
  refine ((adds_uload32 d ha2 hread m₁).and
    (wp_uload32 (R := fun _ _ => True) _ d a2 h₁.2 fun _ => trivial)).mono (fun n' m₂ h₂ => ?_)
    fun _ m₂ h₂ => (h₁.1.trans h₂.1.1).mono (by omega)
  obtain ⟨h₂, hn', -⟩ := h₂
  have hsofar : t.mm.Adds (s.mm.Allows d) (4 + 0) m₂ := h₁.1.trans h₂
  subst hn'
  -- copy the packet
  rw [wp_bind, liftMm, wp_zoom]
  refine (wp_forFrom (R := fun _ m' => t.mm.Adds (s.mm.Allows d) (4 + n) m')
    (fun k m' => t.mm.Adds (s.mm.Allows d) (4 + k) m') hsofar fun k m₃ _ hk h₃ => ?_).imp
    fun _ m₃ h₃ => ?_
  · refine (adds_ustore d _ (hcopy k (by omega)) m₃).mono (fun _ m₄ h₄ => ?_) fun _ m₄ h₄ => ?_
    · exact h₃.trans h₄
    · exact (h₃.trans h₄.1).mono (by omega)
  · rw [wp_bind, wp_modify, wp_pure]
    exact Mm.Adds.mono h₃ (by omega)

theorem sysRcvPacket_accesses (hcur : s.curenv = some e) (hd : (s.envs e).envPgdir = some d)
    (hcr3 : s.thiscpu.cr3 = d) (ha2 : a2 < 2 ^ 32) (hok : s.OwnAccess d .rcvPacket a1 a2) :
    wp (sysRcvPacket a1 a2) (fun _ s' => s.Adds (s.mm.Allows d) (4 + s.mm.wordAt d a2) s')
      (fun _ s' => s.Adds (s.mm.Allows d) (4 + s.mm.wordAt d a2) s') s := by
  obtain ⟨hread, hok⟩ := hok
  rw [sysRcvPacket, wp_bind_of_ret (curenvPtr_eq hcur), wp_bind, rcr3, wp_gets, hcr3, wp_bind,
    liftMm, wp_zoom]
  refine ((adds_uload32 d ha2 hread s.mm).and
    (wp_uload32 (R := fun _ _ => True) s.mm d a2 rfl fun _ => trivial)).mono (fun n m₁ h₁ => ?_)
    fun _ m₁ h₁ => h₁.1.1.mono (by omega)
  obtain ⟨h₁, rfl, hmem⟩ := h₁
  generalize ht : ({ s with mm := m₁ } : Kern) = t
  have hmm : t.mm = m₁ := by rw [← ht]
  have hsame : s.Adds (s.mm.Allows d) 0 t := by rw [Kern.Adds, hmm]; exact h₁
  have hdt : (t.envs e).envPgdir = some d := by rw [← ht]; exact hd
  rw [wp_bind_of_ret (envPgdirPtr_eq hdt)]
  refine wp_liftCheck _ _ _ _ (fun r t₁ h₂ htr hnic hr => ?_)
    fun _ s' htr => (hsame.trans (Mm.Adds.of_eq (w := 0) htr)).mono (by omega)
  have hsame₁ : s.Adds (s.mm.Allows d) (0 + 0) t₁ := hsame.trans (Mm.Adds.of_eq htr)
  rw [wp_ite]
  refine ⟨fun _ => hsame₁.mono (by omega), fun h0 => ?_⟩
  have hacc : s.mm.Accepts d a1 (s.mm.wordAt d a2) (pteU ||| pteW) := by
    rcases hr with rfl | hr
    · exact absurd (by decide) h0
    · refine (Mm.accepts_congr ?_ d a1 _ _).mp hr.2
      rw [hmm, hmem]
  refine (e1000Receive_accesses (s := s) ha2 hread (hok hacc) ?_ ?_).mono
    (fun _ _ h => (hsame₁.trans h).mono (by omega)) fun _ _ h => (hsame₁.trans h).mono (by omega)
  · rw [h₂.mem, hmm, hmem]
  · rw [hnic, ← ht]

end Calls

theorem Kern.Adds.of_state {A : Obs → Prop} {w : ℕ} {α : Type} {m : KernM α} (htr : s.mm.trace = [])
    (h : wp m (fun _ s' => s.Adds A w s') (fun _ s' => s.Adds A w s') s) :
    (∀ o ∈ (m s).state.mm.trace, A o) ∧ (m s).state.mm.trace.countP Obs.isWrite ≤ w := by
  obtain ⟨l, hl, hA, hw⟩ := h.state
  rw [htr, List.append_nil] at hl
  rw [hl]
  exact ⟨hA, hw⟩

end Jos
