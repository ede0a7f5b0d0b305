/-
Loads and stores in user memory, on behalf of an environment.

Pages that a user can reach are neither tables nor directories, so storing
into them changes no translation: what was readable or writable before a
series of accesses still is after it (`UserAcc`).  Without `crash` every
access has to be one the tables allow.
-/
import Jos.Kern.MemInv

namespace Jos

open Prog

/-- Memory `m` meets the invariant and translates addresses as `m₀` does. -/
structure UserAcc (B : MemCtx) (dirs : ℕ → Option ℕ) (crash : Prop) (d : ℕ) (m₀ m : Mm) :
    Prop where
  page : PageInv B dirs [] [] m
  quiet : crash ∨ .nullPte ∉ m.trace
  walk : ∀ va, m.pde d va = m₀.pde d va ∧ (present (m₀.pde d va) → m.pte d va = m₀.pte d va)

/-- Where a series of accesses may stop. -/
def AccEnd (crash : Prop) (st : Stop) (_ : Mm) : Prop := crash ∧ st.bad

/-- The bytes `va` to `va + n - 1` can be read by the kernel. -/
def Mm.Readable (m : Mm) (d va n : ℕ) : Prop := ∀ k < n, m.kReads d ((va + k) % 2 ^ 32)

/-- They lie below `ULIM` and can be written. -/
def Mm.Writable (m : Mm) (d va n : ℕ) : Prop :=
  ∀ k < n, (va + k) % 2 ^ 32 < ulim ∧ m.kWrites d ((va + k) % 2 ^ 32)

theorem Mm.Readable.sub {m : Mm} {d va n : ℕ} (h : m.Readable d va n) (k l : ℕ) (hkl : k + l ≤ n) :
    m.Readable d ((va + k) % 2 ^ 32) l := by
  intro i hi
  rw [Nat.mod_add_mod, Nat.add_assoc]
  exact h (k + i) (by omega)

/-- The byte `b` has been stored at `va`, and the mapped bytes at other offsets
are what they were. -/
def Mm.Stored (m₀ m m' : Mm) (d va b : ℕ) : Prop :=
  m₀.kReads d va ∧ m'.byteAt d va = b % 256 ∧
    ∀ va', m₀.kReads d va' → va' % pgsize ≠ va % pgsize → m'.byteAt d va' = m.byteAt d va'

namespace UserAcc

variable {B : MemCtx} {dirs : ℕ → Option ℕ} {crash : Prop} {d : ℕ} {m₀ m m' : Mm}

theorem refl (h : PageInv B dirs [] [] m) (hq : crash ∨ .nullPte ∉ m.trace) :
    UserAcc B dirs crash d m m :=
  ⟨h, hq, fun _ => ⟨rfl, fun _ => rfl⟩⟩

theorem kReads (h : UserAcc B dirs crash d m₀ m) {va : ℕ} (hr : m₀.kReads d va) : m.kReads d va := by
  obtain ⟨hpde, hpte⟩ := h.walk va
  refine ⟨?_, ?_⟩
  · rw [hpde]
    exact hr.1
  · rw [hpte hr.1]
    exact hr.2

theorem kWrites (h : UserAcc B dirs crash d m₀ m) {va : ℕ} (hw : m₀.kWrites d va) :
    m.kWrites d va := by
  obtain ⟨hpde, hpte⟩ := h.walk va
  refine ⟨h.kReads hw.1, ?_, ?_⟩
  · rw [hpde]
    exact hw.2.1
  · rw [hpte hw.1.1]
    exact hw.2.2

theorem kReads_start (h : UserAcc B dirs crash d m₀ m) {va : ℕ} (hr : m.kReads d va) : m₀.kReads d va := by
  obtain ⟨hpde, hpte⟩ := h.walk va
  rw [Mm.kReads, hpde] at hr
  refine ⟨hr.1, ?_⟩
  rw [← hpte hr.1]
  exact hr.2

theorem stored (h : UserAcc B dirs crash d m₀ m) {va b : ℕ}
    (h' : UserAcc B dirs crash d m₀ (m.setByte d va b)) (hr : m.kReads d va) :
    Mm.Stored m₀ m (m.setByte d va b) d va b := by
  have hpte : ∀ va', m₀.kReads d va' → (m.setByte d va b).pte d va' = m.pte d va' :=
    fun va' hva' => ((h'.walk va').2 hva'.1).trans ((h.walk va').2 hva'.1).symm
  have hr₀ := h.kReads_start hr
  refine ⟨hr₀, ?_, fun va' hva' hne => ?_⟩
  · rw [Mm.byteAt, hpte va hr₀, Mm.setByte, Mm.setWord_self]
    exact Mm.putByte_same _ _ (Nat.mod_lt _ (by decide))
  · rw [Mm.byteAt, hpte va' hva', Mm.byteAt, Mm.setByte]
    by_cases hf : frame (m.pte d va') = frame (m.pte d va)
    · rw [hf]
      by_cases hword : pgoff va' / 4 = pgoff va / 4
      · rw [hword, Mm.setWord_self, Mm.putByte_other _ _ (Nat.mod_lt _ (by decide)) (Nat.mod_lt _ (by decide))]
        rw [pgoff_eq, pgoff_eq, show pgsize = 4096 from rfl] at hword
        rw [show pgsize = 4096 from rfl] at hne
        omega
      · rw [Mm.setWord_rest m _ _ _ hword]
    · rw [Mm.setWord_other m _ _ _ hf]

theorem same (h : UserAcc B dirs crash d m₀ m) (hs : m.SamePages m') :
    UserAcc B dirs crash d m₀ m' where
  page := h.page.congr hs.mem hs.npages hs.kern hs.pages hs.freeList
  quiet := h.quiet.imp_right fun hq hn => hq (hs.quiet hn)
  walk va := by
    have hpde : m'.pde d va = m.pde d va := by rw [Mm.pde, Mm.pde, hs.mem]
    have hpte : m'.pte d va = m.pte d va := by rw [Mm.pte, Mm.pte, hs.mem, hpde]
    rw [hpde, hpte]
    exact h.walk va

end UserAcc

section Accesses

variable {B : MemCtx} {dirs : ℕ → Option ℕ} {crash : Prop} {e d va b : ℕ} {m₀ m : Mm}

section

variable (h : UserAcc B dirs crash d m₀ m)
include h

theorem acc_uload (hok : crash ∨ m₀.kReads d va) :
    wp (uload d va) (fun c m' => UserAcc B dirs crash d m₀ m' ∧ m.SamePages m' ∧ c = m.byteAt d va)
      (AccEnd crash) m := by
  have hsame : m.SamePages (m.log (.read va)) := .log m (by simp)
  have hlog := h.same hsame
  rw [uload, wp_bind, wp_modify, vload, wp_bind, wp_get, wp_ite]
  refine ⟨fun _ => ⟨hlog, hsame, rfl⟩, fun hno => ⟨hok.resolve_right fun hr => hno ?_, rfl⟩⟩
  exact hlog.kReads hr

theorem acc_vstore (ha : UserVa dirs e d va) (hok : crash ∨ m₀.kWrites d va) :
    wp (vstore d va b) (fun _ m' => UserAcc B dirs crash d m₀ m') (AccEnd crash) m := by
  rw [vstore, wp_bind, wp_get, wp_ite]
  refine ⟨fun hw => ?_, fun hno => ⟨hok.resolve_right fun hw => hno (h.kWrites hw), rfl⟩⟩
  rw [wp_modify]
  have hp := target_of_kReads ha hw.1
  have hpool := h.page.shape.pool _ ha.page _ hp
  have hnt := h.page.shape.noTable ha.page hp
  refine ⟨(h.page.setByte ha hw.1 b).1, h.quiet, fun va' => ?_⟩
  obtain ⟨hpde, hpte⟩ := h.page.shape.walk_congr (m.setByte d va b) ha.slot ha.dir hpool hnt
    (fun q hq => m.setWord_other _ _ _ hq) va'
  obtain ⟨hpde₀, hpte₀⟩ := h.walk va'
  refine ⟨hpde.trans hpde₀, fun hpres => ?_⟩
  rw [hpte (by rw [hpde₀]; exact hpres), hpte₀ hpres]

theorem acc_ustore (he : e < nenv) (hd : dirs e = some d) (hlt : crash → va < ulim)
    (hok : crash ∨ (va < ulim ∧ m₀.kWrites d va)) :
    wp (ustore d va b) (fun _ m' => UserAcc B dirs crash d m₀ m' ∧ Mm.Stored m₀ m m' d va b)
      (AccEnd crash) m := by
  have hlog := h.same (.log m (o := .write va) (by simp))
  rw [ustore, wp_bind, wp_modify]
  by_cases hw : (m.log (.write va)).kWrites d va
  · -- a store that the tables allow below `ULIM` is one below `UTOP`
    have ha : UserVa dirs e d va :=
      ⟨he, hd, hlog.page.shape.user_of_kWrites he hd (hok.elim hlt And.left) hw⟩
    have hstore := acc_vstore (b := b) hlog ha (hok.imp_right And.right)
    rw [vstore, wp_bind, wp_get, if_pos hw, wp_modify] at hstore ⊢
    exact ⟨hstore, hlog.stored hstore hw.1⟩
  · rw [vstore, wp_bind, wp_get, if_neg hw]
    exact ⟨hok.resolve_right fun hw' => hw (hlog.kWrites hw'.2), rfl⟩

theorem acc_uload32 (hva : va < 2 ^ 32) (hok : crash ∨ m₀.Readable d va 4) :
    wp (uload32 d va) (fun _ m' => UserAcc B dirs crash d m₀ m' ∧ m.SamePages m')
      (AccEnd crash) m := by
  have hk : ∀ k < 4, crash ∨ m₀.kReads d ((va + k) % 2 ^ 32) := fun k hk =>
    hok.imp_right fun hr => hr k hk
  have h0 := hk 0 (by decide)
  rw [Nat.add_zero, Nat.mod_eq_of_lt hva] at h0
  rw [uload32]
  refine (acc_uload h h0).bind fun _ m₁ h₁ => ?_
  refine (acc_uload h₁.1 (hk 1 (by decide))).bind fun _ m₂ h₂ => ?_
  refine (acc_uload h₂.1 (hk 2 (by decide))).bind fun _ m₃ h₃ => ?_
  refine (acc_uload h₃.1 (hk 3 (by decide))).bind fun _ m₄ h₄ => ?_
  exact ⟨h₄.1, h₁.2.1.trans (h₂.2.1.trans (h₃.2.1.trans h₄.2.1))⟩

theorem acc_ustore32 {w : ℕ} (he : e < nenv) (hd : dirs e = some d) (hva : va < 2 ^ 32)
    (hlt : crash → va + 4 ≤ ulim) (hok : crash ∨ m₀.Writable d va 4) :
    wp (ustore32 d va w) (fun _ m' => UserAcc B dirs crash d m₀ m' ∧ m'.wordAt d va = w % 2 ^ 32)
      (AccEnd crash) m := by
  have hk : ∀ k < 4, crash ∨ ((va + k) % 2 ^ 32 < ulim ∧ m₀.kWrites d ((va + k) % 2 ^ 32)) :=
    fun k hk => hok.imp_right fun hr => hr k hk
  have hl : ∀ k < 4, crash → (va + k) % 2 ^ 32 < ulim := fun k hk hc =>
    (Nat.mod_le _ _).trans_lt (by have := hlt hc; omega)
  -- the four bytes have different offsets, also across the end of a page
  have hoff : ∀ i j, i < j → j < 4 → (va + i) % 2 ^ 32 % pgsize ≠ (va + j) % 2 ^ 32 % pgsize := by
    intro i j hij hj
    rw [show pgsize = 4096 from rfl]
    omega
  have h0 : (va + 0) % 2 ^ 32 = va := Nat.mod_eq_of_lt hva
  have hoff₀ : ∀ j, 0 < j → j < 4 → va % pgsize ≠ (va + j) % 2 ^ 32 % pgsize := by
    intro j hj hj4
    have := hoff 0 j hj hj4
    rwa [h0] at this
  have hst := acc_ustore (b := w) h he hd (hl 0 (by decide)) (hk 0 (by decide))
  rw [h0] at hst
  rw [ustore32]
  refine hst.bind fun _ m₁ h₁ => ?_
  refine (acc_ustore h₁.1 he hd (hl 1 (by decide)) (hk 1 (by decide))).bind fun _ m₂ h₂ => ?_
  refine (acc_ustore h₂.1 he hd (hl 2 (by decide)) (hk 2 (by decide))).bind fun _ m₃ h₃ => ?_
  refine (acc_ustore h₃.1 he hd (hl 3 (by decide)) (hk 3 (by decide))).imp fun _ m₄ h₄ => ⟨h₄.1, ?_⟩
  obtain ⟨-, r₀, b₀, -⟩ := h₁
  obtain ⟨-, r₁, b₁, o₁⟩ := h₂
  obtain ⟨-, r₂, b₂, o₂⟩ := h₃
  obtain ⟨-, -, b₃, o₃⟩ := h₄
  rw [Mm.wordAt, b₃, o₃ _ r₂ (hoff 2 3 (by decide) (by decide)), b₂,
    o₃ _ r₁ (hoff 1 3 (by decide) (by decide)), o₂ _ r₁ (hoff 1 2 (by decide) (by decide)), b₁,
    o₃ _ r₀ (hoff₀ 3 (by decide) (by decide)), o₂ _ r₀ (hoff₀ 2 (by decide) (by decide)),
    o₁ _ r₀ (hoff₀ 1 (by decide) (by decide)), b₀]
  omega

theorem acc_loadTrapframe {tf : ℕ} (hok : crash ∨ m₀.Readable d tf sizeofTrapframe) :
    wp (loadTrapframe d tf) (fun _ m' => UserAcc B dirs crash d m₀ m') (AccEnd crash) m := by
  have w : ∀ {α : Type} {f : ℕ → MmM α} {Q : α → Mm → Prop} {m' : Mm} (k : ℕ), k < 17 →
      UserAcc B dirs crash d m₀ m' →
      (∀ c m'', UserAcc B dirs crash d m₀ m'' → wp (f c) Q (AccEnd crash) m'') →
      wp (uload32 d ((tf + 4 * k) % 2 ^ 32) >>= f) Q (AccEnd crash) m' := by
    intro α f Q m' k hk h' hf
    refine (acc_uload32 h' (Nat.mod_lt _ (by decide)) (hok.imp_right fun hr => ?_)).bind
      fun c m'' h'' => hf c m'' h''.1
    exact hr.sub (4 * k) 4 (by rw [sizeofTrapframe]; omega)
  unfold loadTrapframe
  refine w 0 (by decide) h fun _ _ h => w 1 (by decide) h fun _ _ h => w 2 (by decide) h fun _ _ h =>
    w 3 (by decide) h fun _ _ h => w 4 (by decide) h fun _ _ h => w 5 (by decide) h fun _ _ h =>
    w 6 (by decide) h fun _ _ h => w 7 (by decide) h fun _ _ h => w 8 (by decide) h fun _ _ h =>
    w 9 (by decide) h fun _ _ h => w 10 (by decide) h fun _ _ h => w 11 (by decide) h fun _ _ h =>
    w 12 (by decide) h fun _ _ h => w 13 (by decide) h fun _ _ h => w 14 (by decide) h fun _ _ h =>
    w 15 (by decide) h fun _ _ h => w 16 (by decide) h fun _ _ h => h

theorem acc_orUserCs {tf : ℕ} (he : e < nenv) (hd : dirs e = some d)
    (hlt : crash → tf + sizeofTrapframe ≤ ulim)
    (hok : crash ∨ (m₀.Readable d tf sizeofTrapframe ∧ m₀.Writable d (tf + 52) 2)) :
    wp (orUserCs d tf) (fun _ m' => UserAcc B dirs crash d m₀ m') (AccEnd crash) m := by
  have hr : ∀ k < sizeofTrapframe, crash ∨ m₀.kReads d ((tf + k) % 2 ^ 32) := fun k hk =>
    hok.imp_right fun ho => ho.1 k hk
  have hw : ∀ k < 2, crash ∨ ((tf + 52 + k) % 2 ^ 32 < ulim ∧
      m₀.kWrites d ((tf + 52 + k) % 2 ^ 32)) := fun k hk => hok.imp_right fun ho => ho.2 k hk
  have hl : ∀ k < 2, crash → (tf + 52 + k) % 2 ^ 32 < ulim := fun k hk hc =>
    (Nat.mod_le _ _).trans_lt (by have := hlt hc; rw [sizeofTrapframe] at this; omega)
  rw [orUserCs]
  refine (acc_uload h (hr 52 (by decide))).bind fun _ m₁ h₁ => ?_
  refine (acc_uload h₁.1 (hr 53 (by decide))).bind fun _ m₂ h₂ => ?_
  refine (acc_ustore h₂.1 he hd (hl 0 (by decide)) (hw 0 (by decide))).bind fun _ m₃ h₃ => ?_
  exact (acc_ustore h₃.1 he hd (hl 1 (by decide)) (hw 1 (by decide))).imp fun _ _ h => h.1

end

/-- The string at `p` can be printed: every byte up to the one where printing
ends is mapped. -/
def Mm.PrintOk (m : Mm) (d p : ℕ) (precision : ℤ) : Prop :=
  ∃ n : ℕ, n < 2 ^ 32 ∧ ((n : ℤ) = precision ∨ m.byteAt d ((p + n) % 2 ^ 32) = 0) ∧
    m.Readable d p (n + 1)

theorem acc_printChars : ∀ (fuel p : ℕ) (precision : ℤ) (m : Mm), p < 2 ^ 32 →
    UserAcc B dirs crash d m₀ m → m.mem = m₀.mem →
    (crash ∨ ∃ n : ℕ, n < fuel ∧ ((n : ℤ) = precision ∨ m₀.byteAt d ((p + n) % 2 ^ 32) = 0) ∧
      m₀.Readable d p (n + 1)) →
    wp (printChars d fuel p precision) (fun _ m' => UserAcc B dirs crash d m₀ m')
      (AccEnd crash) m := by
  intro fuel
  induction fuel with
  | zero =>
    intro p precision m hp h hmem hok
    refine ⟨hok.resolve_right ?_, rfl⟩
    rintro ⟨n, hn, -⟩
    exact Nat.not_lt_zero n hn
  | succ fuel ih =>
    intro p precision m hp h hmem hok
    have hread : crash ∨ m₀.kReads d p := by
      refine hok.imp_right ?_
      rintro ⟨n, -, -, hr⟩
      have := hr 0 (Nat.succ_pos n)
      rwa [Nat.add_zero, Nat.mod_eq_of_lt hp] at this
    rw [printChars]
    refine (acc_uload h hread).bind fun ch m₁ h₁ => ?_
    obtain ⟨h₁, hsame, hch⟩ := h₁
    -- going on after a character that is not the last one
    have hnext : ∀ precision', ch ≠ 0 → (precision = 0 → False) →
        (∀ n : ℕ, (n + 1 : ℤ) = precision → (n : ℤ) = precision') →
        wp (printChars d fuel ((p + 1) % 2 ^ 32) precision')
          (fun _ m' => UserAcc B dirs crash d m₀ m') (AccEnd crash) m₁ := by
      intro precision' hne hpos hprec
      refine ih _ _ _ (Nat.mod_lt _ (by decide)) h₁ (hsame.mem.trans hmem) (hok.imp_right ?_)
      rintro ⟨n, hn, hend, hr⟩
      cases n with
      | zero =>
        exfalso
        rcases hend with hend | hend
        · exact hpos hend.symm
        · rw [Nat.add_zero, Nat.mod_eq_of_lt hp] at hend
          exact hne (by rw [hch, Mm.byteAt_congr hmem, hend])
      | succ n =>
        have hadd : ∀ k, ((p + 1) % 2 ^ 32 + k) % 2 ^ 32 = (p + (k + 1)) % 2 ^ 32 := by
          intro k
          rw [Nat.mod_add_mod, Nat.add_assoc, Nat.add_comm 1 k]
        refine ⟨n, by omega, ?_, hr.sub 1 (n + 1) (by omega)⟩
        rw [hadd]
        exact hend.imp_left fun hn' => hprec n (by push_cast at hn'; exact hn')
    rw [wp_ite]
    refine ⟨fun _ => h₁, fun hne => ?_⟩
    rw [wp_ite]
    refine ⟨fun hneg => hnext precision hne (by omega) (by omega), fun hnn => ?_⟩
    rw [wp_ite]
    exact ⟨fun hge => hnext (precision - 1) hne (by omega) (by omega), fun _ => h₁⟩

/-! ### The exception stack -/

theorem acc_vstore32 {w : ℕ} (h : UserAcc B dirs True d m₀ m) (he : e < nenv) (hd : dirs e = some d)
    (hva : va + 3 < utop) :
    wp (vstore32 d va w) (fun _ m' => UserAcc B dirs True d m₀ m') (AccEnd True) m := by
  have ha : ∀ k < 4, UserVa dirs e d (va + k) := fun k hk => .of_lt he hd (by omega)
  rw [vstore32]
  refine (acc_vstore h (ha 0 (by decide)) (.inl trivial)).bind fun _ m₁ h₁ => ?_
  refine (acc_vstore h₁ (ha 1 (by decide)) (.inl trivial)).bind fun _ m₂ h₂ => ?_
  refine (acc_vstore h₂ (ha 2 (by decide)) (.inl trivial)).bind fun _ m₃ h₃ => ?_
  exact acc_vstore h₃ (ha 3 (by decide)) (.inl trivial)

theorem utfAddr_le (esp : ℕ) : utfAddr esp + sizeofUTrapframe ≤ utop := by
  have hu : uxstacktop = utop := rfl
  have h52 : sizeofUTrapframe = 52 := rfl
  have hp : pgsize = 4096 := rfl
  have hbig : 4096 < utop := by decide
  unfold utfAddr
  split
  · omega
  · omega

theorem acc_storeUtf (h : UserAcc B dirs True d m₀ m) (he : e < nenv) (hd : dirs e = some d)
    (esp : ℕ) (tf : Trapframe) (va : ℕ) :
    wp (storeUtf d (utfAddr esp) tf va) (fun _ m' => UserAcc B dirs True d m₀ m')
      (AccEnd True) m := by
  have hle := utfAddr_le esp
  rw [show sizeofUTrapframe = 52 from rfl] at hle
  generalize utfAddr esp = utf at hle
  have w : ∀ {f : Unit → MmM Unit} {m' : Mm} (k c : ℕ), k + 3 < 52 →
      UserAcc B dirs True d m₀ m' →
      (∀ m'', UserAcc B dirs True d m₀ m'' →
        wp (f ()) (fun _ m' => UserAcc B dirs True d m₀ m') (AccEnd True) m'') →
      wp (vstore32 d (utf + k) c >>= f) (fun _ m' => UserAcc B dirs True d m₀ m')
        (AccEnd True) m' := by
    intro f m' k c hk h' hf
    rw [wp_bind]
    exact (acc_vstore32 h' he hd (by omega)).imp fun _ m'' h'' => hf m'' h''
  unfold storeUtf
  refine w 8 _ (by decide) h fun _ h => w 12 _ (by decide) h fun _ h => w 16 _ (by decide) h fun _ h =>
    w 20 _ (by decide) h fun _ h => w 24 _ (by decide) h fun _ h => w 28 _ (by decide) h fun _ h =>
    w 32 _ (by decide) h fun _ h => w 36 _ (by decide) h fun _ h => w 40 _ (by decide) h fun _ h =>
    w 4 _ (by decide) h fun _ h => w 48 _ (by decide) h fun _ h => w 0 _ (by decide) h fun _ h => ?_
  exact acc_vstore32 h he hd (by omega)

end Accesses

end Jos
