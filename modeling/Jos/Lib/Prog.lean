/-
Sequential programs over a state that may stop before they return.

`Prog ε σ α` is a program on states `σ`: it either returns a value of `α` with
a new state, or stops for a reason in `ε` (a crash, a control transfer that
never comes back) and leaves the state it stopped in.

* `Prog.wp` — the weakest precondition, with one postcondition for returning
  and one for stopping, and a rule for every constructor (`wp_bind`,
  `wp_pure`, `wp_modify`, ...);
* `Prog.wp_forFrom` — the invariant rule of counted loops;
* `Prog.zoom`, `Prog.embed` — running a program on a component of a larger state,
  with the frame rules `wp_zoom` and `wp_embed`.
-/
import Mathlib.Logic.Function.Basic
import Mathlib.Order.Defs.Unbundled
import Mathlib.Tactic.Common

/-- How a program ends: it returns a value, or stops for a reason. -/
inductive Outcome (ε σ α : Type) where
  | ret (a : α) (s : σ)
  | stop (e : ε) (s : σ)

/-- The state a program ends in, one way or the other. -/
def Outcome.state {ε σ α : Type} : Outcome ε σ α → σ
  | .ret _ s => s
  | .stop _ s => s

/-- The state a program returns in, if it does. -/
def Outcome.returned {ε σ α : Type} : Outcome ε σ α → Option σ
  | .ret _ s => some s
  | .stop _ _ => none

theorem Outcome.returned_eq_some {ε σ α : Type} {o : Outcome ε σ α} {s : σ} :
    o.returned = some s ↔ ∃ a, o = .ret a s := by
  cases o <;> simp [Outcome.returned]

/-- A program on states `σ` that returns an `α` or stops with an `ε`. -/
def Prog (ε σ α : Type) : Type := σ → Outcome ε σ α

namespace Prog

variable {ε σ τ α β : Type}

instance : Monad (Prog ε σ) where
  pure a := fun s => .ret a s
  bind m f := fun s =>
    match m s with
    | .ret a s' => f a s'
    | .stop e s' => .stop e s'

def get : Prog ε σ σ := fun s => .ret s s

def gets (f : σ → α) : Prog ε σ α := fun s => .ret (f s) s

def modify (f : σ → σ) : Prog ε σ Unit := fun s => .ret () (f s)

/-- Stop; nothing after this is executed. -/
def halt (e : ε) : Prog ε σ α := fun s => .stop e s

/-- Run `m` only if `c` holds. -/
def when (c : Prop) [Decidable c] (m : Prog ε σ Unit) : Prog ε σ Unit :=
  if c then m else pure ()

/-- `f i`, `f (i + 1)`, ..., `f (i + n - 1)` in this order. -/
def forFrom (f : ℕ → Prog ε σ Unit) : ℕ → ℕ → Prog ε σ Unit
  | _, 0 => pure ()
  | i, n + 1 => do
    f i
    forFrom f (i + 1) n

/-- Run a program on the component `get t` of a larger state `t`. -/
def zoom (get : τ → σ) (put : σ → τ → τ) (m : Prog ε σ α) : Prog ε τ α := fun t =>
  match m (get t) with
  | .ret a s => .ret a (put s t)
  | .stop e s => .stop e (put s t)

/-- Run a program on the component `get t` of a larger state `t`, with the reasons
to stop renamed by `e`. -/
def embed {ε' : Type} (get : τ → σ) (put : σ → τ → τ) (e : ε → ε') (m : Prog ε σ α) : Prog ε' τ α := fun t =>
  match m (get t) with
  | .ret a s => .ret a (put s t)
  | .stop x s => .stop (e x) (put s t)

/-! ### Weakest preconditions -/

/-- `m` run in `s` ends with `Q` if it returns and with `R` if it stops. -/
def wp (m : Prog ε σ α) (Q : α → σ → Prop) (R : ε → σ → Prop) (s : σ) : Prop :=
  match m s with
  | .ret a s' => Q a s'
  | .stop e s' => R e s'

/-- On a given state a specification can be run. -/
instance decidableWp (m : Prog ε σ α) (Q : α → σ → Prop) (R : ε → σ → Prop) (s : σ)
    [∀ a s', Decidable (Q a s')] [∀ e s', Decidable (R e s')] : Decidable (wp m Q R s) :=
  match h : m s with
  | .ret a s' => decidable_of_iff (Q a s') (by unfold wp; rw [h])
  | .stop e s' => decidable_of_iff (R e s') (by unfold wp; rw [h])

variable {m : Prog ε σ α} {f : α → Prog ε σ β} {Q Q' : α → σ → Prop} {P : β → σ → Prop}
  {R R' : ε → σ → Prop} {s s' : σ}

theorem wp_of_ret {a : α} (h : m s = .ret a s') : wp m Q R s ↔ Q a s' := by
  unfold wp
  rw [h]

theorem wp_of_stop {e : ε} (h : m s = .stop e s') : wp m Q R s ↔ R e s' := by
  unfold wp
  rw [h]

theorem wp_congr_at {m' : Prog ε σ α} (h : m s = m' s') : wp m Q R s ↔ wp m' Q R s' := by
  unfold wp
  rw [h]

theorem wp.ret (h : wp m Q R s) {a : α} (hm : m s = .ret a s') : Q a s' :=
  (wp_of_ret hm).mp h

theorem wp.stop (h : wp m Q R s) {e : ε} (hm : m s = .stop e s') : R e s' :=
  (wp_of_stop hm).mp h

theorem wp_iff : wp m Q R s ↔
    (∀ a s', m s = .ret a s' → Q a s') ∧ ∀ e s', m s = .stop e s' → R e s' := by
  constructor
  · exact fun h => ⟨fun a s' hm => h.ret hm, fun e s' hm => h.stop hm⟩
  · rintro ⟨hQ, hR⟩
    cases hm : m s with
    | ret a s' => exact (wp_of_ret hm).mpr (hQ a s' hm)
    | stop e s' => exact (wp_of_stop hm).mpr (hR e s' hm)

theorem wp.mono (h : wp m Q R s) (hQ : ∀ a s', Q a s' → Q' a s')
    (hR : ∀ e s', R e s' → R' e s') : wp m Q' R' s := by
  cases hm : m s with
  | ret a s' => exact (wp_of_ret hm).mpr (hQ a s' (h.ret hm))
  | stop e s' => exact (wp_of_stop hm).mpr (hR e s' (h.stop hm))

theorem wp.imp (h : wp m Q R s) (hQ : ∀ a s', Q a s' → Q' a s') : wp m Q' R s :=
  h.mono hQ fun _ _ h => h

theorem wp.state {T : σ → Prop} (h : wp m (fun _ => T) (fun _ => T) s) : T (m s).state := by
  cases hm : m s with
  | ret a s' => exact h.ret hm
  | stop e s' => exact h.stop hm

theorem wp_trivial (m : Prog ε σ α) (s : σ) : wp m (fun _ _ => True) (fun _ _ => True) s := by
  cases hm : m s with
  | ret a s' => exact (wp_of_ret hm).mpr trivial
  | stop e s' => exact (wp_of_stop hm).mpr trivial

theorem wp.exists_ret (h : wp m Q (fun _ _ => False) s) : ∃ a s', m s = .ret a s' ∧ Q a s' := by
  cases hm : m s with
  | ret a s' => exact ⟨a, s', rfl, h.ret hm⟩
  | stop e s' => exact (h.stop hm).elim

theorem wp.and (h : wp m Q R s) (h' : wp m Q' R' s) :
    wp m (fun a t => Q a t ∧ Q' a t) (fun e t => R e t ∧ R' e t) s := by
  cases hm : m s with
  | ret a s' => exact (wp_of_ret hm).mpr ⟨h.ret hm, h'.ret hm⟩
  | stop e s' => exact (wp_of_stop hm).mpr ⟨h.stop hm, h'.stop hm⟩

@[simp] theorem wp_pure {a : α} : wp (pure a : Prog ε σ α) Q R s ↔ Q a s := Iff.rfl

@[simp] theorem wp_get {Q : σ → σ → Prop} : wp (get : Prog ε σ σ) Q R s ↔ Q s s := Iff.rfl

@[simp] theorem wp_gets {g : σ → α} : wp (gets g : Prog ε σ α) Q R s ↔ Q (g s) s := Iff.rfl

@[simp] theorem wp_modify {g : σ → σ} {Q : Unit → σ → Prop} :
    wp (modify g : Prog ε σ Unit) Q R s ↔ Q () (g s) := Iff.rfl

@[simp] theorem wp_halt {e : ε} : wp (halt e : Prog ε σ α) Q R s ↔ R e s := Iff.rfl

@[simp] theorem wp_bind :
    wp (m >>= f) P R s ↔ wp m (fun a t => wp (f a) P R t) R s := by
  cases hm : m s with
  | ret a s' =>
    have hb : (m >>= f) s = f a s' := by
      show (match m s with | .ret a s' => f a s' | .stop e s' => .stop e s') = _
      rw [hm]
    rw [wp_of_ret hm]
    unfold wp
    rw [hb]
  | stop e s' =>
    have hb : (m >>= f) s = .stop e s' := by
      show (match m s with | .ret a s' => f a s' | .stop e s' => .stop e s') = _
      rw [hm]
    rw [wp_of_stop hm, wp_of_stop hb]

theorem wp.bind (h : wp m Q R s) (hf : ∀ a s', Q a s' → wp (f a) P R s') : wp (m >>= f) P R s :=
  wp_bind.mpr (h.imp hf)

theorem wp.total (h : wp m Q (fun _ _ => False) s) (hQ : ∀ a s', Q a s' → Q' a s') : wp m Q' R s :=
  h.mono hQ fun _ _ hf => hf.elim

theorem wp.bind_total (h : wp m Q (fun _ _ => False) s) (hf : ∀ a s', Q a s' → wp (f a) P R s') :
    wp (m >>= f) P R s :=
  wp_bind.mpr (h.total hf)

theorem wp_bind_of_ret {a : α} (h : m s = .ret a s') : wp (m >>= f) P R s ↔ wp (f a) P R s' :=
  wp_bind.trans (wp_of_ret h)

theorem wp_ite {c : Prop} [Decidable c] {m' : Prog ε σ α} :
    wp (if c then m else m') Q R s ↔ (c → wp m Q R s) ∧ (¬ c → wp m' Q R s) := by
  by_cases hc : c <;> simp [hc]

theorem wp_when {c : Prop} [Decidable c] {m : Prog ε σ Unit} {Q : Unit → σ → Prop} :
    wp (when c m) Q R s ↔ (c → wp m Q R s) ∧ (¬ c → Q () s) := by
  rw [when, wp_ite, wp_pure]

@[simp] theorem ret_bind {a : α} (h : m s = .ret a s') : (m >>= f) s = f a s' := by
  show (match m s with | .ret a s' => f a s' | .stop e s' => .stop e s') = _
  rw [h]

@[simp] theorem stop_bind {e : ε} (h : m s = .stop e s') : (m >>= f) s = .stop e s' := by
  show (match m s with | .ret a s' => f a s' | .stop e s' => .stop e s') = _
  rw [h]

theorem bind_congr_at {m' : Prog ε σ α} (h : m s = m' s) : (m >>= f) s = (m' >>= f) s := by
  show (match m s with | .ret a s' => f a s' | .stop e s' => .stop e s') = _
  rw [h]
  rfl

theorem bind_unit (m : Prog ε σ Unit) : (m >>= fun _ => pure ()) = m := by
  funext s
  cases hm : m s with
  | ret a s' => exact ret_bind hm
  | stop e s' => exact stop_bind hm

theorem get_bind {g : σ → Prog ε σ β} : (get >>= g) s = g s s := rfl

theorem gets_bind {h : σ → α} : (gets h >>= f) s = f (h s) s := rfl

theorem modify_bind {h : σ → σ} {g : Unit → Prog ε σ β} : (modify h >>= g) s = g () (h s) := rfl

theorem wp_forFrom {f : ℕ → Prog ε σ Unit} (I : ℕ → σ → Prop) {R : ε → σ → Prop} {n : ℕ} :
    ∀ {i : ℕ} {s : σ}, I i s →
      (∀ k t, i ≤ k → k < i + n → I k t → wp (f k) (fun _ t' => I (k + 1) t') R t) →
      wp (forFrom f i n) (fun _ t => I (i + n) t) R s := by
  induction n with
  | zero =>
    intro i s hI _
    simpa [forFrom] using hI
  | succ n ih =>
    intro i s hI hstep
    rw [forFrom, wp_bind]
    refine (hstep i s (Nat.le_refl i) (by omega) hI).mono (fun _ t ht => ?_) (fun _ _ h => h)
    have hrest := ih (i := i + 1) ht fun k t hk hk' => hstep k t (by omega) (by omega)
    rwa [show i + 1 + n = i + (n + 1) by omega] at hrest

theorem wp_zoom {get : τ → σ} {put : σ → τ → τ} {Q : α → τ → Prop} {R : ε → τ → Prop} {t : τ} :
    wp (zoom get put m) Q R t ↔
      wp m (fun a s => Q a (put s t)) (fun e s => R e (put s t)) (get t) := by
  unfold wp zoom
  cases m (get t) <;> exact Iff.rfl

theorem wp_embed {ε' : Type} {get : τ → σ} {put : σ → τ → τ} {e : ε → ε'} {Q : α → τ → Prop}
    {R : ε' → τ → Prop} {t : τ} :
    wp (embed get put e m) Q R t ↔
      wp m (fun a s => Q a (put s t)) (fun x s => R (e x) (put s t)) (get t) := by
  unfold wp embed
  cases m (get t) <;> exact Iff.rfl

theorem wp_check {m : Prog ε σ Int} {k : Int → Prog ε σ Int} {P Q : Int → σ → Prop} {R : ε → σ → Prop}
    (h : wp m P R s) (hneg : ∀ r s', r < 0 → P r s' → Q r s')
    (hk : ∀ r s', 0 ≤ r → P r s' → wp (k r) Q R s') :
    wp (m >>= fun r => if r < 0 then pure r else k r) Q R s := by
  refine h.bind fun r s' hP => ?_
  by_cases hr : r < 0
  · rw [if_pos hr]
    exact hneg r s' hr hP
  · rw [if_neg hr]
    exact hk r s' (by omega) hP

/-! ### Relations kept by every outcome -/

/-- Every outcome of `m`, returning or stopping, is related to the initial
state by `r`, and `m` stops only for reasons in `b`. -/
def Keeps (r : σ → σ → Prop) (b : ε → Prop) (m : Prog ε σ α) : Prop :=
  ∀ s, wp m (fun _ s' => r s s') (fun e s' => r s s' ∧ b e) s

section Keeps

variable {r : σ → σ → Prop} {b : ε → Prop}

theorem Keeps.ret (h : Keeps r b m) {a : α} (hm : m s = .ret a s') : r s s' := (h s).ret hm

theorem Keeps.wp_bind {P : β → σ → Prop} {R : ε → σ → Prop} (h : Keeps r b m)
    (hf : ∀ a s', r s s' → wp (f a) P R s') (hR : ∀ e s', b e → r s s' → R e s') :
    wp (m >>= f) P R s := by
  rw [Prog.wp_bind]
  exact (h s).mono (fun a s' hr => hf a s' hr) fun e s' hr => hR e s' hr.2 hr.1

theorem Keeps.wp {R : ε → σ → Prop} (h : Keeps r b m) (hQ : ∀ a s', r s s' → Q a s')
    (hR : ∀ e s', b e → r s s' → R e s') : wp m Q R s :=
  (h s).mono (fun a s' hr => hQ a s' hr) fun e s' hr => hR e s' hr.2 hr.1

theorem Keeps.mono {r' : σ → σ → Prop} (h : Keeps r b m) (hr : ∀ s s', r s s' → r' s s') :
    Keeps r' b m := fun _ =>
  h.wp (fun _ _ hs => hr _ _ hs) fun _ _ he hs => ⟨hr _ _ hs, he⟩

theorem Keeps.modify {g : σ → σ} (hg : ∀ s, r s (g s)) :
    Keeps r b (modify g : Prog ε σ Unit) := hg

theorem Keeps.ite {c : Prop} [Decidable c] {m' : Prog ε σ α} (h : Keeps r b m)
    (h' : Keeps r b m') : Keeps r b (if c then m else m') := by
  by_cases hc : c
  · rwa [if_pos hc]
  · rwa [if_neg hc]

theorem Keeps.zoom {get : τ → σ} {put : σ → τ → τ} {q : τ → τ → Prop} (hm : Keeps r b m)
    (h : ∀ t s, r (get t) s → q t (put s t)) : Keeps q b (Prog.zoom get put m) := by
  intro t
  rw [wp_zoom]
  exact (hm (get t)).mono (fun _ s hs => h t s hs) fun _ s hs => ⟨h t s hs.1, hs.2⟩

section Preorder

variable [IsPreorder σ r]

theorem Keeps.pure (a : α) : Keeps r b (pure a : Prog ε σ α) := refl_of r

theorem Keeps.halt {e : ε} (he : b e) : Keeps r b (halt e : Prog ε σ α) := fun s =>
  ⟨refl_of r s, he⟩

theorem Keeps.get : Keeps r b (get : Prog ε σ σ) := refl_of r

theorem Keeps.gets (g : σ → α) : Keeps r b (gets g : Prog ε σ α) := refl_of r

theorem Keeps.bind (hm : Keeps r b m) (hf : ∀ a, Keeps r b (f a)) : Keeps r b (m >>= f) := by
  intro s
  rw [Prog.wp_bind]
  refine (hm s).mono (fun a s' h => ?_) (fun _ _ h => h)
  exact (hf a s').mono (fun _ t h' => trans_of r h h') (fun _ t h' => ⟨trans_of r h h'.1, h'.2⟩)

theorem Keeps.get_bind {f : σ → Prog ε σ β} (hf : ∀ s, Keeps r b (f s)) : Keeps r b (Prog.get >>= f) :=
  .bind .get hf

theorem Keeps.modify_bind {g : σ → σ} {f : Unit → Prog ε σ β} (hg : ∀ s, r s (g s))
    (hf : Keeps r b (f ())) : Keeps r b (Prog.modify g >>= f) :=
  .bind (.modify hg) fun _ => hf

theorem Keeps.when {c : Prop} [Decidable c] {m : Prog ε σ Unit} (h : Keeps r b m) :
    Keeps r b (when c m) :=
  .ite h (.pure ())

theorem Keeps.forFrom {f : ℕ → Prog ε σ Unit} (hf : ∀ i, Keeps r b (f i)) :
    ∀ n i, Keeps r b (forFrom f i n) := by
  intro n
  induction n with
  | zero => exact fun i => .pure ()
  | succ n ih => exact fun i => (hf i).bind fun _ => ih (i + 1)

end Preorder

end Keeps

end Prog
