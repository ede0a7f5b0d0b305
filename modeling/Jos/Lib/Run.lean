/-
Runs of a deterministic labelled system.

A system is a function `step : σ → ℓ → Option σ`: what the step labelled `l`
leads to, if it can be taken.  `Reach step ok s₀ s` says that `s` is reached
from `s₀` by steps that each meet the condition `ok` in the state they are
taken in.

* `Reach.inv` — the invariant rule;
* `reach_of_runAll` — a run given by its labels, evaluated;
* `logged` — the system that also keeps what its steps showed.
-/
import Mathlib.Tactic.Common

namespace Sys

variable {σ ℓ ο : Type} {step : σ → ℓ → Option σ} {ok : σ → ℓ → Prop} {s₀ : σ}

/-- The states reached from `s₀` by steps that meet `ok`. -/
inductive Reach (step : σ → ℓ → Option σ) (ok : σ → ℓ → Prop) (s₀ : σ) : σ → Prop where
  | refl : Reach step ok s₀ s₀
  | step {s s' : σ} {l : ℓ} :
      Reach step ok s₀ s → ok s l → step s l = some s' → Reach step ok s₀ s'

theorem Reach.inv {I : σ → Prop} (h₀ : I s₀)
    (hstep : ∀ s l s', I s → ok s l → step s l = some s' → I s') {s : σ}
    (h : Reach step ok s₀ s) : I s := by
  induction h with
  | refl => exact h₀
  | step _ hok hs ih => exact hstep _ _ _ ih hok hs

theorem Reach.trans {s t : σ} (h : Reach step ok s₀ s) (ht : Reach step ok s t) :
    Reach step ok s₀ t := by
  induction ht with
  | refl => exact h
  | step _ hok hs ih => exact .step ih hok hs

theorem Reach.mono {ok' : σ → ℓ → Prop} (hok : ∀ s l, ok s l → ok' s l) {s : σ}
    (h : Reach step ok s₀ s) : Reach step ok' s₀ s := by
  induction h with
  | refl => exact .refl
  | step _ h hs ih => exact .step ih (hok _ _ h) hs

/-! ### Evaluating a run -/

/-- Take the steps of a list, first to last. -/
def runAll (step : σ → ℓ → Option σ) : List ℓ → σ → Option σ
  | [], s => some s
  | l :: ls, s => (step s l).bind (runAll step ls)

/-- Every step of the list is taken in a state that meets `ok`. -/
def AllOk (step : σ → ℓ → Option σ) (ok : σ → ℓ → Prop) : List ℓ → σ → Prop
  | [], _ => True
  | l :: ls, s => ok s l ∧ ∀ s', step s l = some s' → AllOk step ok ls s'

theorem AllOk.mono {ok' : σ → ℓ → Prop} (hok : ∀ s l, ok s l → ok' s l) :
    ∀ {ls : List ℓ} {s : σ}, AllOk step ok ls s → AllOk step ok' ls s := by
  intro ls
  induction ls with
  | nil => exact fun _ => trivial
  | cons l ls ih => exact fun ⟨hl, hls⟩ => ⟨hok _ _ hl, fun s' hs => ih (hls s' hs)⟩

theorem Reach.runAll : ∀ {ls : List ℓ} {s s' : σ}, Reach step ok s₀ s → AllOk step ok ls s →
    runAll step ls s = some s' → Reach step ok s₀ s' := by
  intro ls
  induction ls with
  | nil =>
    rintro s s' h - ⟨⟩
    exact h
  | cons l ls ih =>
    rintro s s' h ⟨hl, hls⟩ hr
    obtain ⟨t, ht, hr⟩ := Option.bind_eq_some_iff.mp hr
    exact ih (h.step hl ht) (hls t ht) hr

theorem reach_of_runAll {ls : List ℓ} {s : σ} (hok : AllOk step ok ls s₀)
    (h : runAll step ls s₀ = some s) : Reach step ok s₀ s :=
  Reach.runAll .refl hok h

instance decidableAllOk [∀ s l, Decidable (ok s l)] :
    ∀ (ls : List ℓ) (s : σ), Decidable (AllOk step ok ls s)
  | [], _ => .isTrue trivial
  | l :: ls, s =>
    match h : step s l with
    | none => decidable_of_iff (ok s l) ⟨fun hl => ⟨hl, fun s' hs => by rw [h] at hs; cases hs⟩, (·.1)⟩
    | some t =>
      have := decidableAllOk ls t
      decidable_of_iff (ok s l ∧ AllOk step ok ls t)
        ⟨fun hl => ⟨hl.1, fun s' hs => by rw [h] at hs; cases hs; exact hl.2⟩,
          fun hl => ⟨hl.1, hl.2 t h⟩⟩

theorem guard_eq {c : Prop} [Decidable c] {a b : σ} (h : (if c then some a else none) = some b) : c ∧ a = b :=
  (Option.ite_none_right_eq_some.mp h).imp_right Option.some.inj

theorem exists_reach {ls : List ℓ} {p : σ → Bool} (hok : AllOk step ok ls s₀)
    (h : (runAll step ls s₀).any p = true) : ∃ s, Reach step ok s₀ s ∧ p s = true := by
  obtain ⟨s, hs, hp⟩ := (Option.any_eq_true p _).mp h
  exact ⟨s, reach_of_runAll hok hs, hp⟩

theorem exists_reach_of {ls : List ℓ} {P : σ → Prop} [DecidablePred P] (hok : AllOk step ok ls s₀)
    (h : (runAll step ls s₀).any (P ·) = true) : ∃ s, Reach step ok s₀ s ∧ P s := by
  obtain ⟨s, hs, hp⟩ := exists_reach hok h
  exact ⟨s, hs, of_decide_eq_true hp⟩

theorem allOk_true (ls : List ℓ) (s : σ) : AllOk step (fun _ _ => True) ls s := by
  induction ls generalizing s with
  | nil => trivial
  | cons l ls ih => exact ⟨trivial, fun s' _ => ih s'⟩

/-! ### Runs with a history -/

/-- The system that keeps everything its states showed, newest first. -/
def logged (obs : σ → List ο) (step : σ → ℓ → Option σ) :
    List ο × σ → ℓ → Option (List ο × σ) := fun hs l =>
  (step hs.2 l).map fun s' => (obs s' ++ hs.1, s')

theorem logged_eq_some {obs : σ → List ο} {hs hs' : List ο × σ} {l : ℓ}
    (h : logged obs step hs l = some hs') :
    step hs.2 l = some hs'.2 ∧ hs'.1 = obs hs'.2 ++ hs.1 := by
  obtain ⟨s', hs', rfl⟩ := Option.map_eq_some_iff.mp h
  exact ⟨hs', rfl⟩

end Sys
