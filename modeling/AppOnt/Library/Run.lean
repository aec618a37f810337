import Mathlib

/-!
# Runs of a machine

A machine takes events one at a time; a step shows observations and a next state,
or there is none. A history holds the events of a run with what each of them showed,
the latest one first. `Run M C` are the runs in which every step meets `C`, a
condition that sees the history, the state and the event of the step.
-/

/-- Steps over the states `σ` by events `ε`, which show observations `ω`. -/
structure Machine (σ ε ω : Type) where
  init : σ
  step : ε → σ → Option (ω × σ)

namespace Machine

variable {σ ε ω : Type} {M : Machine σ ε ω} {C D : List (ε × ω) → σ → ε → Prop}
  {h : List (ε × ω)} {s t : σ} {e : ε} {w : ω}

/-- The runs from the initial state whose steps all meet `C`. -/
inductive Run (M : Machine σ ε ω) (C : List (ε × ω) → σ → ε → Prop) :
    List (ε × ω) → σ → Prop where
  | init : M.Run C [] M.init
  | step {h : List (ε × ω)} {s t : σ} {e : ε} {w : ω} (run : M.Run C h s) (cond : C h s e)
      (next : M.step e s = some (w, t)) : M.Run C ((e, w) :: h) t

/-- Any run. -/
def anyStep (_ : List (ε × ω)) (_ : σ) (_ : ε) : Prop := True

instance (h : List (ε × ω)) (s : σ) (e : ε) : Decidable (anyStep h s e) := .isTrue trivial

theorem Run.mono (hCD : ∀ h s e, C h s e → D h s e) (hr : M.Run C h s) : M.Run D h s := by
  induction hr with
  | init => exact .init
  | step _ hc hs ih => exact .step ih (hCD _ _ _ hc) hs

theorem Run.any (hr : M.Run C h s) : M.Run anyStep h s := hr.mono fun _ _ _ _ => trivial

/-- What holds at the start and is kept by every step that meets the condition holds along every
run. -/
theorem Run.induct {I : List (ε × ω) → σ → Prop} (hr : M.Run C h s) (start : I [] M.init)
    (keep : ∀ {h s t e w}, M.Run C h s → I h s → C h s e → M.step e s = some (w, t) →
      I ((e, w) :: h) t) : I h s := by
  induction hr with
  | init => exact start
  | step hr hc hs ih => exact keep hr ih hc hs

/-- Every entry of a history was a step of the run. -/
theorem Run.of_suffix {h₀ : List (ε × ω)} (hr : M.Run C h s) (hsuffix : (e, w) :: h₀ <:+ h) :
    ∃ s₀ t₀, M.Run C h₀ s₀ ∧ C h₀ s₀ e ∧ M.step e s₀ = some (w, t₀) := by
  induction hr with
  | init => simp at hsuffix
  | step hr hc hs ih =>
    rcases List.suffix_cons_iff.mp hsuffix with heq | hsuffix
    · cases heq
      exact ⟨_, _, hr, hc, hs⟩
    · exact ih hsuffix

/-- Run a list of events as long as they meet the condition. -/
def exec (M : Machine σ ε ω) (C : List (ε × ω) → σ → ε → Prop) [∀ h s e, Decidable (C h s e)] :
    List ε → List (ε × ω) → σ → Option (List (ε × ω) × σ)
  | [], h, s => some (h, s)
  | e :: es, h, s =>
    if C h s e then (M.step e s).bind fun r => M.exec C es ((e, r.1) :: h) r.2 else none

theorem Run.exec [∀ h s e, Decidable (C h s e)] {es : List ε} {h' : List (ε × ω)}
    (hr : M.Run C h s) (he : M.exec C es h s = some (h', t)) : M.Run C h' t := by
  induction es generalizing h s with
  | nil =>
    cases he
    exact hr
  | cons e es ih =>
    rw [Machine.exec] at he
    split at he
    · rename_i hc
      obtain ⟨r, hstep, hrest⟩ := Option.bind_eq_some_iff.mp he
      exact ih (.step hr hc hstep) hrest
    · cases he

/-- A run of given events, found by running them. -/
theorem Run.exists_of_exec [∀ h s e, Decidable (C h s e)] {P : List (ε × ω) → σ → Prop}
    [∀ h s, Decidable (P h s)] (es : List ε)
    (hrun : (M.exec C es [] M.init).any (fun r => decide (P r.1 r.2)) = true) :
    ∃ h s, M.Run C h s ∧ P h s := by
  obtain ⟨⟨h, s⟩, hexec, hP⟩ := (Option.any_eq_true _ _).mp hrun
  exact ⟨h, s, Run.init.exec hexec, of_decide_eq_true hP⟩

/-- A run of given events with one more step, found by running them. -/
theorem Run.exists_step_of_exec [∀ h s e, Decidable (C h s e)] {P : List (ε × ω) → σ → ω → Prop}
    [∀ h s w, Decidable (P h s w)] (es : List ε) (e : ε)
    (hrun : (M.exec C es [] M.init).any (fun r => (M.step e r.2).any fun u => decide (P r.1 r.2 u.1)) = true) :
    ∃ h s w t, M.Run C h s ∧ M.step e s = some (w, t) ∧ P h s w := by
  obtain ⟨⟨h, s⟩, hexec, hstep⟩ := (Option.any_eq_true _ _).mp hrun
  obtain ⟨⟨w, t⟩, hnext, hP⟩ := (Option.any_eq_true _ _).mp hstep
  exact ⟨h, s, w, t, Run.init.exec hexec, hnext, of_decide_eq_true hP⟩

end Machine
