import AppOnt.Library.Run

/-!
# Simulations

An abstract machine may leave open what happens, and shows less than a concrete one.
A simulation takes each of its steps to a step of the concrete machine between
related states, in which `see` is the part that the abstract machine shows too. So
every run of the abstract machine is seen as a run of the concrete one, and a run of
the concrete machine is seen as one of the abstract machine for as long as that one
has a step.
-/

namespace Machine

variable {σ τ ε ω υ : Type} {N : Machine σ ε ω} {M : Machine τ ε υ} {see : υ → ω} {R : σ → τ → Prop}

/-- The machine from another state on. -/
def startAt (M : Machine σ ε ω) (s : σ) : Machine σ ε ω := { M with init := s }

/-- A run goes on from the state that it has reached. -/
theorem Run.append {C : List (ε × ω) → σ → ε → Prop} {g h : List (ε × ω)} {s s' : σ} (hr : N.Run C h s)
    (hg : (N.startAt s).Run anyStep g s') : N.Run anyStep (g ++ h) s' := by
  induction hg with
  | init => exact hr.any
  | step _ _ hnext ih => exact .step ih trivial hnext

/-- A step in front of a run. -/
theorem Run.cons {e : ε} {w : ω} {g : List (ε × ω)} {s s' t : σ} (hnext : N.step e s = some (w, s'))
    (hg : (N.startAt s').Run anyStep g t) : (N.startAt s).Run anyStep (g ++ [(e, w)]) t :=
  Run.append (C := anyStep) (.step .init trivial hnext) hg

/-- A history as it is seen. -/
def seen (see : υ → ω) (h : List (ε × υ)) : List (ε × ω) := h.map (Prod.map id see)

@[simp] theorem seen_nil : seen see ([] : List (ε × υ)) = [] := rfl

@[simp] theorem seen_cons {e : ε} {v : υ} {h : List (ε × υ)} :
    seen see ((e, v) :: h) = (e, see v) :: seen see h := rfl

/-- Every step of `N` is one of `M` between related states. -/
structure Simulates (N : Machine σ ε ω) (M : Machine τ ε υ) (see : υ → ω) (R : σ → τ → Prop) : Prop where
  init : R N.init M.init
  step {s s' : σ} {t : τ} {e : ε} {w : ω} : R s t → N.step e s = some (w, s') →
    ∃ v t', M.step e t = some (v, t') ∧ see v = w ∧ R s' t'

namespace Simulates

/-- A run of the abstract machine is seen as one of the concrete machine. -/
theorem run (hsim : Simulates N M see R) {C : List (ε × ω) → σ → ε → Prop} {h : List (ε × ω)} {s : σ}
    (hr : N.Run C h s) : ∃ h' t, M.Run anyStep h' t ∧ seen see h' = h ∧ R s t := by
  induction hr with
  | init => exact ⟨[], M.init, .init, rfl, hsim.init⟩
  | step _ _ hnext ih =>
    obtain ⟨h', t, hr', hseen, hrel⟩ := ih
    obtain ⟨v, t', hnext', hsee, hrel'⟩ := hsim.step hrel hnext
    refine ⟨(_, v) :: h', t', .step hr' trivial hnext', ?_, hrel'⟩
    rw [seen_cons, hseen, hsee]

/-- Where the abstract machine goes on, the concrete one does. -/
theorem extend (hsim : Simulates N M see R) {C : List (ε × υ) → τ → ε → Prop} {D : List (ε × ω) → σ → ε → Prop}
    {h : List (ε × υ)} {g : List (ε × ω)} {s s' : σ} {t : τ} (hrel : R s t) (hr : M.Run C h t)
    (hg : (N.startAt s).Run D g s') : ∃ g' t', M.Run anyStep (g' ++ h) t' ∧ seen see g' = g ∧ R s' t' := by
  have hsim' : Simulates (N.startAt s) (M.startAt t) see R := ⟨hrel, hsim.step⟩
  obtain ⟨g', t', hg', hseen, hrel'⟩ := hsim'.run hg
  exact ⟨g', t', hr.append hg', hseen, hrel'⟩

/-- A run of the concrete machine whose steps the abstract machine has too is seen as one of it. -/
theorem of_run (hsim : Simulates N M see R) {C : List (ε × υ) → τ → ε → Prop} {h : List (ε × υ)} {t : τ}
    (hr : M.Run C h t) (hdefined : ∀ {h s t e v t'}, N.Run anyStep (seen see h) s → R s t → M.Run C h t →
      C h t e → M.step e t = some (v, t') → ∃ w s', N.step e s = some (w, s')) :
    ∃ s, N.Run anyStep (seen see h) s ∧ R s t := by
  induction hr with
  | init => exact ⟨N.init, .init, hsim.init⟩
  | step hr hc hnext ih =>
    obtain ⟨s, hrun, hrel⟩ := ih
    obtain ⟨w, s', hstep⟩ := hdefined hrun hrel hr hc hnext
    obtain ⟨v, t', hnext', hsee, hrel'⟩ := hsim.step hrel hstep
    obtain ⟨rfl, rfl⟩ := Prod.mk.inj (Option.some.inj (hnext.symm.trans hnext'))
    refine ⟨s', ?_, hrel'⟩
    rw [seen_cons, hsee]
    exact .step hrun trivial hstep

end Simulates

end Machine
