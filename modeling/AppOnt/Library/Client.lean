import AppOnt.Library.Simulation

/-!
# Clients of a machine

A client takes inputs, makes an event of each for the machine that it drives, and
receives what the step of the machine shows. The two together are a machine again.
What simulates the driven machine carries over to the pair, so a property of all
runs with an abstract machine is one of all runs with a concrete one.
-/

/-- A client with states `κ` and inputs `ι`, of a machine with events `ε` that shows `ω`. -/
structure Client (κ ι ε ω ρ : Type) where
  init : κ
  /-- The event that is made of an input, if it is taken. -/
  issue : κ → ι → Option (ε × κ)
  /-- What is received of a step, with what the client returns. -/
  receive : κ → ω → κ × ρ

namespace Client

open Machine

variable {κ ι ε ω υ ρ σ τ : Type}

/-- The client that sees a part of what is shown only. -/
def comap (c : Client κ ι ε ω ρ) (see : υ → ω) : Client κ ι ε υ ρ where
  init := c.init
  issue := c.issue
  receive k v := c.receive k (see v)

/-- The client with the machine that it drives. -/
def drive (c : Client κ ι ε ω ρ) (M : Machine σ ε ω) : Machine (κ × σ) ι (ω × ρ) where
  init := (c.init, M.init)
  step i ks := (c.issue ks.1 i).bind fun ek => (M.step ek.1 ks.2).map fun ws =>
    ((ws.1, (c.receive ek.2 ws.1).2), ((c.receive ek.2 ws.1).1, ws.2))

variable {c : Client κ ι ε ω ρ} {M : Machine σ ε ω} {N : Machine τ ε ω}

/-- A step of the pair: the client makes an event of the input, the machine has a step by it, and the
client receives it. -/
theorem drive_step {i : ι} {k k' : κ} {s s' : σ} {w : ω} {r : ρ} :
    (c.drive M).step i (k, s) = some ((w, r), (k', s')) ↔
      ∃ e k₁, c.issue k i = some (e, k₁) ∧ M.step e s = some (w, s') ∧ c.receive k₁ w = (k', r) := by
  simp only [drive, Option.bind_eq_some_iff, Option.map_eq_some_iff, Prod.exists, Prod.mk.injEq]
  constructor
  · rintro ⟨e, k₁, hissue, w, s', hstep, ⟨rfl, rfl⟩, rfl, rfl⟩
    exact ⟨e, k₁, hissue, hstep, rfl⟩
  · rintro ⟨e, k₁, hissue, hstep, hreceive⟩
    refine ⟨e, k₁, hissue, w, s', hstep, ⟨rfl, ?_⟩, ?_, rfl⟩ <;> rw [hreceive]

/-- What simulates the driven machine carries over. -/
theorem simulates {N : Machine σ ε ω} {M : Machine τ ε υ} {see : υ → ω} {R : σ → τ → Prop}
    (hsim : Simulates N M see R) :
    Simulates (c.drive N) ((c.comap see).drive M) (Prod.map see id) fun ks kt => ks.1 = kt.1 ∧ R ks.2 kt.2 where
  init := ⟨rfl, hsim.init⟩
  step := by
    rintro ⟨k, s⟩ ⟨k', s'⟩ ⟨_, t⟩ i ⟨w, r⟩ ⟨rfl, hrel⟩ hstep
    obtain ⟨e, k₁, hissue, hnext, hreceive⟩ := drive_step.mp hstep
    obtain ⟨v, t', hnext', rfl, hrel'⟩ := hsim.step hrel hnext
    exact ⟨(v, r), (k', t'), drive_step.mpr ⟨e, k₁, hissue, hnext', hreceive⟩, rfl, rfl, hrel'⟩

/-- If the abstract machine has a step by every event that the client makes, all runs with the concrete
machine are runs with the abstract one. -/
theorem run_of_defined {N : Machine σ ε ω} {M : Machine τ ε υ} {see : υ → ω} {R : σ → τ → Prop}
    (hsim : Simulates N M see R) (hdefined : ∀ {g k s i e k₁}, (c.drive N).Run anyStep g (k, s) →
      c.issue k i = some (e, k₁) → ∃ w s', N.step e s = some (w, s'))
    {C : List (ι × (υ × ρ)) → κ × τ → ι → Prop} {h : List (ι × (υ × ρ))} {k : κ} {t : τ}
    (hrun : ((c.comap see).drive M).Run C h (k, t)) :
    ∃ s, (c.drive N).Run anyStep (seen (Prod.map see id) h) (k, s) ∧ R s t := by
  have hstep {h : List (ι × (υ × ρ))} {ks : κ × σ} {kt kt' : κ × τ} {i : ι} {vr : υ × ρ}
      (hrun : (c.drive N).Run anyStep (seen (Prod.map see id) h) ks) (hrel : ks.1 = kt.1 ∧ R ks.2 kt.2)
      (hnext : ((c.comap see).drive M).step i kt = some (vr, kt')) :
      ∃ wr ks', (c.drive N).step i ks = some (wr, ks') := by
    obtain ⟨k, s⟩ := ks
    obtain ⟨_, t⟩ := kt
    obtain ⟨rfl, -⟩ := hrel
    obtain ⟨e, k₁, hissue, -, -⟩ := drive_step.mp hnext
    obtain ⟨w, s', hnext'⟩ := hdefined hrun hissue
    exact ⟨_, _, drive_step.mpr ⟨e, k₁, hissue, hnext', rfl⟩⟩
  obtain ⟨⟨_, s⟩, hrun', rfl, hrel⟩ := (c.simulates hsim).of_run hrun fun hrun' hrel _ _ hnext =>
    hstep hrun' hrel hnext
  exact ⟨s, hrun', hrel⟩

end Client
