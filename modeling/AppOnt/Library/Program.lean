import Mathlib

/-!
# State programs that may fault

Rules for programs over a mutable state that may stop with a fault: `Ensures`
is total correctness (no fault, and the result satisfies a postcondition),
`Yields` is its partial counterpart, where a faulting run satisfies anything.
Both are computed by `simp` through the structure of a program, so a caller
only supplies one specification for each function that it calls.
-/

/-- Programs over the state `σ` that may stop with a fault in `ε`. -/
abbrev Prog (ε σ : Type) := StateT σ (Except ε)

namespace Prog

variable {ε σ α β : Type} {s : σ}

/-- From `s` the program does not fault, and its result satisfies `Q`. -/
def Ensures (x : Prog ε σ α) (s : σ) (Q : α → σ → Prop) : Prop :=
  ∃ a t, x.run s = .ok (a, t) ∧ Q a t

/-- From `s` the program faults, or its result satisfies `Q`. -/
def Yields (x : Prog ε σ α) (s : σ) (Q : α → σ → Prop) : Prop :=
  ∀ a t, x.run s = .ok (a, t) → Q a t

theorem Ensures.mono {x : Prog ε σ α} {P Q : α → σ → Prop} (h : Ensures x s P)
    (hq : ∀ a t, P a t → Q a t) : Ensures x s Q := by
  obtain ⟨a, t, hx, hp⟩ := h
  exact ⟨a, t, hx, hq a t hp⟩

theorem Yields.mono {x : Prog ε σ α} {P Q : α → σ → Prop} (h : Yields x s P)
    (hq : ∀ a t, P a t → Q a t) : Yields x s Q :=
  fun a t hx => hq a t (h a t hx)

theorem Ensures.yields {x : Prog ε σ α} {Q : α → σ → Prop} (h : Ensures x s Q) :
    Yields x s Q := by
  rintro a t hx
  obtain ⟨b, u, hx', hq⟩ := h
  rw [hx] at hx'
  cases hx'
  exact hq

theorem Ensures.post {x : Prog ε σ α} {a : α} {t : σ} {Q : α → σ → Prop}
    (h : Ensures x s Q) (hx : x.run s = .ok (a, t)) : Q a t := h.yields a t hx

/-- A program that does not fault passes its result on. -/
theorem Ensures.run_bind {x : Prog ε σ α} {Q : α → σ → Prop} (h : Ensures x s Q) :
    ∃ a t, Q a t ∧ ∀ {β : Type} (f : α → Prog ε σ β), (x >>= f).run s = (f a).run t := by
  obtain ⟨a, t, hx, hq⟩ := h
  refine ⟨a, t, hq, fun f => ?_⟩
  rw [StateT.run_bind, hx]
  rfl

@[simp] theorem ensures_pure {a : α} {Q : α → σ → Prop} :
    Ensures (pure a : Prog ε σ α) s Q ↔ Q a s := by
  simp only [Ensures, StateT.run_pure]
  constructor
  · rintro ⟨b, t, h, hq⟩
    cases h
    exact hq
  · exact fun h => ⟨a, s, rfl, h⟩

@[simp] theorem yields_pure {a : α} {Q : α → σ → Prop} :
    Yields (pure a : Prog ε σ α) s Q ↔ Q a s := by
  simp only [Yields, StateT.run_pure]
  constructor
  · exact fun h => h a s rfl
  · rintro h b t e
    cases e
    exact h

@[simp] theorem ensures_bind {x : Prog ε σ α} {f : α → Prog ε σ β} {Q : β → σ → Prop} :
    Ensures (x >>= f) s Q ↔ Ensures x s fun a t => Ensures (f a) t Q := by
  simp only [Ensures, StateT.run_bind]
  constructor
  · rintro ⟨b, u, h, hq⟩
    cases hx : x.run s with
    | error e => rw [hx] at h; cases h
    | ok p => exact ⟨p.1, p.2, rfl, b, u, by rw [hx] at h; exact h, hq⟩
  · rintro ⟨a, t, hx, b, u, hf, hq⟩
    exact ⟨b, u, by rw [hx]; exact hf, hq⟩

@[simp] theorem yields_bind {x : Prog ε σ α} {f : α → Prog ε σ β} {Q : β → σ → Prop} :
    Yields (x >>= f) s Q ↔ Yields x s fun a t => Yields (f a) t Q := by
  simp only [Yields, StateT.run_bind]
  constructor
  · intro h a t hx b u hf
    exact h b u (by rw [hx]; exact hf)
  · intro h b u hb
    cases hx : x.run s with
    | error e => rw [hx] at hb; cases hb
    | ok p => exact h p.1 p.2 hx b u (by rw [hx] at hb; exact hb)

@[simp] theorem ensures_map {x : Prog ε σ α} {f : α → β} {Q : β → σ → Prop} :
    Ensures (f <$> x) s Q ↔ Ensures x s fun a t => Q (f a) t := by
  rw [map_eq_pure_bind, ensures_bind]
  simp only [ensures_pure]

@[simp] theorem yields_map {x : Prog ε σ α} {f : α → β} {Q : β → σ → Prop} :
    Yields (f <$> x) s Q ↔ Yields x s fun a t => Q (f a) t := by
  rw [map_eq_pure_bind, yields_bind]
  simp only [yields_pure]

@[simp] theorem ensures_get {Q : σ → σ → Prop} :
    Ensures (get : Prog ε σ σ) s Q ↔ Q s s := by
  change Ensures (StateT.get : Prog ε σ σ) s Q ↔ _
  constructor
  · rintro ⟨b, t, h, hq⟩
    cases h
    exact hq
  · exact fun h => ⟨s, s, rfl, h⟩

@[simp] theorem yields_get {Q : σ → σ → Prop} :
    Yields (get : Prog ε σ σ) s Q ↔ Q s s := by
  constructor
  · exact fun h => h s s rfl
  · rintro h b t e
    cases e
    exact h

@[simp] theorem ensures_set {t : σ} {Q : PUnit → σ → Prop} :
    Ensures (set t : Prog ε σ PUnit) s Q ↔ Q ⟨⟩ t := by
  constructor
  · rintro ⟨b, u, h, hq⟩
    cases h
    exact hq
  · exact fun h => ⟨⟨⟩, t, rfl, h⟩

@[simp] theorem yields_set {t : σ} {Q : PUnit → σ → Prop} :
    Yields (set t : Prog ε σ PUnit) s Q ↔ Q ⟨⟩ t := by
  constructor
  · exact fun h => h ⟨⟩ t rfl
  · rintro h b u e
    cases e
    exact h

@[simp] theorem ensures_modify {f : σ → σ} {Q : PUnit → σ → Prop} :
    Ensures (modify f : Prog ε σ PUnit) s Q ↔ Q ⟨⟩ (f s) := by
  constructor
  · rintro ⟨b, u, h, hq⟩
    cases h
    exact hq
  · exact fun h => ⟨⟨⟩, f s, rfl, h⟩

@[simp] theorem yields_modify {f : σ → σ} {Q : PUnit → σ → Prop} :
    Yields (modify f : Prog ε σ PUnit) s Q ↔ Q ⟨⟩ (f s) := by
  constructor
  · exact fun h => h ⟨⟩ (f s) rfl
  · rintro h b u e
    cases e
    exact h

@[simp] theorem ensures_throw {e : ε} {Q : α → σ → Prop} :
    Ensures (throw e : Prog ε σ α) s Q ↔ False := by
  constructor
  · rintro ⟨b, u, h, -⟩
    cases h
  · exact False.elim

@[simp] theorem yields_throw {e : ε} {Q : α → σ → Prop} :
    Yields (throw e : Prog ε σ α) s Q := by
  intro a t h
  cases h

@[simp] theorem ensures_ite {c : Prop} [Decidable c] {x y : Prog ε σ α} {Q : α → σ → Prop} :
    Ensures (if c then x else y) s Q ↔ (c → Ensures x s Q) ∧ (¬ c → Ensures y s Q) := by
  split <;> simp [*]

@[simp] theorem yields_ite {c : Prop} [Decidable c] {x y : Prog ε σ α} {Q : α → σ → Prop} :
    Yields (if c then x else y) s Q ↔ (c → Yields x s Q) ∧ (¬ c → Yields y s Q) := by
  split <;> simp [*]

/-- Short-circuit conjunction runs the second program only after a success. -/
@[simp] theorem ensures_and {x y : Prog ε σ Bool} {Q : Bool → σ → Prop} :
    Ensures (x <&&> y) s Q ↔
      Ensures x s fun ok t => (ok = true → Ensures y t Q) ∧ (ok = false → Q false t) := by
  simp only [andM, ensures_bind]
  constructor <;> refine fun h => h.mono ?_ <;> rintro (_ | _) t <;> simp [toBool]

@[simp] theorem yields_and {x y : Prog ε σ Bool} {Q : Bool → σ → Prop} :
    Yields (x <&&> y) s Q ↔
      Yields x s fun ok t => (ok = true → Yields y t Q) ∧ (ok = false → Q false t) := by
  simp only [andM, yields_bind]
  constructor <;> refine fun h => h.mono ?_ <;> rintro (_ | _) t <;> simp [toBool]

theorem andM_assoc (x y z : Prog ε σ Bool) : ((x <&&> y) <&&> z) = (x <&&> y <&&> z) := by
  simp only [andM, bind_assoc]
  refine bind_congr fun b => ?_
  cases b <;> simp [toBool]

/-- A stateless step. -/
def ofExcept (x : Except ε α) : Prog ε σ α := fun s =>
  match x with
  | .ok a => .ok (a, s)
  | .error e => .error e

@[simp] theorem ofExcept_ok (a : α) : (ofExcept (.ok a) : Prog ε σ α) = pure a := rfl

@[simp] theorem ensures_ofExcept {x : Except ε α} {Q : α → σ → Prop} :
    Ensures (ofExcept x) s Q ↔ ∃ a, x = .ok a ∧ Q a s := by
  constructor
  · rintro ⟨a, t, h, hq⟩
    cases x <;> cases h
    exact ⟨_, rfl, hq⟩
  · rintro ⟨a, rfl, hq⟩
    exact ⟨a, s, rfl, hq⟩

@[simp] theorem yields_ofExcept {x : Except ε α} {Q : α → σ → Prop} :
    Yields (ofExcept x) s Q ↔ ∀ a, x = .ok a → Q a s := by
  constructor
  · rintro h a rfl
    exact h a s rfl
  · intro h a t hx
    cases x <;> cases hx
    exact h _ rfl

/-- However the program ends, its state looks the same to `g`. -/
def Keeps {κ : Type} (x : Prog ε σ α) (g : σ → κ) : Prop := ∀ s, Yields x s fun _ t => g t = g s

section
variable {κ : Type} {g : σ → κ}

theorem Keeps.pure (a : α) : Keeps (pure a : Prog ε σ α) g := fun _ => yields_pure.mpr rfl

theorem Keeps.get : Keeps (get : Prog ε σ σ) g := fun _ => yields_get.mpr rfl

theorem Keeps.throw (e : ε) : Keeps (throw e : Prog ε σ α) g := fun _ => yields_throw

theorem Keeps.ofExcept (x : Except ε α) : Keeps (ofExcept x : Prog ε σ α) g :=
  fun _ => yields_ofExcept.mpr fun _ _ => rfl

theorem Keeps.modify {f : σ → σ} (h : ∀ s, g (f s) = g s) : Keeps (modify f : Prog ε σ PUnit) g :=
  fun s => yields_modify.mpr (h s)

theorem Keeps.bind {x : Prog ε σ α} {f : α → Prog ε σ β} (hx : Keeps x g) (hf : ∀ a, Keeps (f a) g) :
    Keeps (x >>= f) g := fun s =>
  yields_bind.mpr ((hx s).mono fun a t ht => (hf a t).mono fun _ _ hu => hu.trans ht)

theorem Keeps.ite {c : Prop} [Decidable c] {x y : Prog ε σ α} (hx : Keeps x g) (hy : Keeps y g) :
    Keeps (if c then x else y) g := by
  split
  · exact hx
  · exact hy

theorem Keeps.and {x y : Prog ε σ Bool} (hx : Keeps x g) (hy : Keeps y g) : Keeps (x <&&> y) g :=
  hx.bind fun b => by
    cases b
    · exact .pure _
    · exact hy

end

/-- A call that moves the state, or fails and leaves it as it is. -/
def attempt (call : σ → Option (α × σ)) : Prog ε σ (Option α) := fun s =>
  match call s with
  | some (a, t) => .ok (some a, t)
  | none => .ok (none, s)

/-- Run a program on a part `ρ` of the state. -/
def within {ρ : Type} (part : σ → ρ) (put : σ → ρ → σ) (x : Prog ε ρ α) : Prog ε σ α := fun s =>
  match x.run (part s) with
  | .ok (a, r) => .ok (a, put s r)
  | .error e => .error e

@[simp] theorem ensures_within {ρ : Type} {part : σ → ρ} {put : σ → ρ → σ} {x : Prog ε ρ α}
    {Q : α → σ → Prop} :
    Ensures (within part put x) s Q ↔ Ensures x (part s) fun a r => Q a (put s r) := by
  constructor
  · rintro ⟨a, t, h, hq⟩
    change within part put x s = _ at h
    unfold within at h
    split at h
    · rename_i b r hx
      cases h
      exact ⟨_, _, hx, hq⟩
    · cases h
  · rintro ⟨a, r, hx, hq⟩
    refine ⟨a, put s r, ?_, hq⟩
    change within part put x s = _
    rw [within, hx]

@[simp] theorem yields_within {ρ : Type} {part : σ → ρ} {put : σ → ρ → σ} {x : Prog ε ρ α}
    {Q : α → σ → Prop} :
    Yields (within part put x) s Q ↔ Yields x (part s) fun a r => Q a (put s r) := by
  constructor
  · intro h a r hx
    refine h a (put s r) ?_
    change within part put x s = _
    rw [within, hx]
  · intro h a t ht
    change within part put x s = _ at ht
    unfold within at ht
    split at ht
    · rename_i b r hx
      cases ht
      exact h _ _ hx
    · cases ht

theorem Keeps.within {ρ κ : Type} {g : σ → κ} {part : σ → ρ} {put : σ → ρ → σ} {x : Prog ε ρ α}
    (h : ∀ s r, g (put s r) = g s) : Keeps (within part put x) g := fun s =>
  yields_within.mpr fun _ _ _ => h s _

/-- What is true of any result of the second program is true of the whole. -/
theorem yields_bind_of {x : Prog ε σ α} {f : α → Prog ε σ β} {Q : β → σ → Prop}
    (h : ∀ a t, Yields (f a) t Q) : Yields (x >>= f) s Q :=
  yields_bind.mpr fun a t _ => h a t

end Prog
