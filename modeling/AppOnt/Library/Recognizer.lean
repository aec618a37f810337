import AppOnt.Library.Program

/-!
# Recognizers

A program that reads its state accepts some of the states it starts from.
`Returns` describes this exactly: the program does not fault, and it ends with
the given result in the states of a relation and in no others. The relation of
a sequence of programs is the composition of their relations, so soundness and
completeness of a reader are proved together, along its structure.
-/
namespace Prog

variable {ε σ α β : Type} {s : σ}

/-- From `s` the program does not fault, and it ends with the result `a` exactly in the
states of `R`. -/
def Returns (x : Prog ε σ α) (s : σ) (a : α) (R : σ → Prop) : Prop :=
  Ensures x s fun b t => ∀ u, R u ↔ b = a ∧ u = t

/-- `Returns` for every result `some v` at once. -/
def Delivers (x : Prog ε σ (Option β)) (s : σ) (R : β → σ → Prop) : Prop :=
  Ensures x s fun o t => ∀ v u, R v u ↔ o = some v ∧ u = t

theorem Returns.iff {x : Prog ε σ α} {a : α} {R : σ → Prop} (h : Returns x s a R) (u : σ) :
    x.run s = .ok (a, u) ↔ R u := by
  obtain ⟨b, t, hx, hr⟩ := h
  rw [hr, hx]
  simp [eq_comm]

theorem Delivers.iff {x : Prog ε σ (Option β)} {R : β → σ → Prop} (h : Delivers x s R)
    (v : β) (u : σ) : x.run s = .ok (some v, u) ↔ R v u := by
  obtain ⟨b, t, hx, hr⟩ := h
  rw [hr, hx]
  simp [eq_comm]

theorem Returns.congr {x : Prog ε σ α} {a : α} {R S : σ → Prop} (h : Returns x s a R)
    (hrs : ∀ u, S u ↔ R u) : Returns x s a S :=
  h.mono fun _ _ hr u => (hrs u).trans (hr u)

theorem Delivers.congr {x : Prog ε σ (Option β)} {R S : β → σ → Prop} (h : Delivers x s R)
    (hrs : ∀ v u, S v u ↔ R v u) : Delivers x s S :=
  h.mono fun _ _ hr v u => (hrs v u).trans (hr v u)

theorem Delivers.returns {x : Prog ε σ (Option β)} {R : β → σ → Prop} (h : Delivers x s R)
    (v : β) : Returns x s (some v) (R v) :=
  h.mono fun _ _ hr u => hr v u

theorem returns_pure (a b : α) : Returns (pure b : Prog ε σ α) s a fun u => b = a ∧ u = s := by
  simp [Returns]

theorem returns_pure_ne {a b : α} (h : b ≠ a) :
    Returns (pure b : Prog ε σ α) s a fun _ => False := by
  simp [Returns, h]

theorem delivers_some (v : β) :
    Delivers (pure (some v) : Prog ε σ (Option β)) s fun w u => w = v ∧ u = s := by
  simp [Delivers, eq_comm]

theorem delivers_none : Delivers (pure none : Prog ε σ (Option β)) s fun _ _ => False := by
  simp [Delivers]

/-- A test that reads nothing. -/
theorem returns_guard (c : Prop) [Decidable c] :
    Returns (pure (decide c) : Prog ε σ Bool) s true fun u => c ∧ u = s := by
  simp [Returns]

/-- A test of the state. -/
theorem returns_get_guard (c : σ → Prop) [DecidablePred c] :
    Returns (do return decide (c (← get)) : Prog ε σ Bool) s true fun u => c s ∧ u = s := by
  simp [Returns]

theorem returns_get_bind {f : σ → Prog ε σ α} {a : α} {R : σ → Prop} :
    Returns (get >>= f) s a R ↔ Returns (f s) s a R := by
  simp [Returns]

theorem returns_modify_bind {g : σ → σ} {f : PUnit → Prog ε σ α} {a : α} {R : σ → Prop} :
    Returns (modify g >>= f) s a R ↔ Returns (f ⟨⟩) (g s) a R := by
  simp [Returns]

theorem returns_ofExcept_bind {x : Except ε β} {v : β} (h : x = .ok v) {f : β → Prog ε σ α}
    {a : α} {R : σ → Prop} : Returns (ofExcept x >>= f) s a R ↔ Returns (f v) s a R := by
  simp [Returns, h]

theorem delivers_attempt (call : σ → Option (β × σ)) :
    Delivers (attempt call : Prog ε σ (Option β)) s fun v u => call s = some (v, u) := by
  cases h : call s with
  | none => exact ⟨none, s, by change attempt call s = _; rw [attempt, h], by simp⟩
  | some p =>
    refine ⟨some p.1, p.2, by change attempt call s = _; rw [attempt, h], fun v u => ?_⟩
    simp [Prod.ext_iff, eq_comm]

theorem delivers_ofExcept {x : Except ε (Option β)} {o : Option β} (h : x = .ok o) :
    Delivers (ofExcept x) s fun v u => o = some v ∧ u = s := by
  simp [Delivers, h]

/-- Only the result `b` of the first program leads to the result `a`. -/
theorem Returns.bind {x : Prog ε σ β} {f : β → Prog ε σ α} {a : α} {b : β} {R : σ → Prop}
    {S : σ → σ → Prop} (hx : Returns x s b R) (hf : ∀ t, R t → Returns (f b) t a (S t))
    (hne : ∀ b' t, b' ≠ b → Returns (f b') t a fun _ => False) :
    Returns (x >>= f) s a fun u => ∃ t, R t ∧ S t u := by
  refine ensures_bind.mpr (hx.mono fun b' t hr => ?_)
  by_cases hb : b' = b
  · subst hb
    simp only [true_and] at hr
    refine (hf t ((hr t).mpr rfl)).mono fun c v hv u => ?_
    rw [← hv u]
    simp only [hr, exists_eq_left]
  · refine (hne b' t hb).mono fun c v hv u => ?_
    rw [← hv u]
    simp only [hr, hb, false_and, exists_false]

theorem Delivers.bind {x : Prog ε σ (Option β)} {f : Option β → Prog ε σ α} {a : α}
    {R : β → σ → Prop} {S : β → σ → σ → Prop} (hx : Delivers x s R)
    (hf : ∀ v t, R v t → Returns (f (some v)) t a (S v t))
    (hne : ∀ t, Returns (f none) t a fun _ => False) :
    Returns (x >>= f) s a fun u => ∃ v t, R v t ∧ S v t u := by
  refine ensures_bind.mpr (hx.mono fun o t hr => ?_)
  cases o with
  | none =>
    refine (hne t).mono fun c v hv u => ?_
    rw [← hv u]
    simp [hr]
  | some w =>
    refine (hf w t ((hr w t).mpr ⟨rfl, rfl⟩)).mono fun c v hv u => ?_
    rw [← hv u]
    constructor
    · rintro ⟨v', t', h, hs⟩
      obtain ⟨hw, rfl⟩ := (hr v' t').mp h
      cases hw
      exact hs
    · exact fun h => ⟨w, t, (hr w t).mpr ⟨rfl, rfl⟩, h⟩

/-- One run decides a whole family of results. -/
theorem ensures_of_returns [Nonempty β] {x : Prog ε σ α} {f : β → α} {R : β → σ → Prop}
    (h : ∀ v, Returns x s (f v) (R v)) :
    Ensures x s fun a t => ∀ v u, R v u ↔ a = f v ∧ u = t := by
  obtain ⟨v⟩ := ‹Nonempty β›
  obtain ⟨a, t, hx, -⟩ := h v
  refine ⟨a, t, hx, fun w u => ?_⟩
  obtain ⟨b, t', hx', hr⟩ := h w
  rw [hx] at hx'
  cases hx'
  exact hr u

/-- Both programs succeed, one after the other. -/
theorem Returns.and {x y : Prog ε σ Bool} {R : σ → Prop} {S : σ → σ → Prop}
    (hx : Returns x s true R) (hy : ∀ t, R t → Returns y t true (S t)) :
    Returns (x <&&> y) s true fun u => ∃ t, R t ∧ S t u := by
  refine hx.bind hy fun b t hb => ?_
  cases b with
  | false => exact returns_pure_ne (by decide)
  | true => exact absurd rfl hb

/-- A test, which does not change the state, and then a program. -/
theorem Returns.testAnd {x y : Prog ε σ Bool} {c : Prop} {S : σ → Prop}
    (hx : Returns x s true fun t => c ∧ t = s) (hy : c → Returns y s true S) :
    Returns (x <&&> y) s true fun u => c ∧ S u := by
  refine (hx.and (S := fun _ => S) fun t ⟨hc, ht⟩ => ?_).congr fun u => ?_
  · subst ht
    exact hy hc
  · simp

theorem Returns.andTest {x y : Prog ε σ Bool} {c d : Prop}
    (hx : Returns x s true fun t => c ∧ t = s) (hy : c → Returns y s true fun t => d ∧ t = s) :
    Returns (x <&&> y) s true fun t => (c ∧ d) ∧ t = s :=
  (hx.testAnd hy).congr fun _ => and_assoc

/-- A flag returned beside a value that does not depend on it. -/
theorem Returns.pair {x : Prog ε σ Bool} {R : σ → Prop} (hx : Returns x s true R) (p q : β) :
    Returns (do return (← x, q)) s (true, p) fun u => R u ∧ q = p := by
  refine Returns.congr (hx.bind (fun t _ => returns_pure _ _) fun ok t hok => ?_) fun u => ?_
  · exact returns_pure_ne fun h => hok (Prod.mk.inj h).1
  · constructor
    · rintro ⟨hr, hq⟩
      exact ⟨u, hr, by rw [hq], rfl⟩
    · rintro ⟨t, hr, hq, hu⟩
      subst hu
      exact ⟨hr, (Prod.mk.inj hq).2⟩

/-- Comparing what is delivered with a fixed value. -/
theorem Delivers.beq [DecidableEq β] {x : Prog ε σ (Option β)} {R : β → σ → Prop}
    (hx : Delivers x s R) (v : β) : Returns (do return (← x) == some v) s true (R v) := by
  refine ensures_bind.mpr (hx.mono fun o t hr => ensures_pure.mpr fun u => ?_)
  rw [hr, beq_iff_eq]

/-- A program run only after a success. -/
theorem Returns.guarded {x : Prog ε σ Bool} {y : Prog ε σ α} {a b : α} {R : σ → Prop}
    {S : σ → σ → Prop} (hx : Returns x s true R) (hy : ∀ t, R t → Returns y t a (S t))
    (hb : b ≠ a) :
    Returns (do if ← x then y else return b) s a fun u => ∃ t, R t ∧ S t u := by
  refine hx.bind hy fun ok t hok => ?_
  cases ok with
  | false => exact returns_pure_ne hb
  | true => exact absurd rfl hok

/-- A success and a failure, told by two results. -/
theorem Returns.select {x : Prog ε σ Bool} {R : σ → Prop} (hx : Returns x s true R) {a b : α}
    (hb : b ≠ a) : Returns (do if ← x then return a else return b) s a R :=
  (hx.guarded (S := fun t u => a = a ∧ u = t) (fun t _ => returns_pure a a) hb).congr fun u => by
    simp

/-- A value returned after a success. -/
theorem Returns.deliver {x : Prog ε σ Bool} {R : σ → Prop} (hx : Returns x s true R) (v w : β) :
    Returns (do if ← x then return some v else return none) s (some w) fun u => w = v ∧ R u := by
  refine (hx.guarded (fun t _ => returns_pure _ _) (by simp)).congr fun u => ?_
  constructor
  · rintro ⟨hv, hr⟩
    exact ⟨u, hr, by rw [hv], rfl⟩
  · rintro ⟨t, hr, hv, hu⟩
    subst hu
    exact ⟨(Option.some.inj hv).symm, hr⟩

/-- A program run only after a test, which does not change the state. -/
theorem Returns.tested {x : Prog ε σ Bool} {y : Prog ε σ α} {a b : α} {c : Prop} {S : σ → Prop}
    (hx : Returns x s true fun t => c ∧ t = s) (hy : c → Returns y s a S) (hb : b ≠ a) :
    Returns (do if ← x then y else return b) s a fun u => c ∧ S u := by
  refine (hx.guarded (S := fun _ => S) (fun t ⟨hc, ht⟩ => ?_) hb).congr fun u => ?_
  · subst ht
    exact hy hc
  · simp

theorem Returns.within {ρ : Type} {part : σ → ρ} {put : σ → ρ → σ} {x : Prog ε ρ α} {a : α}
    {R : ρ → Prop} (h : Returns x (part s) a R) :
    Returns (within part put x) s a fun u => ∃ r, R r ∧ u = put s r := by
  refine ensures_within.mpr (h.mono fun b r hr u => ?_)
  simp only [hr]
  constructor
  · rintro ⟨r', ⟨hb, rfl⟩, hu⟩
    exact ⟨hb, hu⟩
  · rintro ⟨hb, hu⟩
    exact ⟨r, ⟨hb, rfl⟩, hu⟩

theorem Delivers.within {ρ : Type} {part : σ → ρ} {put : σ → ρ → σ} {x : Prog ε ρ (Option β)}
    {R : β → ρ → Prop} (h : Delivers x (part s) R) :
    Delivers (within part put x) s fun v u => ∃ r, R v r ∧ u = put s r := by
  refine ensures_within.mpr (h.mono fun o r hr v u => ?_)
  simp only [hr]
  constructor
  · rintro ⟨r', ⟨ho, rfl⟩, hu⟩
    exact ⟨ho, hu⟩
  · rintro ⟨ho, hu⟩
    exact ⟨r, ⟨ho, rfl⟩, hu⟩

end Prog
