import Mathlib

/-!
# Self-delimiting encodings

An encoding is self-delimiting when a value and what follows it can be told from the
sequence of both. A format made of such parts, one after the other, is read in one
way only.
-/

/-- No encoding is continued by another one. -/
def SelfDelimiting {α β : Type} (f : α → List β) : Prop :=
  ∀ ⦃a b r s⦄, f a ++ r = f b ++ s → a = b ∧ r = s

namespace SelfDelimiting

variable {α β γ : Type} {f : α → List β} {g : γ → List β}

theorem injective (hf : SelfDelimiting f) : Function.Injective f := by
  intro a b h
  exact (hf (congrArg (· ++ []) h)).1

theorem of_length (hinj : Function.Injective f) (hlen : ∀ a b, (f a).length = (f b).length) :
    SelfDelimiting f := by
  intro a b r s h
  obtain ⟨hab, hrs⟩ := List.append_inj h (hlen a b)
  exact ⟨hinj hab, hrs⟩

/-- The first element of an encoding says how long it is. -/
theorem of_head (hinj : Function.Injective f) (len : β → Nat)
    (hf : ∀ a, ∃ x bs, f a = x :: bs ∧ bs.length = len x) : SelfDelimiting f := by
  intro a b r s h
  obtain ⟨x, bs, ha, hlen⟩ := hf a
  obtain ⟨y, cs, hb, hlen'⟩ := hf b
  rw [ha, hb] at h
  obtain ⟨rfl, h'⟩ := List.cons.inj h
  obtain ⟨rfl, hrs⟩ := List.append_inj h' (hlen.trans hlen'.symm)
  exact ⟨hinj (ha.trans hb.symm), hrs⟩

/-- Lists that are equally long, element after element. -/
theorem flatMap (hf : SelfDelimiting f) {l m : List α} {r s : List β} (hlen : l.length = m.length)
    (h : l.flatMap f ++ r = m.flatMap f ++ s) : l = m ∧ r = s := by
  induction l generalizing m with
  | nil =>
    obtain rfl := List.length_eq_zero_iff.mp hlen.symm
    exact ⟨rfl, h⟩
  | cons a l ih =>
    cases m with
    | nil => cases hlen
    | cons b m =>
      rw [List.flatMap_cons, List.flatMap_cons, List.append_assoc, List.append_assoc] at h
      obtain ⟨rfl, h'⟩ := hf h
      obtain ⟨rfl, hrs⟩ := ih (Nat.succ.inj hlen) h'
      exact ⟨rfl, hrs⟩

/-- Lists of any length, if what follows them does not begin like an element. -/
theorem flatMap_until (hf : SelfDelimiting f) {p : β → Prop} (hp : ∀ a, ∃ x bs, f a = x :: bs ∧ p x)
    {l m : List α} {r s : List β} (hr : ∀ x ∈ r.head?, ¬ p x) (hs : ∀ x ∈ s.head?, ¬ p x)
    (h : l.flatMap f ++ r = m.flatMap f ++ s) : l = m ∧ r = s := by
  induction l generalizing m with
  | nil =>
    cases m with
    | nil => exact ⟨rfl, h⟩
    | cons b m =>
      obtain ⟨x, bs, hb, hx⟩ := hp b
      obtain rfl : r = _ := h
      exact absurd hx (hr x (by simp [hb]))
  | cons a l ih =>
    cases m with
    | nil =>
      obtain ⟨x, bs, ha, hx⟩ := hp a
      obtain rfl : _ = s := h
      exact absurd hx (hs x (by simp [ha]))
    | cons b m =>
      rw [List.flatMap_cons, List.flatMap_cons, List.append_assoc, List.append_assoc] at h
      obtain ⟨rfl, h'⟩ := hf h
      obtain ⟨rfl, hrs⟩ := ih h'
      exact ⟨rfl, hrs⟩

end SelfDelimiting
