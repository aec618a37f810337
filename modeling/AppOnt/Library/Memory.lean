import Mathlib

/-!
# Flat memory and C strings

A memory of bytes with its writes, what a write leaves alone, and zero-filled
text fields, in which C strings are built. `AgreeOff m m' lo hi` says that
nothing changed outside of a range; it composes along a run.
-/

abbrev Memory := Nat → UInt8

namespace Memory

/-- Store `bs` from address `k` on. -/
def write (m : Memory) (k : Nat) (bs : List UInt8) : Memory := fun i =>
  if k ≤ i then bs[i - k]?.getD (m i) else m i

/-- The `n` bytes from address `k` on. -/
def read (m : Memory) (k n : Nat) : List UInt8 := (List.range n).map fun i => m (k + i)

/-- The number of bytes before a NUL among the `n` bytes at `k`. -/
def strnlen (m : Memory) : Nat → Nat → Nat
  | _, 0 => 0
  | k, n + 1 => if m k = 0 then 0 else m.strnlen (k + 1) n + 1

/-- Outside of the addresses from `lo` up to `hi` nothing differs. -/
def AgreeOff (m m' : Memory) (lo hi : Nat) : Prop := ∀ i, i < lo ∨ hi ≤ i → m' i = m i

/-- The field of `len` bytes at `k` is `text` and zeros. -/
structure Field (m : Memory) (k len : Nat) (text : List UInt8) : Prop where
  length_le : text.length ≤ len
  eq : ∀ i < len, m (k + i) = text[i]?.getD 0

/-- At `k` is `text`, and a NUL behind it. -/
structure Holds (m : Memory) (k : Nat) (text : List UInt8) : Prop where
  eq : ∀ i (h : i < text.length), m (k + i) = text[i]
  terminated : m (k + text.length) = 0

/-- The C string at `k` is `text`. -/
structure IsString (m : Memory) (k : Nat) (text : List UInt8) : Prop where
  ne_zero : (0 : UInt8) ∉ text
  eq : ∀ i (h : i < text.length), m (k + i) = text[i]
  terminated : m (k + text.length) = 0

variable {m m' m'' : Memory} {k len lo hi : Nat} {text bs : List UInt8}

theorem write_agreeOff (m : Memory) (k : Nat) (bs : List UInt8) :
    AgreeOff m (m.write k bs) k (k + bs.length) := by
  intro i hi
  unfold write
  split
  · rw [List.getElem?_eq_none (by omega), Option.getD_none]
  · rfl

theorem write_add (m : Memory) (k : Nat) (bs : List UInt8) (i : Nat) :
    m.write k bs (k + i) = bs[i]?.getD (m (k + i)) := by
  simp [write]

/-- Two writes of adjacent texts are one. -/
theorem write_write_append (m : Memory) (k : Nat) (u v : List UInt8) :
    (m.write k u).write (k + u.length) v = m.write k (u ++ v) := by
  funext i
  rcases Nat.lt_or_ge i k with hi | hi
  · grind [write]
  · obtain ⟨j, rfl⟩ := Nat.exists_eq_add_of_le hi
    rcases Nat.lt_or_ge j u.length with hj | hj
    · rw [write_agreeOff _ _ _ _ (.inl (by omega)), write_add, write_add, List.getElem?_append_left hj]
    · obtain ⟨n, rfl⟩ := Nat.exists_eq_add_of_le hj
      rw [← Nat.add_assoc, write_add, Nat.add_assoc, write_add, write_add,
        List.getElem?_append_right (Nat.le_add_right _ _), List.getElem?_eq_none hj, Nat.add_sub_cancel_left,
        Option.getD_none]

/-- A byte of a text that was written is written again. -/
theorem write_byte (m : Memory) (k : Nat) (u v : List UInt8) (b c : UInt8) :
    (m.write k (u ++ b :: v)).write (k + u.length) [c] = m.write k (u ++ c :: v) := by
  funext i
  by_cases hi : i = k + u.length
  · subst hi
    rw [write_add, List.getElem?_append_right (Nat.le_refl _), Nat.sub_self]
    exact write_add _ _ _ 0
  · rw [write_agreeOff _ _ _ _ (by simp only [List.length_singleton]; omega)]
    rcases Nat.lt_or_ge i k with hk | hk
    · grind [write]
    · obtain ⟨j, rfl⟩ := Nat.exists_eq_add_of_le hk
      have hj : j ≠ u.length := fun h => hi (by rw [h])
      rw [write_add, write_add]
      grind

theorem write_apply_length (m : Memory) (k : Nat) (u v : List UInt8) (b : UInt8) :
    m.write k (u ++ b :: v) (k + u.length) = b := by
  rw [write_add, List.getElem?_append_right (Nat.le_refl _), Nat.sub_self]
  rfl

@[simp] theorem length_read (m : Memory) (k n : Nat) : (m.read k n).length = n := by simp [read]

@[simp] theorem read_zero (m : Memory) (k : Nat) : m.read k 0 = [] := rfl

theorem getElem_read {n i : Nat} (h : i < (m.read k n).length) : (m.read k n)[i] = m (k + i) := by
  simp [read]

theorem read_add (m : Memory) (k n n' : Nat) :
    m.read k (n + n') = m.read k n ++ m.read (k + n) n' := by
  simp [read, List.range_add, Nat.add_assoc]

theorem read_congr {n : Nat} (h : ∀ i < n, m' (k + i) = m (k + i)) : m'.read k n = m.read k n :=
  List.map_congr_left fun i hi => h i (List.mem_range.mp hi)

theorem take_read (m : Memory) (k n j : Nat) : (m.read k n).take j = m.read k (min j n) := by
  rw [read, ← List.map_take, List.take_range]
  rfl

theorem AgreeOff.read_eq {n : Nat} (h : AgreeOff m m' lo hi) (hd : k + n ≤ lo ∨ hi ≤ k) :
    m'.read k n = m.read k n :=
  read_congr fun i hlt => h _ (by omega)

@[simp] theorem read_write (m : Memory) (k : Nat) (bs : List UInt8) :
    (m.write k bs).read k bs.length = bs := by
  refine List.ext_getElem (by simp) fun i hi hi' => ?_
  rw [getElem_read, write_add, List.getElem?_eq_getElem hi', Option.getD_some]

/-- What is read up to where bytes are stored, and the bytes. -/
theorem read_write_append (m : Memory) (k n : Nat) (bs : List UInt8) :
    (m.write (k + n) bs).read k (n + bs.length) = m.read k n ++ bs := by
  rw [read_add, read_write, (write_agreeOff m (k + n) bs).read_eq (.inl (Nat.le_refl _))]

theorem AgreeOff.refl (m : Memory) (lo hi : Nat) : AgreeOff m m lo hi := fun _ _ => rfl

theorem AgreeOff.trans (h : AgreeOff m m' lo hi) (g : AgreeOff m' m'' lo hi) :
    AgreeOff m m'' lo hi := fun i hi => (g i hi).trans (h i hi)

theorem AgreeOff.mono {lo' hi' : Nat} (h : AgreeOff m m' lo hi) (hlo : lo' ≤ lo) (hhi : hi ≤ hi') :
    AgreeOff m m' lo' hi' := fun i hi => h i (by omega)

/-- A field apart from what changed is as it was. -/
theorem Field.of_agreeOff (h : m.Field k len text) (hm : AgreeOff m m' lo hi)
    (hd : k + len ≤ lo ∨ hi ≤ k) : m'.Field k len text :=
  ⟨h.length_le, fun i hlt => by rw [hm _ (by omega), h.eq i hlt]⟩

theorem IsString.holds (h : m.IsString k text) : m.Holds k text := ⟨h.eq, h.terminated⟩

theorem Holds.isString (h : m.Holds k text) (hne : (0 : UInt8) ∉ text) : m.IsString k text :=
  ⟨hne, h.eq, h.terminated⟩

theorem Holds.of_agreeOff (h : m.Holds k text) (hm : AgreeOff m m' lo hi)
    (hd : k + text.length < lo ∨ hi ≤ k) : m'.Holds k text :=
  ⟨fun i hlt => by rw [hm _ (by omega), h.eq i hlt], by rw [hm _ (by omega), h.terminated]⟩

theorem IsString.of_agreeOff (h : m.IsString k text) (hm : AgreeOff m m' lo hi)
    (hd : k + text.length < lo ∨ hi ≤ k) : m'.IsString k text :=
  (h.holds.of_agreeOff hm hd).isString h.ne_zero

theorem Field.holds (h : m.Field k len text) (hlt : text.length < len) : m.Holds k text := by
  refine ⟨fun i hi => ?_, ?_⟩
  · rw [h.eq i (by omega), List.getElem?_eq_getElem hi, Option.getD_some]
  · rw [h.eq _ hlt, List.getElem?_eq_none (Nat.le_refl _), Option.getD_none]

theorem write_holds (m : Memory) (k : Nat) (text : List UInt8) :
    (m.write k (text ++ [0])).Holds k text := by
  refine ⟨fun i hi => ?_, ?_⟩
  · rw [write_add, List.getElem?_append_left hi, List.getElem?_eq_getElem hi, Option.getD_some]
  · rw [write_add, List.getElem?_append_right (Nat.le_refl _), Nat.sub_self]
    rfl

theorem field_nil : m.Field k len [] ↔ ∀ i < len, m (k + i) = 0 := by
  constructor
  · exact fun h i hlt => h.eq i hlt
  · exact fun h => ⟨Nat.zero_le _, h⟩

/-- Zeroing a field. -/
theorem write_zeros_field (m : Memory) (k len : Nat) :
    (m.write k (List.replicate len 0)).Field k len [] := by
  refine field_nil.mpr fun i hlt => ?_
  rw [write_add, List.getElem?_replicate, if_pos hlt, Option.getD_some]

/-- A text that ends in NULs is written into a zeroed field. -/
theorem Field.write (h : m.Field k len []) {n : Nat} (hle : text.length + n ≤ len) :
    (m.write k (text ++ List.replicate n 0)).Field k len text := by
  refine ⟨by omega, fun i hlt => ?_⟩
  rw [write_add, h.eq i hlt, List.getElem?_append]
  split
  · rw [List.getElem?_eq_getElem (by assumption), Option.getD_some, Option.getD_some]
  · rw [List.getElem?_replicate, List.getElem?_eq_none (l := text) (by omega)]
    split <;> rfl

theorem Field.isString (h : m.Field k len text) (hne : (0 : UInt8) ∉ text)
    (hlt : text.length < len) : m.IsString k text := (h.holds hlt).isString hne

/-- A text is written before a NUL. -/
theorem isString_write (hne : (0 : UInt8) ∉ text) (h : m (k + text.length) = 0) :
    (m.write k text).IsString k text := by
  refine ⟨hne, fun i hi => ?_, ?_⟩
  · rw [write_add, List.getElem?_eq_getElem hi, Option.getD_some]
  · rw [write_add, List.getElem?_eq_none (Nat.le_refl _), Option.getD_none, h]

/-- A pointer has one C string behind it. -/
theorem IsString.unique {text' : List UInt8} (h : m.IsString k text) (h' : m.IsString k text') :
    text = text' := by
  have aux : ∀ {u v : List UInt8}, m.IsString k u → m.IsString k v → u.length ≤ v.length := by
    intro u v hu hv
    by_contra hlt
    have hv0 := hv.terminated
    rw [hu.eq v.length (by omega)] at hv0
    exact hu.ne_zero (hv0 ▸ List.getElem_mem _)
  have hlen : text.length = text'.length := Nat.le_antisymm (aux h h') (aux h' h)
  refine List.ext_getElem hlen fun i hi hi' => ?_
  rw [← h.eq i hi, ← h'.eq i hi']

theorem IsString.read_eq (h : m.IsString k text) : m.read k text.length = text := by
  refine List.ext_getElem (length_read _ _ _) fun i hi hi' => ?_
  rw [getElem_read, h.eq i hi']

theorem IsString.strnlen_eq (h : m.IsString k text) {n : Nat} (hn : text.length < n) :
    m.strnlen k n = text.length := by
  induction text generalizing k n with
  | nil =>
    cases n with
    | zero => omega
    | succ n =>
      have h0 : m k = 0 := by simpa using h.terminated
      rw [strnlen, if_pos h0, List.length_nil]
  | cons b text ih =>
    cases n with
    | zero => omega
    | succ n =>
      have hb : m k = b := h.eq 0 (Nat.succ_pos _)
      have hne : b ≠ 0 := fun he => h.ne_zero (by simp [he])
      have htail : m.IsString (k + 1) text := by
        refine ⟨fun hm => h.ne_zero (List.mem_cons_of_mem _ hm), fun i hi => ?_, ?_⟩
        · have := h.eq (i + 1) (by simpa using hi)
          rwa [List.getElem_cons_succ, ← Nat.add_assoc, Nat.add_right_comm] at this
        · have := h.terminated
          rwa [List.length_cons, ← Nat.add_assoc, Nat.add_right_comm] at this
      rw [List.length_cons] at hn
      rw [strnlen, hb, if_neg hne, ih htail (by omega), List.length_cons]

/-- Text is appended to a field where the text in it ends. -/
theorem Field.append (h : m.Field k len text) (hle : text.length + bs.length + 1 ≤ len) :
    (m.write (k + text.length) (bs ++ [0])).Field k len (text ++ bs) := by
  refine ⟨by rw [List.length_append]; omega, fun i hlt => ?_⟩
  rcases Nat.lt_or_ge i text.length with hi | hi
  · rw [write_agreeOff m _ _ _ (.inl (by omega)), h.eq i hlt, List.getElem?_append_left hi]
  · obtain ⟨j, rfl⟩ : ∃ j, i = text.length + j := ⟨i - text.length, by omega⟩
    have hbs : (text ++ bs)[text.length + j]? = bs[j]? := by
      rw [List.getElem?_append_right hi, Nat.add_sub_cancel_left]
    rw [← Nat.add_assoc, write_add, Nat.add_assoc, h.eq _ hlt, List.getElem?_eq_none hi, hbs,
      List.getElem?_append]
    split
    · rw [List.getElem?_eq_getElem (by assumption)]
      rfl
    · rw [List.getElem?_eq_none (l := bs) (by omega)]
      cases j - bs.length <;> rfl

/-- What is read of a text. -/
def cString (text : List UInt8) : List UInt8 := text.takeWhile (· ≠ 0)

theorem cString_of_not_mem (h : (0 : UInt8) ∉ text) : cString text = text :=
  List.takeWhile_eq_self_iff.mpr fun b hb => decide_eq_true fun heq : b = 0 => h (heq ▸ hb)

/-- A text of the full length is read as it is. -/
theorem eq_of_cString {text' : List UInt8} (h : cString text = text')
    (hlen : text'.length = text.length) : text' = text :=
  (h ▸ List.takeWhile_prefix _ : text' <+: text).eq_of_length hlen

theorem Holds.tail {b : UInt8} (h : m.Holds k (b :: text)) : m.Holds (k + 1) text where
  eq i hi := by
    rw [Nat.add_assoc, Nat.add_comm 1 i]
    exact h.eq (i + 1) (Nat.succ_lt_succ hi)
  terminated := by
    rw [Nat.add_assoc, Nat.add_comm 1]
    exact h.terminated

theorem IsString.cons {b : UInt8} (h : m.IsString (k + 1) text) (hb : m k = b) (hne : b ≠ 0) :
    m.IsString k (b :: text) where
  ne_zero hmem := (List.mem_cons.mp hmem).elim (fun h0 => hne h0.symm) h.ne_zero
  eq i hi := by
    cases i with
    | zero => exact hb
    | succ i =>
      have hrest := h.eq i (Nat.lt_of_succ_lt_succ hi)
      rwa [Nat.add_assoc, Nat.add_comm 1] at hrest
  terminated := by
    rw [List.length_cons, Nat.add_comm text.length, ← Nat.add_assoc]
    exact h.terminated

/-- A text in memory is read up to its first NUL. -/
theorem Holds.isString_cString (h : m.Holds k text) : m.IsString k (cString text) := by
  induction text generalizing k with
  | nil => exact ⟨List.not_mem_nil, fun i hi => absurd hi (Nat.not_lt_zero i), h.terminated⟩
  | cons b text ih =>
    have hb : m k = b := h.eq 0 (Nat.succ_pos _)
    by_cases h0 : b = 0
    · rw [cString, List.takeWhile_cons_of_neg (by simp [h0])]
      exact ⟨List.not_mem_nil, fun i hi => absurd hi (Nat.not_lt_zero i), hb.trans h0⟩
    · rw [cString, List.takeWhile_cons_of_pos (by simp [h0])]
      exact (ih h.tail).cons hb h0

end Memory
