import Mathlib

/-!
# Base58

The usual Base58 encoding of a byte string: its value as a big-endian number in
base 58, and a `1` for each leading zero byte.
-/

namespace Base58

def alphabet : List UInt8 :=
  "123456789ABCDEFGHJKLMNPQRSTUVWXYZabcdefghijkmnopqrstuvwxyz".toList.map
    fun c => UInt8.ofNat c.toNat

/-- The value of a big-endian byte string. -/
def value (bs : List UInt8) : Nat := Nat.ofDigits 256 (bs.reverse.map UInt8.toNat)

def symbol (d : Nat) : UInt8 := alphabet.getD d 0

def encode (bs : List UInt8) : List UInt8 :=
  List.replicate (bs.takeWhile (· == 0)).length (symbol 0) ++
    (Nat.digits 58 (value bs)).reverse.map symbol

theorem symbol_ne_zero {d : Nat} (h : d < 58) : symbol d ≠ 0 := by
  revert d
  decide +kernel

theorem zero_not_mem_encode (bs : List UInt8) : (0 : UInt8) ∉ encode bs := by
  intro h
  rcases List.mem_append.mp h with h | h
  · exact symbol_ne_zero (by decide : 0 < 58) (List.eq_of_mem_replicate h).symm
  · obtain ⟨d, hd, h0⟩ := List.mem_map.mp h
    exact symbol_ne_zero (Nat.digits_lt_base (by decide) (List.mem_reverse.mp hd)) h0

theorem value_cons (b : UInt8) (bs : List UInt8) :
    value (b :: bs) = value bs + 256 ^ bs.length * b.toNat := by
  simp [value, Nat.ofDigits_append]

theorem value_lt (bs : List UInt8) : value bs < 256 ^ bs.length := by
  have h := Nat.ofDigits_lt_base_pow_length (b := 256) (l := bs.reverse.map UInt8.toNat) (by decide)
    (fun x hx => by
      obtain ⟨b, -, rfl⟩ := List.mem_map.mp hx
      exact b.toNat_lt)
  simpa [value] using h

/-- How long the encoding is of a byte string that does not start with a zero byte. -/
theorem length_encode {b : UInt8} {bs : List UInt8} {n : Nat} (hb : b ≠ 0)
    (hlo : 58 ^ n ≤ 256 ^ bs.length * b.toNat)
    (hhi : 256 ^ bs.length * (b.toNat + 1) ≤ 58 ^ (n + 1)) : (encode (b :: bs)).length = n + 1 := by
  have hlt := value_lt bs
  have hv := value_cons b bs
  have hle : (Nat.digits 58 (value (b :: bs))).length ≤ n + 1 := by
    rw [Nat.digits_length_le_iff (by decide)]
    exact Nat.lt_of_lt_of_le (by rw [hv, Nat.mul_add]; omega) hhi
  have hgt : n < (Nat.digits 58 (value (b :: bs))).length := by
    rw [Nat.lt_digits_length_iff (by decide)]
    omega
  simp only [encode, List.takeWhile_cons_of_neg (p := (· == (0 : UInt8))) (by simpa using hb),
    List.length_nil, List.replicate_zero, List.nil_append, List.length_map, List.length_reverse]
  omega

theorem encode_cons {b : UInt8} (hb : b ≠ 0) (bs : List UInt8) :
    encode (b :: bs) = (Nat.digits 58 (value (b :: bs))).reverse.map symbol := by
  simp [encode, hb]

/-- What the first character is of the encoding of such a byte string. -/
theorem head_encode {b : UInt8} {bs : List UInt8} {n d : Nat} (hb : b ≠ 0) (hd : d < 58)
    (hpos : 0 < d) (hlo : d * 58 ^ n ≤ 256 ^ bs.length * b.toNat)
    (hhi : 256 ^ bs.length * (b.toNat + 1) ≤ (d + 1) * 58 ^ n) :
    (encode (b :: bs)).head? = some (symbol d) := by
  have hlt := value_lt bs
  have hv := value_cons b bs
  have hpow : 0 < 58 ^ n := Nat.pow_pos (by decide)
  have hquot : value (b :: bs) / 58 ^ n = d := by
    refine Nat.div_eq_of_lt_le (by omega) (Nat.lt_of_lt_of_le ?_ hhi)
    rw [hv, Nat.mul_add]
    omega
  have hle : 58 ^ n ≤ d * 58 ^ n := Nat.le_mul_of_pos_left _ hpos
  have hlen : (Nat.digits 58 (value (b :: bs))).length = n + 1 := by
    refine Nat.le_antisymm ?_ ?_
    · rw [Nat.digits_length_le_iff (by decide), Nat.pow_succ', hv]
      have : (d + 1) * 58 ^ n ≤ 58 * 58 ^ n := Nat.mul_le_mul_right _ hd
      rw [Nat.mul_add] at hhi
      omega
    · rw [Nat.succ_le_iff, Nat.lt_digits_length_iff (by decide)]
      omega
  have hdigit := Nat.getD_digits (value (b :: bs)) n (b := 58) (by decide)
  rw [hquot, Nat.mod_eq_of_lt hd, List.getD_eq_getElem _ _ (by omega)] at hdigit
  rw [encode_cons hb, List.head?_map, List.head?_reverse, List.getLast?_eq_getElem?, hlen,
    Nat.add_sub_cancel, List.getElem?_eq_getElem (by omega), hdigit]
  rfl

theorem length_alphabet : alphabet.length = 58 := by decide +kernel

theorem symbol_mem {d : Nat} (h : d < 58) : symbol d ∈ alphabet := by
  rw [symbol, List.getD_eq_getElem _ _ (by rw [length_alphabet]; exact h)]
  exact List.getElem_mem _

theorem symbol_inj {d d' : Nat} (h : d < 58) (h' : d' < 58) (heq : symbol d = symbol d') : d = d' := by
  have hnodup : alphabet.Nodup := by decide +kernel
  rw [symbol, symbol, List.getD_eq_getElem _ _ (by rw [length_alphabet]; exact h),
    List.getD_eq_getElem _ _ (by rw [length_alphabet]; exact h')] at heq
  exact (hnodup.getElem_inj_iff).mp heq

theorem encode_subset (bs : List UInt8) : encode bs ⊆ alphabet := by
  intro c hc
  rcases List.mem_append.mp hc with hc | hc
  · rw [List.eq_of_mem_replicate hc]
    exact symbol_mem (by decide)
  · obtain ⟨d, hd, rfl⟩ := List.mem_map.mp hc
    exact symbol_mem (Nat.digits_lt_base (by decide) (List.mem_reverse.mp hd))

theorem value_inj {bs bs' : List UInt8} (hlen : bs.length = bs'.length) (h : value bs = value bs') :
    bs = bs' := by
  have hlt : ∀ (l : List UInt8), ∀ x ∈ l.reverse.map UInt8.toNat, x < 256 := fun l x hx => by
    obtain ⟨b, -, rfl⟩ := List.mem_map.mp hx
    exact b.toNat_lt
  have hmap := Nat.ofDigits_inj_of_len_eq (by decide) (by simp [hlen]) (hlt bs) (hlt bs') h
  exact List.reverse_injective
    (List.map_injective_iff.mpr (fun _ _ => UInt8.toNat_inj.mp) hmap)

/-- Different byte strings of one length have different encodings, when they do not start with a
zero byte. -/
theorem encode_inj {b b' : UInt8} {bs bs' : List UInt8} (hb : b ≠ 0) (hb' : b' ≠ 0)
    (hlen : bs.length = bs'.length) (h : encode (b :: bs) = encode (b' :: bs')) :
    b :: bs = b' :: bs' := by
  rw [encode_cons hb, encode_cons hb'] at h
  have hdigits : Nat.digits 58 (value (b :: bs)) = Nat.digits 58 (value (b' :: bs')) := by
    have hlt : ∀ n : Nat, ∀ d ∈ (Nat.digits 58 n).reverse, d < 58 := fun n d hd =>
      Nat.digits_lt_base (by decide) (List.mem_reverse.mp hd)
    refine List.reverse_injective (List.ext_getElem ?_ fun i hi hi' => ?_)
    · simpa using congrArg List.length h
    · have hi₁ := List.getElem_of_eq h (i := i) (by simpa using hi)
      rw [List.getElem_map, List.getElem_map] at hi₁
      exact symbol_inj (hlt _ _ (List.getElem_mem _)) (hlt _ _ (List.getElem_mem _)) hi₁
  exact value_inj (by rw [List.length_cons, List.length_cons, hlen])
    (Nat.digits_inj_iff.mp hdigits)

end Base58
