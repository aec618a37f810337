import AppOnt.Library.Program

/-!
# The SDK's read buffer

`buffer_t` and the calls of the SDK's buffer library that the application
makes. The library is not part of the application, so the calls are a class
whose fields are the calls and what is documented of them: a read or a relative
seek succeeds exactly when the bytes are there and moves the offset over them,
and an absolute seek fails exactly past the end. `Buffer` carries the bound
`offset ≤ size` that these calls maintain.
-/
namespace AppOnt

/-- `buffer_t`: the bytes `ptr[0 .. size)` and the reading offset. -/
@[ext] structure Buffer where
  ptr : List UInt8
  offset : Nat
  offset_le : offset ≤ ptr.length

namespace Buffer

def size (b : Buffer) : Nat := b.ptr.length

/-- A buffer at its start, as `{.ptr, .size, .offset = 0}`. -/
def ofBytes (bs : List UInt8) : Buffer := ⟨bs, 0, Nat.zero_le _⟩

/-- The bytes not yet read. -/
def rest (b : Buffer) : List UInt8 := b.ptr.drop b.offset

/-- Reading `bs` moves the buffer from `b` to `b'`. -/
def Consumes (b : Buffer) (bs : List UInt8) (b' : Buffer) : Prop :=
  b'.ptr = b.ptr ∧ b.rest = bs ++ b'.rest

@[simp] theorem rest_ofBytes (bs : List UInt8) : (ofBytes bs).rest = bs := rfl
@[simp] theorem ptr_ofBytes (bs : List UInt8) : (ofBytes bs).ptr = bs := rfl
@[simp] theorem offset_ofBytes (bs : List UInt8) : (ofBytes bs).offset = 0 := rfl

theorem offset_le_size (b : Buffer) : b.offset ≤ b.size := b.offset_le

theorem length_rest (b : Buffer) : b.rest.length = b.size - b.offset := by
  simp [rest, size]

theorem offset_add_length_rest (b : Buffer) : b.offset + b.rest.length = b.size := by
  have := b.offset_le_size
  rw [length_rest]
  omega

theorem take_append_rest (b : Buffer) : b.ptr.take b.offset ++ b.rest = b.ptr :=
  List.take_append_drop _ _

@[simp] theorem consumes_nil {b b' : Buffer} : b.Consumes [] b' ↔ b' = b := by
  constructor
  · rintro ⟨hp, hr⟩
    have hl := congrArg List.length hr
    have := b.offset_add_length_rest
    have := b'.offset_add_length_rest
    simp only [List.nil_append] at hl
    exact Buffer.ext hp (by simp only [size, hp] at *; omega)
  · rintro rfl
    exact ⟨rfl, rfl⟩

theorem Consumes.offset {b b' : Buffer} {bs : List UInt8} (h : b.Consumes bs b') :
    b'.offset = b.offset + bs.length := by
  have hl := congrArg List.length h.2
  have := b.offset_add_length_rest
  have := b'.offset_add_length_rest
  simp only [List.length_append, size, h.1] at *
  omega

theorem Consumes.length_le {b b' : Buffer} {bs : List UInt8} (h : b.Consumes bs b') :
    bs.length ≤ b.rest.length := by
  have hl := congrArg List.length h.2
  rw [List.length_append] at hl
  omega

theorem Consumes.size {b b' : Buffer} {bs : List UInt8} (h : b.Consumes bs b') :
    b'.size = b.size := by simp [Buffer.size, h.1]

theorem Consumes.trans {b c d : Buffer} {u v : List UInt8} (h : b.Consumes u c)
    (g : c.Consumes v d) : b.Consumes (u ++ v) d :=
  ⟨g.1.trans h.1, by rw [h.2, g.2, List.append_assoc]⟩

/-- What is read determines where the buffer ends up. -/
theorem Consumes.unique {b c d : Buffer} {bs : List UInt8} (h : b.Consumes bs c)
    (g : b.Consumes bs d) : c = d :=
  Buffer.ext (h.1.trans g.1.symm) (h.offset.trans g.offset.symm)

/-- Any prefix of the unread bytes can be read. -/
theorem exists_consumes {b : Buffer} {bs r : List UInt8} (h : b.rest = bs ++ r) :
    ∃ b', b.Consumes bs b' ∧ b'.rest = r := by
  have hl := congrArg List.length h
  have hb := b.offset_add_length_rest
  simp only [List.length_append, Buffer.size] at hl hb
  have hr : b.ptr.drop (b.offset + bs.length) = r := by
    rw [← List.drop_drop, ← rest, h, List.drop_left]
  exact ⟨⟨b.ptr, b.offset + bs.length, by omega⟩, ⟨rfl, by rw [h]; exact congrArg _ hr.symm⟩, hr⟩

theorem consumes_append {b d : Buffer} {u v : List UInt8} :
    b.Consumes (u ++ v) d ↔ ∃ c, b.Consumes u c ∧ c.Consumes v d := by
  constructor
  · intro h
    obtain ⟨c, hc, hr⟩ := exists_consumes (h.2.trans (List.append_assoc _ _ _))
    exact ⟨c, hc, h.1.trans hc.1.symm, hr⟩
  · rintro ⟨c, hc, hd⟩
    exact hc.trans hd

/-- The bytes read are those at the offset. -/
theorem Consumes.take {b b' : Buffer} {bs : List UInt8} (h : b.Consumes bs b') :
    (b.ptr.drop b.offset).take bs.length = bs := by
  rw [← rest, h.2, List.take_left]

end Buffer

/-- Little-endian value of a byte string. -/
def leNat : List UInt8 → Nat
  | [] => 0
  | b :: bs => b.toNat + 256 * leNat bs

theorem leNat_lt (bs : List UInt8) : leNat bs < 256 ^ bs.length := by
  induction bs with
  | nil => simp [leNat]
  | cons b bs ih =>
    have := b.toNat_lt
    simp only [leNat, List.length_cons, Nat.pow_succ]
    omega

/-- `buffer.h` of the SDK. `none` is the result `false`, which leaves the buffer as it was. -/
class BufferSdk where
  bufferCanRead : Buffer → Nat → Bool
  bufferSeekSet : Buffer → Nat → Option Buffer
  bufferSeekCur : Buffer → Nat → Option Buffer
  bufferReadU8 : Buffer → Option (UInt8 × Buffer)
  bufferReadU16Le : Buffer → Option (Nat × Buffer)
  bufferReadU32Le : Buffer → Option (Nat × Buffer)
  bufferReadU64Le : Buffer → Option (Nat × Buffer)
  canRead_iff : ∀ b n, bufferCanRead b n = true ↔ n ≤ b.size - b.offset
  seekSet_iff : ∀ b n b', bufferSeekSet b n = some b' ↔ b'.ptr = b.ptr ∧ b'.offset = n
  seekCur_iff : ∀ b n b', bufferSeekCur b n = some b' ↔ ∃ bs, bs.length = n ∧ b.Consumes bs b'
  readU8_iff : ∀ b x b', bufferReadU8 b = some (x, b') ↔ b.Consumes [x] b'
  readU16Le_iff : ∀ b n b', bufferReadU16Le b = some (n, b') ↔
    ∃ bs, leNat bs = n ∧ bs.length = 2 ∧ b.Consumes bs b'
  readU32Le_iff : ∀ b n b', bufferReadU32Le b = some (n, b') ↔
    ∃ bs, leNat bs = n ∧ bs.length = 4 ∧ b.Consumes bs b'
  readU64Le_iff : ∀ b n b', bufferReadU64Le b = some (n, b') ↔
    ∃ bs, leNat bs = n ∧ bs.length = 8 ∧ b.Consumes bs b'

namespace Buffer

/-- Read `n` bytes, if they are there. -/
def take? (b : Buffer) (n : Nat) : Option (List UInt8 × Buffer) :=
  if h : b.offset + n ≤ b.ptr.length then
    some (b.rest.take n, ⟨b.ptr, b.offset + n, h⟩)
  else none

theorem take?_eq_some {b b' : Buffer} {n : Nat} {bs : List UInt8} :
    b.take? n = some (bs, b') ↔ bs.length = n ∧ b.Consumes bs b' := by
  have hb := b.offset_add_length_rest
  constructor
  · intro h
    unfold take? at h
    split at h
    · rename_i hn
      cases h
      have hl : (b.rest.take n).length = n := by
        simp only [List.length_take, Buffer.size] at *
        omega
      refine ⟨hl, rfl, ?_⟩
      simp [rest, ← List.drop_drop]
    · cases h
  · rintro ⟨rfl, h⟩
    have hn : b.offset + bs.length ≤ b.ptr.length := by
      rw [← h.offset, ← h.1]
      exact b'.offset_le
    rw [take?, dif_pos hn, h.2, List.take_left]
    exact congrArg some (Prod.ext rfl (Buffer.ext h.1.symm h.offset.symm))

/-- Read `n` bytes as a little-endian number. -/
def readLe? (b : Buffer) (n : Nat) : Option (Nat × Buffer) :=
  (b.take? n).map fun p => (leNat p.1, p.2)

theorem readLe?_eq_some {b b' : Buffer} {n v : Nat} :
    b.readLe? n = some (v, b') ↔ ∃ bs, leNat bs = v ∧ bs.length = n ∧ b.Consumes bs b' := by
  simp only [readLe?, Option.map_eq_some_iff, Prod.exists, take?_eq_some, Prod.mk.injEq]
  constructor
  · rintro ⟨bs, c, hc, rfl, rfl⟩
    exact ⟨bs, rfl, hc⟩
  · rintro ⟨bs, rfl, hc⟩
    exact ⟨bs, b', hc, rfl, rfl⟩

end Buffer

/-- A buffer library that behaves as documented. -/
@[reducible] def BufferSdk.reference : BufferSdk where
  bufferCanRead b n := decide (n ≤ b.size - b.offset)
  bufferSeekSet b n := if h : n ≤ b.ptr.length then some ⟨b.ptr, n, h⟩ else none
  bufferSeekCur b n := (b.take? n).map (·.2)
  bufferReadU8 b := (b.take? 1).map fun p => (p.1.headD 0, p.2)
  bufferReadU16Le b := b.readLe? 2
  bufferReadU32Le b := b.readLe? 4
  bufferReadU64Le b := b.readLe? 8
  canRead_iff b n := by simp
  seekSet_iff b n b' := by
    constructor
    · intro h
      split at h
      · cases h
        exact ⟨rfl, rfl⟩
      · cases h
    · rintro ⟨hp, rfl⟩
      rw [dif_pos (hp ▸ b'.offset_le)]
      exact congrArg some (Buffer.ext hp.symm rfl)
  seekCur_iff b n b' := by simp [Buffer.take?_eq_some]
  readU8_iff b x b' := by
    simp only [Option.map_eq_some_iff, Prod.exists, Buffer.take?_eq_some, Prod.mk.injEq]
    constructor
    · rintro ⟨bs, c, ⟨hl, hc⟩, rfl, rfl⟩
      obtain ⟨y, rfl⟩ := List.length_eq_one_iff.mp hl
      exact hc
    · exact fun h => ⟨[x], b', ⟨rfl, h⟩, rfl, rfl⟩
  readU16Le_iff b n b' := Buffer.readLe?_eq_some
  readU32Le_iff b n b' := Buffer.readLe?_eq_some
  readU64Le_iff b n b' := Buffer.readLe?_eq_some

end AppOnt
