import AppOnt.Ui.Rows

/-!
# Rows one behind the other

The rows of a review as a list, what each of them shows, and where the texts
are: `LaidOut d lo pairs rows hi` says that the texts of the rows lie in the
fields from `lo` up to `hi`, in the order of the rows and each in a field of its
own. Rows that are added in later fields leave it as it is.
-/
namespace AppOnt

open Prog

/-- What a row says: its label and its value. -/
structure Row where
  label : List UInt8
  value : List UInt8
  deriving DecidableEq, Repr

namespace Display

/-- The rows of the review. -/
def rows (d : Display) : List TagValue := (List.range d.nbPairs).map d.pairs

/-- What `ptr` leads to is `text`, which is a literal or lies in one of the fields from `lo` up to
`hi`. -/
def Shows (d : Display) (lo : Nat) (ptr : CharPtr) (text : List UInt8) (hi : Nat) : Prop :=
  match ptr with
  | .null => False
  | .literal s => text = chars s ∧ lo ≤ hi
  | .buffer pos => ∃ field, pos = field * maxBufferLen ∧ lo ≤ field ∧ field < hi ∧
      text.length < maxBufferLen ∧ d.buffers.Holds pos text

/-- The texts of the rows, in different fields one behind the other. -/
inductive LaidOut (d : Display) : Nat → List TagValue → List Row → Nat → Prop
  | nil {lo hi : Nat} (h : lo ≤ hi) : LaidOut d lo [] [] hi
  | cons {lo mid mid' hi : Nat} {pair : TagValue} {row : Row} {pairs : List TagValue}
      {rows : List Row} (label : d.Shows lo pair.item row.label mid)
      (value : d.Shows mid pair.value row.value mid') (rest : LaidOut d mid' pairs rows hi) :
      LaidOut d lo (pair :: pairs) (row :: rows) hi

variable {d d' : Display} {lo mid hi : Nat} {pairs pairs' : List TagValue} {rows rows' : List Row}
  {ptr : CharPtr} {text : List UInt8}

theorem Shows.le (h : d.Shows lo ptr text hi) : lo ≤ hi := by
  cases ptr with
  | null => exact h.elim
  | literal s => exact h.2
  | buffer pos =>
    obtain ⟨field, -, hlo, hhi, -⟩ := h
    omega

theorem Shows.weaken (h : d.Shows mid ptr text hi) (hle : lo ≤ mid) : d.Shows lo ptr text hi := by
  cases ptr with
  | null => exact h.elim
  | literal s => exact ⟨h.1, hle.trans h.2⟩
  | buffer pos =>
    obtain ⟨field, hpos, hlo, hrest⟩ := h
    exact ⟨field, hpos, hle.trans hlo, hrest⟩

/-- What changed in later fields changed nothing here. -/
theorem Shows.of_agreeOff (h : d.Shows lo ptr text hi) {lo' hi' : Nat}
    (hag : d.buffers.AgreeOff d'.buffers lo' hi') (hle : hi * maxBufferLen ≤ lo') :
    d'.Shows lo ptr text hi := by
  cases ptr with
  | null => exact h.elim
  | literal s => exact h
  | buffer pos =>
    obtain ⟨field, rfl, hlo, hhi, hlen, hholds⟩ := h
    have hroom := Nat.mul_le_mul_right maxBufferLen (Nat.succ_le_of_lt hhi)
    rw [Nat.succ_mul] at hroom
    exact ⟨field, rfl, hlo, hhi, hlen, hholds.of_agreeOff hag (.inl (by omega))⟩

namespace LaidOut

theorem le (h : LaidOut d lo pairs rows hi) : lo ≤ hi := by
  induction h with
  | nil h => exact h
  | cons label value _ ih => exact (label.le.trans value.le).trans ih

theorem single {pair : TagValue} {row : Row} {mid' : Nat} (label : d.Shows lo pair.item row.label mid)
    (value : d.Shows mid pair.value row.value mid') : LaidOut d lo [pair] [row] mid' :=
  .cons label value (.nil (Nat.le_refl _))

theorem append (h : LaidOut d lo pairs rows mid) (g : LaidOut d mid pairs' rows' hi) :
    LaidOut d lo (pairs ++ pairs') (rows ++ rows') hi := by
  induction h with
  | nil hle =>
    cases g with
    | nil hle' => exact .nil (hle.trans hle')
    | cons label value rest => exact .cons (Shows.weaken label hle) value rest
  | cons label value _ ih => exact .cons label value (ih g)

theorem of_agreeOff (h : LaidOut d lo pairs rows hi) {lo' hi' : Nat}
    (hag : d.buffers.AgreeOff d'.buffers lo' hi') (hle : hi * maxBufferLen ≤ lo') :
    LaidOut d' lo pairs rows hi := by
  induction h with
  | nil h => exact .nil h
  | cons label value rest ih =>
    have hrest := Nat.mul_le_mul_right maxBufferLen rest.le
    have hvalue := Nat.mul_le_mul_right maxBufferLen value.le
    exact .cons (label.of_agreeOff hag (by omega)) (value.of_agreeOff hag (by omega)) (ih hle)

theorem length_eq (h : LaidOut d lo pairs rows hi) : pairs.length = rows.length := by
  induction h with
  | nil => rfl
  | cons _ _ _ ih => rw [List.length_cons, List.length_cons, ih]

end LaidOut

@[simp] theorem length_rows (d : Display) : d.rows.length = d.nbPairs := by simp [Display.rows]

/-- A row is added behind the others. -/
theorem rows_append (d : Display) (pair : TagValue) :
    Display.rows { d.putPair d.nbPairs pair with nbPairs := d.nbPairs + 1 } = d.rows ++ [pair] := by
  simp only [Display.rows, List.range_succ, List.map_append, List.map_singleton, putPair,
    Function.update_self]
  refine congrArg (· ++ [pair]) (List.map_congr_left fun k hk => ?_)
  exact Function.update_of_ne (Nat.ne_of_lt (List.mem_range.mp hk)) _ _

end Display

/-- From `s` to `t` `rows` were added, with their texts in the fields from `lo` up to `hi`. -/
structure AddsRows (s t : Display) (lo hi : Nat) (rows : List Row) : Prop where
  agree : s.buffers.AgreeOff t.buffers (lo * maxBufferLen) (hi * maxBufferLen)
  added : ∃ pairs, t.rows = s.rows ++ pairs ∧ t.LaidOut lo pairs rows hi

namespace AddsRows

variable {s t u : Display} {lo mid hi : Nat} {rows rows' : List Row}

theorem le (h : AddsRows s t lo hi rows) : lo ≤ hi := by
  obtain ⟨_, _, hl⟩ := h.added
  exact hl.le

theorem refl (s : Display) (lo : Nat) : AddsRows s s lo lo [] :=
  ⟨Memory.AgreeOff.refl _ _ _, [], (List.append_nil _).symm, .nil (Nat.le_refl _)⟩

theorem trans (h : AddsRows s t lo mid rows) (g : AddsRows t u mid hi rows') :
    AddsRows s u lo hi (rows ++ rows') := by
  obtain ⟨pairs, ht, hl⟩ := h.added
  obtain ⟨pairs', hu, hl'⟩ := g.added
  refine ⟨(h.agree.mono (Nat.le_refl _) (Nat.mul_le_mul_right _ g.le)).trans
    (g.agree.mono (Nat.mul_le_mul_right _ h.le) (Nat.le_refl _)), pairs ++ pairs', ?_, ?_⟩
  · rw [hu, ht, List.append_assoc]
  · exact (hl.of_agreeOff g.agree (Nat.le_refl _)).append hl'

theorem nbPairs_eq (h : AddsRows s t lo hi rows) : t.nbPairs = s.nbPairs + rows.length := by
  obtain ⟨pairs, ht, hl⟩ := h.added
  rw [← t.length_rows, ht, List.length_append, s.length_rows, hl.length_eq]

end AddsRows

end AppOnt
