import Mathlib.Data.Rat.Floor
import Mathlib.Algebra.Order.Ring.Rat
import Mathlib.Tactic.Linarith

/-!
# JavaScript numbers

A JavaScript number is a rational, one of the two infinities, or `NaN`, which compares as false with
everything. Rounding is left out: what the programs compute with numbers (`max - 1`,
`Math.floor(max / 2)`, a sum of lengths) is exact as far as a text can be long.

A length is compared with a number (`xs.length > max`) and a list is cut at one
(`xs.slice(0, end)`). The lemmas are about these two: a length that is not above a number is at most
that number unless it is `NaN`, and a list that is cut is as long as it was cut.
-/

namespace Js

universe u

/-- A JavaScript number. -/
inductive Number where
  | nan
  | negInf
  | real (q : ℚ)
  | posInf
deriving DecidableEq

namespace Number

instance : NatCast Number := ⟨fun n => .real n⟩

/-- A numeral. -/
instance (n : ℕ) : OfNat Number n := ⟨.real n⟩

/-- `a < b`. -/
def lt : Number → Number → Bool
  | .real q, .real r => q < r
  | .negInf, .real _ | .negInf, .posInf | .real _, .posInf => true
  | _, _ => false

/-- `a <= b`. -/
def le (a b : Number) : Bool := lt a b || (a = b && a ≠ .nan)

/-- A function of the finite numbers, which leaves the others as they are. -/
def map (f : ℚ → ℚ) : Number → Number
  | .real q => .real (f q)
  | a => a

/-- `a - 1`. -/
def pred (a : Number) : Number := a.map (· - 1)

/-- `Math.floor(a / 2)`. -/
def floorHalf (a : Number) : Number := a.map fun q => ⌊q / 2⌋

/-- A finite number without its fraction. -/
def trunc (q : ℚ) : ℤ := if q < 0 then ⌈q⌉ else ⌊q⌋

variable {a : Number} {m n : ℕ}

theorem natCast_eq (n : ℕ) : (n : Number) = .real n := rfl

@[simp] theorem lt_real (q r : ℚ) : lt (.real q) (.real r) = true ↔ q < r := by simp [lt]

@[simp] theorem le_real (q r : ℚ) : le (.real q) (.real r) = true ↔ q ≤ r := by
  simp [le, le_iff_lt_or_eq]

@[simp] theorem le_posInf (q : ℚ) : le (.real q) .posInf = true := rfl

@[simp] theorem not_le_negInf (q : ℚ) : le (.real q) .negInf = false := rfl

@[simp] theorem not_le_nan (q : ℚ) : le (.real q) .nan = false := rfl

/-- A number that is at least some length is infinite or a rational that is. -/
theorem le_cases (h : le n a = true) : a = .posInf ∨ ∃ q, a = .real q ∧ (n : ℚ) ≤ q := by
  rw [natCast_eq] at h
  cases a with
  | nan => simp at h
  | negInf => simp at h
  | posInf => exact .inl rfl
  | real q => exact .inr ⟨q, rfl, (le_real _ _).mp h⟩

theorem le_of_le_of_le {b : Number} (ha : le n a = true) (hab : le a b = true) : le n b = true := by
  rcases le_cases ha with rfl | ⟨q, rfl, hq⟩
  · cases b <;> simp [le, lt] at hab ⊢
  · cases b with
    | real r =>
      rw [le_real] at hab
      rw [natCast_eq, le_real]
      exact hq.trans hab
    | posInf => exact le_posInf _
    | _ => simp at hab

theorem le_mono (hmn : m ≤ n) (h : le n a = true) : le m a = true := by
  rcases le_cases h with rfl | ⟨q, rfl, hq⟩
  · exact le_posInf _
  · rw [natCast_eq, le_real]
    exact le_trans (Nat.cast_le.mpr hmn) hq

/-- What bounds some length from above compares with every length. -/
theorem lt_eq_false_iff (h : le m a = true) : lt a n = false ↔ le n a = true := by
  rcases le_cases h with rfl | ⟨q, rfl, -⟩
  · simp [natCast_eq, lt]
  · rw [natCast_eq, le_real, ← Bool.not_eq_true, lt_real, not_lt]

/-- Two lengths within the half of a number are together within the number. -/
theorem le_of_halves (hm : le m (floorHalf a) = true) (hn : le n (floorHalf a) = true) :
    le (m + n : ℕ) a = true := by
  cases a with
  | nan => simp [floorHalf, map, natCast_eq] at hm
  | negInf => simp [floorHalf, map, natCast_eq] at hm
  | posInf => exact le_posInf _
  | real q =>
    simp only [floorHalf, map, natCast_eq, le_real] at hm hn ⊢
    have hfloor : (⌊q / 2⌋ : ℚ) ≤ q / 2 := Int.floor_le _
    push_cast
    linarith

end Number

/-! ### Cutting -/

section Slice

variable {α : Type u}

/-- `xs.slice(0, end)`, which counts a negative end from behind. -/
def slice (xs : List α) : Number → List α
  | .nan | .negInf => []
  | .posInf => xs
  | .real q =>
    if Number.trunc q < 0 then xs.take (xs.length - (Number.trunc q).natAbs) else
      xs.take (Number.trunc q).toNat

theorem length_slice_le (xs : List α) {q : ℚ} (h : 0 ≤ q) :
    ((slice xs (.real q)).length : ℚ) ≤ q := by
  have hfloor : Number.trunc q = ⌊q⌋ := if_neg (not_lt.mpr h)
  have hnonneg : 0 ≤ ⌊q⌋ := Int.floor_nonneg.mpr h
  have hcut : ((slice xs (.real q)).length : ℤ) ≤ ⌊q⌋ := by
    rw [slice, hfloor, if_neg (not_lt.mpr hnonneg), List.length_take]
    omega
  calc ((slice xs (.real q)).length : ℚ) = (((slice xs (.real q)).length : ℤ) : ℚ) := by simp
    _ ≤ (⌊q⌋ : ℚ) := Int.cast_le.mpr hcut
    _ ≤ q := Int.floor_le q

/-- The last of a list, as many as a number says. -/
def lastOf (n : Number) (xs : List α) : List α :=
  match n with
  | .real q => xs.drop (xs.length - ⌊q⌋₊)
  | .posInf => xs
  | _ => []

end Slice

example : slice [1, 2, 3, 4] (.real (5 / 2)) = [1, 2] ∧
    slice [1, 2, 3, 4] (.real (-3 / 2)) = [1, 2, 3] := by decide +kernel

end Js
