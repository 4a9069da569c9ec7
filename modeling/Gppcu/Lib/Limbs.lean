import Mathlib.Data.Nat.Digits.Defs
import Mathlib.Tactic.Ring

/-!
# Sums of limbs

A sum is made one limb at a time, the least significant one first, and the carry
goes from limb to limb. A difference is the same chain read the other way:
`x - y = z` carries where `z + y = x` does.
-/

namespace Lib

variable {β : Nat}

/-- The columns `(x, y, z)` of a sum `x + y = z`, with the carry into the first one and the carry
out of the last one. -/
def Carries (β : Nat) : Nat → List (Nat × Nat × Nat) → Nat → Prop
  | c, [], c' => c' = c
  | c, (x, y, z) :: cols, c' => ∃ d, z + β * d = x + y + c ∧ Carries β d cols c'

def row (β : Nat) (f : Nat × Nat × Nat → Nat) (cols : List (Nat × Nat × Nat)) : Nat :=
  Nat.ofDigits β (cols.map f)

theorem Carries.value {c c' : Nat} {cols : List (Nat × Nat × Nat)} (h : Carries β c cols c') :
    row β (·.2.2) cols + β ^ cols.length * c' = row β (·.1) cols + row β (·.2.1) cols + c := by
  unfold row
  induction cols generalizing c with
  | nil =>
    obtain rfl := h
    simp
  | cons col cols ih =>
    obtain ⟨x, y, z⟩ := col
    obtain ⟨d, hd, hrest⟩ := h
    have hih := ih hrest
    simp only [List.map_cons, Nat.ofDigits_cons, List.length_cons]
    generalize Nat.ofDigits β (cols.map (·.1)) = X at hih ⊢
    generalize Nat.ofDigits β (cols.map (·.2.1)) = Y at hih ⊢
    generalize Nat.ofDigits β (cols.map (·.2.2)) = Z at hih ⊢
    calc z + β * Z + β ^ (cols.length + 1) * c' = z + β * (Z + β ^ cols.length * c') := by ring
      _ = z + β * (X + Y + d) := by rw [hih]
      _ = z + β * d + β * X + β * Y := by ring
      _ = x + y + c + β * X + β * Y := by rw [hd]
      _ = x + β * X + (y + β * Y) + c := by ring

theorem row_lt (hβ : 1 < β) {f : Nat × Nat × Nat → Nat} {cols : List (Nat × Nat × Nat)}
    (h : ∀ col ∈ cols, f col < β) : row β f cols < β ^ cols.length := by
  have hlt := Nat.ofDigits_lt_base_pow_length hβ (by
    intro x hx
    obtain ⟨col, hcol, rfl⟩ := List.mem_map.mp hx
    exact h col hcol)
  rwa [List.length_map] at hlt

theorem Carries.sum (hβ : 1 < β) {c' : Nat} {cols : List (Nat × Nat × Nat)} (h : Carries β 0 cols c')
    (hz : ∀ col ∈ cols, col.2.2 < β) :
    row β (·.2.2) cols = (row β (·.1) cols + row β (·.2.1) cols) % β ^ cols.length ∧
      c' = (row β (·.1) cols + row β (·.2.1) cols) / β ^ cols.length := by
  have hlt := row_lt hβ hz
  have hpos : 0 < β ^ cols.length := by omega
  have hval := h.value
  rw [Nat.add_zero] at hval
  rw [← hval, Nat.add_mul_mod_self_left, Nat.mod_eq_of_lt hlt, Nat.add_mul_div_left _ _ hpos,
    Nat.div_eq_of_lt hlt, Nat.zero_add]
  exact ⟨rfl, rfl⟩

/-- The difference `z - x`, in as many limbs, and the borrow out of it. -/
theorem Carries.difference (hβ : 1 < β) {c' : Nat} {cols : List (Nat × Nat × Nat)}
    (h : Carries β 0 cols c') (hc : c' ≤ 1) (hz : ∀ col ∈ cols, col.2.2 < β)
    (hy : row β (·.2.1) cols < β ^ cols.length) :
    (row β (·.2.1) cols : Int) = ((row β (·.2.2) cols : Int) - row β (·.1) cols) % (β ^ cols.length : Nat) ∧
      (c' = 1 ↔ row β (·.2.2) cols < row β (·.1) cols) := by
  have hlt := row_lt hβ hz
  have hval := h.value
  rw [Nat.add_zero] at hval
  have hint : (row β (·.2.2) cols : Int) - row β (·.1) cols =
      row β (·.2.1) cols - (β ^ cols.length : Nat) * (c' : Int) := by
    have := congrArg (Nat.cast (R := Int)) hval
    push_cast at this ⊢
    omega
  constructor
  · rw [hint, Int.sub_mul_emod_self_left, Int.emod_eq_of_lt (by omega) (by omega)]
  · obtain rfl | rfl : c' = 0 ∨ c' = 1 := by omega
    · omega
    · omega

end Lib
