import Mathlib.Algebra.Order.Ring.Int
import Mathlib.Algebra.Order.Group.Unbundled.Abs
import Mathlib.Logic.Function.Iterate
import Mathlib.Tactic.SplitIfs
import Mathlib.Tactic.Push
import Mathlib.Tactic.NormNum

/-!
# Digital lines

A walk on the grid from `(0, 0)` to `(dx, dy)` that keeps close to the straight
line. The decision in each step is on an error term: how far the point to the
upper right is off the line.
-/

namespace Lib

/-- How far the point to the upper right of `p` is off the line. -/
def lineErr (dx dy : Nat) (p : Nat × Nat) : Int := dx * (p.2 + 1) - dy * (p.1 + 1)

def lineStep (dx dy : Nat) (p : Nat × Nat) : Nat × Nat :=
  (if -(dy : Int) ≤ 2 * lineErr dx dy p then p.1 + 1 else p.1,
    if 2 * lineErr dx dy p ≤ dx then p.2 + 1 else p.2)

/-- Half a step off the line at most, along the shorter axis. -/
def NearLine (dx dy : Nat) (p : Nat × Nat) : Prop := 2 * |(dx * p.2 - dy * p.1 : Int)| ≤ max dx dy

structure LineMove (dx dy : Nat) (p q : Nat × Nat) : Prop where
  fst : q.1 = p.1 + 1 ∨ q.1 = p.1 ∧ dx < dy
  snd : q.2 = p.2 + 1 ∨ q.2 = p.2 ∧ dy < dx

variable {dx dy : Nat} {p : Nat × Nat}

theorem lineErr_eq (dx dy : Nat) (p : Nat × Nat) : lineErr dx dy p = (dx * p.2 - dy * p.1 : Int) + dx - dy := by
  unfold lineErr
  rw [Int.mul_add, Int.mul_add]
  omega

theorem lineErr_right (dx dy i j : Nat) : lineErr dx dy (i + 1, j) = lineErr dx dy (i, j) + -dy := by
  simp only [lineErr, Int.natCast_add, Int.natCast_one, Int.mul_add]
  omega

theorem lineErr_up (dx dy i j : Nat) : lineErr dx dy (i, j + 1) = lineErr dx dy (i, j) + dx := by
  simp only [lineErr, Int.natCast_add, Int.natCast_one, Int.mul_add]
  omega

theorem nearLine_iff : NearLine dx dy p ↔
    -(max dx dy : Int) ≤ 2 * (dx * p.2 - dy * p.1 : Int) ∧ 2 * (dx * p.2 - dy * p.1 : Int) ≤ max dx dy := by
  unfold NearLine
  rw [abs_eq_max_neg]
  omega

theorem nearLine_zero : NearLine dx dy (0, 0) := by simp [NearLine]

theorem NearLine.move (h : NearLine dx dy p) : LineMove dx dy p (lineStep dx dy p) := by
  rw [nearLine_iff] at h
  have herr := lineErr_eq dx dy p
  constructor
  · unfold lineStep
    simp only
    split_ifs with hx
    · exact Or.inl rfl
    · exact Or.inr ⟨rfl, by omega⟩
  · unfold lineStep
    simp only
    split_ifs with hy
    · exact Or.inl rfl
    · exact Or.inr ⟨rfl, by omega⟩

theorem NearLine.step (h : NearLine dx dy p) : NearLine dx dy (lineStep dx dy p) := by
  obtain ⟨i, j⟩ := p
  have here := lineErr_eq dx dy (i, j)
  have right := (lineErr_eq dx dy (i + 1, j)).symm.trans (lineErr_right dx dy i j)
  have up := (lineErr_eq dx dy (i, j + 1)).symm.trans (lineErr_up dx dy i j)
  have corner := (lineErr_eq dx dy (i + 1, j + 1)).symm.trans (lineErr_up dx dy (i + 1) j)
  rw [lineErr_right] at corner
  rw [nearLine_iff] at h ⊢
  unfold lineStep
  simp only at *
  split_ifs with hup hright hright <;> omega

/-! ## The whole line -/

structure OnLine (dx dy k : Nat) (p : Nat × Nat) : Prop where
  near : NearLine dx dy p
  fst : p.1 ≤ k ∧ (dy ≤ dx → p.1 = k)
  snd : p.2 ≤ k ∧ (dx ≤ dy → p.2 = k)

theorem onLine_iterate (dx dy k : Nat) : OnLine dx dy k ((lineStep dx dy)^[k] (0, 0)) := by
  induction k with
  | zero => exact ⟨nearLine_zero, by simp, by simp⟩
  | succ k ih =>
    rw [Function.iterate_succ_apply']
    obtain ⟨hx, hy⟩ := ih.near.move
    have hfst := ih.fst
    have hsnd := ih.snd
    exact ⟨ih.near.step, by omega, by omega⟩

section Slope

variable {a b k q : Nat} (ha : 0 < a)

include ha

theorem le_of_slope (hk : k ≤ a) (h : 2 * (a * q : Int) ≤ a + 2 * (b * k)) : q ≤ b := by
  have hslope : (b : Int) * k ≤ b * a := Int.mul_le_mul_of_nonneg_left (by omega) (by omega)
  by_contra hlt
  have hover : (a : Int) * (b + 1) ≤ a * q := Int.mul_le_mul_of_nonneg_left (by omega) (by omega)
  rw [Int.mul_add, Int.mul_comm (a : Int) b] at hover
  omega

theorem ge_of_slope (h : 2 * (b * a : Int) ≤ a + 2 * (a * q)) : b ≤ q := by
  by_contra hlt
  have hunder : (a : Int) * (q + 1) ≤ a * b := Int.mul_le_mul_of_nonneg_left (by omega) (by omega)
  rw [Int.mul_add, Int.mul_comm (a : Int) b] at hunder
  omega

end Slope

variable {k : Nat}

theorem OnLine.inside (h : OnLine dx dy k p) (hk : k ≤ max dx dy) : p.1 ≤ dx ∧ p.2 ≤ dy := by
  obtain ⟨hlo, hhi⟩ := nearLine_iff.mp h.near
  have hfst := h.fst
  have hsnd := h.snd
  rcases Nat.le_total dy dx with hle | hle
  · rcases Nat.eq_zero_or_pos dx with rfl | hpos
    · omega
    · refine ⟨by omega, le_of_slope hpos (k := p.1) (by omega) (by omega)⟩
  · rcases Nat.eq_zero_or_pos dy with rfl | hpos
    · omega
    · refine ⟨le_of_slope hpos (k := p.2) (by omega) (by omega), by omega⟩

/-- The walk reaches the other end after as many steps as the longer axis is long, and not before. -/
theorem OnLine.end_iff (h : OnLine dx dy k p) (hk : k ≤ max dx dy) : p = (dx, dy) ↔ k = max dx dy := by
  obtain ⟨hlo, hhi⟩ := nearLine_iff.mp h.near
  obtain ⟨hx, hy⟩ := h.inside hk
  have hfst := h.fst
  have hsnd := h.snd
  constructor
  · rintro rfl
    simp only at hfst hsnd
    omega
  · intro he
    rcases Nat.le_total dy dx with hle | hle
    · have hend : p.1 = dx := by omega
      rcases Nat.eq_zero_or_pos dx with rfl | hpos
      · exact Prod.ext (by simp only; omega) (by simp only; omega)
      · rw [hend] at hlo
        exact Prod.ext hend (Nat.le_antisymm hy (ge_of_slope (b := dy) hpos (by omega)))
    · have hend : p.2 = dy := by omega
      rcases Nat.eq_zero_or_pos dy with rfl | hpos
      · exact Prod.ext (by simp only; omega) (by simp only; omega)
      · rw [hend] at hhi
        exact Prod.ext (Nat.le_antisymm hx (ge_of_slope (b := dx) hpos (by omega))) hend

/-- The error term never gets larger than one and a half times the longer axis. -/
theorem NearLine.err_le (h : NearLine dx dy p) : 2 * |lineErr dx dy p| ≤ 3 * max dx dy := by
  rw [nearLine_iff] at h
  rw [lineErr_eq, abs_eq_max_neg]
  omega

end Lib
