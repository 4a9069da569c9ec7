import Mathlib.Data.List.Count
import Mathlib.Data.List.Range
import Mathlib.Data.List.Sort
import Mathlib.Data.Nat.Basic

/-!
# Grids

A range of `n * k` numbers is `n` rows of `k` numbers each. A beam goes through
the cells of a grid row by row, and begins again behind the last one.
-/

namespace Lib

def gridRow (k i : Nat) : List Nat := (List.range k).map (i * k + ·)

theorem range_rows (n k : Nat) : List.range (n * k) = (List.range n).flatMap (gridRow k) := by
  induction n with
  | zero => simp
  | succ n ih =>
    rw [Nat.succ_mul, List.range_add, ih, List.range_succ, List.flatMap_append, List.flatMap_singleton, gridRow]

/-! ## Words of rows -/

section Count

variable {k : Nat} {xs : List Nat}

theorem count_row (hxs : ∀ x ∈ xs, x < k) (y w : Nat) :
    (xs.map (y * k + ·)).count w = if y = w / k then xs.count (w % k) else 0 := by
  split_ifs with hy
  · have hw : w = y * k + w % k := by rw [hy, Nat.div_add_mod']
    conv_lhs => rw [hw]
    exact List.count_map_of_injective xs (y * k + ·) (fun _ _ h => Nat.add_left_cancel h) _
  · apply List.count_eq_zero.mpr
    rw [List.mem_map]
    rintro ⟨x, hx, rfl⟩
    apply hy
    rw [Nat.mul_comm, Nat.mul_add_div (Nat.zero_lt_of_lt (hxs x hx)), Nat.div_eq_of_lt (hxs x hx), Nat.add_zero]

theorem count_cells (hxs : ∀ x ∈ xs, x < k) (ys : List Nat) (w : Nat) :
    (ys.flatMap fun y => xs.map (y * k + ·)).count w = ys.count (w / k) * xs.count (w % k) := by
  induction ys with
  | nil => simp
  | cons y ys ih =>
    rw [List.flatMap_cons, List.count_append, ih, count_row hxs, List.count_cons, Nat.add_mul]
    split_ifs <;> simp_all [Nat.add_comm]

theorem count_heads (a w : Nat) (f : Nat → List Nat) (ys : List Nat) :
    (ys.flatMap fun y => a :: f y).count w = ys.length * [a].count w + (ys.flatMap f).count w := by
  induction ys with
  | nil => simp
  | cons y ys ih =>
    rw [List.flatMap_cons, List.flatMap_cons, List.cons_append, List.count_cons, List.count_append,
      List.count_append, ih, List.length_cons, Nat.succ_mul, List.count_singleton]
    omega

theorem count_halves (n j : Nat) : ((List.range (2 * n)).map (· / 2)).count j = if j < n then 2 else 0 := by
  induction n with
  | zero => simp
  | succ n ih =>
    have hpair : ([2 * n, 2 * n + 1].map (· / 2)).count j = if n = j then 2 else 0 := by
      rw [List.map_cons, List.map_singleton, show 2 * n / 2 = n by omega, show (2 * n + 1) / 2 = n by omega]
      split_ifs with hj
      · rw [hj, List.count_cons_self, List.count_cons_self, List.count_nil]
      · rw [List.count_cons_of_ne hj, List.count_cons_of_ne hj, List.count_nil]
    rw [Nat.mul_succ, List.range_succ, List.range_succ, List.append_assoc, List.map_append, List.count_append, ih]
    change _ + ([2 * n, 2 * n + 1].map (· / 2)).count j = _
    rw [hpair]
    split_ifs <;> omega

theorem count_odd_halves (n j : Nat) :
    ((List.range (2 * n + 1)).map (· / 2)).count j = if j < n then 2 else if n = j then 1 else 0 := by
  rw [List.range_succ, List.map_append, List.count_append, count_halves, List.map_singleton,
    Nat.mul_div_cancel_left n (by decide), List.count_singleton]
  simp only [beq_iff_eq]
  split_ifs <;> omega

end Count

/-! ## Lines in a range -/

/-- Lines of `width` consecutive numbers each, one every `pitch` numbers. -/
def raster (first pitch height width : Nat) : List Nat :=
  (List.range height).flatMap fun y => (List.range width).map fun x => first + y * pitch + x

section Raster

variable {first pitch height width t : Nat}

theorem mem_raster : t ∈ raster first pitch height width ↔
    ∃ y < height, ∃ x < width, t = first + y * pitch + x := by
  simp only [raster, List.mem_flatMap, List.mem_map, List.mem_range, eq_comm]

theorem raster_pairwise (h : width ≤ pitch) : (raster first pitch height width).Pairwise (· < ·) := by
  unfold raster
  rw [List.pairwise_flatMap]
  constructor
  · intro y _
    rw [List.pairwise_map]
    exact List.pairwise_lt_range.imp fun h => Nat.add_lt_add_left h _
  · apply List.pairwise_lt_range.imp
    intro y y' hlt t ht t' ht'
    simp only [List.mem_map, List.mem_range] at ht ht'
    obtain ⟨x, hx, rfl⟩ := ht
    obtain ⟨x', -, rfl⟩ := ht'
    have hline := Nat.mul_le_mul_right pitch hlt
    rw [Nat.succ_mul] at hline
    omega

theorem map_raster {f : Nat → Nat}
    (h : ∀ y < height, ∀ x < width, f (first + y * pitch + x) = y * width + x) :
    (raster first pitch height width).map f = List.range (height * width) := by
  unfold raster
  rw [range_rows, List.map_flatMap]
  apply List.flatMap_congr
  intro y hy
  rw [List.map_map, gridRow]
  exact List.map_congr_left fun x hx => h y (List.mem_range.mp hy) x (List.mem_range.mp hx)

end Raster

/-! ## The beam -/

structure Beam where
  row : Nat
  col : Nat

namespace Beam

variable {rows cols : Nat}

def next (rows cols : Nat) (b : Beam) : Beam :=
  if b.col + 1 < cols then ⟨b.row, b.col + 1⟩
  else if b.row + 1 < rows then ⟨b.row + 1, 0⟩
  else ⟨0, 0⟩

theorem next_col (rows cols : Nat) (b : Beam) : (b.next rows cols).col = if b.col + 1 < cols then b.col + 1 else 0 := by
  unfold next
  split_ifs <;> rfl

theorem next_row (rows cols : Nat) (b : Beam) : (b.next rows cols).row =
    if b.col + 1 < cols then b.row else if b.row + 1 < rows then b.row + 1 else 0 := by
  unfold next
  split_ifs <;> rfl

def after (rows cols t : Nat) : Beam := ⟨t / cols % rows, t % cols⟩

theorem after_frame (k : Nat) {y x : Nat} (hy : y < rows) (hx : x < cols) :
    after rows cols ((k * rows + y) * cols + x) = ⟨y, x⟩ := by
  unfold after
  rw [Nat.mul_comm _ cols, Nat.mul_add_div (Nat.zero_lt_of_lt hx), Nat.mul_add_mod, Nat.div_eq_of_lt hx,
    Nat.mod_eq_of_lt hx, Nat.add_zero, Nat.mul_comm k, Nat.mul_add_mod, Nat.mod_eq_of_lt hy]

theorem cell_lt {y x : Nat} (hy : y < rows) (hx : x < cols) : y * cols + x < rows * cols := by
  have hline := Nat.mul_le_mul_right cols hy
  rw [Nat.succ_mul] at hline
  omega

theorem frame_cell (rows cols k y x : Nat) : (k * rows + y) * cols + x = k * (rows * cols) + (y * cols + x) := by
  rw [Nat.add_mul, Nat.mul_assoc, Nat.add_assoc]

theorem exists_frame (hrows : 0 < rows) (hcols : 0 < cols) (t : Nat) :
    ∃ k y x, y < rows ∧ x < cols ∧ t = (k * rows + y) * cols + x := by
  refine ⟨t / cols / rows, t / cols % rows, t % cols, Nat.mod_lt _ hrows, Nat.mod_lt _ hcols, ?_⟩
  rw [Nat.div_add_mod', Nat.div_add_mod']

theorem after_origin (hrows : 0 < rows) (hcols : 0 < cols) {t : Nat} :
    (after rows cols t).row = 0 ∧ (after rows cols t).col = 0 ↔ ∃ k, t = k * (rows * cols) := by
  constructor
  · obtain ⟨k, y, x, hy, hx, rfl⟩ := exists_frame hrows hcols t
    rw [after_frame k hy hx]
    rintro ⟨rfl, rfl⟩
    exact ⟨k, Nat.mul_assoc ..⟩
  · rintro ⟨k, rfl⟩
    rw [← Nat.mul_assoc, show after rows cols (k * rows * cols) = ⟨0, 0⟩ from after_frame k hrows hcols]
    exact ⟨rfl, rfl⟩

theorem after_succ (hrows : 0 < rows) (hcols : 0 < cols) (t : Nat) :
    after rows cols (t + 1) = (after rows cols t).next rows cols := by
  obtain ⟨k, y, x, hy, hx, rfl⟩ := exists_frame hrows hcols t
  rw [after_frame k hy hx]
  unfold next
  simp only
  split
  · rename_i hcol
    exact after_frame k hy hcol
  · rename_i hcol
    have hnext : (k * rows + y) * cols + x + 1 = (k * rows + (y + 1)) * cols := by
      rw [← Nat.add_assoc, Nat.succ_mul]
      omega
    rw [hnext]
    split
    · rename_i hrow
      exact after_frame k hrow hcols
    · rename_i hrow
      have hframe : (k * rows + (y + 1)) * cols = ((k + 1) * rows + 0) * cols + 0 := by
        rw [show y + 1 = rows by omega, Nat.succ_mul, Nat.add_zero, Nat.add_zero]
      rw [hframe]
      exact after_frame (k + 1) hrows hcols

end Beam

end Lib
