import Gppcu.Lib.Cells
import Mathlib.LinearAlgebra.CrossProduct
import Mathlib.LinearAlgebra.UnitaryGroup
import Mathlib.Analysis.SpecialFunctions.Trigonometric.Basic
import Mathlib.Tactic.FieldSimp
import Mathlib.Tactic.LinearCombination

/-!
# The constants of an object

`app_calc_object_constant` multiplies the matrices of `mathc.c`, which are by
column. With arithmetic that is exact they only move and scale the vertices. The
arrays have no end here, as those of a mesh.
-/

namespace Gppcu

open scoped Matrix

/-! ## The functions of `mathc.c` -/

/-- What `mathc.c` takes from `math.h`. -/
structure Libm (K : Type) where
  sin : K → K
  cos : K → K
  sqrt : K → K

section Mathc

variable {K : Type} [Field K] (L : Libm K)

def mat4Identity (i : Nat) : K := if i % 5 = 0 then 1 else 0

/-- The sixteen sums, all of them before `result` is written. -/
def mat4Multiply (m0 m1 : Nat → K) (i : Nat) : K :=
  m0 (i % 4) * m1 (i / 4 * 4) + m0 (i % 4 + 4) * m1 (i / 4 * 4 + 1) + m0 (i % 4 + 8) * m1 (i / 4 * 4 + 2) +
    m0 (i % 4 + 12) * m1 (i / 4 * 4 + 3)

def mat4Scale (m0 v0 : Nat → K) : Nat → K :=
  Lib.store m0 [(0, m0 0 * v0 0), (5, m0 5 * v0 1), (10, m0 10 * v0 2)]

def mat4Translate (m0 v0 : Nat → K) : Nat → K :=
  Lib.store m0 [(12, m0 12 + v0 0), (13, m0 13 + v0 1), (14, m0 14 + v0 2)]

/-- The other cells of `result` stay as they are. -/
def mat4RotationX (result : Nat → K) (f : K) : Nat → K :=
  Lib.store result [(5, L.cos f), (6, L.sin f), (9, - L.sin f), (10, L.cos f)]

def mat4RotationY (result : Nat → K) (f : K) : Nat → K :=
  Lib.store result [(0, L.cos f), (2, - L.sin f), (8, L.sin f), (10, L.cos f)]

def mat4RotationZ (result : Nat → K) (f : K) : Nat → K :=
  Lib.store result [(0, L.cos f), (1, L.sin f), (4, - L.sin f), (5, L.cos f)]

def vec4MultiplyMat4 (v0 m0 : Nat → K) (i : Nat) : K :=
  m0 i * v0 0 + m0 (i + 4) * v0 1 + m0 (i + 8) * v0 2 + m0 (i + 12) * v0 3

def vec3Add (v0 v1 : Nat → K) (i : Nat) : K := v0 i + v1 i

def vec3Subtract (v0 v1 : Nat → K) (i : Nat) : K := v0 i - v1 i

def vec3Dot (v0 v1 : Nat → K) : K := v0 0 * v1 0 + v0 1 * v1 1 + v0 2 * v1 2

def vec3Cross (v0 v1 : Nat → K) : Nat → K
  | 0 => v0 1 * v1 2 - v0 2 * v1 1
  | 1 => v0 2 * v1 0 - v0 0 * v1 2
  | _ => v0 0 * v1 1 - v0 1 * v1 0

def vec3Normalize (v0 : Nat → K) (i : Nat) : K := v0 i / L.sqrt (v0 0 * v0 0 + v0 1 * v0 1 + v0 2 * v0 2)

def mat4LookAt (position target up : Nat → K) : Nat → K :=
  let forward := vec3Normalize L (vec3Subtract target position)
  let side := vec3Normalize L (vec3Cross forward up)
  let up := vec3Cross side forward
  fun i => [side 0, up 0, - forward 0, 0, side 1, up 1, - forward 1, 0, side 2, up 2, - forward 2, 0,
    - vec3Dot side position, - vec3Dot up position, vec3Dot forward position, 1].getD i 0

/-! ## The functions of `app.c` -/

def mat4RotateZyx (vrot : Nat → K) : Nat → K :=
  let mtrx := mat4Multiply mat4Identity (mat4RotationZ L mat4Identity (vrot 2))
  let mtrx := mat4Multiply mtrx (mat4RotationY L mat4Identity (vrot 1))
  mat4Multiply mtrx (mat4RotationX L mat4Identity (vrot 0))

/-- `swk_cam_t`: the perspective is never multiplied. -/
structure SwkCam (K : Type) where
  location : Nat → K
  rotation : Nat → K

structure SwkMeshinfo (K : Type) where
  location : Nat → K
  rotation : Nat → K
  scale : Nat → K

def SwkCam.dir (cam : SwkCam K) : Nat → K :=
  vec4MultiplyMat4 (fun i => [0, 0, -10, 0].getD i 0) (mat4RotateZyx L cam.rotation)

def worldViewProj (cam : SwkCam K) (info : SwkMeshinfo K) : Nat → K :=
  let world := mat4Scale mat4Identity info.scale
  let world := mat4Multiply world (mat4RotateZyx L info.rotation)
  let world := mat4Translate world info.location
  let vTarget := vec3Add (cam.dir L) cam.location
  let lookat := mat4LookAt L cam.location vTarget fun i => [0, 1, 0].getD i 0
  mat4Multiply world lookat

/-- `swk_object_constant_t`, before it is words. -/
structure ObjectConstant (K : Type) where
  worldViewProj : Nat → K
  width : K
  height : K

def appCalcObjectConstant (cam : SwkCam K) (info : SwkMeshinfo K) : ObjectConstant K :=
  ⟨worldViewProj L cam info, 400, 240⟩

end Mathc

/-! ## What a matrix does to a vertex -/

section Affine

variable {K : Type} [Field K]

def coords (v : Nat → K) (i : Fin 3) : K := v i

def homogeneous (v : Fin 3 → K) (i : Nat) : K := if h : i < 3 then v ⟨i, h⟩ else 1

def moved (m : Nat → K) (v : Fin 3 → K) (i : Fin 3) : K := vec4MultiplyMat4 (homogeneous v) m i

/-- The columns that turn, and the one that shifts. -/
def linear (m : Nat → K) : Matrix (Fin 3) (Fin 3) K := Matrix.of fun r c => m (4 * c + r)

def shift (m : Nat → K) (r : Fin 3) : K := m (12 + r)

/-- The last row does nothing. -/
structure Affine (m : Nat → K) : Prop where
  col0 : m 3 = 0
  col1 : m 7 = 0
  col2 : m 11 = 0
  col3 : m 15 = 1

variable {m m' : Nat → K}

theorem moved_eq (m : Nat → K) (v : Fin 3 → K) : moved m v = linear m *ᵥ v + shift m := by
  ext r
  fin_cases r <;>
    simp [moved, linear, shift, vec4MultiplyMat4, homogeneous, Matrix.mulVec, dotProduct, Fin.sum_univ_three]

theorem Affine.one (h : Affine m) (v : Fin 3 → K) : vec4MultiplyMat4 (homogeneous v) m 3 = 1 := by
  simp [vec4MultiplyMat4, homogeneous, h.col0, h.col1, h.col2, h.col3]

theorem Affine.multiply (h : Affine m) (h' : Affine m') : Affine (mat4Multiply m m') where
  col0 := by simp [mat4Multiply, h.col0, h.col1, h.col2, h.col3, h'.col0]
  col1 := by simp [mat4Multiply, h.col0, h.col1, h.col2, h.col3, h'.col1]
  col2 := by simp [mat4Multiply, h.col0, h.col1, h.col2, h.col3, h'.col2]
  col3 := by simp [mat4Multiply, h.col0, h.col1, h.col2, h.col3, h'.col3]

theorem Affine.linear_multiply (h : Affine m') : linear (mat4Multiply m m') = linear m * linear m' := by
  ext r c
  fin_cases r <;> fin_cases c <;>
    simp [linear, mat4Multiply, Matrix.mul_apply, Fin.sum_univ_three, h.col0, h.col1, h.col2]

theorem Affine.shift_multiply (h : Affine m') :
    shift (mat4Multiply m m') = linear m *ᵥ shift m' + shift m := by
  ext r
  fin_cases r <;>
    simp [linear, shift, mat4Multiply, Matrix.mulVec, dotProduct, Fin.sum_univ_three, h.col3]

theorem Affine.moved_multiply (h : Affine m') (v : Fin 3 → K) :
    moved (mat4Multiply m m') v = moved m (moved m' v) := by
  rw [moved_eq, moved_eq, moved_eq, h.linear_multiply, h.shift_multiply, Matrix.mulVec_add, Matrix.mulVec_mulVec,
    add_assoc]

theorem linear_scale (v0 : Nat → K) : linear (mat4Scale mat4Identity v0) = Matrix.diagonal (coords v0) := by
  ext r c
  fin_cases r <;> fin_cases c <;> simp [linear, mat4Scale, mat4Identity, coords]

theorem shift_scale (v0 : Nat → K) : shift (mat4Scale mat4Identity v0) = 0 := by
  ext r
  fin_cases r <;> simp [shift, mat4Scale, mat4Identity]

theorem affine_scale (v0 : Nat → K) : Affine (mat4Scale mat4Identity v0) := ⟨rfl, rfl, rfl, rfl⟩

theorem linear_translate (m v0 : Nat → K) : linear (mat4Translate m v0) = linear m := by
  ext r c
  fin_cases r <;> fin_cases c <;> simp [linear, mat4Translate]

theorem shift_translate (m v0 : Nat → K) : shift (mat4Translate m v0) = shift m + coords v0 := by
  ext r
  fin_cases r <;> simp [shift, mat4Translate, coords]

theorem Affine.translate (h : Affine m) (v0 : Nat → K) : Affine (mat4Translate m v0) where
  col0 := by simp [mat4Translate, h.col0]
  col1 := by simp [mat4Translate, h.col1]
  col2 := by simp [mat4Translate, h.col2]
  col3 := by simp [mat4Translate, h.col3]

end Affine

/-! ## Turns -/

section Turns

variable {K : Type} [Field K]

/-- The vertex is turned around the origin. -/
structure Turns (m : Nat → K) : Prop where
  affine : Affine m
  turns : linear m ∈ Matrix.specialOrthogonalGroup (Fin 3) K
  shift : shift m = 0

variable {m m' : Nat → K}

theorem Turns.multiply (h : Turns m) (h' : Turns m') : Turns (mat4Multiply m m') where
  affine := h.affine.multiply h'.affine
  turns := by
    rw [h'.affine.linear_multiply]
    exact mul_mem h.turns h'.turns
  shift := by rw [h'.affine.shift_multiply, h'.shift, h.shift, Matrix.mulVec_zero, add_zero]

theorem turns_identity : Turns (mat4Identity : Nat → K) where
  affine := ⟨rfl, rfl, rfl, rfl⟩
  turns := by
    have hone : linear (mat4Identity : Nat → K) = 1 := by
      ext r c
      fin_cases r <;> fin_cases c <;> simp [linear, mat4Identity]
    rw [hone]
    exact one_mem _
  shift := by
    ext r
    fin_cases r <;> simp [shift, mat4Identity]

variable {L : Libm K} (hL : ∀ x, L.sin x * L.sin x + L.cos x * L.cos x = 1) (f : K)

include hL

theorem turns_rotation : ∀ rotation ∈ [mat4RotationX L, mat4RotationY L, mat4RotationZ L],
    Turns (rotation mat4Identity f) := by
  have hunit := hL f
  simp only [List.forall_mem_cons, List.not_mem_nil, false_implies, implies_true, and_true]
  refine ⟨?_, ?_, ?_⟩ <;>
    · refine ⟨⟨?_, ?_, ?_, ?_⟩, ?_, ?_⟩
      · simp [mat4RotationX, mat4RotationY, mat4RotationZ, mat4Identity]
      · simp [mat4RotationX, mat4RotationY, mat4RotationZ, mat4Identity]
      · simp [mat4RotationX, mat4RotationY, mat4RotationZ, mat4Identity]
      · simp [mat4RotationX, mat4RotationY, mat4RotationZ, mat4Identity]
      · rw [Matrix.mem_specialOrthogonalGroup_iff, Matrix.mem_orthogonalGroup_iff, Matrix.det_fin_three]
        constructor
        · ext r c
          -- the squares need `hunit`, the mixed products cancel
          fin_cases r <;> fin_cases c <;>
            simp [linear, mat4RotationX, mat4RotationY, mat4RotationZ, mat4Identity, Matrix.mul_apply,
              Fin.sum_univ_three] <;>
            first | ring1 | linear_combination hunit
        · simp [linear, mat4RotationX, mat4RotationY, mat4RotationZ, mat4Identity]
          linear_combination hunit
      · ext r
        fin_cases r <;> simp [shift, mat4RotationX, mat4RotationY, mat4RotationZ, mat4Identity]

theorem turns_zyx (vrot : Nat → K) : Turns (mat4RotateZyx L vrot) := by
  have hx := turns_rotation hL (vrot 0) (mat4RotationX L) (by simp)
  have hy := turns_rotation hL (vrot 1) (mat4RotationY L) (by simp)
  have hz := turns_rotation hL (vrot 2) (mat4RotationZ L) (by simp)
  exact ((turns_identity.multiply hz).multiply hy).multiply hx

end Turns

/-! ## The view -/

section View

variable {K : Type} [Field K]

theorem coords_cross (v0 v1 : Nat → K) : coords (vec3Cross v0 v1) = crossProduct (coords v0) (coords v1) := by
  rw [cross_apply]
  ext i
  fin_cases i <;> rfl

theorem vec3Dot_eq (v0 v1 : Nat → K) : vec3Dot v0 v1 = coords v0 ⬝ᵥ coords v1 := by
  simp [vec3Dot, coords, dotProduct, Fin.sum_univ_three]

theorem frame_turns {s f : Fin 3 → K} (hs : s ⬝ᵥ s = 1) (hf : f ⬝ᵥ f = 1) (hsf : s ⬝ᵥ f = 0) :
    Matrix.of ![s, crossProduct s f, -f] ∈ Matrix.specialOrthogonalGroup (Fin 3) K := by
  have hfs : f ⬝ᵥ s = 0 := by rw [dotProduct_comm, hsf]
  have hu : crossProduct s f ⬝ᵥ crossProduct s f = 1 := by
    rw [cross_dot_cross, hs, hf, hsf, hfs]
    ring
  have hsu : s ⬝ᵥ crossProduct s f = 0 := dot_self_cross s f
  have hfu : f ⬝ᵥ crossProduct s f = 0 := dot_cross_self s f
  rw [Matrix.mem_specialOrthogonalGroup_iff, Matrix.mem_orthogonalGroup_iff]
  constructor
  · ext r c
    change ![s, crossProduct s f, -f] r ⬝ᵥ ![s, crossProduct s f, -f] c = _
    fin_cases r <;> fin_cases c <;>
      simp [hs, hf, hu, hsf, hfs, hsu, hfu, dotProduct_comm (crossProduct s f)]
  · have hback : crossProduct (crossProduct s f) f = -s := by
      rw [cross_cross_eq_smul_sub_smul, hsf, hf, zero_smul, one_smul, zero_sub]
    have hdet := triple_product_eq_det s (crossProduct s f) (-f)
    rw [map_neg, hback, neg_neg, hs] at hdet
    exact hdet.symm

variable [LinearOrder K]

/-- What holds of the functions of `math.h` when nothing is rounded. -/
structure Libm.Exact (L : Libm K) : Prop where
  circle : ∀ x, L.sin x * L.sin x + L.cos x * L.cos x = 1
  root : ∀ x, 0 ≤ x → 0 ≤ L.sqrt x ∧ L.sqrt x * L.sqrt x = x

variable {L : Libm K} (hL : L.Exact)

include hL

theorem normalize_unit {v : Nat → K} (hv : 0 < coords v ⬝ᵥ coords v) :
    ∃ l : K, 0 < l ∧ l * l = coords v ⬝ᵥ coords v ∧ coords (vec3Normalize L v) = l⁻¹ • coords v ∧
      coords (vec3Normalize L v) ⬝ᵥ coords (vec3Normalize L v) = 1 := by
  have hsum : coords v ⬝ᵥ coords v = v 0 * v 0 + v 1 * v 1 + v 2 * v 2 := (vec3Dot_eq v v).symm
  obtain ⟨hnonneg, hroot⟩ := hL.root _ hv.le
  have hne : L.sqrt (coords v ⬝ᵥ coords v) ≠ 0 := by
    intro hzero
    rw [hzero, zero_mul] at hroot
    exact hv.ne hroot
  have hcoords : coords (vec3Normalize L v) = (L.sqrt (coords v ⬝ᵥ coords v))⁻¹ • coords v := by
    ext i
    simp only [coords, vec3Normalize, ← hsum, Pi.smul_apply, smul_eq_mul, div_eq_inv_mul]
  refine ⟨_, lt_of_le_of_ne hnonneg hne.symm, hroot, hcoords, ?_⟩
  rw [hcoords, smul_dotProduct, dotProduct_smul, smul_eq_mul, smul_eq_mul]
  nth_rewrite 3 [← hroot]
  field_simp

variable [IsStrictOrderedRing K]

/-- What the view does: the camera gets into the origin, and looks against the third axis. -/
structure Views (position dir m : Nat → K) : Prop where
  affine : Affine m
  turns : linear m ∈ Matrix.specialOrthogonalGroup (Fin 3) K
  shift : shift m = - (linear m *ᵥ coords position)
  looks : ∃ l > 0, l * l = coords dir ⬝ᵥ coords dir ∧ linear m *ᵥ coords dir = ![0, 0, -l]

theorem look_units {dir up : Nat → K} (hdir : 0 < coords dir ⬝ᵥ coords dir)
    (hside : 0 < crossProduct (coords dir) (coords up) ⬝ᵥ crossProduct (coords dir) (coords up)) :
    let f := coords (vec3Normalize L dir)
    let s := coords (vec3Normalize L (vec3Cross (vec3Normalize L dir) up))
    s ⬝ᵥ s = 1 ∧ f ⬝ᵥ f = 1 ∧ s ⬝ᵥ f = 0 := by
  obtain ⟨l, hl, -, hforward, hf⟩ := normalize_unit hL hdir
  have hraw : coords (vec3Cross (vec3Normalize L dir) up) = l⁻¹ • crossProduct (coords dir) (coords up) := by
    rw [coords_cross, hforward, map_smul, LinearMap.smul_apply]
  have hpos : 0 < coords (vec3Cross (vec3Normalize L dir) up) ⬝ᵥ coords (vec3Cross (vec3Normalize L dir) up) := by
    rw [hraw, smul_dotProduct, dotProduct_smul, smul_eq_mul, smul_eq_mul, ← mul_assoc]
    exact mul_pos (mul_self_pos.mpr (inv_ne_zero hl.ne')) hside
  obtain ⟨l', -, -, hs, hunit⟩ := normalize_unit hL hpos
  refine ⟨hunit, hf, ?_⟩
  have hright : crossProduct (coords dir) (coords up) ⬝ᵥ coords dir = 0 := by
    rw [dotProduct_comm, dot_self_cross]
  rw [hs, hraw, hforward]
  simp [hright]

omit hL [LinearOrder K] [IsStrictOrderedRing K] in
theorem lookAt_eq (position target up : Nat → K) :
    let f := vec3Normalize L (vec3Subtract target position)
    let s := vec3Normalize L (vec3Cross f up)
    linear (mat4LookAt L position target up) =
        Matrix.of ![coords s, crossProduct (coords s) (coords f), - coords f] ∧
      shift (mat4LookAt L position target up) =
        - (linear (mat4LookAt L position target up) *ᵥ coords position) := by
  intro f s
  have hlin : linear (mat4LookAt L position target up) =
      Matrix.of ![coords s, coords (vec3Cross s f), - coords f] := by
    ext r c
    fin_cases r <;> fin_cases c <;> rfl
  refine ⟨by rw [hlin, coords_cross], ?_⟩
  rw [hlin]
  ext r
  fin_cases r
  · exact congrArg Neg.neg (vec3Dot_eq s position)
  · exact congrArg Neg.neg (vec3Dot_eq (vec3Cross s f) position)
  · change vec3Dot f position = -((- coords f) ⬝ᵥ coords position)
    rw [neg_dotProduct, neg_neg, vec3Dot_eq]

/-- The camera has a view if it does not look straight along `up`. -/
theorem lookAt_views (position target up : Nat → K) (hdir : 0 < coords (vec3Subtract target position) ⬝ᵥ
      coords (vec3Subtract target position))
    (hside : 0 < crossProduct (coords (vec3Subtract target position)) (coords up) ⬝ᵥ
      crossProduct (coords (vec3Subtract target position)) (coords up)) :
    Views position (vec3Subtract target position) (mat4LookAt L position target up) := by
  obtain ⟨hs, hf, hsf⟩ := look_units hL hdir hside
  obtain ⟨hlin, hshift⟩ := lookAt_eq (L := L) position target up
  obtain ⟨l, hl, hlen, hforward, -⟩ := normalize_unit hL hdir
  refine ⟨⟨rfl, rfl, rfl, rfl⟩, ?_, hshift, l, hl, hlen, ?_⟩
  · rw [hlin]
    exact frame_turns hs hf hsf
  · have hback : coords (vec3Subtract target position) = l • coords (vec3Normalize L (vec3Subtract target position)) := by
      rw [hforward, smul_smul, mul_inv_cancel₀ hl.ne', one_smul]
    have hup : crossProduct (coords (vec3Normalize L (vec3Cross (vec3Normalize L (vec3Subtract target position)) up)))
        (coords (vec3Normalize L (vec3Subtract target position))) ⬝ᵥ
        coords (vec3Normalize L (vec3Subtract target position)) = 0 := by
      rw [dotProduct_comm, dot_cross_self]
    rw [hlin, hback, Matrix.mulVec_smul]
    ext r
    fin_cases r
    · exact (congrArg (l * ·) hsf).trans (mul_zero l)
    · exact (congrArg (l * ·) hup).trans (mul_zero l)
    · refine (congrArg (l * ·) ((neg_dotProduct _ _).trans (congrArg Neg.neg hf))).trans ?_
      simp

/-! ## The constants -/

/-- Where the matrix of `app_calc_object_constant` puts a vertex: the camera gets into the origin and looks
against the third axis, and only then the world turns, scales and shifts what it sees. -/
structure Places (L : Libm K) (cam : SwkCam K) (info : SwkMeshinfo K) (m : Nat → K) : Prop where
  one : ∀ v, vec4MultiplyMat4 (homogeneous v) m 3 = 1
  moves : ∃ view ∈ Matrix.specialOrthogonalGroup (Fin 3) K, view *ᵥ coords (cam.dir L) = ![0, 0, -10] ∧
    ∃ turn ∈ Matrix.specialOrthogonalGroup (Fin 3) K, turn = linear (mat4RotateZyx L info.rotation) ∧
      ∀ v, moved m v = coords info.scale * (turn *ᵥ (view *ᵥ (v - coords cam.location))) + coords info.location

omit [IsStrictOrderedRing K] in
theorem world_moves (info : SwkMeshinfo K) (v : Fin 3 → K) :
    moved (mat4Translate (mat4Multiply (mat4Scale mat4Identity info.scale) (mat4RotateZyx L info.rotation))
        info.location) v =
      coords info.scale * (linear (mat4RotateZyx L info.rotation) *ᵥ v) + coords info.location := by
  have hturns := turns_zyx hL.circle info.rotation
  rw [moved_eq, linear_translate, shift_translate, hturns.affine.linear_multiply, hturns.affine.shift_multiply,
    hturns.shift, linear_scale, shift_scale, Matrix.mulVec_zero, zero_add, zero_add, ← Matrix.mulVec_mulVec]
  ext i
  simp only [Pi.add_apply, Matrix.mulVec_diagonal, Pi.mul_apply]

omit [IsStrictOrderedRing K] in
theorem dir_dot (cam : SwkCam K) : coords (cam.dir L) ⬝ᵥ coords (cam.dir L) = 100 := by
  have hturns := turns_zyx hL.circle cam.rotation
  have hdir : coords (cam.dir L) = linear (mat4RotateZyx L cam.rotation) *ᵥ ![0, 0, -10] := by
    ext i
    fin_cases i <;>
      simp [coords, SwkCam.dir, vec4MultiplyMat4, linear, Matrix.mulVec, dotProduct, Fin.sum_univ_three]
  have horth := (Matrix.mem_orthogonalGroup_iff' (Fin 3) K).mp (Matrix.mem_specialOrthogonalGroup_iff.mp hturns.turns).1
  rw [hdir, Matrix.dotProduct_mulVec, Matrix.vecMul_mulVec, horth]
  simp [dotProduct, Fin.sum_univ_three]
  norm_num

def SwkCam.Level (L : Libm K) (cam : SwkCam K) : Prop := cam.dir L 0 ≠ 0 ∨ cam.dir L 2 ≠ 0

omit hL in
theorem level_side {cam : SwkCam K} (hcam : cam.Level L) :
    0 < crossProduct (coords (cam.dir L)) (coords fun i => [0, 1, 0].getD i 0) ⬝ᵥ
      crossProduct (coords (cam.dir L)) (coords fun i => [0, 1, 0].getD i 0) := by
  have hsum : crossProduct (coords (cam.dir L)) (coords fun i => [0, 1, 0].getD i 0) ⬝ᵥ
      crossProduct (coords (cam.dir L)) (coords fun i => [0, 1, 0].getD i 0) =
      cam.dir L 2 * cam.dir L 2 + cam.dir L 0 * cam.dir L 0 := by
    simp [cross_apply, coords, dotProduct, Fin.sum_univ_three]
  rw [hsum]
  rcases hcam with h | h
  · exact add_pos_of_nonneg_of_pos (mul_self_nonneg _) (mul_self_pos.mpr h)
  · exact add_pos_of_pos_of_nonneg (mul_self_pos.mpr h) (mul_self_nonneg _)

/-- For every camera that does not look straight up or down, and every object. -/
theorem constant_places {cam : SwkCam K} (hcam : cam.Level L) (info : SwkMeshinfo K) :
    Places L cam info (appCalcObjectConstant L cam info).worldViewProj := by
  have hworld := turns_zyx hL.circle info.rotation
  have htarget : vec3Subtract (vec3Add (cam.dir L) cam.location) cam.location = cam.dir L := by
    funext i
    simp [vec3Subtract, vec3Add]
  have hview : Views cam.location (cam.dir L) (mat4LookAt L cam.location (vec3Add (cam.dir L) cam.location)
      fun i => [0, 1, 0].getD i 0) := by
    have hviews := lookAt_views hL cam.location (vec3Add (cam.dir L) cam.location) fun i => [0, 1, 0].getD i 0
    rw [htarget] at hviews
    apply hviews
    · rw [dir_dot hL]
      norm_num
    · exact level_side hcam
  have haffine := ((affine_scale info.scale).multiply hworld.affine).translate info.location
  obtain ⟨l, hl, hlen, hlooks⟩ := hview.looks
  rw [dir_dot hL] at hlen
  obtain rfl : l = 10 := by nlinarith
  refine ⟨(haffine.multiply hview.affine).one, _, hview.turns, hlooks, _, hworld.turns, rfl, fun v => ?_⟩
  refine (hview.affine.moved_multiply v).trans ?_
  rw [world_moves hL, moved_eq, hview.shift, ← sub_eq_add_neg, ← Matrix.mulVec_sub]

end View

theorem constant_places_main : Places ⟨Real.sin, Real.cos, Real.sqrt⟩ ⟨fun i => [0, 0, 35].getD i 0, fun _ => 0⟩
    ⟨fun _ => 0, fun i => [45, 45, 0].getD i 0, fun _ => 1⟩
    (appCalcObjectConstant ⟨Real.sin, Real.cos, Real.sqrt⟩ ⟨fun i => [0, 0, 35].getD i 0, fun _ => 0⟩
      ⟨fun _ => 0, fun i => [45, 45, 0].getD i 0, fun _ => 1⟩).worldViewProj := by
  have hexact : Libm.Exact ⟨Real.sin, Real.cos, Real.sqrt⟩ := by
    refine ⟨fun x => ?_, fun x hx => ⟨Real.sqrt_nonneg x, Real.mul_self_sqrt hx⟩⟩
    rw [← sq, ← sq]
    exact Real.sin_sq_add_cos_sq x
  apply constant_places hexact
  right
  simp [SwkCam.dir, vec4MultiplyMat4, mat4RotateZyx, mat4Multiply, mat4RotationX, mat4RotationY, mat4RotationZ,
    mat4Identity]

end Gppcu
