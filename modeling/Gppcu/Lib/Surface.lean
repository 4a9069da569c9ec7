import Gppcu.Lib.Triangle
import Mathlib.Analysis.Convex.Combination
import Mathlib.Analysis.Convex.Join
import Mathlib.Data.List.Perm.Basic
import Mathlib.Tactic.Linarith

/-!
# Surfaces of triangles

A surface is a list of triangles. The split at the midpoints keeps it closed, and
keeps the points that it covers.
-/

namespace Lib

namespace Triangle

instance {V : Type*} [DecidableEq V] : DecidableEq (Triangle V) := fun t s =>
  decidable_of_iff (t.p1 = s.p1 ∧ t.p2 = s.p2 ∧ t.p3 = s.p3) (by rw [Triangle.mk.injEq])

/-! ## Closed surfaces -/

section Closed

variable {V : Type*} (mid : V → V → V)

def sides (t : Triangle V) : List (V × V) := [(t.p1, t.p2), (t.p2, t.p3), (t.p3, t.p1)]

/-- Each side is there in both directions, equally often. -/
def Balanced (es : List (V × V)) : Prop := es.Perm (es.map Prod.swap)

def Closed (ts : List (Triangle V)) : Prop := Balanced (ts.flatMap sides)

def halves (e : V × V) : List (V × V) := [(e.1, mid e.1 e.2), (mid e.1 e.2, e.2)]

variable {mid} {es es' : List (V × V)}

theorem Balanced.append (h : Balanced es) (h' : Balanced es') : Balanced (es ++ es') := by
  unfold Balanced
  rw [List.map_append]
  exact List.Perm.append h h'

theorem Balanced.perm (h : Balanced es) (hp : es'.Perm es) : Balanced es' :=
  (hp.trans h).trans (hp.map _).symm

theorem balanced_both (es : List (V × V)) : Balanced (es ++ es.map Prod.swap) := by
  unfold Balanced
  rw [List.map_append, List.map_map, Prod.swap_swap_eq, List.map_id]
  exact List.perm_append_comm

theorem halves_swap (hmid : ∀ a b, mid a b = mid b a) (e : V × V) :
    ((halves mid e).map Prod.swap).Perm (halves mid e.swap) := by
  simp only [halves, List.map_cons, List.map_nil, Prod.swap_prod_mk, Prod.fst_swap, Prod.snd_swap, hmid e.2 e.1]
  exact List.Perm.swap ..

theorem Balanced.halves (hmid : ∀ a b, mid a b = mid b a) (h : Balanced es) :
    Balanced (es.flatMap (halves mid)) := by
  have hswap : (es.flatMap fun e => (Triangle.halves mid e).map Prod.swap).Perm
      ((es.map Prod.swap).flatMap (Triangle.halves mid)) := by
    rw [List.flatMap_map]
    exact List.Perm.flatMap_left _ fun e _ => halves_swap hmid e
  unfold Balanced
  rw [List.map_flatMap]
  exact (List.Perm.flatMap_right _ h).trans hswap.symm

/-- The sides of the four: the halves of the old ones, and the sides of the middle one in both directions. -/
theorem sides_split (t : Triangle V) : ((t.split mid).flatMap sides).Perm
    (t.sides.flatMap (halves mid) ++ ((t.medial mid).sides ++ (t.medial mid).sides.map Prod.swap)) := by
  classical
  rw [List.perm_iff_count]
  intro e
  simp only [split, corners, medial, sides, halves, List.flatMap_cons, List.flatMap_nil, List.map_cons,
    List.map_nil, List.append_nil, List.count_append, List.count_cons, List.count_nil, Prod.swap_prod_mk]
  omega

theorem Closed.split (hmid : ∀ a b, mid a b = mid b a) {ts : List (Triangle V)} (h : Closed ts) :
    Closed (ts.flatMap (split mid)) := by
  have hinner : Balanced (ts.flatMap fun t => (t.medial mid).sides ++ (t.medial mid).sides.map Prod.swap) := by
    have hboth := balanced_both (ts.flatMap fun t => (t.medial mid).sides)
    rw [List.map_flatMap] at hboth
    exact hboth.perm (List.flatMap_append_perm ..).symm
  have houter := Balanced.halves hmid h
  rw [List.flatMap_assoc] at houter
  unfold Closed
  rw [List.flatMap_assoc]
  refine (houter.append hinner).perm ?_
  exact (List.Perm.flatMap_left ts fun t _ => sides_split t).trans (List.flatMap_append_perm ..).symm

theorem Closed.map {V' : Type*} {ts : List (Triangle V)} (h : Closed ts) (f : V → V') :
    Closed (ts.map fun t => t.map f) := by
  have hsides : ((ts.map fun t => t.map f).flatMap sides) = (ts.flatMap sides).map (Prod.map f f) := by
    rw [List.flatMap_map, List.map_flatMap]
    rfl
  have hmap := List.Perm.map (Prod.map f f) h
  unfold Closed Balanced
  rw [hsides]
  rw [List.map_map] at hmap ⊢
  exact hmap

theorem Closed.perm {ts ts' : List (Triangle V)} (h : Closed ts) (hp : ts'.Perm ts) : Closed ts' :=
  Balanced.perm h (List.Perm.flatMap_right _ hp)

end Closed

/-! ## What a surface covers -/

section Cover

variable {K V : Type*} [Field K] [LinearOrder K] [IsStrictOrderedRing K] [AddCommGroup V] [Module K V]

variable (K) in
def hull (t : Triangle V) : Set V := convexHull K {t.p1, t.p2, t.p3}

theorem mem_hull {t : Triangle V} {x : V} : x ∈ t.hull K ↔
    ∃ a b c : K, 0 ≤ a ∧ 0 ≤ b ∧ 0 ≤ c ∧ a + b + c = 1 ∧ a • t.p1 + b • t.p2 + c • t.p3 = x := by
  constructor
  · rintro hx
    unfold hull at hx
    rw [convexHull_insert (Set.insert_nonempty ..), convexHull_pair, mem_convexJoin] at hx
    obtain ⟨p, rfl, y, ⟨u, v, hu, hv, huv, rfl⟩, a, r, ha, hr, har, rfl⟩ := hx
    refine ⟨a, r * u, r * v, ha, mul_nonneg hr hu, mul_nonneg hr hv, ?_, by module⟩
    rw [add_assoc, ← mul_add, huv, mul_one, har]
  · rintro ⟨a, b, c, ha, hb, hc, hsum, rfl⟩
    apply mem_convexHull_of_exists_fintype ![a, b, c] ![t.p1, t.p2, t.p3]
    · simp [Fin.forall_fin_succ, ha, hb, hc]
    · simp [Fin.sum_univ_three, hsum]
    · simp [Fin.forall_fin_succ]
    · simp [Fin.sum_univ_three]

/-- The weights of a point are those in the corner where one is at least a half, and otherwise in the
middle. -/
theorem exists_hull_split {t : Triangle V} {x : V} :
    (∃ s ∈ t.split (midpoint K), x ∈ s.hull K) ↔ x ∈ t.hull K := by
  unfold split corners medial
  simp only [List.exists_mem_cons_iff, List.not_mem_nil, false_and, exists_false, or_false, mem_hull,
    midpoint_eq_smul_add, invOf_eq_inv]
  constructor
  · rintro (⟨a, b, c, ha, hb, hc, hsum, rfl⟩ | ⟨a, b, c, ha, hb, hc, hsum, rfl⟩ | ⟨a, b, c, ha, hb, hc, hsum, rfl⟩ |
      ⟨a, b, c, ha, hb, hc, hsum, rfl⟩)
    · exact ⟨(a + b) / 2, (b + c) / 2, (a + c) / 2, by positivity, by positivity, by positivity, by linarith, by module⟩
    · exact ⟨a + b / 2 + c / 2, b / 2, c / 2, by positivity, by positivity, by positivity, by linarith, by module⟩
    · exact ⟨a / 2, a / 2 + b + c / 2, c / 2, by positivity, by positivity, by positivity, by linarith, by module⟩
    · exact ⟨c / 2, a / 2, a / 2 + b + c / 2, by positivity, by positivity, by positivity, by linarith, by module⟩
  · rintro ⟨a, b, c, ha, hb, hc, hsum, rfl⟩
    obtain rfl : a = 1 - b - c := by linarith
    rcases le_total (1 / 2) (1 - b - c) with h1 | h1
    · refine Or.inr (Or.inl ⟨1 - 2 * b - 2 * c, 2 * b, 2 * c, by linarith, by linarith, by linarith, by ring, by module⟩)
    rcases le_total (1 / 2) b with h2 | h2
    · refine Or.inr (Or.inr (Or.inl ⟨2 - 2 * b - 2 * c, 2 * b - 1, 2 * c, by linarith, by linarith, by linarith, by ring,
        by module⟩))
    rcases le_total (1 / 2) c with h3 | h3
    · refine Or.inr (Or.inr (Or.inr ⟨2 * b, 2 * c - 1, 2 - 2 * b - 2 * c, by linarith, by linarith, by linarith, by ring,
        by module⟩))
    · refine Or.inl ⟨1 - 2 * b, 1 - 2 * c, 2 * b + 2 * c - 1, by linarith, by linarith, by linarith, by ring, by module⟩

variable (K) in
def cover (ts : List (Triangle V)) : Set V := {x | ∃ t ∈ ts, x ∈ t.hull K}

omit [IsStrictOrderedRing K] in
theorem mem_cover_flatMap {α : Type*} {xs : List α} {f : α → List (Triangle V)} {x : V} :
    x ∈ cover K (xs.flatMap f) ↔ ∃ a ∈ xs, x ∈ cover K (f a) := by
  simp only [cover, Set.mem_ofPred_eq, List.mem_flatMap]
  constructor
  · rintro ⟨t, ⟨a, ha, ht⟩, hx⟩
    exact ⟨a, ha, t, ht, hx⟩
  · rintro ⟨a, ha, t, ht, hx⟩
    exact ⟨t, ⟨a, ha, ht⟩, hx⟩

theorem cover_split (ts : List (Triangle V)) : cover K (ts.flatMap (split (midpoint K))) = cover K ts := by
  ext x
  rw [mem_cover_flatMap]
  simp only [cover, Set.mem_ofPred_eq, exists_hull_split]

omit [IsStrictOrderedRing K] in
theorem cover_perm {ts ts' : List (Triangle V)} (hp : ts'.Perm ts) : cover K ts' = cover K ts := by
  ext x
  simp only [cover, Set.mem_ofPred_eq, hp.mem_iff]

end Cover

/-! ## Parallelograms -/

section Fan

variable {K V W : Type*} [Field K] [LinearOrder K] [IsStrictOrderedRing K] [AddCommGroup V] [Module K V]
  [AddCommGroup W] [Module K W]

/-- Two triangles for four corners. -/
def fan (p1 p2 p3 p4 : V) : List (Triangle V) := [⟨p1, p2, p3⟩, ⟨p1, p3, p4⟩]

variable (o u v : V)

theorem mem_cover_fan {x : V} : x ∈ cover K (fan o (o + u) (o + u + v) (o + v)) ↔
    ∃ a b : K, 0 ≤ a ∧ a ≤ 1 ∧ 0 ≤ b ∧ b ≤ 1 ∧ o + a • u + b • v = x := by
  simp only [cover, fan, Set.mem_ofPred_eq, List.exists_mem_cons_iff, List.not_mem_nil, false_and, exists_false, or_false,
    mem_hull]
  constructor
  · rintro (⟨a, b, c, ha, hb, hc, hsum, rfl⟩ | ⟨a, b, c, ha, hb, hc, hsum, rfl⟩)
    · obtain rfl : a = 1 - b - c := by linarith
      exact ⟨b + c, c, by linarith, by linarith, hc, by linarith, by module⟩
    · obtain rfl : a = 1 - b - c := by linarith
      exact ⟨b, b + c, hb, by linarith, by linarith, by linarith, by module⟩
  · rintro ⟨a, b, ha, ha1, hb, hb1, rfl⟩
    rcases le_total b a with hab | hab
    · exact Or.inl ⟨1 - a, a - b, b, by linarith, by linarith, hb, by ring, by module⟩
    · exact Or.inr ⟨1 - b, a, b - a, by linarith, ha, by linarith, by ring, by module⟩

theorem area_fan {B : V →ₗ[K] V →ₗ[K] W} (hB : B.IsAlt) :
    ∀ t ∈ fan o (o + u) (o + u + v) (o + v), t.area B = (2⁻¹ : K) • B u v := by
  have hdiag : o + u + v - o = u + v := by abel
  simp [-map_sub, fan, area, hdiag, map_add, hB.self_eq_zero]

end Fan

end Triangle

end Lib
