import Gppcu.Lib.DigitalLine
import Gppcu.Lib.Loop
import Mathlib.Data.Int.Order.Basic

/-!
# Drawing a line

`rgb16_drawline`: the loop, and the points and the buffer that it leaves. An
`int16_t` is a `BitVec 16` and an `int32_t` a `BitVec 32`, read by `toInt`. What
does not fit them wraps.
-/

namespace Gppcu

/-! ## The function of `app.c` -/

/-- `swk_scr_desc_rgb16_t`. -/
structure ScrDescRgb16 where
  lpbuffer : Nat → BitVec 16
  width : BitVec 16
  height : BitVec 16

/-- What the function computes before its loop. -/
structure LineSetup where
  x1 : BitVec 16
  y1 : BitVec 16
  dx : BitVec 16
  dy : BitVec 16
  sx : Int
  sy : Int

structure LineState where
  x0 : BitVec 16
  y0 : BitVec 16
  err : BitVec 32
  deriving DecidableEq

def LineState.point (s : LineState) : Int × Int := (s.x0.toInt, s.y0.toInt)

def LineState.e2 (s : LineState) : BitVec 32 := BitVec.ofInt 32 (s.err.toInt * 2)

def lineSetup (x0 y0 x1 y1 : BitVec 16) : LineSetup where
  x1 := x1
  y1 := y1
  dx := BitVec.ofInt 16 |x1.toInt - x0.toInt|
  dy := BitVec.ofInt 16 (-|y1.toInt - y0.toInt|)
  sx := if x1.toInt > x0.toInt then 1 else -1
  sy := if y1.toInt > y0.toInt then 1 else -1

namespace LineSetup

def start (l : LineSetup) (x0 y0 : BitVec 16) : LineState := ⟨x0, y0, BitVec.ofInt 32 (l.dx.toInt + l.dy.toInt)⟩

def AtEnd (l : LineSetup) (s : LineState) : Prop := s.x0 = l.x1 ∧ s.y0 = l.y1

instance (l : LineSetup) : DecidablePred l.AtEnd := fun s => inferInstanceAs (Decidable (s.x0 = l.x1 ∧ s.y0 = l.y1))

/-- `e2` is the same in both tests. -/
def next (l : LineSetup) (s : LineState) : LineState :=
  let s' := if s.e2.toInt ≥ l.dy.toInt then
    { s with err := BitVec.ofInt 32 (s.err.toInt + l.dy.toInt), x0 := BitVec.ofInt 16 (s.x0.toInt + l.sx) } else s
  if s.e2.toInt ≤ l.dx.toInt then
    { s' with err := BitVec.ofInt 32 (s'.err.toInt + l.dx.toInt), y0 := BitVec.ofInt 16 (s'.y0.toInt + l.sy) } else s'

end LineSetup

namespace ScrDescRgb16

def dot (pp : ScrDescRgb16) (p : Int × Int) : Option Nat :=
  if p.1 ≥ 0 ∧ p.1 < pp.width.toNat ∧ p.2 ≥ 0 ∧ p.2 < pp.height.toNat then
    some (p.2 * pp.width.toNat + p.1).toNat
  else none

def draw (pp : ScrDescRgb16) (s : LineState) : ScrDescRgb16 :=
  match pp.dot s.point with
  | some a => { pp with lpbuffer := Function.update pp.lpbuffer a 0xffff }
  | none => pp

end ScrDescRgb16

/-- The screen behind the loop, and the states of its rounds; `none` when the rounds do not do. -/
def drawLoop (l : LineSetup) : Nat → ScrDescRgb16 → LineState → Option (ScrDescRgb16 × List LineState)
  | 0, _, _ => none
  | rounds + 1, pp, s =>
    if l.AtEnd s then some (pp.draw s, [s])
    else (drawLoop l rounds (pp.draw s) (l.next s)).map fun r => (r.1, s :: r.2)

def rgb16Drawline (rounds : Nat) (pp : ScrDescRgb16) (x0 y0 x1 y1 : BitVec 16) :
    Option (ScrDescRgb16 × List LineState) :=
  let l := lineSetup x0 y0 x1 y1
  drawLoop l rounds pp (l.start x0 y0)

theorem drawLoop_eq (l : LineSetup) (rounds : Nat) (pp : ScrDescRgb16) (s : LineState) :
    drawLoop l rounds pp s =
      (Lib.visits l.AtEnd l.next rounds s).map fun ss => (ss.foldl ScrDescRgb16.draw pp, ss) := by
  induction rounds generalizing pp s with
  | zero => rfl
  | succ rounds ih =>
    unfold drawLoop Lib.visits
    rw [ih]
    split_ifs with hend
    · rfl
    · rw [Option.map_map, Option.map_map]
      rfl

/-! ## The loop walks a digital line -/

def LineSetup.at (l : LineSetup) (x y : BitVec 16) (dx dy : Nat) (p : Nat × Nat) : LineState where
  x0 := x + BitVec.ofInt 16 (l.sx * p.1)
  y0 := y + BitVec.ofInt 16 (l.sy * p.2)
  err := BitVec.ofInt 32 (Lib.lineErr dx dy p)

theorem ofInt_toInt_add (x : BitVec 16) (a b : Int) :
    BitVec.ofInt 16 ((x + BitVec.ofInt 16 a).toInt + b) = x + BitVec.ofInt 16 (a + b) := by
  rw [BitVec.ofInt_add, BitVec.ofInt_toInt, BitVec.ofInt_add, BitVec.add_assoc]

theorem stored_add (a b : Int) : BitVec.ofInt 32 ((BitVec.ofInt 32 a).toInt + b) = BitVec.ofInt 32 (a + b) := by
  rw [BitVec.ofInt_add, BitVec.ofInt_toInt, BitVec.ofInt_add]

theorem toInt_ofInt_err {v : Int} (h : -2 ^ 31 ≤ v) (h' : v < 2 ^ 31) : (BitVec.ofInt 32 v).toInt = v :=
  BitVec.toInt_ofInt_eq_self (by decide) h h'

section Walk

variable {l : LineSetup} {dx dy : Nat} (hdx : l.dx.toInt = dx) (hdy : l.dy.toInt = -dy)

include hdx hdy

/-- Near the line neither the error term nor its double wraps. -/
theorem err_at (x y : BitVec 16) {p : Nat × Nat} (hp : Lib.NearLine dx dy p) :
    (l.at x y dx dy p).err.toInt = Lib.lineErr dx dy p ∧
      (l.at x y dx dy p).e2.toInt = 2 * Lib.lineErr dx dy p := by
  have hdx' := l.dx.toInt_lt
  have hdy' := l.dy.le_toInt
  have hbound := hp.err_le
  rw [abs_eq_max_neg] at hbound
  have herr : (l.at x y dx dy p).err.toInt = Lib.lineErr dx dy p := toInt_ofInt_err (by omega) (by omega)
  refine ⟨herr, ?_⟩
  rw [LineState.e2, herr, Int.mul_comm]
  exact toInt_ofInt_err (by omega) (by omega)

theorem next_at (x y : BitVec 16) {p : Nat × Nat} (hp : Lib.NearLine dx dy p) :
    l.next (l.at x y dx dy p) = l.at x y dx dy (Lib.lineStep dx dy p) := by
  have hx : BitVec.ofInt 16 ((l.at x y dx dy p).x0.toInt + l.sx) = x + BitVec.ofInt 16 (l.sx * (p.1 + 1 : Nat)) := by
    rw [Int.natCast_add, Int.mul_add, Int.natCast_one, Int.mul_one]
    exact ofInt_toInt_add ..
  have hy : BitVec.ofInt 16 ((l.at x y dx dy p).y0.toInt + l.sy) = y + BitVec.ofInt 16 (l.sy * (p.2 + 1 : Nat)) := by
    rw [Int.natCast_add, Int.mul_add, Int.natCast_one, Int.mul_one]
    exact ofInt_toInt_add ..
  obtain ⟨herr, he2⟩ := err_at hdx hdy x y hp
  unfold LineSetup.next Lib.lineStep
  simp only [hdx, hdy, herr, he2, ge_iff_le]
  obtain ⟨i, j⟩ := p
  split_ifs with hright hup hup <;> simp only [hx, hy] <;> simp only [LineSetup.at, LineState.mk.injEq, true_and]
  · rw [Lib.lineErr_up, Lib.lineErr_right, stored_add]
  · rw [Lib.lineErr_up, stored_add]
  · rw [Lib.lineErr_right]

theorem iterate_next_at (x y : BitVec 16) (k : Nat) :
    l.next^[k] (l.at x y dx dy (0, 0)) = l.at x y dx dy ((Lib.lineStep dx dy)^[k] (0, 0)) := by
  induction k with
  | zero => rfl
  | succ k ih =>
    rw [Function.iterate_succ_apply', Function.iterate_succ_apply', ih,
      next_at hdx hdy x y (Lib.onLine_iterate dx dy k).near]

end Walk

/-! ## Spans and signs -/

section Span

variable (x₀ x₁ : BitVec 16)

/-- `sx` and `sy`. -/
def towards : Int := if x₁.toInt > x₀.toInt then 1 else -1

/-- `|x1 - x0|`, before it is stored in 16 bits. -/
def span : Nat := (x₁.toInt - x₀.toInt).natAbs

theorem abs_eq_span : |x₁.toInt - x₀.toInt| = span x₀ x₁ := Int.abs_eq_natAbs _

theorem towards_mul_span : towards x₀ x₁ * span x₀ x₁ = x₁.toInt - x₀.toInt := by
  unfold towards span
  split_ifs <;> omega

theorem span_lt : span x₀ x₁ < 2 ^ 16 := by
  have h0 := x₀.le_toInt
  have h0' := x₀.toInt_lt
  have h1 := x₁.le_toInt
  have h1' := x₁.toInt_lt
  unfold span
  omega

theorem toInt_add_ofInt (x : BitVec 16) (a : Int) : (x + BitVec.ofInt 16 a).toInt = (x.toInt + a).bmod 65536 := by
  rw [BitVec.toInt_add, BitVec.toInt_ofInt, Int.add_bmod_bmod]

variable {x₀ x₁}

theorem reaches_iff {i : Nat} (hi : i < 2 ^ 16) :
    x₀ + BitVec.ofInt 16 (towards x₀ x₁ * i) = x₁ ↔ i = span x₀ x₁ := by
  have hlt := span_lt x₀ x₁
  have hend := towards_mul_span x₀ x₁
  have h1 := x₁.le_toInt
  have h1' := x₁.toInt_lt
  rw [← BitVec.toInt_inj, toInt_add_ofInt, Int.bmod_def]
  unfold towards at *
  split_ifs at * <;> omega

theorem toInt_on_way {i : Nat} (hi : i ≤ span x₀ x₁) :
    (x₀ + BitVec.ofInt 16 (towards x₀ x₁ * i)).toInt = x₀.toInt + towards x₀ x₁ * i := by
  have hend := towards_mul_span x₀ x₁
  have h0 := x₀.le_toInt
  have h0' := x₀.toInt_lt
  have h1 := x₁.le_toInt
  have h1' := x₁.toInt_lt
  rw [toInt_add_ofInt, Int.bmod_def]
  unfold towards at *
  split_ifs at * <;> omega

end Span

/-! ## Where the spans fit -/

section Fits

variable {x0 y0 x1 y1 : BitVec 16}

theorem dx_toInt : (lineSetup x0 y0 x1 y1).dx.toInt = (span x0 x1 : Int).bmod 65536 := by
  rw [← abs_eq_span]
  exact BitVec.toInt_ofInt _

theorem dy_toInt : (lineSetup x0 y0 x1 y1).dy.toInt = (-span y0 y1 : Int).bmod 65536 := by
  rw [← abs_eq_span]
  exact BitVec.toInt_ofInt _

theorem dx_fits (hx : span x0 x1 ≤ 32767) : (lineSetup x0 y0 x1 y1).dx.toInt = span x0 x1 := by
  rw [dx_toInt]
  exact Int.bmod_eq_of_le (by omega) (by omega)

theorem dy_fits (hy : span y0 y1 ≤ 32768) : (lineSetup x0 y0 x1 y1).dy.toInt = -span y0 y1 := by
  rw [dy_toInt]
  exact Int.bmod_eq_of_le (by omega) (by omega)

variable (hx : span x0 x1 ≤ 32767) (hy : span y0 y1 ≤ 32768)

include hx hy

theorem round_at (k : Nat) :
    (lineSetup x0 y0 x1 y1).next^[k] ((lineSetup x0 y0 x1 y1).start x0 y0) =
      (lineSetup x0 y0 x1 y1).at x0 y0 (span x0 x1) (span y0 y1)
        ((Lib.lineStep (span x0 x1) (span y0 y1))^[k] (0, 0)) := by
  rw [← iterate_next_at (dx_fits hx) (dy_fits hy)]
  congr 1
  unfold LineSetup.start LineSetup.at Lib.lineErr
  rw [dx_fits hx, dy_fits hy]
  simp [sub_eq_add_neg]

theorem atEnd_iff {k : Nat} (hk : k ≤ max (span x0 x1) (span y0 y1)) :
    (lineSetup x0 y0 x1 y1).AtEnd
        ((lineSetup x0 y0 x1 y1).next^[k] ((lineSetup x0 y0 x1 y1).start x0 y0)) ↔
      k = max (span x0 x1) (span y0 y1) := by
  have hon := Lib.onLine_iterate (span x0 x1) (span y0 y1) k
  obtain ⟨hfst, hsnd⟩ := hon.inside hk
  have hxlt := span_lt x0 x1
  have hylt := span_lt y0 y1
  rw [round_at hx hy, ← hon.end_iff hk, Prod.ext_iff]
  exact and_congr (reaches_iff (by omega)) (reaches_iff (by omega))

theorem visits_line {rounds : Nat} (hrounds : max (span x0 x1) (span y0 y1) < rounds) :
    Lib.visits (lineSetup x0 y0 x1 y1).AtEnd (lineSetup x0 y0 x1 y1).next rounds
        ((lineSetup x0 y0 x1 y1).start x0 y0) =
      some (Lib.orbit (lineSetup x0 y0 x1 y1).next (max (span x0 x1) (span y0 y1))
        ((lineSetup x0 y0 x1 y1).start x0 y0)) := by
  apply Lib.visits_eq_some.mpr
  refine ⟨_, hrounds, (atEnd_iff hx hy (Nat.le_refl _)).mpr rfl, ?_, rfl⟩
  intro k hk hend
  exact Nat.ne_of_lt hk ((atEnd_iff hx hy (Nat.le_of_lt hk)).mp hend)

end Fits

/-! ## The ideal line -/

/-- One step towards `b` on the longer axis, and one or none on the shorter. -/
structure Advances (a b p q : Int × Int) : Prop where
  fst : q.1 = p.1 + (b.1 - a.1).sign ∨ q.1 = p.1 ∧ (b.1 - a.1).natAbs < (b.2 - a.2).natAbs
  snd : q.2 = p.2 + (b.2 - a.2).sign ∨ q.2 = p.2 ∧ (b.2 - a.2).natAbs < (b.1 - a.1).natAbs

/-- The points go from `a` to `b`, never further than half a pixel from the straight line. -/
structure AlongLine (a b : Int × Int) (points : List (Int × Int)) : Prop where
  length : points.length = max (b.1 - a.1).natAbs (b.2 - a.2).natAbs + 1
  first : points.head? = some a
  last : points.getLast? = some b
  moves : points.IsChain (Advances a b)
  near : ∀ p ∈ points, ∃ i j : Nat, p = (a.1 + (b.1 - a.1).sign * i, a.2 + (b.2 - a.2).sign * j) ∧
    Lib.NearLine (b.1 - a.1).natAbs (b.2 - a.2).natAbs (i, j)

theorem towards_mul {x₀ x₁ : BitVec 16} {i : Nat} (hi : i ≤ span x₀ x₁) :
    towards x₀ x₁ * i = (x₁.toInt - x₀.toInt).sign * i := by
  unfold towards
  unfold span at hi
  rcases Int.lt_trichotomy x₀.toInt x₁.toInt with hlt | heq | hgt
  · rw [if_pos hlt, Int.sign_eq_one_of_pos (by omega)]
  · have hzero : i = 0 := by omega
    simp [hzero]
  · rw [if_neg (by omega), Int.sign_eq_neg_one_of_neg (by omega)]

section Ideal

variable {x0 y0 x1 y1 : BitVec 16}

theorem point_at {p : Nat × Nat} (hp : p.1 ≤ span x0 x1 ∧ p.2 ≤ span y0 y1) :
    ((lineSetup x0 y0 x1 y1).at x0 y0 (span x0 x1) (span y0 y1) p).point =
      (x0.toInt + (x1.toInt - x0.toInt).sign * p.1, y0.toInt + (y1.toInt - y0.toInt).sign * p.2) := by
  rw [← towards_mul hp.1, ← towards_mul hp.2]
  exact Prod.ext (toInt_on_way hp.1) (toInt_on_way hp.2)

variable (hx : span x0 x1 ≤ 32767) (hy : span y0 y1 ≤ 32768)

include hx hy

theorem point_round {k : Nat} (hk : k ≤ max (span x0 x1) (span y0 y1)) :
    ((lineSetup x0 y0 x1 y1).next^[k] ((lineSetup x0 y0 x1 y1).start x0 y0)).point =
      (x0.toInt + (x1.toInt - x0.toInt).sign * ((Lib.lineStep (span x0 x1) (span y0 y1))^[k] (0, 0)).1,
        y0.toInt + (y1.toInt - y0.toInt).sign * ((Lib.lineStep (span x0 x1) (span y0 y1))^[k] (0, 0)).2) := by
  rw [round_at hx hy, point_at ((Lib.onLine_iterate _ _ k).inside hk)]

theorem alongLine_orbit : AlongLine (x0.toInt, y0.toInt) (x1.toInt, y1.toInt)
    ((Lib.orbit (lineSetup x0 y0 x1 y1).next (max (span x0 x1) (span y0 y1))
      ((lineSetup x0 y0 x1 y1).start x0 y0)).map LineState.point) := by
  constructor
  · rw [List.length_map, Lib.length_orbit]
    rfl
  · rw [List.head?_map, Lib.head?_orbit]
    rfl
  · rw [List.getLast?_map, Lib.getLast?_orbit]
    have hend := (atEnd_iff hx hy (Nat.le_refl _)).mpr rfl
    exact congrArg some (Prod.ext (congrArg BitVec.toInt hend.1) (congrArg BitVec.toInt hend.2))
  · rw [List.isChain_map]
    apply Lib.isChain_orbit
    intro k hk
    have hmove := (Lib.onLine_iterate (span x0 x1) (span y0 y1) k).near.move
    rw [← Function.iterate_succ_apply' (Lib.lineStep (span x0 x1) (span y0 y1))] at hmove
    obtain ⟨hfst, hsnd⟩ := hmove
    rw [point_round hx hy (Nat.le_of_lt hk), point_round hx hy hk]
    constructor
    · rcases hfst with hstep | ⟨hstay, hlt⟩
      · left
        rw [hstep, Int.natCast_add, Int.mul_add]
        simp [Int.add_assoc]
      · exact Or.inr ⟨by rw [hstay], hlt⟩
    · rcases hsnd with hstep | ⟨hstay, hlt⟩
      · left
        rw [hstep, Int.natCast_add, Int.mul_add]
        simp [Int.add_assoc]
      · exact Or.inr ⟨by rw [hstay], hlt⟩
  · intro p hp
    obtain ⟨s, hs, rfl⟩ := List.mem_map.mp hp
    obtain ⟨k, hk, rfl⟩ := Lib.mem_orbit.mp hs
    exact ⟨_, _, point_round hx hy hk, (Lib.onLine_iterate _ _ k).near⟩

end Ideal

/-! ## The buffer -/

namespace ScrDescRgb16

variable (pp : ScrDescRgb16)

theorem dot_eq_some {p : Int × Int} {a : Nat} : pp.dot p = some a ↔
    ∃ x < pp.width.toNat, ∃ y < pp.height.toNat, p = ((x : Int), (y : Int)) ∧ a = y * pp.width.toNat + x := by
  unfold dot
  constructor
  · intro h
    split_ifs at h with hin
    obtain rfl := Option.some.inj h
    obtain ⟨hx, hxw, hy, hyh⟩ := hin
    lift p to Nat × Nat using ⟨hx, hy⟩
    exact ⟨p.1, Int.ofNat_lt.mp hxw, p.2, Int.ofNat_lt.mp hyh, rfl, Int.toNat_natCast _⟩
  · rintro ⟨x, hx, y, hy, rfl, rfl⟩
    rw [if_pos (by simp only; omega)]
    exact congrArg some (Int.toNat_natCast _)

theorem dot_lt {p : Int × Int} {a : Nat} (h : pp.dot p = some a) : a < pp.width.toNat * pp.height.toNat := by
  obtain ⟨x, hx, y, hy, -, rfl⟩ := pp.dot_eq_some.mp h
  calc y * pp.width.toNat + x < y * pp.width.toNat + pp.width.toNat := Nat.add_lt_add_left hx _
    _ = pp.width.toNat * (y + 1) := by rw [Nat.mul_succ, Nat.mul_comm]
    _ ≤ pp.width.toNat * pp.height.toNat := Nat.mul_le_mul_left _ hy

theorem dot_eq_iff {x y : Nat} (hx : x < pp.width.toNat) (hy : y < pp.height.toNat) {p : Int × Int} :
    pp.dot p = some (y * pp.width.toNat + x) ↔ p = ((x : Int), (y : Int)) := by
  rw [dot_eq_some]
  constructor
  · rintro ⟨x', hx', y', -, rfl, he⟩
    have hcol := congrArg (· % pp.width.toNat) he
    simp only [Nat.mul_add_mod_self_right, Nat.mod_eq_of_lt hx, Nat.mod_eq_of_lt hx'] at hcol
    subst hcol
    obtain rfl := Nat.eq_of_mul_eq_mul_right (Nat.zero_lt_of_lt hx) (Nat.add_right_cancel he)
    rfl
  · rintro rfl
    exact ⟨x, hx, y, hy, rfl, rfl⟩

theorem draw_size (s : LineState) : (pp.draw s).width = pp.width ∧ (pp.draw s).height = pp.height := by
  unfold draw
  cases pp.dot s.point <;> exact ⟨rfl, rfl⟩

theorem draw_dot (s : LineState) (p : Int × Int) : (pp.draw s).dot p = pp.dot p := by
  unfold dot
  rw [(pp.draw_size s).1, (pp.draw_size s).2]

theorem draw_lpbuffer (s : LineState) (a : Nat) :
    (pp.draw s).lpbuffer a = if pp.dot s.point = some a then 0xffff else pp.lpbuffer a := by
  unfold draw
  cases hdot : pp.dot s.point with
  | none => simp
  | some b =>
    simp only [Option.some.injEq, Function.update_apply, eq_comm (a := a)]

theorem foldl_draw (ss : List LineState) :
    ((ss.foldl draw pp).width = pp.width ∧ (ss.foldl draw pp).height = pp.height) ∧
      ∀ a, (ss.foldl draw pp).lpbuffer a =
        if ∃ s ∈ ss, pp.dot s.point = some a then 0xffff else pp.lpbuffer a := by
  induction ss generalizing pp with
  | nil => simp
  | cons s ss ih =>
    obtain ⟨hsize, hbuffer⟩ := ih (pp.draw s)
    rw [(pp.draw_size s).1, (pp.draw_size s).2] at hsize
    refine ⟨hsize, fun a => ?_⟩
    rw [List.foldl_cons, hbuffer, draw_lpbuffer]
    simp only [draw_dot]
    by_cases hs : pp.dot s.point = some a <;> simp [hs]

/-- The words of the points are white, and every other word is as it was. -/
structure Painted (points : List (Int × Int)) (pp' : ScrDescRgb16) : Prop where
  width : pp'.width = pp.width
  height : pp'.height = pp.height
  inside : ∀ x < pp.width.toNat, ∀ y < pp.height.toNat, pp'.lpbuffer (y * pp.width.toNat + x) =
    if ((x : Int), (y : Int)) ∈ points then 0xffff else pp.lpbuffer (y * pp.width.toNat + x)
  outside : ∀ a ≥ pp.width.toNat * pp.height.toNat, pp'.lpbuffer a = pp.lpbuffer a

theorem painted_foldl (ss : List LineState) : pp.Painted (ss.map LineState.point) (ss.foldl draw pp) := by
  obtain ⟨⟨hwidth, hheight⟩, hbuffer⟩ := pp.foldl_draw ss
  refine ⟨hwidth, hheight, ?_, ?_⟩
  · intro x hx y hy
    rw [hbuffer]
    simp only [pp.dot_eq_iff hx hy, List.mem_map]
  · intro a ha
    rw [hbuffer, if_neg]
    rintro ⟨s, -, hs⟩
    exact Nat.not_lt.mpr ha (pp.dot_lt hs)

end ScrDescRgb16

/-! ## Where the line is drawn as it should be -/

theorem drawline_eq (pp : ScrDescRgb16) {x0 y0 x1 y1 : BitVec 16} (hx : span x0 x1 ≤ 32767) (hy : span y0 y1 ≤ 32768)
    {rounds : Nat} (hrounds : max (span x0 x1) (span y0 y1) < rounds) :
    let ss := Lib.orbit (lineSetup x0 y0 x1 y1).next (max (span x0 x1) (span y0 y1))
      ((lineSetup x0 y0 x1 y1).start x0 y0)
    rgb16Drawline rounds pp x0 y0 x1 y1 = some (ss.foldl ScrDescRgb16.draw pp, ss) := by
  unfold rgb16Drawline
  rw [drawLoop_eq, visits_line hx hy hrounds]
  rfl

/-- The line is drawn along the ideal one, inside the buffer and nowhere else. -/
theorem drawline_follows (pp : ScrDescRgb16) (x0 y0 x1 y1 : BitVec 16)
    (hx : |x1.toInt - x0.toInt| ≤ 32767) (hy : |y1.toInt - y0.toInt| ≤ 32767) {rounds : Nat}
    (hrounds : max (x1.toInt - x0.toInt).natAbs (y1.toInt - y0.toInt).natAbs < rounds) :
    ∃ pp' ss, rgb16Drawline rounds pp x0 y0 x1 y1 = some (pp', ss) ∧
      AlongLine (x0.toInt, y0.toInt) (x1.toInt, y1.toInt) (ss.map LineState.point) ∧
      pp.Painted (ss.map LineState.point) pp' ∧
      ∀ s ∈ ss, ∀ a, pp.dot s.point = some a → a < pp.width.toNat * pp.height.toNat := by
  rw [abs_eq_span] at hx hy
  have hx' : span x0 x1 ≤ 32767 := by omega
  have hy' : span y0 y1 ≤ 32768 := by omega
  exact ⟨_, _, drawline_eq pp hx' hy' hrounds, alongLine_orbit hx' hy', pp.painted_foldl _,
    fun s _ a h => pp.dot_lt h⟩

theorem drawline_follows_six : ∃ pp' ss,
    rgb16Drawline 6 ⟨fun _ => 0, 3, 2⟩ 4 1 (-1) 0 = some (pp', ss) ∧
      AlongLine (4, 1) (-1, 0) (ss.map LineState.point) := by
  have hrounds : max ((-1 : BitVec 16).toInt - (4 : BitVec 16).toInt).natAbs
      ((0 : BitVec 16).toInt - (1 : BitVec 16).toInt).natAbs < 6 := by decide
  obtain ⟨pp', ss, hdraw, halong, -⟩ := drawline_follows ⟨fun _ => 0, 3, 2⟩ 4 1 (-1) 0 (by decide) (by decide)
    hrounds
  exact ⟨pp', ss, hdraw, halong⟩

example : (rgb16Drawline 6 ⟨fun _ => 0, 3, 2⟩ 4 1 (-1) 0).map (fun r => r.2.map LineState.point) =
    some [(4, 1), (3, 1), (2, 1), (1, 0), (0, 0), (-1, 0)] := by decide

end Gppcu
