import Gppcu.Screen.Line

/-!
# Spans that do not fit

The loop of `rgb16_drawline` leaves only at the end point. `dx` and `dy` have 16
bits, and a span that does not fit them changes its sign when it is stored.
-/

namespace Gppcu

/-! ## What the loop has to do -/

/-- The loop leaves at the end point, behind as many rounds as the longer axis has points. -/
def Exits (pp : ScrDescRgb16) (x0 y0 x1 y1 : BitVec 16) : Prop :=
  ∃ rounds pp' ss, rgb16Drawline rounds pp x0 y0 x1 y1 = some (pp', ss) ∧
    ss.length = max (x1.toInt - x0.toInt).natAbs (y1.toInt - y0.toInt).natAbs + 1 ∧
    (ss.map LineState.point).getLast? = some (x1.toInt, y1.toInt)

def InBits (w : Nat) (v : Int) : Prop := -2 ^ (w - 1) ≤ v ∧ v < 2 ^ (w - 1)

/-- What a round computes for `e2` and, one test after the other, for `err`. -/
def LineSetup.values (l : LineSetup) (s : LineState) : List Int :=
  let err := if s.e2.toInt ≥ l.dy.toInt then s.err.toInt + l.dy.toInt else s.err.toInt
  [s.err.toInt * 2, err, if s.e2.toInt ≤ l.dx.toInt then err + l.dx.toInt else err]

/-- Every value fits the variable that it is stored in. -/
structure StaysInRange (pp : ScrDescRgb16) (x0 y0 x1 y1 : BitVec 16) : Prop where
  dx : InBits 16 |x1.toInt - x0.toInt|
  dy : InBits 16 (-|y1.toInt - y0.toInt|)
  err : InBits 32 ((lineSetup x0 y0 x1 y1).dx.toInt + (lineSetup x0 y0 x1 y1).dy.toInt)
  loop : ∀ rounds pp' ss, rgb16Drawline rounds pp x0 y0 x1 y1 = some (pp', ss) →
    ∀ s ∈ ss, ∀ v ∈ (lineSetup x0 y0 x1 y1).values s, InBits 32 v

variable {pp : ScrDescRgb16} {x0 y0 x1 y1 : BitVec 16}

theorem exits_iff : Exits pp x0 y0 x1 y1 ↔
    (∀ k < max (span x0 x1) (span y0 y1), ¬(lineSetup x0 y0 x1 y1).AtEnd
      ((lineSetup x0 y0 x1 y1).next^[k] ((lineSetup x0 y0 x1 y1).start x0 y0))) ∧
    (lineSetup x0 y0 x1 y1).AtEnd ((lineSetup x0 y0 x1 y1).next^[max (span x0 x1) (span y0 y1)]
      ((lineSetup x0 y0 x1 y1).start x0 y0)) := by
  unfold Exits rgb16Drawline
  simp only [drawLoop_eq, Option.map_eq_some_iff, Lib.visits_eq_some]
  constructor
  · rintro ⟨rounds, pp', ss, ⟨ss', ⟨n, -, hstop, hbefore, rfl⟩, heq⟩, hlength, -⟩
    obtain ⟨-, rfl⟩ := Prod.mk.inj heq
    rw [Lib.length_orbit] at hlength
    obtain rfl : n = max (span x0 x1) (span y0 y1) := Nat.succ.inj hlength
    exact ⟨hbefore, hstop⟩
  · rintro ⟨hbefore, hstop⟩
    refine ⟨_, _, _, ⟨_, ⟨_, Nat.lt_succ_self _, hstop, hbefore, rfl⟩, rfl⟩, Lib.length_orbit .., ?_⟩
    rw [List.getLast?_map, Lib.getLast?_orbit]
    exact congrArg some (Prod.ext (congrArg BitVec.toInt hstop.1) (congrArg BitVec.toInt hstop.2))

/-! ## Where the spans fit -/

theorem values_inBits (hx : span x0 x1 ≤ 32767) (hy : span y0 y1 ≤ 32768) {s : LineState}
    (hs : s ∈ Lib.orbit (lineSetup x0 y0 x1 y1).next (max (span x0 x1) (span y0 y1))
      ((lineSetup x0 y0 x1 y1).start x0 y0)) :
    ∀ v ∈ (lineSetup x0 y0 x1 y1).values s, InBits 32 v := by
  obtain ⟨k, hk, rfl⟩ := Lib.mem_orbit.mp hs
  have hnear := (Lib.onLine_iterate (span x0 x1) (span y0 y1) k).near
  have hbound := hnear.err_le
  obtain ⟨herr, he2⟩ := err_at (dx_fits hx) (dy_fits hy) x0 y0 hnear
  rw [round_at hx hy]
  unfold LineSetup.values InBits
  rw [herr, he2, dx_fits hx, dy_fits hy]
  simp only [List.forall_mem_cons, List.not_mem_nil, false_implies, implies_true, and_true]
  rw [abs_eq_max_neg] at hbound
  refine ⟨by omega, ?_, ?_⟩ <;> split_ifs <;> omega

theorem staysInRange_of_fits (hx : span x0 x1 ≤ 32767) (hy : span y0 y1 ≤ 32768) :
    StaysInRange pp x0 y0 x1 y1 := by
  refine ⟨?_, ?_, ?_, ?_⟩
  · rw [abs_eq_span]
    unfold InBits
    omega
  · rw [abs_eq_span]
    unfold InBits
    omega
  · rw [dx_fits hx, dy_fits hy]
    unfold InBits
    omega
  · rintro rounds pp' ss hdraw s hs
    unfold rgb16Drawline at hdraw
    rw [drawLoop_eq, Option.map_eq_some_iff] at hdraw
    obtain ⟨ss', hvisits, heq⟩ := hdraw
    obtain ⟨-, rfl⟩ := Prod.mk.inj heq
    obtain ⟨n, -, hstop, hbefore, rfl⟩ := Lib.visits_eq_some.mp hvisits
    have hn : n = max (span x0 x1) (span y0 y1) := by
      rcases Nat.lt_or_ge (max (span x0 x1) (span y0 y1)) n with hlt | hle
      · exact absurd ((atEnd_iff hx hy (Nat.le_refl _)).mpr rfl) (hbefore _ hlt)
      · exact (atEnd_iff hx hy hle).mp hstop
    rw [hn] at hs
    exact values_inBits hx hy hs

theorem exits_of_fits (hx : span x0 x1 ≤ 32767) (hy : span y0 y1 ≤ 32768) : Exits pp x0 y0 x1 y1 := by
  refine exits_iff.mpr ⟨fun k hk hend => ?_, (atEnd_iff hx hy (Nat.le_refl _)).mpr rfl⟩
  exact Nat.ne_of_lt hk ((atEnd_iff hx hy (Nat.le_of_lt hk)).mp hend)

/-! ## Where they do not -/

section Steps

variable (l : LineSetup) (x y : BitVec 16)

/-- `a` steps in x and `b` steps in y lead to this state. -/
structure Stepped (a b : Nat) (s : LineState) : Prop where
  x0 : s.x0 = x + BitVec.ofInt 16 (l.sx * a)
  y0 : s.y0 = y + BitVec.ofInt 16 (l.sy * b)

variable {l x y}

theorem Stepped.next {a b : Nat} {s : LineState} (h : Stepped l x y a b s) :
    Stepped l x y (if l.dy.toInt ≤ s.e2.toInt then a + 1 else a) (if s.e2.toInt ≤ l.dx.toInt then b + 1 else b)
      (l.next s) := by
  obtain ⟨hx, hy⟩ := h
  have hx' : BitVec.ofInt 16 (s.x0.toInt + l.sx) = x + BitVec.ofInt 16 (l.sx * (a + 1 : Nat)) := by
    rw [hx, ofInt_toInt_add, Int.natCast_add, Int.mul_add, Int.natCast_one, Int.mul_one]
  have hy' : BitVec.ofInt 16 (s.y0.toInt + l.sy) = y + BitVec.ofInt 16 (l.sy * (b + 1 : Nat)) := by
    rw [hy, ofInt_toInt_add, Int.natCast_add, Int.mul_add, Int.natCast_one, Int.mul_one]
  unfold LineSetup.next
  simp only [ge_iff_le]
  constructor
  · split_ifs <;> assumption
  · split_ifs <;> assumption

theorem Stepped.iterate {a b : Nat} {s : LineState} (h : Stepped l x y a b s) (k : Nat) :
    ∃ a' ≤ a + k, ∃ b' ≤ b + k, Stepped l x y a' b' (l.next^[k] s) := by
  induction k with
  | zero => exact ⟨a, Nat.le_refl _, b, Nat.le_refl _, h⟩
  | succ k ih =>
    obtain ⟨a', ha, b', hb, hs⟩ := ih
    rw [Function.iterate_succ_apply']
    refine ⟨_, ?_, _, ?_, hs.next⟩ <;> split_ifs <;> omega

theorem Stepped.iterate_one {a b : Nat} {s : LineState} (h : Stepped l x y a b s)
    (hlt : l.dx.toInt < l.dy.toInt) (k : Nat) :
    ∃ a' b', a' + b' ≤ a + b + k ∧ Stepped l x y a' b' (l.next^[k] s) := by
  induction k with
  | zero => exact ⟨a, b, Nat.le_refl _, h⟩
  | succ k ih =>
    obtain ⟨a', b', hab, hs⟩ := ih
    rw [Function.iterate_succ_apply']
    refine ⟨_, _, ?_, hs.next⟩
    split_ifs <;> omega

end Steps

theorem stepped_start (x0 y0 x1 y1 : BitVec 16) :
    Stepped (lineSetup x0 y0 x1 y1) x0 y0 0 0 ((lineSetup x0 y0 x1 y1).start x0 y0) :=
  ⟨by simp [LineSetup.start], by simp [LineSetup.start]⟩

theorem Stepped.span {a b : Nat} {s : LineState} (h : Stepped (lineSetup x0 y0 x1 y1) x0 y0 a b s)
    (ha : a < 2 ^ 16) (hb : b < 2 ^ 16) (hend : (lineSetup x0 y0 x1 y1).AtEnd s) :
    a = span x0 x1 ∧ b = span y0 y1 :=
  ⟨(reaches_iff ha).mp (h.x0.symm.trans hend.1), (reaches_iff hb).mp (h.y0.symm.trans hend.2)⟩

theorem dx_wide (hx : 32767 < span x0 x1) : (lineSetup x0 y0 x1 y1).dx.toInt = span x0 x1 - 65536 := by
  have hlt := span_lt x0 x1
  rw [dx_toInt, Int.bmod_def]
  split_ifs <;> omega

theorem dy_wide (hy : 32768 < span y0 y1) : (lineSetup x0 y0 x1 y1).dy.toInt = 65536 - span y0 y1 := by
  have hlt := span_lt y0 y1
  rw [dy_toInt, Int.bmod_def]
  split_ifs <;> omega

theorem start_e2 : ((lineSetup x0 y0 x1 y1).start x0 y0).e2.toInt =
    ((lineSetup x0 y0 x1 y1).dx.toInt + (lineSetup x0 y0 x1 y1).dy.toInt) * 2 := by
  have hdx := (lineSetup x0 y0 x1 y1).dx.le_toInt
  have hdx' := (lineSetup x0 y0 x1 y1).dx.toInt_lt
  have hdy := (lineSetup x0 y0 x1 y1).dy.le_toInt
  have hdy' := (lineSetup x0 y0 x1 y1).dy.toInt_lt
  have herr : ((lineSetup x0 y0 x1 y1).start x0 y0).err.toInt = _ := toInt_ofInt_err (by omega) (by omega)
  rw [LineState.e2, herr]
  exact toInt_ofInt_err (by omega) (by omega)

theorem first_wide (hx : 32767 < span x0 x1) (hy : span y0 y1 ≤ 32768) :
    ∃ b ≤ 1, Stepped (lineSetup x0 y0 x1 y1) x0 y0 0 b
      ((lineSetup x0 y0 x1 y1).next ((lineSetup x0 y0 x1 y1).start x0 y0)) := by
  have hxlt := span_lt x0 x1
  have hfirst := (stepped_start x0 y0 x1 y1).next
  rw [start_e2, dx_wide hx, dy_fits hy, if_neg (by omega)] at hfirst
  refine ⟨_, ?_, hfirst⟩
  split_ifs <;> omega

theorem first_high (hx : span x0 x1 ≤ 32767) (hy : 32768 < span y0 y1) :
    ∃ a ≤ 1, Stepped (lineSetup x0 y0 x1 y1) x0 y0 a 0
      ((lineSetup x0 y0 x1 y1).next ((lineSetup x0 y0 x1 y1).start x0 y0)) := by
  have hylt := span_lt y0 y1
  have hfirst := (stepped_start x0 y0 x1 y1).next
  rw [start_e2, dx_fits hx, dy_wide hy, if_neg (c := _ ≤ (span x0 x1 : Int)) (by omega)] at hfirst
  refine ⟨_, ?_, hfirst⟩
  split_ifs <;> omega

theorem fits_of_atEnd (hend : (lineSetup x0 y0 x1 y1).AtEnd
    ((lineSetup x0 y0 x1 y1).next^[max (span x0 x1) (span y0 y1)] ((lineSetup x0 y0 x1 y1).start x0 y0))) :
    span x0 x1 ≤ 32767 ∧ span y0 y1 ≤ 32768 := by
  have hxlt := span_lt x0 x1
  have hylt := span_lt y0 y1
  by_contra hwide
  obtain ⟨m, hm⟩ : ∃ m, max (span x0 x1) (span y0 y1) = m + 1 :=
    ⟨max (span x0 x1) (span y0 y1) - 1, by omega⟩
  rcases Nat.lt_or_ge 32767 (span x0 x1) with hx | hx
  · rcases Nat.lt_or_ge 32768 (span y0 y1) with hy | hy
    · have hlt : (lineSetup x0 y0 x1 y1).dx.toInt < (lineSetup x0 y0 x1 y1).dy.toInt := by
        rw [dx_wide hx, dy_wide hy]
        omega
      obtain ⟨a, b, hab, hs⟩ := (stepped_start x0 y0 x1 y1).iterate_one hlt (max (span x0 x1) (span y0 y1))
      have hspan := hs.span (by omega) (by omega) hend
      omega
    · rw [hm, Function.iterate_succ_apply] at hend
      obtain ⟨b, hb, hfirst⟩ := first_wide hx hy
      obtain ⟨a', ha', b', hb', hs⟩ := hfirst.iterate m
      have hspan := hs.span (by omega) (by omega) hend
      omega
  · have hy : 32768 < span y0 y1 := by omega
    rw [hm, Function.iterate_succ_apply] at hend
    obtain ⟨a, ha, hfirst⟩ := first_high hx hy
    obtain ⟨a', ha', b', hb', hs⟩ := hfirst.iterate m
    have hspan := hs.span (by omega) (by omega) hend
    omega

/-! ## Both sides -/

/-- The loop leaves as it should exactly where `dx` and `dy` hold the spans, and then nothing leaves its
range. -/
theorem drawline_exits_iff (pp : ScrDescRgb16) (x0 y0 x1 y1 : BitVec 16) :
    (Exits pp x0 y0 x1 y1 ∧ StaysInRange pp x0 y0 x1 y1 ↔
      |x1.toInt - x0.toInt| ≤ 32767 ∧ |y1.toInt - y0.toInt| ≤ 32768) ∧
    (Exits pp x0 y0 x1 y1 ↔ |x1.toInt - x0.toInt| ≤ 32767 ∧ |y1.toInt - y0.toInt| ≤ 32768) := by
  have hexits : Exits pp x0 y0 x1 y1 ↔ |x1.toInt - x0.toInt| ≤ 32767 ∧ |y1.toInt - y0.toInt| ≤ 32768 := by
    rw [abs_eq_span, abs_eq_span]
    constructor
    · intro h
      obtain ⟨hx, hy⟩ := fits_of_atEnd (exits_iff.mp h).2
      omega
    · rintro ⟨hx, hy⟩
      exact exits_of_fits (by omega) (by omega)
  refine ⟨?_, hexits⟩
  constructor
  · rintro ⟨h, -⟩
    exact hexits.mp h
  · intro h
    refine ⟨hexits.mpr h, ?_⟩
    rw [abs_eq_span, abs_eq_span] at h
    exact staysInRange_of_fits (by omega) (by omega)

/-! ## A line without end -/

/-- From (-32768, 0) to (0, 0) `dx` is stored negative. -/
abbrev farLeft : LineSetup := lineSetup (-32768) 0 0 0

/-- The loop after `k` rounds upwards: the error term only falls, and no round moves in x. -/
def rising (k : Nat) : LineState := ⟨-32768, BitVec.ofInt 16 (-k), BitVec.ofInt 32 (-32768 * (k + 1))⟩

theorem next_rising {k : Nat} (hk : k < 32768) : farLeft.next (rising k) = rising (k + 1) := by
  have hdx : farLeft.dx.toInt = -32768 := by decide
  have hdy : farLeft.dy.toInt = 0 := by decide
  have hsy : farLeft.sy = -1 := by decide
  have herr : (rising k).err.toInt = -32768 * (k + 1) := toInt_ofInt_err (by omega) (by omega)
  have he2 : (rising k).e2.toInt = -32768 * (k + 1) * 2 := by
    rw [LineState.e2, herr]
    exact toInt_ofInt_err (by omega) (by omega)
  have hright : ¬(rising k).e2.toInt ≥ farLeft.dy.toInt := by omega
  have hup : (rising k).e2.toInt ≤ farLeft.dx.toInt := by omega
  have hy0 : BitVec.ofInt 16 ((rising k).y0.toInt + -1) = BitVec.ofInt 16 (-(k + 1 : Nat)) := by
    rw [rising, BitVec.ofInt_add, BitVec.ofInt_toInt, ← BitVec.ofInt_add, Int.natCast_add, Int.neg_add]
    rfl
  unfold LineSetup.next
  simp only [if_neg hright, if_pos hup]
  rw [hdx, hsy, herr, hy0, show (-32768 * (k + 1) + -32768 : Int) = -32768 * ((k + 1 : Nat) + 1) by omega]
  rfl

/-- `e2` has wrapped: no round moves in y any more, and the error term stays. -/
structure Stranded (s : LineState) : Prop where
  y0 : s.y0 = -32768
  err : s.err = BitVec.ofInt 32 (-32768 * 32769)

theorem Stranded.next {s : LineState} (h : Stranded s) : Stranded (farLeft.next s) := by
  have hdx : farLeft.dx.toInt = -32768 := by decide
  have hdy : farLeft.dy.toInt = 0 := by decide
  have he2 : s.e2.toInt = 2147418112 := by
    rw [LineState.e2, h.err]
    decide
  have hright : s.e2.toInt ≥ farLeft.dy.toInt := by omega
  have hup : ¬s.e2.toInt ≤ farLeft.dx.toInt := by omega
  unfold LineSetup.next
  simp only [if_pos hright, if_neg hup]
  rw [hdy, Int.add_zero, BitVec.ofInt_toInt]
  exact ⟨h.y0, h.err⟩

theorem iterate_far (k : Nat) : (∃ i ≤ 32768, farLeft.next^[k] (rising 0) = rising i) ∨
    Stranded (farLeft.next^[k] (rising 0)) := by
  induction k with
  | zero => exact Or.inl ⟨0, Nat.zero_le _, rfl⟩
  | succ k ih =>
    rw [Function.iterate_succ_apply']
    rcases ih with ⟨i, hi, hs⟩ | hs
    · rw [hs]
      rcases Nat.lt_or_ge i 32768 with hlt | hge
      · exact Or.inl ⟨i + 1, hlt, next_rising hlt⟩
      · obtain rfl : i = 32768 := by omega
        have hlast : Stranded (rising 32768) := ⟨by decide, by decide⟩
        exact Or.inr hlast.next
    · exact Or.inr hs.next

/-- First y0 falls to -32768, and then x0 moves for ever. -/
theorem drawline_endless (rounds : Nat) (pp : ScrDescRgb16) : rgb16Drawline rounds pp (-32768) 0 0 0 = none := by
  unfold rgb16Drawline
  rw [drawLoop_eq, Option.map_eq_none_iff, Option.eq_none_iff_forall_ne_some]
  rintro l hl
  obtain ⟨n, -, ⟨hx, hy⟩, -⟩ := Lib.visits_eq_some.mp hl
  have hstart : farLeft.start (-32768) 0 = rising 0 := by decide
  rw [hstart] at hx hy
  rcases iterate_far n with ⟨i, -, hs⟩ | hs
  · rw [hs] at hx
    exact absurd (show (-32768 : BitVec 16) = 0 from hx) (by decide)
  · rw [hs.y0] at hy
    exact absurd (show (-32768 : BitVec 16) = 0 from hy) (by decide)

theorem not_exits : (∀ rounds, rgb16Drawline rounds ⟨fun _ => 0, 400, 240⟩ (-32768) 0 0 0 = none) ∧
    ¬(Exits ⟨fun _ => 0, 400, 240⟩ (-32768) 0 0 0 ∧ StaysInRange ⟨fun _ => 0, 400, 240⟩ (-32768) 0 0 0) := by
  refine ⟨fun rounds => drawline_endless rounds _, ?_⟩
  rintro ⟨⟨rounds, pp', ss, hdraw, -⟩, -⟩
  rw [drawline_endless] at hdraw
  cases hdraw

end Gppcu
