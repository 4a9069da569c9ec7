import Gppcu.Screen.Timing

/-!
# The frames of the display

A frame goes from one falling edge of `oVSYNC` to the next one. The first one
begins in the reset.
-/

namespace Gppcu

open Lib (Beam raster)

namespace LcdCon

variable {p : LcdCon}

/-- Between clock `t` and the next one `oVSYNC` falls. -/
def Falls (s : Regs p) (m t : Nat) : Prop := (wave s m t).oVsync = true ∧ (wave s m (t + 1)).oVsync = false

/-- The clocks behind `a`, up to `b`, are a frame. -/
structure Frame (s : Regs p) (m a b : Nat) : Prop where
  begins : a < m ∨ Falls s m a
  ends : Falls s m b
  lt : a < b
  between : ∀ t, a < t → t < b → ¬ Falls s m t

def enabled (s : Regs p) (m a b : Nat) : List Nat :=
  (List.range' (a + 1) (b - a)).filter fun t => (wave s m t).oDe

/-- The picture is lines of consecutive clocks outside of the pulses, the addresses count through it, and the
frames behind the reset have one length. -/
structure Timed (s : Regs p) (m a b : Nat) : Prop where
  lines : ∃ first, enabled s m a b = raster first p.cols p.tvd p.thd
  outside : ∀ t ∈ enabled s m a b, (wave s m t).oHsync = true ∧ (wave s m t).oVsync = true
  addresses : (enabled s m a b).map (fun t => (wave s m t).oAddr.toNat) = List.range (p.thd * p.tvd)
  length : m ≤ a → b - a = p.rows * p.cols

theorem lit_iff (row col : Nat) : p.Lit ⟨row, col⟩ ↔
    ∃ y < p.tvd, ∃ x < p.thd, row = p.tvpw + p.tvb + y ∧ col + 1 = p.thb + x := by
  unfold Lit
  simp only
  constructor
  · rintro ⟨htop, hbottom, hleft, hright⟩
    exact ⟨row - (p.tvpw + p.tvb), by omega, col + 1 - p.thb, by omega, by omega, by omega⟩
  · rintro ⟨y, hy, x, hx, hrow, hcol⟩
    omega

theorem lit_cell {y x : Nat} (hy : y < p.tvd) (hx : x < p.thd) :
    p.tvpw + p.tvb + y < p.rows ∧ p.thb - 1 + x < p.cols := by
  unfold rows vTotal cols hTotal
  omega

/-- The clocks behind `a`, up to `b`, are those of the `k`-th round of the beam after a reset of `m` clocks. -/
structure Round (p : LcdCon) (m a b k : Nat) : Prop where
  ends : b + p.front = (k + 1) * (p.rows * p.cols) + m
  begins : a < m ∧ k = 0 ∨ m ≤ a ∧ a + p.front = k * (p.rows * p.cols) + m

theorem front_lt_round : p.front < p.rows * p.cols :=
  Nat.lt_of_lt_of_le front_lt_cols (Nat.le_mul_of_pos_left _ (Nat.succ_pos _))

section

variable (hp : p.Valid) {s : Regs p} {m a b t : Nat}

include hp

/-! ## Where `oVSYNC` falls -/

theorem Valid.wave_low (ht : t < m) : (wave s m (t + 1)).oVsync = false := by
  have htvpw := hp.tvpw
  have hfront := hp.front_pos
  rw [Bool.eq_false_iff, ne_eq, (hp.wave_reset s ht).vsync]
  simp only
  omega

theorem Valid.falls_iff (hm : 0 < m) (ht : m ≤ t) :
    Falls s m t ↔ ∃ k, t + p.front = k * (p.rows * p.cols) + m := by
  obtain ⟨n, rfl⟩ := Nat.exists_eq_add_of_le ht
  have hrows : 0 < p.rows := Nat.succ_pos _
  have hcols : 0 < p.cols := Nat.succ_pos _
  unfold Falls
  rw [wave_succ, decide_eq_true ht, (hp.wave_after s hm n).falls_iff hp (Nat.mod_lt _ hrows),
    Beam.after_origin hrows hcols]
  constructor
  · rintro ⟨k, hk⟩
    exact ⟨k, by omega⟩
  · rintro ⟨k, hk⟩
    exact ⟨k, by omega⟩

theorem Frame.round (hm : 0 < m) (h : Frame s m a b) : ∃ k, p.Round m a b k := by
  have hfront := hp.front_pos
  have hround := front_lt_round (p := p)
  have hmb : m ≤ b := by
    by_contra hlt
    obtain ⟨b, rfl⟩ := Nat.exists_eq_succ_of_ne_zero (Nat.ne_of_gt (Nat.zero_lt_of_lt h.lt))
    have hlow := hp.wave_low (s := s) (show b < m by omega)
    exact Bool.false_ne_true (hlow.symm.trans h.ends.1)
  obtain ⟨k, hk⟩ := (hp.falls_iff hm hmb).mp h.ends
  obtain ⟨k, rfl⟩ : ∃ j, k = j + 1 := Nat.exists_eq_succ_of_ne_zero (by rintro rfl; omega)
  refine ⟨k, hk, ?_⟩
  rw [Nat.succ_mul] at hk
  -- the fall of the round before is no clock of this frame
  have hbefore : k = 0 ∨ k * (p.rows * p.cols) + m ≤ a + p.front := by
    by_contra hne
    obtain ⟨hpos, hlt⟩ := not_or.mp hne
    have hge : p.rows * p.cols ≤ k * (p.rows * p.cols) := Nat.le_mul_of_pos_left _ (Nat.pos_of_ne_zero hpos)
    have hfall : Falls s m (k * (p.rows * p.cols) + m - p.front) :=
      (hp.falls_iff hm (by omega)).mpr ⟨k, by omega⟩
    exact h.between _ (by omega) (by omega) hfall
  rcases Nat.lt_or_ge a m with hlt | hge
  · refine Or.inl ⟨hlt, ?_⟩
    by_contra hne
    have hge : p.rows * p.cols ≤ k * (p.rows * p.cols) := Nat.le_mul_of_pos_left _ (Nat.pos_of_ne_zero hne)
    have hle := hbefore.resolve_left hne
    omega
  · obtain ⟨j, hj⟩ := (hp.falls_iff hm hge).mp (h.begins.resolve_left (Nat.not_lt.mpr hge))
    have hlt := h.lt
    have hjk : j < k + 1 := by
      apply Nat.lt_of_mul_lt_mul_right (a := p.rows * p.cols)
      rw [Nat.succ_mul]
      omega
    have hkj : k ≤ j := by
      rcases hbefore with rfl | hle
      · exact Nat.zero_le j
      · exact Nat.le_of_mul_le_mul_right (c := p.rows * p.cols) (by omega) (Nat.zero_lt_of_lt hround)
    obtain rfl : j = k := by omega
    exact Or.inr ⟨hge, hj⟩

/-! ## The picture of a frame -/

variable (p) in
omit hp in
def firstLit (m k : Nat) : Nat := (k * p.rows + (p.tvpw + p.tvb)) * p.cols + (p.thb - 1) + m - p.front

theorem Valid.front_le_firstLit (m k : Nat) :
    p.front + m ≤ (k * p.rows + (p.tvpw + p.tvb)) * p.cols + (p.thb - 1) + m := by
  have htvpw := hp.tvpw
  have hline : p.cols ≤ (k * p.rows + (p.tvpw + p.tvb)) * p.cols := Nat.le_mul_of_pos_left _ (by omega)
  have hfront := front_lt_cols (p := p)
  omega

theorem Valid.firstLit_add (m k y x : Nat) : p.firstLit m k + y * p.cols + x + p.front =
    (k * p.rows + (p.tvpw + p.tvb + y)) * p.cols + (p.thb - 1 + x) + m := by
  have hle := hp.front_le_firstLit m k
  have hline : (k * p.rows + (p.tvpw + p.tvb + y)) * p.cols =
      (k * p.rows + (p.tvpw + p.tvb)) * p.cols + y * p.cols := by
    rw [← Nat.add_assoc (k * p.rows), Nat.add_mul]
  unfold firstLit
  omega

theorem Valid.wave_lit (hm : 0 < m) (k : Nat) {y x : Nat} (hy : y < p.tvd) (hx : x < p.thd) :
    p.At ⟨p.tvpw + p.tvb + y, p.thb - 1 + x⟩ (wave s m (p.firstLit m k + y * p.cols + x)) := by
  have hle := hp.front_le_firstLit m k
  obtain ⟨hrow, hcol⟩ := lit_cell hy hx
  apply hp.wave_frame s hm ?_ hrow hcol (hp.firstLit_add m k y x)
  unfold firstLit
  omega

theorem Valid.lit {y x : Nat} (hy : y < p.tvd) (hx : x < p.thd) :
    p.Lit ⟨p.tvpw + p.tvb + y, p.thb - 1 + x⟩ := by
  have hthb := hp.thb
  exact (lit_iff ..).mpr ⟨y, hy, x, hx, rfl, by omega⟩

theorem Round.mem_lines (hm : 0 < m) {k : Nat} (h : p.Round m a b k) (hat : a < t) (htb : t ≤ b)
    (hde : (wave s m t).oDe = true) : t ∈ raster (p.firstLit m k) p.cols p.tvd p.thd := by
  have hb := h.ends
  have ha := h.begins
  have hthb := hp.thb
  have htvpw := hp.tvpw
  have hmt : m ≤ t := by
    by_contra hlt
    obtain ⟨t, rfl⟩ := Nat.exists_eq_succ_of_ne_zero (Nat.ne_of_gt (Nat.zero_lt_of_lt hat))
    have hlit := ((hp.wave_reset s (show t < m by omega)).oDe hp front_lt_cols).mp hde
    unfold Lit at hlit
    simp only at hlit
    omega
  have hrows : 0 < p.rows := Nat.succ_pos _
  have hcols : 0 < p.cols := Nat.succ_pos _
  obtain ⟨j, row, col, hrow, hcol, hbeam⟩ := Beam.exists_frame hrows hcols (t - m + p.front)
  have hcell := Beam.cell_lt hrow hcol
  have hround := Beam.frame_cell p.rows p.cols j row col
  have hlit := ((hp.wave_frame s hm hmt (k := j) hrow hcol (by omega)).oDe hp hcol).mp hde
  obtain ⟨y, hy, x, hx, rfl, hcolx⟩ := (lit_iff ..).mp hlit
  obtain rfl : j = k := by
    have hpos : 0 < (p.tvpw + p.tvb + y) * p.cols := Nat.mul_pos (by omega) hcols
    have hjk : j < k + 1 := by
      apply Nat.lt_of_mul_lt_mul_right (a := p.rows * p.cols)
      omega
    have hkj : k < j + 1 := by
      rcases ha with ⟨-, rfl⟩ | ⟨hma, ha⟩
      · exact Nat.succ_pos j
      · apply Nat.lt_of_mul_lt_mul_right (a := p.rows * p.cols)
        rw [Nat.succ_mul]
        omega
    omega
  have hfirst := hp.firstLit_add m j y x
  rw [show p.thb - 1 + x = col by omega] at hfirst
  exact Lib.mem_raster.mpr ⟨y, hy, x, hx, by omega⟩

theorem Round.line_within {k : Nat} (h : p.Round m a b k) {y x : Nat} (hy : y < p.tvd) (hx : x < p.thd)
    (ht : t = p.firstLit m k + y * p.cols + x) : a < t ∧ t ≤ b := by
  have hb := h.ends
  have ha := h.begins
  have htvpw := hp.tvpw
  have hfirst := hp.firstLit_add m k y x
  have hle := hp.front_le_firstLit m k
  obtain ⟨hrow, hcol⟩ := lit_cell hy hx
  have hcell := Beam.cell_lt hrow hcol
  have hpos : 0 < (p.tvpw + p.tvb + y) * p.cols := Nat.mul_pos (by omega) (Nat.zero_lt_of_lt hcol)
  rw [Beam.frame_cell, ← ht] at hfirst
  rw [Nat.succ_mul] at hb
  have hmt : m ≤ t := by
    rw [ht]
    unfold firstLit
    omega
  constructor
  · rcases ha with ⟨ham, -⟩ | ⟨-, ha⟩ <;> omega
  · omega

theorem Round.enabled_eq (hm : 0 < m) {k : Nat} (h : p.Round m a b k) :
    enabled s m a b = raster (p.firstLit m k) p.cols p.tvd p.thd := by
  apply List.Pairwise.eq_of_mem_iff ((List.pairwise_lt_range' ..).filter _)
  · apply Lib.raster_pairwise
    unfold cols hTotal
    omega
  intro t
  rw [List.mem_filter, List.mem_range'_1]
  constructor
  · rintro ⟨⟨hat, htb⟩, hde⟩
    exact h.mem_lines hp hm (by omega) (by omega) hde
  · intro hmem
    obtain ⟨y, hy, x, hx, ht⟩ := Lib.mem_raster.mp hmem
    obtain ⟨hat, htb⟩ := h.line_within hp hy hx ht
    refine ⟨by omega, ?_⟩
    rw [ht, (hp.wave_lit hm k hy hx).oDe hp (lit_cell hy hx).2]
    exact hp.lit hy hx

theorem Frame.enabled_eq (hm : 0 < m) (h : Frame s m a b) :
    ∃ k, enabled s m a b = raster (p.firstLit m k) p.cols p.tvd p.thd := by
  obtain ⟨k, hround⟩ := h.round hp hm
  exact ⟨k, hround.enabled_eq hp hm⟩

theorem Valid.wave_oAddr (hm : 0 < m) (k : Nat) {y x : Nat} (hy : y < p.tvd) (hx : x < p.thd) :
    (wave s m (p.firstLit m k + y * p.cols + x)).oAddr.toNat = y * p.thd + x := by
  have hthb := hp.thb
  have hbits : p.tvd * p.thd ≤ 2 ^ p.abw := by
    have hhbw := hp.hbw
    have hvbw := hp.vbw
    unfold hTotal at hhbw
    unfold vTotal at hvbw
    unfold abw
    rw [Nat.pow_add, Nat.mul_comm]
    exact Nat.mul_le_mul (by omega) (by omega)
  have hcell := Beam.cell_lt hy hx
  rw [(hp.wave_lit hm k hy hx).draw y hy rfl, BitVec.toNat_ofNat]
  simp only
  rw [show min (p.thb - 1 + x + 1 - p.thb) p.thd = x by omega, Nat.mod_eq_of_lt (by omega)]

theorem Frame.timed (hm : 0 < m) (h : Frame s m a b) : Timed s m a b := by
  obtain ⟨k, hlines⟩ := h.enabled_eq hp hm
  refine ⟨⟨_, hlines⟩, ?_, ?_, ?_⟩
  · rw [hlines]
    intro t ht
    obtain ⟨y, hy, x, hx, rfl⟩ := Lib.mem_raster.mp ht
    exact (hp.wave_lit hm k hy hx).pulses hp (hp.lit hy hx)
  · rw [hlines, Nat.mul_comm]
    exact Lib.map_raster fun y hy x hx => hp.wave_oAddr hm k hy hx
  · intro hma
    obtain ⟨k, hb, ⟨ham, -⟩ | ⟨-, ha⟩⟩ := h.round hp hm
    · omega
    · rw [Nat.succ_mul] at hb
      omega

theorem Valid.frame_round (s : Regs p) (hm : 0 < m) {k : Nat} (hma : m ≤ a)
    (ha : a + p.front = k * (p.rows * p.cols) + m) (hb : b + p.front = (k + 1) * (p.rows * p.cols) + m) :
    Frame s m a b := by
  have hround := front_lt_round (p := p)
  have hnext : (k + 1) * (p.rows * p.cols) = k * (p.rows * p.cols) + p.rows * p.cols := Nat.succ_mul ..
  refine ⟨Or.inr ((hp.falls_iff hm hma).mpr ⟨k, ha⟩), (hp.falls_iff hm (by omega)).mpr ⟨k + 1, hb⟩, by omega, ?_⟩
  intro t hat htb hfall
  obtain ⟨j, hj⟩ := (hp.falls_iff hm (by omega)).mp hfall
  have hjk : j < k + 1 := Nat.lt_of_mul_lt_mul_right (a := p.rows * p.cols) (by omega)
  have hkj : k < j := Nat.lt_of_mul_lt_mul_right (a := p.rows * p.cols) (by omega)
  omega

theorem Valid.exists_frame (s : Regs p) (hm : 0 < m) (n : Nat) : ∃ a b, n ≤ a ∧ Frame s m a b := by
  have hround := front_lt_round (p := p)
  have hn : n ≤ n * (p.rows * p.cols) := Nat.le_mul_of_pos_right _ (Nat.zero_lt_of_lt hround)
  have hfirst : (n + 1) * (p.rows * p.cols) = n * (p.rows * p.cols) + p.rows * p.cols := Nat.succ_mul ..
  have hnext : (n + 1 + 1) * (p.rows * p.cols) = (n + 1) * (p.rows * p.cols) + p.rows * p.cols := Nat.succ_mul ..
  exact ⟨(n + 1) * (p.rows * p.cols) + m - p.front, (n + 1 + 1) * (p.rows * p.cols) + m - p.front, by omega,
    hp.frame_round s hm (k := n + 1) (by omega) (by omega) (by omega)⟩

end

/-- Every frame is timed, and they go on forever. -/
theorem frames_timed (hp : p.Valid) (s : Regs p) (m : Nat) (hm : 0 < m) :
    (∀ a b, Frame s m a b → Timed s m a b) ∧ ∀ n, ∃ a b, n ≤ a ∧ Frame s m a b :=
  ⟨fun _ _ h => h.timed hp hm, hp.exists_frame s hm⟩

def panel : LcdCon := {}

theorem panel_valid : panel.Valid := by
  constructor <;> decide

example : (panel.hbw, panel.vbw, panel.hdbw, panel.vdbw) = (10, 10, 10, 9) := by decide

/-- The registers as they may be when the power comes on. -/
def powerOn : Regs panel := ⟨5, 7, true, true, 3, 4, 9⟩

theorem frames_timed_panel :
    (∀ a b, Frame powerOn 1 a b → Timed powerOn 1 a b) ∧ ∀ n, ∃ a b, n ≤ a ∧ Frame powerOn 1 a b :=
  frames_timed panel_valid powerOn 1 (by decide)

end LcdCon

end Gppcu
