import Gppcu.Lib.Grid
import Gppcu.Lib.Run
import Mathlib.Algebra.Group.Nat.Defs
import Mathlib.Data.Nat.Size

/-!
# The timing of the display

`LCD_CON`: two counters, the second one clocked by the rising edge of the
registered `oHSYNC`, and the registers that follow them one clock later. Column
and row of the beam are counted from that edge, where `vcnt` steps.
-/

namespace Gppcu

open Lib (Beam raster)

/-! ## The module `LCD_CON` -/

/-- The loop of `bit_fit`, with a bound on its rounds. -/
def bitFitLoop : Nat → BitVec 32 → Nat
  | 0, _ => 0
  | n + 1, val => if val.toNat > 0 then bitFitLoop n (val >>> 1) + 1 else 0

def bitFit (val : BitVec 32) : Nat := bitFitLoop 32 val

theorem bitFitLoop_eq {n : Nat} {val : BitVec 32} (h : val.toNat < 2 ^ n) :
    bitFitLoop n val = val.toNat.size := by
  induction n generalizing val with
  | zero =>
    rw [Nat.lt_one_iff.mp h]
    rfl
  | succ n ih =>
    have hshift : (val >>> 1).toNat = val.toNat / 2 := by
      rw [BitVec.toNat_ushiftRight, Nat.shiftRight_eq_div_pow, Nat.pow_one]
    unfold bitFitLoop
    split_ifs with hpos
    · have hbit : Nat.bit val.toNat.bodd val.toNat.div2 ≠ 0 := by
        rw [Nat.bit_bodd_div2]
        exact hpos.ne'
      have hsize := Nat.size_bit hbit
      rw [Nat.bit_bodd_div2, Nat.div2_val] at hsize
      rw [ih (by rw [hshift]; omega), hshift, hsize]
    · rw [Nat.le_zero.mp (Nat.not_lt.mp hpos), Nat.size_zero]

theorem bitFit_eq (val : BitVec 32) : bitFit val = val.toNat.size := bitFitLoop_eq val.isLt

theorem toNat_bitFit {n x : Nat} (hx : x < n) (hn : n ≤ 2 ^ 32) :
    (BitVec.ofNat (bitFit (BitVec.ofNat 32 n - 1)) x).toNat = x := by
  have hlast : (BitVec.ofNat 32 n - 1).toNat = n - 1 := by
    rw [BitVec.toNat_sub, BitVec.toNat_ofNat]
    change (2 ^ 32 - 1 + n % 2 ^ 32) % 2 ^ 32 = n - 1
    omega
  have hsize := Nat.lt_size_self (n - 1)
  rw [bitFit_eq, hlast, BitVec.toNat_ofNat, Nat.mod_eq_of_lt (by omega)]

/-- The parameters and their defaults. -/
structure LcdCon where
  thd : Nat := 800
  tvd : Nat := 480
  thb : Nat := 46
  thfp : Nat := 23
  thpw : Nat := 20
  tvb : Nat := 23
  tvfp : Nat := 22
  tvpw : Nat := 10

namespace LcdCon

variable (p : LcdCon)

def hTotal : Nat := p.thd + p.thb + p.thfp + p.thpw

def vTotal : Nat := p.tvd + p.tvb + p.tvfp + p.tvpw

def hbw : Nat := bitFit (BitVec.ofNat 32 p.hTotal - 1)

def vbw : Nat := bitFit (BitVec.ofNat 32 p.vTotal - 1)

def abw : Nat := p.hbw + p.vbw

def hdbw : Nat := bitFit (BitVec.ofNat 32 p.thd - 1)

def vdbw : Nat := bitFit (BitVec.ofNat 32 p.tvd - 1)

structure Regs where
  hcnt : BitVec p.hbw
  vcnt : BitVec p.vbw
  oHsync : Bool
  oVsync : Bool
  oHaddr : BitVec p.hdbw
  oVaddr : BitVec p.vdbw
  oAddr : BitVec p.abw

namespace Regs

variable {p} (s : Regs p)

def oDe : Bool :=
  decide (p.thpw + p.thb ≤ s.hcnt.toNat ∧ s.hcnt.toNat < p.thpw + p.thb + p.thd ∧
    p.tvpw + p.tvb ≤ s.vcnt.toNat ∧ s.vcnt.toNat < p.tvpw + p.tvb + p.tvd)

/-- The horizontal generator. Behind the front porch it keeps what it has. -/
def horizontal : Bool :=
  if s.hcnt.toNat < p.thpw then false
  else if s.hcnt.toNat < p.thpw + p.thb then true
  else if s.hcnt.toNat < p.thpw + p.thb + p.thd then true
  else if s.hcnt.toNat < p.thpw + p.thb + p.thd + p.thfp then true
  else s.oHsync

def vertical : Bool :=
  if s.vcnt.toNat < p.tvpw then false
  else if s.vcnt.toNat < p.tvpw + p.tvb + p.tvd + p.tvfp then true
  else s.oVsync

/-- A rising edge of `iCLK`, and that of `oHSYNC` which may come of it. -/
def posedge (inRst : Bool) : Regs p where
  hcnt :=
    if !inRst then 0
    else if s.hcnt.toNat < p.hTotal then BitVec.ofNat _ (s.hcnt.toNat + 1)
    else 0
  vcnt :=
    if !inRst then 0
    else if !s.oHsync && s.horizontal then
      if s.vcnt.toNat < p.vTotal then BitVec.ofNat _ (s.vcnt.toNat + 1) else 0
    else s.vcnt
  oHsync := s.horizontal
  oVsync := s.vertical
  oHaddr := if s.oDe then BitVec.ofNat _ (s.hcnt.toNat - p.thpw - p.thb) else 0
  oVaddr := if s.oDe then BitVec.ofNat _ (s.vcnt.toNat - p.tvpw - p.tvb) else 0
  oAddr := if !s.oVsync then 0 else if s.oDe then s.oAddr + 1 else s.oAddr

/-- The counters do not wait for the clock to be reset. -/
def clock (inRst : Bool) : Regs p :=
  (if inRst then s else { s with hcnt := 0, vcnt := 0 }).posedge inRst

end Regs

/-- The registers at clock `t`: a reset of `m` clocks, and no other one. -/
def wave {p : LcdCon} (s : Regs p) (m t : Nat) : Regs p :=
  Lib.run Regs.clock s ((List.range t).map fun i => decide (m ≤ i))

/-! ## The registers and the beam -/

/-- The pulses and the porches before the picture are there, and both totals fit the counters. -/
structure Valid : Prop where
  thpw : 0 < p.thpw
  thb : 0 < p.thb
  tvpw : 0 < p.tvpw
  tvb : 0 < p.tvb
  hbw : p.hTotal < 2 ^ p.hbw
  vbw : p.vTotal < 2 ^ p.vbw

def front : Nat := p.thd + p.thb + p.thfp

def cols : Nat := p.hTotal + 1

def rows : Nat := p.vTotal + 1

def Lit (b : Beam) : Prop :=
  p.tvpw + p.tvb ≤ b.row ∧ b.row < p.tvpw + p.tvb + p.tvd ∧ p.thb ≤ b.col + 1 ∧ b.col + 1 < p.thb + p.thd

instance (b : Beam) : Decidable (p.Lit b) := by
  unfold Lit
  infer_instance

/-- The registers with the beam at `b`. -/
structure At (b : Beam) (s : Regs p) : Prop where
  hcnt : s.hcnt.toNat = if b.col < p.front then b.col + p.thpw + 1 else b.col - p.front
  vcnt : s.vcnt.toNat = b.row
  hsyncHigh : b.col < p.front → s.oHsync = true
  hsyncLow : p.front < b.col → s.oHsync = false
  vsync : s.oVsync = true ↔ p.tvpw < b.row ∨ b.row = p.tvpw ∧ 0 < b.col ∨ b.row = 0 ∧ b.col = 0
  idle : 0 < b.row → b.row < p.tvpw + p.tvb → s.oAddr = 0
  draw : ∀ y < p.tvd, b.row = p.tvpw + p.tvb + y →
    s.oAddr = BitVec.ofNat _ (y * p.thd + min (b.col + 1 - p.thb) p.thd)
  past : 0 < b.col → p.Lit ⟨b.row, b.col - 1⟩ →
    s.oHaddr = BitVec.ofNat _ (b.col - p.thb) ∧ s.oVaddr = BitVec.ofNat _ (b.row - p.tvpw - p.tvb)
  blank : b.col = 0 ∨ ¬ p.Lit ⟨b.row, b.col - 1⟩ → s.oHaddr = 0 ∧ s.oVaddr = 0

section Step

variable {p} (hp : p.Valid)

include hp

theorem Valid.front_pos : 0 < p.front := by
  have hthb := hp.thb
  unfold front
  omega

theorem Valid.at_reset (s : Regs p) : p.At ⟨0, p.front⟩ (s.clock false) := by
  have hrow := hp.tvpw
  have hhor : ({ s with hcnt := 0, vcnt := 0 } : Regs p).horizontal = false := if_pos hp.thpw
  have hver : ({ s with hcnt := 0, vcnt := 0 } : Regs p).vertical = false := if_pos hp.tvpw
  have hde : ({ s with hcnt := 0, vcnt := 0 } : Regs p).oDe = false := by
    unfold Regs.oDe
    simp [hp.thpw.ne']
  have hfront := hp.front_pos
  unfold Regs.clock Regs.posedge
  simp only [Bool.false_eq_true, if_false, hhor, hver, hde]
  constructor
  · simp
  · rfl
  · intro h
    exact absurd h (Nat.lt_irrefl _)
  · intro _
    rfl
  · simp only [Bool.false_eq_true, false_iff]
    omega
  · intro h
    exact absurd h (Nat.lt_irrefl _)
  · intro y _ h
    exact absurd h (by simp only; omega)
  · rintro - ⟨h, -⟩
    simp only at h
    omega
  · intro _
    exact ⟨rfl, rfl⟩

variable {b : Beam} {s : Regs p} (h : p.At b s)

include h

theorem At.oDe (hcol : b.col < p.cols) : s.oDe = true ↔ p.Lit b := by
  have hthb := hp.thb
  have hhcnt := h.hcnt
  have hvcnt := h.vcnt
  unfold cols hTotal at hcol
  unfold Regs.oDe Lit
  unfold front at hhcnt
  rw [decide_eq_true_iff]
  split at hhcnt <;> omega

theorem At.horizontal (hcol : b.col < p.cols) : s.horizontal = true ↔ b.col < p.front ∨ b.col + 1 = p.cols := by
  have hthb := hp.thb
  have hhcnt := h.hcnt
  unfold cols hTotal at hcol ⊢
  rcases Nat.lt_or_ge b.col p.front with hlt | hge
  · have htrue : s.horizontal = true := by
      rw [if_pos hlt] at hhcnt
      unfold Regs.horizontal
      rw [if_neg (by omega)]
      split_ifs
      · rfl
      · rfl
      · rfl
      · exact h.hsyncHigh hlt
    simp only [htrue, hlt, true_or]
  · rw [if_neg (Nat.not_lt.mpr hge)] at hhcnt
    unfold Regs.horizontal
    unfold front at hhcnt hge ⊢
    split_ifs
    · simp only [false_iff]
      omega
    · simp only [true_iff]
      omega
    · omega
    · omega
    · omega

theorem At.rising (hcol : b.col < p.cols) : (!s.oHsync && s.horizontal) = true ↔ b.col + 1 = p.cols := by
  have hthpw := hp.thpw
  rw [Bool.and_eq_true, h.horizontal hp hcol, Bool.not_eq_true']
  constructor
  · rintro ⟨hlow, hlt | hlast⟩
    · rw [h.hsyncHigh hlt] at hlow
      cases hlow
    · exact hlast
  · intro hlast
    refine ⟨h.hsyncLow ?_, Or.inr hlast⟩
    unfold cols hTotal at hlast
    unfold front
    omega

theorem At.vertical (hrow : b.row < p.rows) : s.vertical = true ↔ p.tvpw ≤ b.row := by
  have htvb := hp.tvb
  have hvcnt := h.vcnt
  unfold rows vTotal at hrow
  unfold Regs.vertical
  split_ifs
  · simp only [false_iff]
    omega
  · simp only [true_iff]
    omega
  · rw [h.vsync]
    omega

theorem At.posedge_hcnt (hcol : b.col < p.cols) : (s.posedge true).hcnt.toNat =
    if (b.next p.rows p.cols).col < p.front then (b.next p.rows p.cols).col + p.thpw + 1
    else (b.next p.rows p.cols).col - p.front := by
  have hthb := hp.thb
  have hhbw := hp.hbw
  have hhcnt := h.hcnt
  have htotal : p.hTotal = p.front + p.thpw := rfl
  have hfront : p.front = p.thd + p.thb + p.thfp := rfl
  unfold cols at hcol ⊢
  have hsucc : (BitVec.ofNat p.hbw (s.hcnt.toNat + 1)).toNat = (s.hcnt.toNat + 1) % 2 ^ p.hbw :=
    BitVec.toNat_ofNat ..
  rw [Beam.next_col]
  change (if s.hcnt.toNat < p.hTotal then BitVec.ofNat _ (s.hcnt.toNat + 1) else 0).toNat = _
  rcases Nat.lt_or_ge s.hcnt.toNat p.hTotal with hlt | hge
  · rw [if_pos hlt, hsucc, Nat.mod_eq_of_lt (by omega)]
    split_ifs at hhcnt ⊢ <;> omega
  · have hlast : b.col + 1 = p.front := by split_ifs at hhcnt <;> omega
    rw [if_neg (Nat.not_lt.mpr hge), if_pos (show b.col + 1 < p.hTotal + 1 by omega), hlast,
      if_neg (Nat.lt_irrefl _), Nat.sub_self]
    rfl

theorem At.posedge_vcnt (hcol : b.col < p.cols) (hrow : b.row < p.rows) :
    (s.posedge true).vcnt.toNat = (b.next p.rows p.cols).row := by
  have hvbw := hp.vbw
  have hvcnt := h.vcnt
  unfold rows at hrow ⊢
  rw [Beam.next_row]
  change (if !s.oHsync && s.horizontal then
    if s.vcnt.toNat < p.vTotal then BitVec.ofNat _ (s.vcnt.toNat + 1) else 0 else s.vcnt).toNat = _
  rcases Nat.lt_or_ge (b.col + 1) p.cols with hlt | hge
  · rw [if_neg (by rw [h.rising hp hcol]; omega), if_pos hlt, hvcnt]
  · rw [if_pos ((h.rising hp hcol).mpr (by omega)), if_neg (Nat.not_lt.mpr hge), hvcnt]
    rcases Nat.lt_or_ge b.row p.vTotal with hlt | hge
    · rw [if_pos hlt, if_pos (Nat.succ_lt_succ hlt), BitVec.toNat_ofNat, Nat.mod_eq_of_lt (by omega)]
    · rw [if_neg (Nat.not_lt.mpr hge), if_neg (by omega)]
      rfl

theorem At.posedge_oAddr (hcol : b.col < p.cols) : (s.posedge true).oAddr =
    if s.oVsync = false then 0 else if p.Lit b then s.oAddr + 1 else s.oAddr := by
  simp only [Regs.posedge, ← h.oDe hp hcol, Bool.not_eq_true']

theorem At.posedge_idle (hcol : b.col < p.cols) (hpos : 0 < (b.next p.rows p.cols).row)
    (hlt : (b.next p.rows p.cols).row < p.tvpw + p.tvb) : (s.posedge true).oAddr = 0 := by
  have hthb := hp.thb
  have htvpw := hp.tvpw
  have hcols : p.cols = p.thd + p.thb + p.thfp + p.thpw + 1 := rfl
  rw [Beam.next_row] at hpos hlt
  have hdark : ¬ p.Lit b := by
    unfold Lit
    split_ifs at hlt <;> omega
  rw [h.posedge_oAddr hp hcol, if_neg hdark]
  rcases Bool.eq_false_or_eq_true s.oVsync with hhigh | hlow
  · rw [if_neg (by simp [hhigh])]
    have hrow := h.vsync.mp hhigh
    split_ifs at hpos hlt
    · exact h.idle hpos hlt
    · exact h.idle (by omega) (by omega)
    · omega
  · rw [if_pos hlow]

theorem At.posedge_draw (hcol : b.col < p.cols) {y : Nat} (hy : y < p.tvd)
    (hrow : (b.next p.rows p.cols).row = p.tvpw + p.tvb + y) : (s.posedge true).oAddr =
      BitVec.ofNat _ (y * p.thd + min ((b.next p.rows p.cols).col + 1 - p.thb) p.thd) := by
  have hthb := hp.thb
  have htvb := hp.tvb
  have htvpw := hp.tvpw
  have hcols : p.cols = p.thd + p.thb + p.thfp + p.thpw + 1 := rfl
  have hvsync := h.vsync
  rw [Beam.next_row] at hrow
  rw [Beam.next_col, h.posedge_oAddr hp hcol]
  rcases Nat.lt_or_ge (b.col + 1) p.cols with hlt | hge
  · rw [if_pos hlt] at hrow ⊢
    rw [if_neg (by simp only [Bool.eq_false_iff, ne_eq, not_not, hvsync]; omega), h.draw y hy hrow]
    split_ifs with hlit
    · unfold Lit at hlit
      rw [show min (b.col + 1 + 1 - p.thb) p.thd = min (b.col + 1 - p.thb) p.thd + 1 by omega, ← Nat.add_assoc,
        BitVec.ofNat_add _ 1]
      rfl
    · unfold Lit at hlit
      rw [show min (b.col + 1 + 1 - p.thb) p.thd = min (b.col + 1 - p.thb) p.thd by omega]
  · have hdark : ¬ p.Lit b := by
      unfold Lit
      omega
    rw [if_neg (Nat.not_lt.mpr hge)] at hrow ⊢
    rw [if_neg hdark, Nat.min_eq_left (by omega), show 0 + 1 - p.thb = 0 by omega, Nat.add_zero]
    split_ifs at hrow
    · cases y with
      | zero =>
        rw [h.idle (by omega) (by omega), Nat.zero_mul, ite_self]
        rfl
      | succ y =>
        rw [if_neg (by simp only [Bool.eq_false_iff, ne_eq, not_not, hvsync]; omega), h.draw y (by omega) (by omega),
          Nat.min_eq_right (by omega), Nat.succ_mul]
    · omega

theorem At.posedge_past (hcol : b.col < p.cols) (hlit : p.Lit b) :
    (s.posedge true).oHaddr = BitVec.ofNat _ (b.col + 1 - p.thb) ∧
      (s.posedge true).oVaddr = BitVec.ofNat _ (b.row - p.tvpw - p.tvb) := by
  have hde := (h.oDe hp hcol).mpr hlit
  have hhcnt := h.hcnt
  unfold Lit at hlit
  unfold front at hhcnt
  rw [if_pos (by omega)] at hhcnt
  simp only [Regs.posedge, hde, if_true, hhcnt, h.vcnt, and_true]
  congr 1
  omega

theorem At.posedge_blank (hcol : b.col < p.cols) (hdark : ¬ p.Lit b) :
    (s.posedge true).oHaddr = 0 ∧ (s.posedge true).oVaddr = 0 := by
  have hde : s.oDe = false := by
    rw [Bool.eq_false_iff, ne_eq, h.oDe hp hcol]
    exact hdark
  simp [Regs.posedge, hde]

theorem At.step (hcol : b.col < p.cols) (hrow : b.row < p.rows) :
    p.At (b.next p.rows p.cols) (s.clock true) := by
  have hthb := hp.thb
  have htvb := hp.tvb
  have htvpw := hp.tvpw
  have hhor : (s.posedge true).oHsync = true ↔ b.col < p.front ∨ b.col + 1 = p.cols := h.horizontal hp hcol
  have hver : (s.posedge true).oVsync = true ↔ p.tvpw ≤ b.row := h.vertical hp hrow
  have hnextCol := Beam.next_col p.rows p.cols b
  have hnextRow := Beam.next_row p.rows p.cols b
  have hcols : p.cols = p.thd + p.thb + p.thfp + p.thpw + 1 := rfl
  have hrows : p.rows = p.tvd + p.tvb + p.tvfp + p.tvpw + 1 := rfl
  have hfront : p.front = p.thd + p.thb + p.thfp := rfl
  constructor
  · exact h.posedge_hcnt hp hcol
  · exact h.posedge_vcnt hp hcol hrow
  · intro hlt
    apply hhor.mpr
    split_ifs at hnextCol <;> omega
  · intro hlt
    apply Bool.eq_false_iff.mpr
    intro hhigh
    have := hhor.mp hhigh
    split_ifs at hnextCol <;> omega
  · rw [show (s.clock true).oVsync = (s.posedge true).oVsync from rfl, hver]
    split_ifs at hnextCol hnextRow <;> omega
  · exact h.posedge_idle hp hcol
  · intro y hy
    exact h.posedge_draw hp hcol hy
  · intro hpos hlit
    have hlt : b.col + 1 < p.cols := by split_ifs at hnextCol <;> omega
    rw [if_pos hlt] at hnextCol hnextRow
    rw [hnextCol, hnextRow] at hlit ⊢
    exact h.posedge_past hp hcol hlit
  · intro hblank
    apply h.posedge_blank hp hcol
    rcases Nat.lt_or_ge (b.col + 1) p.cols with hlt | hge
    · rw [if_pos hlt] at hnextCol hnextRow
      rw [hnextCol, hnextRow] at hblank
      exact hblank.resolve_left (Nat.succ_ne_zero _)
    · unfold Lit
      omega

theorem At.falls_iff (hrow : b.row < p.rows) :
    s.oVsync = true ∧ (s.clock true).oVsync = false ↔ b.row = 0 ∧ b.col = 0 := by
  have htvpw := hp.tvpw
  have hver : (s.clock true).oVsync = true ↔ p.tvpw ≤ b.row := h.vertical hp hrow
  rw [h.vsync, Bool.eq_false_iff, ne_eq, hver]
  omega

theorem At.pulses (hlit : p.Lit b) : s.oHsync = true ∧ s.oVsync = true := by
  have htvb := hp.tvb
  unfold Lit at hlit
  constructor
  · apply h.hsyncHigh
    unfold front
    omega
  · rw [h.vsync]
    omega

end Step

/-! ## The registers at a clock -/

section Run

variable {p} (hp : p.Valid) (s : Regs p) {m t : Nat}

theorem wave_succ : wave s m (t + 1) = (wave s m t).clock (decide (m ≤ t)) := by
  unfold wave
  rw [List.range_succ, List.map_append, List.map_singleton, Lib.run_concat]

theorem front_lt_cols : p.front < p.cols := by
  unfold front cols hTotal
  omega

include hp

theorem Valid.wave_reset (ht : t < m) : p.At ⟨0, p.front⟩ (wave s m (t + 1)) := by
  rw [wave_succ, decide_eq_false (Nat.not_le.mpr ht)]
  exact hp.at_reset _

theorem Valid.wave_after (hm : 0 < m) (n : Nat) :
    p.At (Beam.after p.rows p.cols (n + p.front)) (wave s m (m + n)) := by
  have hrows : 0 < p.rows := Nat.succ_pos _
  have hcols : 0 < p.cols := Nat.succ_pos _
  induction n with
  | zero =>
    obtain ⟨m, rfl⟩ := Nat.exists_eq_succ_of_ne_zero hm.ne'
    have hstart := Beam.after_frame 0 hrows (front_lt_cols (p := p))
    rw [Nat.zero_mul, Nat.zero_add, Nat.zero_mul] at hstart
    rw [hstart]
    exact hp.wave_reset s (Nat.lt_succ_self m)
  | succ n ih =>
    rw [show n + 1 + p.front = n + p.front + 1 by omega, Beam.after_succ hrows hcols, ← Nat.add_assoc, wave_succ,
      decide_eq_true (Nat.le_add_right m n)]
    exact ih.step hp (Nat.mod_lt _ hcols) (Nat.mod_lt _ hrows)

theorem Valid.wave_frame (hm : 0 < m) (ht : m ≤ t) {k y x : Nat} (hy : y < p.rows) (hx : x < p.cols)
    (hbeam : t + p.front = (k * p.rows + y) * p.cols + x + m) : p.At ⟨y, x⟩ (wave s m t) := by
  have hafter := hp.wave_after s hm (t - m)
  rw [show t - m + p.front = (k * p.rows + y) * p.cols + x by omega, Beam.after_frame k hy hx,
    Nat.add_sub_cancel' ht] at hafter
  exact hafter

end Run

end LcdCon

end Gppcu
