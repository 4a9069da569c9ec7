import Gppcu.Screen.Frame

/-!
# The pixels of the display

`TOP` reads the frame buffer at the address it makes of `oHADDR` and `oVADDR`.
These are registers: `oDE` is one clock before them.
-/

namespace Gppcu

open Lib (raster)

namespace LcdCon

/-! ## The registers in the picture -/

section

variable {p : LcdCon} (hp : p.Valid) {s : Regs p} {m k : Nat} (hm : 0 < m) {y x : Nat} (hy : y < p.tvd)

include hp hm hy

theorem Valid.wave_past (hx : x + 1 < p.thd) :
    (wave s m (p.firstLit m k + y * p.cols + (x + 1))).oHaddr = BitVec.ofNat _ x ∧
      (wave s m (p.firstLit m k + y * p.cols + (x + 1))).oVaddr = BitVec.ofNat _ y := by
  have hthb := hp.thb
  have hlit := hp.lit hy (Nat.lt_of_succ_lt hx)
  have hat := (hp.wave_lit (s := s) hm k hy hx).past (Nat.succ_pos _) hlit
  simp only at hat
  rw [show p.thb - 1 + (x + 1) - p.thb = x by omega,
    show p.tvpw + p.tvb + y - p.tvpw - p.tvb = y by omega] at hat
  exact hat

theorem Valid.wave_blank (hx : 0 < p.thd) :
    (wave s m (p.firstLit m k + y * p.cols + 0)).oHaddr = 0 ∧
      (wave s m (p.firstLit m k + y * p.cols + 0)).oVaddr = 0 := by
  have hthb := hp.thb
  apply (hp.wave_lit (s := s) hm k hy hx).blank
  unfold Lit
  simp only
  omega

end

/-! ## The address of `TOP` -/

/-- `buff_addr`, of 17 bits. -/
def buffAddr (s : Regs panel) : BitVec 17 :=
  BitVec.ofNat 17 ((s.oVaddr.toNat >>> 1) * 400 + (s.oHaddr.toNat >>> 1))

theorem word_lt {h v : Nat} (hh : h < 800) (hv : v < 480) : v / 2 * 400 + h / 2 < 96000 := by
  have hcol : h / 2 ≤ 399 := by omega
  have hrow : v / 2 ≤ 239 := by omega
  omega

theorem buffAddr_eq {s : Regs panel} (hh : s.oHaddr.toNat < 800) (hv : s.oVaddr.toNat < 480) :
    (buffAddr s).toNat = s.oVaddr.toNat / 2 * 400 + s.oHaddr.toNat / 2 := by
  unfold buffAddr
  rw [Nat.shiftRight_eq_div_pow, Nat.shiftRight_eq_div_pow, Nat.pow_one, BitVec.toNat_ofNat]
  exact Nat.mod_eq_of_lt (Nat.lt_trans (word_lt hh hv) (by decide))

theorem At.pixel {b : Lib.Beam} {s : Regs panel} (h : panel.At b s) :
    s.oHaddr.toNat < 800 ∧ s.oVaddr.toNat < 480 := by
  by_cases hpast : 0 < b.col ∧ panel.Lit ⟨b.row, b.col - 1⟩
  · obtain ⟨hpos, hlit⟩ := hpast
    obtain ⟨hhaddr, hvaddr⟩ := h.past hpos hlit
    obtain ⟨y, hy, x, hx, hrow, hcol⟩ := (lit_iff ..).mp hlit
    have hx : b.col - panel.thb < 800 := by
      change x < 800 at hx
      omega
    have hy : b.row - panel.tvpw - panel.tvb < 480 := by
      change y < 480 at hy
      omega
    rw [hhaddr, hvaddr]
    exact ⟨(toNat_bitFit hx (by decide)).trans_lt hx, (toNat_bitFit hy (by decide)).trans_lt hy⟩
  · have hblank : b.col = 0 ∨ ¬ panel.Lit ⟨b.row, b.col - 1⟩ := by
      rcases Nat.eq_zero_or_pos b.col with hzero | hpos
      · exact Or.inl hzero
      · exact Or.inr fun hlit => hpast ⟨hpos, hlit⟩
    obtain ⟨hhaddr, hvaddr⟩ := h.blank hblank
    rw [hhaddr, hvaddr]
    exact ⟨by decide, by decide⟩

theorem At.buffAddr_lt {b : Lib.Beam} {s : Regs panel} (h : panel.At b s) : (buffAddr s).toNat < 96000 := by
  obtain ⟨hh, hv⟩ := h.pixel
  rw [buffAddr_eq hh hv]
  exact word_lt hh hv

section

variable {s : Regs panel} {m k : Nat} (hm : 0 < m) {y x : Nat} (hy : y < 480)

include hm hy

theorem wave_buffAddr (hx : x < 800) :
    (buffAddr (wave s m (panel.firstLit m k + y * panel.cols + x))).toNat =
      if x = 0 then 0 else y / 2 * 400 + (x - 1) / 2 := by
  obtain ⟨hh, hv⟩ := (panel_valid.wave_lit (s := s) hm k hy hx).pixel
  rw [buffAddr_eq hh hv]
  cases x with
  | zero =>
    obtain ⟨hhaddr, hvaddr⟩ := panel_valid.wave_blank (s := s) (k := k) hm hy hx
    rw [hhaddr, hvaddr]
    rfl
  | succ x =>
    obtain ⟨hhaddr, hvaddr⟩ := panel_valid.wave_past (s := s) (k := k) hm hy hx
    have hcol : (BitVec.ofNat panel.hdbw x).toNat = x := toNat_bitFit (Nat.lt_of_succ_lt hx) (by decide)
    have hline : (BitVec.ofNat panel.vdbw y).toNat = y := toNat_bitFit hy (by decide)
    rw [hhaddr, hvaddr, hcol, hline, if_neg (Nat.succ_ne_zero x), Nat.add_sub_cancel]

theorem wave_buffAddr_iff (hx : x < 800) :
    (buffAddr (wave s m (panel.firstLit m k + y * panel.cols + x))).toNat = (y >>> 1) * 400 + (x >>> 1) ↔
      x % 2 = 1 ∨ x = 0 ∧ y < 2 := by
  rw [wave_buffAddr hm hy hx, Nat.shiftRight_eq_div_pow, Nat.shiftRight_eq_div_pow]
  split_ifs <;> omega

end

/-! ## The words of a frame -/

section

variable (s : Regs panel) {m : Nat} (hm : 0 < m)

include hm

theorem wave_buffAddr_lt {t : Nat} (ht : 0 < t) : (buffAddr (wave s m t)).toNat < 96000 := by
  rcases Nat.lt_or_ge t m with hlt | hge
  · obtain ⟨t, rfl⟩ := Nat.exists_eq_succ_of_ne_zero ht.ne'
    exact (panel_valid.wave_reset s (Nat.lt_of_succ_lt hlt)).buffAddr_lt
  · obtain ⟨n, rfl⟩ := Nat.exists_eq_add_of_le hge
    exact (panel_valid.wave_after s hm n).buffAddr_lt

theorem words_eq (k : Nat) : (raster (panel.firstLit m k) panel.cols 480 800).map
      (fun t => (buffAddr (wave s m t)).toNat) =
    (List.range 480).flatMap fun y => 0 :: ((List.range 799).map (· / 2)).map (y / 2 * 400 + ·) := by
  unfold raster
  rw [List.map_flatMap]
  apply List.flatMap_congr
  intro y hy
  have hline : ∀ x < 800, (buffAddr (wave s m (panel.firstLit m k + y * panel.cols + x))).toNat =
      if x = 0 then 0 else y / 2 * 400 + (x - 1) / 2 := fun x hx => wave_buffAddr hm (List.mem_range.mp hy) hx
  rw [List.map_map, List.map_map, List.range_succ_eq_map, List.map_cons, List.map_map]
  refine congrArg₂ List.cons ?_ ?_
  · exact hline 0 (by decide)
  · apply List.map_congr_left
    intro x hx
    exact hline (x + 1) (Nat.succ_lt_succ (List.mem_range.mp hx))

/-- The first word is also read in the first column of every line, and the last word of a line only once. -/
theorem count_words (k : Nat) {w : Nat} (hw : w < 96000) :
    (((raster (panel.firstLit m k) panel.cols 480 800).map fun t => (buffAddr (wave s m t)).toNat).count w = 4) ↔
      w ≠ 0 ∧ w % 400 ≠ 399 := by
  have hxs : ∀ x ∈ (List.range 799).map (· / 2), x < 400 := by
    simp only [List.mem_map, List.mem_range]
    rintro _ ⟨x, hx, rfl⟩
    omega
  have hcells := Lib.count_cells hxs ((List.range 480).map (· / 2)) w
  have hrow : w / 400 < 240 := by omega
  have hrows : ((List.range 480).map (· / 2)).count (w / 400) = if w / 400 < 240 then 2 else 0 :=
    Lib.count_halves 240 _
  have hcols : ((List.range 799).map (· / 2)).count (w % 400) =
      if w % 400 < 399 then 2 else if 399 = w % 400 then 1 else 0 := Lib.count_odd_halves 399 _
  rw [List.flatMap_map, hrows, hcols, if_pos hrow] at hcells
  rw [words_eq s hm k, Lib.count_heads, hcells, List.count_singleton, List.length_range]
  simp only [beq_iff_eq]
  split_ifs <;> omega

end

/-- In every frame the address is that of the pixel in the odd columns, and in the first column of the two
lines of word 0. It is always inside the frame buffer, and a word is read at four clocks of a frame unless it
is the first one or the last one of its line. -/
theorem placed_iff (s : Regs panel) (m : Nat) (hm : 0 < m) (a b : Nat) (h : Frame s m a b) :
    (∃ first, enabled s m a b = raster first panel.cols 480 800 ∧
      ∀ y < 480, ∀ x < 800,
        (buffAddr (wave s m (first + y * panel.cols + x))).toNat = (y >>> 1) * 400 + (x >>> 1) ↔
          x % 2 = 1 ∨ x = 0 ∧ y < 2) ∧
    (∀ t, 0 < t → (buffAddr (wave s m t)).toNat < 96000) ∧
    ∀ w < 96000, ((enabled s m a b).map fun t => (buffAddr (wave s m t)).toNat).count w = 4 ↔
      w ≠ 0 ∧ w % 400 ≠ 399 := by
  obtain ⟨k, hlines⟩ := h.enabled_eq panel_valid hm
  refine ⟨⟨_, hlines, ?_⟩, ?_, ?_⟩
  · intro y hy x hx
    exact wave_buffAddr_iff hm hy hx
  · intro t ht
    exact wave_buffAddr_lt s hm ht
  · intro w hw
    rw [hlines]
    exact count_words s hm k hw

theorem frame_panel : Frame powerOn 1 476172 953212 :=
  panel_valid.frame_round powerOn (k := 1) (by decide) (by decide) (by decide) (by decide)

theorem placed_iff_panel :
    (∃ first, enabled powerOn 1 476172 953212 = raster first panel.cols 480 800 ∧
      ∀ y < 480, ∀ x < 800,
        (buffAddr (wave powerOn 1 (first + y * panel.cols + x))).toNat = (y >>> 1) * 400 + (x >>> 1) ↔
          x % 2 = 1 ∨ x = 0 ∧ y < 2) ∧
    (∀ t, 0 < t → (buffAddr (wave powerOn 1 t)).toNat < 96000) ∧
    ∀ w < 96000, ((enabled powerOn 1 476172 953212).map fun t => (buffAddr (wave powerOn 1 t)).toNat).count w = 4 ↔
      w ≠ 0 ∧ w % 400 ≠ 399 :=
  placed_iff powerOn 1 (by decide) 476172 953212 frame_panel

theorem not_placed : Frame powerOn 1 476172 953212 ∧
    enabled powerOn 1 476172 953212 = raster 505587 panel.cols 480 800 ∧
    (buffAddr (wave powerOn 1 (505587 + 0 * panel.cols + 2))).toNat ≠ (0 >>> 1) * 400 + (2 >>> 1) := by
  have hfirst : panel.firstLit 1 1 = 505587 := by decide
  refine ⟨frame_panel, ?_, ?_⟩
  · rw [← hfirst]
    exact Round.enabled_eq panel_valid (by decide) ⟨by decide, Or.inr ⟨by decide, by decide⟩⟩
  · rw [← hfirst, wave_buffAddr (by decide) (by decide) (by decide)]
    decide

end LcdCon

end Gppcu
