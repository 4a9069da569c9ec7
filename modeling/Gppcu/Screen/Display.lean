import Gppcu.Screen.Picture
import Gppcu.Screen.Render

/-!
# What the display shows

`TOP` reads the frame buffer with the clock that `LCD_CON` gives it, in the
middle of every clock with `oDE`, and widens the colour to 24 bits.
-/

namespace Gppcu

open Lib (raster)

namespace LcdCon

/-! ## Colours -/

def tftColor (rgb16 : BitVec 16) : BitVec 24 :=
  rgb16.extractLsb' 11 5 ++ (rgb16.extractLsb' 11 1).replicate 3 ++
    (rgb16.extractLsb' 5 6 ++ (rgb16.extractLsb' 5 1).replicate 2) ++
    (rgb16.extractLsb' 0 5 ++ (rgb16.extractLsb' 0 1).replicate 3)

theorem tftColor_white : tftColor 0xffff = 0xffffff := by decide

theorem tftColor_black : tftColor 0 = 0 := by decide

/-! ## The picture -/

/-- `LCDRGB` at the end of a clock with `oDE`: the memory has been read on its falling edge. -/
def lcdRgb (vram : Nat → BitVec 16) (s : Regs panel) : BitVec 24 := tftColor (vram (buffAddr s).toNat)

def pixelPoint (x y : Nat) : Int × Int := if x = 0 then (0, 0) else (((x - 1) / 2 : Nat), (y / 2 : Nat))

/-- A frame of the display: each pixel is white where its point is on an edge, and black elsewhere. The first
column is one with the corner, and every other one shows the point of its left neighbour. -/
def Displays (points : BitVec 16 → Vec3i) (indices : List (BitVec 16)) (vram : Nat → BitVec 16) (s : Regs panel)
    (m a b : Nat) : Prop :=
  ∃ drawn, List.Forall₂ (fun e ps => AlongLine (points e.1).at (points e.2).at ps) (edges indices) drawn ∧
    ∃ first, enabled s m a b = raster first panel.cols 480 800 ∧ ∀ y < 480, ∀ x < 800,
      lcdRgb vram (wave s m (first + y * panel.cols + x)) =
        if pixelPoint x y ∈ drawn.flatten then 0xffffff else 0

theorem lcdRgb_pixel {vram : Nat → BitVec 16} {points : List (Int × Int)}
    (h : ∀ x < 400, ∀ y < 240, vram (y * 400 + x) = if ((x : Int), (y : Int)) ∈ points then 0xffff else 0)
    (s : Regs panel) {m : Nat} (hm : 0 < m) (k : Nat) {y x : Nat} (hy : y < 480) (hx : x < 800) :
    lcdRgb vram (wave s m (panel.firstLit m k + y * panel.cols + x)) =
      if pixelPoint x y ∈ points then 0xffffff else 0 := by
  unfold lcdRgb pixelPoint
  rw [wave_buffAddr (s := s) (k := k) hm hy hx]
  split_ifs with hzero hmem hmem
  · have hcorner := h 0 (by omega) 0 (by omega)
    simp only [Nat.zero_mul, Nat.add_zero, Nat.cast_zero, if_pos hmem] at hcorner
    rw [hcorner, tftColor_white]
  · have hcorner := h 0 (by omega) 0 (by omega)
    simp only [Nat.zero_mul, Nat.add_zero, Nat.cast_zero, if_neg hmem] at hcorner
    rw [hcorner, tftColor_black]
  · rw [h _ (by omega) _ (by omega), if_pos hmem, tftColor_white]
  · rw [h _ (by omega) _ (by omega), if_neg hmem, tftColor_black]

/-- In every frame in which the memory shows the edges, so does the display. -/
theorem displays_edges {points : BitVec 16 → Vec3i} {indices : List (BitVec 16)} {before vram : Nat → BitVec 16}
    (h : ShowsEdges points indices before vram) (s : Regs panel) {m : Nat} (hm : 0 < m) {a b : Nat}
    (hf : Frame s m a b) : Displays points indices vram s m a b := by
  obtain ⟨k, hlines⟩ := hf.enabled_eq panel_valid hm
  obtain ⟨drawn, hdrawn, hpicture⟩ := h.picture
  exact ⟨drawn, hdrawn, _, hlines, fun y hy x hx => lcdRgb_pixel hpicture s hm k hy hx⟩

theorem displays_edges_corners : ∃ vram, Displays corners [0, 1, 2] vram powerOn 1 476172 953212 := by
  obtain ⟨vram, -, hshows⟩ := corners_fit.shown fun _ => 0
  exact ⟨vram, displays_edges hshows powerOn (by decide) frame_panel⟩

end LcdCon

end Gppcu
