import Gppcu.Screen.Span
import Mathlib.Data.List.Forall2

/-!
# The wire frame on the screen

`app_render_on_screen`: the three edges of every triangle into a buffer of
400 x 240 words, and the buffer into the memory of the display.
-/

namespace Gppcu

/-! ## The function of `app.c` -/

structure Vec3i where
  x : BitVec 32
  y : BitVec 32
  z : BitVec 32

/-- The call of `rgb16_drawline` for one edge: its parameters have 16 bits. -/
def drawEdge (rounds : Nat) (points : BitVec 16 → Vec3i) (pp : ScrDescRgb16) (e : BitVec 16 × BitVec 16) :
    Option ScrDescRgb16 :=
  (rgb16Drawline rounds pp ((points e.1).x.setWidth 16) ((points e.1).y.setWidth 16)
    ((points e.2).x.setWidth 16) ((points e.2).y.setWidth 16)).map Prod.fst

/-- The loop over the indices. It goes on while three of them are left. -/
def renderLoop (rounds : Nat) (points : BitVec 16 → Vec3i) :
    ScrDescRgb16 → List (BitVec 16) → Option ScrDescRgb16
  | pp, idx0 :: idx1 :: idx2 :: idxHead => do
    let pp ← drawEdge rounds points pp (idx0, idx1)
    let pp ← drawEdge rounds points pp (idx1, idx2)
    let pp ← drawEdge rounds points pp (idx2, idx0)
    renderLoop rounds points pp idxHead
  | pp, _ => some pp

def appRenderOnScreen (rounds : Nat) (points : BitVec 16 → Vec3i) (indices : List (BitVec 16))
    (bufferram : Nat → BitVec 16) : Option (Nat → BitVec 16) :=
  (renderLoop rounds points ⟨fun _ => 0, 400, 240⟩ indices).map fun pp => fun a =>
    if a < 400 * 240 then pp.lpbuffer a else bufferram a

/-! ## The edges -/

def edges : List (BitVec 16) → List (BitVec 16 × BitVec 16)
  | idx0 :: idx1 :: idx2 :: idxHead => (idx0, idx1) :: (idx1, idx2) :: (idx2, idx0) :: edges idxHead
  | _ => []

theorem renderLoop_eq (rounds : Nat) (points : BitVec 16 → Vec3i) (pp : ScrDescRgb16) (indices : List (BitVec 16)) :
    renderLoop rounds points pp indices = (edges indices).foldlM (drawEdge rounds points) pp := by
  induction indices using edges.induct generalizing pp with
  | case1 idx0 idx1 idx2 idxHead ih => simp [renderLoop, edges, ih]
  | case2 indices h =>
    rw [renderLoop, edges]
    · rfl
    · exact h
    · exact h

theorem mem_edges {indices : List (BitVec 16)} {e : BitVec 16 × BitVec 16} (h : e ∈ edges indices) :
    e.1 ∈ indices ∧ e.2 ∈ indices := by
  induction indices using edges.induct with
  | case1 idx0 idx1 idx2 idxHead ih =>
    rw [edges, List.mem_cons, List.mem_cons, List.mem_cons] at h
    rcases h with rfl | rfl | rfl | h
    · simp
    · simp
    · simp
    · simp [ih h]
  | case2 indices hno =>
    rw [edges] at h
    · cases h
    · exact hno

def Vec3i.at (v : Vec3i) : Int × Int := ((v.x.setWidth 16).toInt, (v.y.setWidth 16).toInt)

def SpanFits (a b : Int × Int) : Prop := |b.1 - a.1| ≤ 32767 ∧ |b.2 - a.2| ≤ 32768

section Edges

variable (points : BitVec 16 → Vec3i)

def FitsScreen (indices : List (BitVec 16)) : Prop :=
  ∀ e ∈ edges indices, SpanFits (points e.1).at (points e.2).at

/-- The loop of the edge goes along its line, and leaves at the end. -/
def DrawnAlong (e : BitVec 16 × BitVec 16) : Prop :=
  ∃ rounds pp pp' ss, rgb16Drawline rounds pp ((points e.1).x.setWidth 16) ((points e.1).y.setWidth 16)
      ((points e.2).x.setWidth 16) ((points e.2).y.setWidth 16) = some (pp', ss) ∧
    AlongLine (points e.1).at (points e.2).at (ss.map LineState.point)

def edgeLine (e : BitVec 16 × BitVec 16) : List LineState :=
  let l := lineSetup ((points e.1).x.setWidth 16) ((points e.1).y.setWidth 16)
    ((points e.2).x.setWidth 16) ((points e.2).y.setWidth 16)
  Lib.orbit l.next (max (span ((points e.1).x.setWidth 16) ((points e.2).x.setWidth 16))
    (span ((points e.1).y.setWidth 16) ((points e.2).y.setWidth 16)))
    (l.start ((points e.1).x.setWidth 16) ((points e.1).y.setWidth 16))

variable {points} {e : BitVec 16 × BitVec 16}

theorem spanFits_iff : SpanFits (points e.1).at (points e.2).at ↔
    span ((points e.1).x.setWidth 16) ((points e.2).x.setWidth 16) ≤ 32767 ∧
      span ((points e.1).y.setWidth 16) ((points e.2).y.setWidth 16) ≤ 32768 := by
  unfold SpanFits Vec3i.at
  rw [abs_eq_span, abs_eq_span]
  omega

theorem rounds_enough {rounds : Nat} (hr : 2 ^ 16 ≤ rounds) (x0 x1 y0 y1 : BitVec 16) :
    max (span x0 x1) (span y0 y1) < rounds := by
  have hx := span_lt x0 x1
  have hy := span_lt y0 y1
  omega

theorem alongLine_edge (h : SpanFits (points e.1).at (points e.2).at) :
    AlongLine (points e.1).at (points e.2).at ((edgeLine points e).map LineState.point) := by
  obtain ⟨hx, hy⟩ := spanFits_iff.mp h
  exact alongLine_orbit hx hy

theorem drawnAlong_iff : DrawnAlong points e ↔ SpanFits (points e.1).at (points e.2).at := by
  rw [spanFits_iff]
  constructor
  · rintro ⟨rounds, pp, pp', ss, hdraw, halong⟩
    have hlength := halong.length
    rw [List.length_map] at hlength
    exact fits_of_atEnd (exits_iff.mp ⟨rounds, pp', ss, hdraw, hlength, halong.last⟩).2
  · rintro ⟨hx, hy⟩
    exact ⟨_, ⟨fun _ => 0, 400, 240⟩, _, _, drawline_eq _ hx hy (Nat.lt_succ_self _), alongLine_orbit hx hy⟩

theorem drawEdge_eq {rounds : Nat} (hr : 2 ^ 16 ≤ rounds) (h : SpanFits (points e.1).at (points e.2).at)
    (pp : ScrDescRgb16) : drawEdge rounds points pp e = some ((edgeLine points e).foldl ScrDescRgb16.draw pp) := by
  obtain ⟨hx, hy⟩ := spanFits_iff.mp h
  unfold drawEdge
  rw [drawline_eq pp hx hy (rounds_enough hr ..)]
  rfl

theorem drawEdges_eq {rounds : Nat} (hr : 2 ^ 16 ≤ rounds) {es : List (BitVec 16 × BitVec 16)}
    (h : ∀ e ∈ es, SpanFits (points e.1).at (points e.2).at) (pp : ScrDescRgb16) :
    es.foldlM (drawEdge rounds points) pp = some ((es.flatMap (edgeLine points)).foldl ScrDescRgb16.draw pp) := by
  induction es generalizing pp with
  | nil => rfl
  | cons e es ih =>
    rw [List.forall_mem_cons] at h
    rw [List.foldlM_cons, drawEdge_eq hr h.1, List.flatMap_cons, List.foldl_append]
    exact ih h.2 _

end Edges

/-! ## The picture -/

/-- The display shows the edges of the triangles, each along its line, and nothing else. -/
structure ShowsEdges (points : BitVec 16 → Vec3i) (indices : List (BitVec 16)) (before vram : Nat → BitVec 16) :
    Prop where
  picture : ∃ drawn, List.Forall₂ (fun e ps => AlongLine (points e.1).at (points e.2).at ps) (edges indices) drawn ∧
    ∀ x < 400, ∀ y < 240, vram (y * 400 + x) = if ((x : Int), (y : Int)) ∈ drawn.flatten then 0xffff else 0
  around : ∀ a ≥ 400 * 240, vram a = before a

/-- The call comes to its end with `vram` in the memory of the display: no line takes more rounds. -/
def RenderEnds (points : BitVec 16 → Vec3i) (indices : List (BitVec 16)) (bufferram vram : Nat → BitVec 16) : Prop :=
  ∀ rounds ≥ 2 ^ 16, appRenderOnScreen rounds points indices bufferram = some vram

section Picture

variable {points points' : BitVec 16 → Vec3i} {indices : List (BitVec 16)}

theorem FitsScreen.congr (h : FitsScreen points indices) (hp : ∀ i ∈ indices, (points i).at = (points' i).at) :
    FitsScreen points' indices := by
  rintro e he
  obtain ⟨h1, h2⟩ := mem_edges he
  rw [← hp _ h1, ← hp _ h2]
  exact h e he

theorem ShowsEdges.congr {before vram : Nat → BitVec 16} (h : ShowsEdges points indices before vram)
    (hp : ∀ i ∈ indices, (points i).at = (points' i).at) : ShowsEdges points' indices before vram := by
  obtain ⟨⟨drawn, hdrawn, hpicture⟩, haround⟩ := h
  refine ⟨⟨drawn, ?_, hpicture⟩, haround⟩
  refine ((List.forall₂_and_left ..).mpr ⟨fun _ he => mem_edges he, hdrawn⟩).imp ?_
  rintro e ps ⟨⟨h1, h2⟩, halong⟩
  rwa [← hp _ h1, ← hp _ h2]

theorem FitsScreen.shown (h : FitsScreen points indices) (bufferram : Nat → BitVec 16) :
    ∃ vram, RenderEnds points indices bufferram vram ∧ ShowsEdges points indices bufferram vram := by
  have hpaint := ScrDescRgb16.painted_foldl ⟨fun _ => 0, 400, 240⟩ ((edges indices).flatMap (edgeLine points))
  rw [List.map_flatMap, List.flatMap_def] at hpaint
  generalize hpp : ((edges indices).flatMap (edgeLine points)).foldl ScrDescRgb16.draw ⟨fun _ => 0, 400, 240⟩ = pp
    at hpaint
  refine ⟨fun a => if a < 400 * 240 then pp.lpbuffer a else bufferram a, ?_,
    ⟨(edges indices).map fun e => (edgeLine points e).map LineState.point, ?_, ?_⟩, ?_⟩
  · rintro rounds hr
    unfold appRenderOnScreen
    rw [renderLoop_eq, drawEdges_eq hr h, hpp]
    rfl
  · exact List.forall₂_map_right_iff.mpr (List.forall₂_same.mpr fun e he => alongLine_edge (h e he))
  · rintro x hx y hy
    have hin := hpaint.inside x hx y hy
    rw [if_pos (by omega)]
    exact hin
  · rintro a ha
    exact if_neg (by omega)

end Picture

/-- An edge is drawn along its line exactly when it is not too long for `dx` and `dy`. When no edge is too
long the call comes to its end, and then the display shows the edges. -/
theorem renders_edges (points : BitVec 16 → Vec3i) (indices : List (BitVec 16)) (bufferram : Nat → BitVec 16) :
    ((∀ e ∈ edges indices, DrawnAlong points e) ↔ FitsScreen points indices) ∧
      (FitsScreen points indices →
        ∃ vram, RenderEnds points indices bufferram vram ∧ ShowsEdges points indices bufferram vram) :=
  ⟨forall₂_congr fun _ _ => drawnAlong_iff, fun h => h.shown bufferram⟩

def corners (idx : BitVec 16) : Vec3i := ⟨if idx = 1 then 430 else 0, if idx = 2 then 20 else 0, 0⟩

theorem corners_fit : FitsScreen corners [0, 1, 2] := by
  unfold FitsScreen SpanFits
  simp [edges, corners, Vec3i.at]

theorem renders_edges_corners : ∃ vram, RenderEnds corners [0, 1, 2] (fun _ => 0) vram ∧
    ShowsEdges corners [0, 1, 2] (fun _ => 0) vram :=
  (renders_edges corners [0, 1, 2] fun _ => 0).2 corners_fit

end Gppcu
