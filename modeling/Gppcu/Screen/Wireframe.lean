import Gppcu.App.Frames
import Gppcu.Screen.Render

/-!
# From the vertices to the screen

The second half of the loop of `main`: the points of a frame are what
`app_render_on_screen` draws.
-/

namespace Gppcu

/-! ## The points of a frame -/

def downloaded (reads : List Word) (before : Nat → Word) (a : Nat) : Word := reads[a]?.getD (before a)

def outputPoint (output : Nat → Word) (idx : BitVec 16) : Vec3i :=
  ⟨output (idx.toNat * 3), output (idx.toNat * 3 + 1), output (idx.toNat * 3 + 2)⟩

namespace Frame

variable (F : Fpu) (half : Word → Word) (mesh : SwkMesh) (indices : List (BitVec 16))

/-- Vertex `idx` of the mesh on the screen, as the device moves it there. -/
def vertexPoint (c : SwkObjectConstant) (idx : BitVec 16) : Vec3i :=
  ⟨(screenPoint F half mesh c idx.toNat).1, (screenPoint F half mesh c idx.toNat).2, 0#32⟩

/-- Whatever was in `output` and on the display: the frame is drawn when no edge of the mesh is too long,
and then the display shows the edges of the mesh under the constants of this frame. -/
def Renders (b : Board 11 6 24) (f : Frame) : Prop :=
  ∀ output vram, FitsScreen (vertexPoint F half mesh f.constants) indices →
    ∃ vram', RenderEnds (outputPoint (downloaded (f.points F b) output)) indices vram vram' ∧
      ShowsEdges (vertexPoint F half mesh f.constants) indices vram vram'

variable {F half mesh indices}

theorem Shows.renders {capacity : Word} {b : Board 11 6 24} {f : Frame} (h : Shows F half mesh capacity b f)
    (hidx : ∀ i ∈ indices, i.toNat < mesh.numVertices.toNat)
    (hcap : mesh.numVertices.toNat * 3 < capacity.toNat) : Renders F half mesh indices b f := by
  rintro output vram hfits
  have hpoint : ∀ i ∈ indices, (outputPoint (downloaded (f.points F b) output) i).at =
      (vertexPoint F half mesh f.constants i).at := by
    rintro i hi
    have hlt := hidx i hi
    obtain ⟨hx, hy⟩ := h i.toNat hlt (by omega)
    simp [outputPoint, vertexPoint, screenPoint, downloaded, Vec3i.at, hx, hy]
  obtain ⟨vram', hends, hshows⟩ := (hfits.congr fun i hi => (hpoint i hi).symm).shown vram
  exact ⟨vram', hends, hshows.congr hpoint⟩

end Frame

/-! ## The whole loop -/

section Loop

variable {pp₀ pp : SwkGppcu} {mesh : SwkMesh} {calls : List Call}

/-- Every frame of `main` draws the edges of the mesh, with the vertices where the device has moved them
under the constants of that frame. -/
theorem frames_rendered (F : Fpu) (half : Word → Word) (hthr : pp₀.mnumthr = 24)
    (hN : mesh.numVertices.toNat < 512 / TASK_SPACE * 24) (hup : appUploadVertices pp₀ mesh = (pp, calls))
    {indices : List (BitVec 16)} (hidx : ∀ i ∈ indices, i.toNat < mesh.numVertices.toNat)
    {b : Board 11 6 24} (hb : b.Settled) (hbehind : b.device.queue.word Shader.words.length = 0) {boot : List Event}
    (hboot : boot.filterMap Event.access? = (calls ++ appUploadProgram pp).flatMap Call.accesses)
    {capacity : Word} (hcap : mesh.numVertices.toNat * 3 < capacity.toNat) (frames : List Frame)
    (hframes : Lib.Along (Frame.step F) (Frame.Follows F half pp capacity)
      (Lib.run (Board.step fun _ => F) b boot) frames) :
    Lib.Along (Frame.step F) (Frame.Renders F half mesh indices) (Lib.run (Board.step fun _ => F) b boot)
      frames := by
  obtain ⟨hshows, -⟩ := loop_shows F hthr hN hup hb hbehind hboot hframes
  exact hshows.mono fun b f _ h => h.renders hidx hcap

theorem frames_rendered_two : ∃ frames, frames.map Frame.constants = [screen, narrow] ∧
    Lib.Along (Frame.step anyFpu) (Frame.Renders anyFpu (· >>> 1) hundredVertices [60, 5, 99, 99, 24, 60])
      (Lib.run (Board.step fun _ => anyFpu) emptyBoard bootEvents) frames := by
  obtain ⟨frames, hconstants, hfollows⟩ := hundred_follows
  have hidx : ∀ i ∈ ([60, 5, 99, 99, 24, 60] : List (BitVec 16)),
      i.toNat < hundredVertices.numVertices.toNat := by simp [hundredVertices]
  have hcap : hundredVertices.numVertices.toNat * 3 < (0xffff : Word).toNat := by decide
  have h := frames_rendered anyFpu (· >>> 1) rfl hundredVertices_lt hundredTasks_upload hidx emptyBoard_settled rfl
    bootEvents_accesses hcap frames hfollows
  exact ⟨frames, hconstants, h⟩

end Loop

end Gppcu
