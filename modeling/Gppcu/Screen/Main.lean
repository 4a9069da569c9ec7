import Gppcu.Mesh.Area
import Gppcu.Screen.Display
import Gppcu.Screen.Wireframe

/-!
# The program

`main`: the box, refined as often as its arrays have room for, is uploaded once.
Then every frame is on the display.
-/

namespace Gppcu

/-! ## The mesh of `main` -/

abbrev WordVec := Word × Word × Word

namespace Mesh

def words (mesh : Mesh WordVec) : SwkMesh where
  vertices := (List.range mesh.numVertices.toNat).flatMap fun i =>
    [(mesh.vertices i).1, (mesh.vertices i).2.1, (mesh.vertices i).2.2]
  numVertices := mesh.numVertices

def indexList {V : Type} (mesh : Mesh V) : List (BitVec 16) := (List.range mesh.numIndices.toNat).map mesh.indices

end Mesh

namespace BoxRun

/-- `mesh_init( &mesh, 2048, 8096 )`. -/
def AsInMain {V : Type} (r : BoxRun V) : Prop := r.capVtx = 2048 ∧ r.capIdx = 8096

theorem AsInMain.vertices_lt {V : Type} {r : BoxRun V} (hr : r.AsInMain) {k : Nat} (hk : r.Fits k) :
    Mesh.vtxCount k < 512 / TASK_SPACE * 24 := by
  have hroom : Mesh.vtxCount k ≤ 2048 := by
    have hle := hk.1
    rwa [hr.1] at hle
  have hrounds : k ≤ 3 := by
    by_contra hmore
    have hfour := Mesh.vtxCount_mono (show 4 ≤ k by omega)
    rw [Mesh.vtxCount_eq 4] at hfour
    omega
  have hthree := Mesh.vtxCount_mono hrounds
  rw [Mesh.vtxCount_eq 3] at hthree
  exact Nat.lt_of_le_of_lt hthree (by decide)

theorem Fits.mem_indexList {V : Type} {r : BoxRun V} {k : Nat} (hk : r.Fits k) :
    ∀ i ∈ (r.mesh k).indexList, i.toNat < (r.mesh k).numVertices.toNat := by
  obtain ⟨hcounts, hbelow⟩ := hk.mesh (Nat.le_refl k)
  unfold Mesh.indexList
  rw [hcounts.idx, hcounts.vtx]
  simp only [List.mem_map, List.mem_range]
  rintro _ ⟨a, ha, rfl⟩
  exact Mesh.below_iff.mp hbelow a ha

end BoxRun

/-! ## The loop on the display -/

namespace Frame

variable (F : Fpu) (half : Word → Word) (mesh : SwkMesh) (indices : List (BitVec 16))

/-- The frame is drawn as in `Renders`, and each time the display is scanned from then on it displays the
edges. -/
def Displays (b : Board 11 6 24) (f : Frame) : Prop :=
  ∀ output vram, FitsScreen (vertexPoint F half mesh f.constants) indices →
    ∃ vram', RenderEnds (outputPoint (downloaded (f.points F b) output)) indices vram vram' ∧
      ∀ (s : LcdCon.Regs LcdCon.panel) (m t t' : Nat), 0 < m → LcdCon.Frame s m t t' →
        LcdCon.Displays (vertexPoint F half mesh f.constants) indices vram' s m t t'

variable {F half mesh indices}

theorem Renders.displays {b : Board 11 6 24} {f : Frame} (h : Renders F half mesh indices b f) :
    Displays F half mesh indices b f := by
  rintro output vram hfits
  obtain ⟨vram', hends, hshows⟩ := h output vram hfits
  refine ⟨vram', hends, ?_⟩
  rintro s m t t' hm hscan
  obtain ⟨k, hlines⟩ := hscan.enabled_eq LcdCon.panel_valid hm
  obtain ⟨drawn, hdrawn, hpicture⟩ := hshows.picture
  exact ⟨drawn, hdrawn, _, hlines, fun y hy x hx => LcdCon.lcdRgb_pixel hpicture s hm k hy hx⟩

end Frame

section Main

/-- `main`, with the box refined `k` times: the frames of any number of rounds of the loop are displayed,
each with the vertices where the device puts them under its own constants. -/
theorem main_displays (F : Fpu) (half : Word → Word) {r : BoxRun WordVec} (hr : r.AsInMain) {k : Nat}
    (hk : r.Fits k) {pp₀ pp : SwkGppcu} {calls : List Call}
    (hup : appUploadVertices (gppcuInit pp₀ 24 512) (r.mesh k).words = (pp, calls))
    {b : Board 11 6 24} (hb : b.Settled) (hbehind : b.device.queue.word Shader.words.length = 0) {boot : List Event}
    (hboot : boot.filterMap Event.access? = (calls ++ appUploadProgram pp).flatMap Call.accesses)
    (frames : List Frame) (hframes : Lib.Along (Frame.step F) (Frame.Follows F half pp 0xffff)
      (Lib.run (Board.step fun _ => F) b boot) frames) :
    Lib.Along (Frame.step F) (Frame.Displays F half (r.mesh k).words (r.mesh k).indexList)
      (Lib.run (Board.step fun _ => F) b boot) frames := by
  have hverts : (r.mesh k).words.numVertices.toNat = Mesh.vtxCount k := (hk.mesh (Nat.le_refl k)).1.vtx
  have hlt := hr.vertices_lt hk
  have hN : (r.mesh k).words.numVertices.toNat < 512 / TASK_SPACE * 24 := by rwa [hverts]
  have hcap : (r.mesh k).words.numVertices.toNat * 3 < (0xffff : Word).toNat := by
    have hbound : 512 / TASK_SPACE * 24 * 3 < (0xffff : Word).toNat := by decide
    omega
  obtain ⟨hshows, -⟩ := loop_shows F rfl hN hup hb hbehind hboot hframes
  exact hshows.mono fun b f _ h => (h.renders hk.mem_indexList hcap).displays

def midWord (x y : Word) : Word := if x = y then x else 0

def mainBox : BoxRun WordVec where
  lerp v w := (midWord v.1 w.1, midWord v.2.1 w.2.1, midWord v.2.2 w.2.2)
  corner a b c :=
    let size (sign : Int) : Word := if sign = 1 then 0x42820000 else 0xc2820000
    (size a, size b, size c)
  vertices := fun _ => (0, 0, 0)
  indices := fun _ => 0
  capVtx := 2048
  capIdx := 8096

def mainTask : SwkGppcu × List Call :=
  appUploadVertices (gppcuInit ⟨0, 0, 0, 0, 0, 0⟩ 24 512) (mainBox.mesh 3).words

def mainBoot : List Event := ((mainTask.2 ++ appUploadProgram mainTask.1).flatMap Call.accesses).map .access

theorem main_displays_box : ∃ frames, frames.map Frame.constants = [screen, narrow] ∧
    Lib.Along (Frame.step anyFpu)
      (Frame.Displays anyFpu (· >>> 1) (mainBox.mesh 3).words (mainBox.mesh 3).indexList)
      (Lib.run (Board.step fun _ => anyFpu) emptyBoard mainBoot) frames := by
  have hr : mainBox.AsInMain := ⟨rfl, rfl⟩
  have hk : mainBox.Fits 3 := ⟨by decide, by decide⟩
  have hup : appUploadVertices (gppcuInit ⟨0, 0, 0, 0, 0, 0⟩ 24 512) (mainBox.mesh 3).words =
      (mainTask.1, mainTask.2) := rfl
  have hboot : mainBoot.filterMap Event.access? = (mainTask.2 ++ appUploadProgram mainTask.1).flatMap Call.accesses :=
    Event.filterMap_access _
  have hverts : (mainBox.mesh 3).words.numVertices.toNat = Mesh.vtxCount 3 := (hk.mesh (Nat.le_refl 3)).1.vtx
  have hN : (mainBox.mesh 3).words.numVertices.toNat < 512 / TASK_SPACE * 24 := by
    rw [hverts]
    exact hr.vertices_lt hk
  have hh := (appUploadVertices_holds rfl hN hup).1
  have hstart := boot_arms anyFpu rfl hN hup emptyBoard_settled rfl hboot
  obtain ⟨frames, hconstants, hfollows⟩ := Frame.exists_follows anyFpu (· >>> 1) hh hN 0xffff [screen, narrow] hstart
  have h := main_displays anyFpu (· >>> 1) hr hk hup emptyBoard_settled rfl hboot frames hfollows
  exact ⟨frames, hconstants, h⟩

end Main

end Gppcu
