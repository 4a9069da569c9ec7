import Gppcu.App.Shader
import Gppcu.Queue.Schedule

/-!
# The shader in a thread

One pass of the expanded program shades the three tasks at the offset of the
pass, and the passes of a run shade one task after another.
-/

namespace Gppcu.Shader

open HostInstr Instr

/-! ## Tasks of a thread -/

def slotWord (s j : Nat) : BitVec 9 := BitVec.ofNat 9 (s * TASK_SPACE + j)

def SLOTS : Nat := 42

theorem slotWord_inj {s s' j j' : Nat} (hs : s < SLOTS) (hs' : s' < SLOTS) (hj : j < TASK_SPACE)
    (hj' : j' < TASK_SPACE) (h : slotWord s j = slotWord s' j') : s = s' ∧ j = j' := by
  have hlt : ∀ {s j}, s < SLOTS → j < TASK_SPACE → s * TASK_SPACE + j < 2 ^ 9 := by
    intro s j hs hj
    change s * 12 + j < 2 ^ 9
    change s < 42 at hs
    change j < 12 at hj
    omega
  have hn := congrArg BitVec.toNat h
  unfold slotWord at hn
  rw [BitVec.toNat_ofNat, BitVec.toNat_ofNat, Nat.mod_eq_of_lt (hlt hs hj),
    Nat.mod_eq_of_lt (hlt hs' hj')] at hn
  unfold TASK_SPACE at *
  omega

def passOfst (c : Nat) : Word := BitVec.ofNat 32 (c * (TASK_SPACE * PARALLEL_CNT))

theorem passOfst_succ (c : Nat) : passOfst c + 36 = passOfst (c + 1) := by
  apply BitVec.eq_of_toNat_eq
  have h36 : (36 : Word).toNat = 36 := rfl
  simp only [passOfst, TASK_SPACE, PARALLEL_CNT, BitVec.toNat_add, BitVec.toNat_ofNat, h36]
  omega

theorem taskAddr_slot (c l j : Nat) :
    taskAddr (passOfst c) 12 l j = slotWord (c * PARALLEL_CNT + l) j := by
  apply BitVec.eq_of_toNat_eq
  have h12 : (12 : Word).toNat = 12 := rfl
  simp only [taskAddr, passOfst, slotWord, TASK_SPACE, PARALLEL_CNT, BitVec.toNat_setWidth,
    BitVec.toNat_add, BitVec.toNat_ofNat, h12]
  omega

theorem taskWord_slot (c l : Nat) {j : Nat} (hj : j < TASK_SPACE) :
    taskWord (passOfst c + BitVec.ofNat 32 (l * 12)) j = slotWord (c * PARALLEL_CNT + l) j := by
  rw [taskWord_eq _ hj, ← taskAddr_slot, taskAddr, BitVec.add_assoc, BitVec.ofNat_add]
  rfl

theorem inTask_slot {c l : Nat} {a : BitVec 9} (h : InTask (passOfst c) 12 l a) :
    ∃ j < TASK_SPACE, a = slotWord (c * PARALLEL_CNT + l) j := by
  obtain ⟨j, hj, rfl⟩ := h
  exact ⟨j, hj, taskAddr_slot c l j⟩

theorem slot_inTask (c l : Nat) {j : Nat} (hj : j < TASK_SPACE) :
    InTask (passOfst c) 12 l (slotWord (c * PARALLEL_CNT + l) j) :=
  ⟨j, hj, (taskAddr_slot c l j).symm⟩

theorem slot_lt {c l : Nat} (hc : c < 14) (hl : l < PARALLEL_CNT) : c * PARALLEL_CNT + l < SLOTS := by
  unfold PARALLEL_CNT SLOTS at *
  omega

theorem slots_apart {c : Nat} (hc : c < 14) : Apart (InTask (passOfst c) 12) := by
  intro l hl l' hl' hne a ha ha'
  obtain ⟨j, hj, rfl⟩ := inTask_slot ha
  obtain ⟨j', hj', he⟩ := inTask_slot ha'
  have hs := (slotWord_inj (slot_lt hc hl) (slot_lt hc hl') hj hj' he).1
  omega

/-! ## The constants -/

section Constants

variable {GBW : Nat} (F : Fpu) (cmem : BitVec GBW → Word) (v : Nat → Word)

def consts (a : BitVec 17) : Word := cmem (a.setWidth GBW)

theorem constMem_consts (o : Word) {i : Nat} (hpos : 0 < i) (hi : i < 2 ^ 17) :
    constMem cmem o (BitVec.ofNat 17 i) = consts cmem (BitVec.ofNat 17 i) := by
  unfold constMem consts
  rw [if_neg]
  intro h
  have hn := congrArg BitVec.toNat h
  rw [BitVec.toNat_ofNat, Nat.mod_eq_of_lt hi] at hn
  change i = 0 at hn
  omega

theorem point_congr (g : BitVec 17 → Word) {v v' : Nat → Word} (h : ∀ j < 3, v j = v' j) (k : Nat) :
    point F g v k = point F g v' k := by
  have hcoord : coord g v = coord g v' := by
    funext r
    unfold coord
    split_ifs with hr
    · exact h r hr
    · rfl
  have hdot : ∀ n, partialDot F g v k n = partialDot F g v' k n := by
    intro n
    induction n with
    | zero => rfl
    | succ n ih => rw [partialDot, partialDot, ih, hcoord]
  unfold point column
  rw [hdot]

theorem point_constMem (o : Word) {k : Nat} (hk : k < 2) :
    point F (constMem cmem o) v k = point F (consts cmem) v k := by
  have hcoord : ∀ r, coord (constMem cmem o) v r = coord (consts cmem) v r := by
    intro r
    unfold coord
    split_ifs
    · rfl
    · exact constMem_consts cmem o Nat.one_pos (by decide)
  have hdot : ∀ n ≤ 4, partialDot F (constMem cmem o) v k n = partialDot F (consts cmem) v k n := by
    intro n hn
    induction n with
    | zero => rfl
    | succ n ih =>
      rw [partialDot, partialDot, ih (by omega), hcoord, constMem_consts cmem o (by omega) (by omega)]
  unfold point column
  rw [hdot 4 (Nat.le_refl 4), constMem_consts cmem o (by omega) (by omega)]

end Constants

/-! ## One pass -/

def words : List Word := gppcuProgramAutofeedDeviceParallel 12 (program.map word)

theorem program_plain : ∀ k ∈ program, k.WellFormed ∧ k.s = false := by decide

theorem program_words : ∀ w ∈ program.map word, HostWord w ∧ sBit w = false := by
  intro w hw
  obtain ⟨k, hk, rfl⟩ := List.mem_map.mp hw
  obtain ⟨hform, hs⟩ := program_plain k hk
  exact ⟨hostWord hform, by rw [word_sBit, hs]⟩

section Pass

variable {GBW : Nat} (F : Fpu) (cmem : BitVec GBW → Word) (m : Machine Reg)

def vertex (m : Machine Reg) (s j : Nat) : Word := m.lmem (slotWord s (1 + j))

theorem lane_pivot (c : Nat) {l : Nat} (hl : l < PARALLEL_CNT) :
    (laneStart F (constMem cmem (passOfst c)) 12 m l).regs pivot =
      passOfst c + BitVec.ofNat 32 (l * 12) := by
  have h := laneStart_pivot F (constMem cmem (passOfst c)) 12 (by decide) m hl
  rw [constMem, if_pos rfl] at h
  exact h

theorem lane_input (c : Nat) {l : Nat} (hl : l < PARALLEL_CNT) :
    Input (passOfst c + BitVec.ofNat 32 (l * 12)) (vertex m (c * PARALLEL_CNT + l))
      (laneStart F (constMem cmem (passOfst c)) 12 m l) := by
  refine ⟨lane_pivot F cmem m c hl, fun j hj => ?_⟩
  rw [laneStart_lmem, taskWord_slot c l (show 1 + j < 12 by omega), vertex]

theorem lane_does (c : Nat) {l : Nat} (hl : l < PARALLEL_CNT) :
    Lib.Along (Machine.exec F hostReg (constMem cmem (passOfst c)))
        (Accesses hostReg (constMem cmem (passOfst c)) (InTask (passOfst c) 12 l))
        (laneStart F (constMem cmem (passOfst c)) 12 m l) (program.map word) ∧
      Points F (constMem cmem (passOfst c)) (passOfst c + BitVec.ofNat 32 (l * 12))
        (vertex m (c * PARALLEL_CNT + l)) 2
        (Machine.run F hostReg (constMem cmem (passOfst c)) (program.map word)
          (laneStart F (constMem cmem (passOfst c)) 12 m l)) := by
  have hR : ∀ i < TASK_SPACE,
      InTask (passOfst c) 12 l (taskWord (passOfst c + BitVec.ofNat 32 (l * 12)) i) := by
    intro i hi
    rw [taskWord_slot c l hi]
    exact slot_inTask c l hi
  obtain ⟨hok, hpoints⟩ := program_does _ hR _ (lane_input F cmem m c hl)
  rw [← Lib.along_map] at hok
  rw [← Lib.run_map word] at hpoints
  exact ⟨hok, hpoints⟩

theorem pass_lmem {c : Nat} (hc : c < 14) :
    (∀ l < PARALLEL_CNT, ∀ j < TASK_SPACE,
      (Machine.run F id (constMem cmem (passOfst c)) words m).lmem (slotWord (c * PARALLEL_CNT + l) j) =
        (Machine.run F hostReg (constMem cmem (passOfst c)) (program.map word)
          (laneStart F (constMem cmem (passOfst c)) 12 m l)).lmem (slotWord (c * PARALLEL_CNT + l) j)) ∧
      ∀ a, (∀ l < PARALLEL_CNT, ¬InTask (passOfst c) 12 l a) →
        (Machine.run F id (constMem cmem (passOfst c)) words m).lmem a = m.lmem a := by
  have h := lanes_program F (constMem cmem (passOfst c)) 12 program_words m (slots_apart hc)
    fun l hl => (lane_does F cmem m c hl).1
  refine ⟨fun l hl j hj => ?_, h.around⟩
  exact (h.alike l hl).lmem _ (slot_inTask c l hj)

theorem pass_own {c s : Nat} (hc : c < 14) (hsc : s / PARALLEL_CNT = c) :
    (∀ k < 2, (Machine.run F id (constMem cmem (passOfst c)) words m).lmem (slotWord s (4 + k)) =
        point F (consts cmem) (vertex m s) k) ∧
      ∀ j < 3, vertex (Machine.run F id (constMem cmem (passOfst c)) words m) s j = vertex m s j := by
  obtain ⟨hlane, -⟩ := pass_lmem F cmem m hc
  have hl : s % PARALLEL_CNT < PARALLEL_CNT := Nat.mod_lt _ (by decide)
  have hs : s = c * PARALLEL_CNT + s % PARALLEL_CNT := by
    rw [← hsc, Nat.div_add_mod']
  generalize s % PARALLEL_CNT = l at hl hs
  subst hs
  obtain ⟨-, hpoints⟩ := lane_does F cmem m c hl
  refine ⟨fun k hk => ?_, fun j hj => ?_⟩
  · have hj : 4 + k < TASK_SPACE := show 4 + k < 12 by omega
    rw [hlane l hl _ hj, ← taskWord_slot c l hj, hpoints.output k hk, point_constMem F cmem _ _ hk]
  · have hj' : 1 + j < TASK_SPACE := show 1 + j < 12 by omega
    rw [vertex, hlane l hl _ hj', ← taskWord_slot c l hj', hpoints.input j hj]

theorem pass_other {c s : Nat} (hc : c < 14) (hs : s < SLOTS) (hne : s / PARALLEL_CNT ≠ c) {j : Nat}
    (hj : j < TASK_SPACE) : (Machine.run F id (constMem cmem (passOfst c)) words m).lmem (slotWord s j) =
      m.lmem (slotWord s j) := by
  apply (pass_lmem F cmem m hc).2
  intro l hl hin
  obtain ⟨j', hj', he⟩ := inTask_slot hin
  have hslot := (slotWord_inj hs (slot_lt hc hl) hj hj' he).1
  unfold PARALLEL_CNT at *
  omega

/-! ## All passes -/

/-- The tasks of the passes that are run are shaded, and no task loses its vertex. -/
theorem passes_shade (n : Nat) {c s : Nat} (hn : c + n ≤ 14) (hs : s < SLOTS) (m : Machine Reg) :
    (c ≤ s / PARALLEL_CNT → s / PARALLEL_CNT < c + n → ∀ k < 2,
      (cyclesFrom F cmem 36 words (passOfst c) n m).lmem (slotWord s (4 + k)) =
        point F (consts cmem) (vertex m s) k) ∧
      (s / PARALLEL_CNT < c → ∀ j < TASK_SPACE,
        (cyclesFrom F cmem 36 words (passOfst c) n m).lmem (slotWord s j) = m.lmem (slotWord s j)) ∧
      ∀ j < 3, vertex (cyclesFrom F cmem 36 words (passOfst c) n m) s j = vertex m s j := by
  induction n generalizing c m with
  | zero => exact ⟨fun hle hlt => absurd hlt (by omega), fun _ _ _ => rfl, fun _ _ => rfl⟩
  | succ n ih =>
    have hc : c < 14 := by omega
    obtain ⟨hrest, hdone, hkeep⟩ :=
      ih (by omega : c + 1 + n ≤ 14) (Machine.run F id (constMem cmem (passOfst c)) words m)
    have hstep : cyclesFrom F cmem 36 words (passOfst c) (n + 1) m =
        cyclesFrom F cmem 36 words (passOfst (c + 1)) n
          (Machine.run F id (constMem cmem (passOfst c)) words m) := by
      rw [cyclesFrom, passOfst_succ]
    have hvertex : ∀ j < 3, vertex (Machine.run F id (constMem cmem (passOfst c)) words m) s j = vertex m s j := by
      intro j hj
      by_cases hsc : s / PARALLEL_CNT = c
      · exact (pass_own F cmem m hc hsc).2 j hj
      · exact pass_other F cmem m hc hs hsc (show 1 + j < 12 by omega)
    rw [hstep]
    refine ⟨fun hle hlt k hk => ?_, fun hlt j hj => ?_, fun j hj => ?_⟩
    · by_cases hsc : s / PARALLEL_CNT = c
      · rw [hdone (by omega) _ (show 4 + k < 12 by omega), (pass_own F cmem m hc hsc).1 k hk]
      · rw [hrest (by omega) (by omega) k hk]
        exact point_congr F _ (fun j hj => hvertex j hj) k
    · rw [hdone (by omega) j hj, pass_other F cmem m hc hs (by omega) hj]
    · rw [hkeep j hj, hvertex j hj]

end Pass

end Gppcu.Shader
