import Gppcu.Driver.Autofeed
import Gppcu.Lanes.Alike
import Gppcu.Lib.Run

/-!
# The lanes of an expanded program

Three copies of a host program run interleaved in one thread. Each of them does
what the program does on a machine with ten registers, as long as it keeps to
the memory of its own task.
-/

namespace Gppcu

open Instr

/-! ## The registers of a lane -/

def laneReg (l : Nat) (r : HostReg) : Reg := BitVec.ofNat 5 (l * REG_PER_THREAD + r.val)

section Registers

variable {l l' : Nat} (hl : l < PARALLEL_CNT)

include hl

theorem laneReg_toNat (r : HostReg) : (laneReg l r).toNat = l * REG_PER_THREAD + r.val := by
  have hl' : l < 3 := hl
  have hr := r.isLt
  change (BitVec.ofNat 5 (l * 10 + r.val)).toNat = l * 10 + r.val
  rw [BitVec.toNat_ofNat, Nat.mod_eq_of_lt (by omega)]

theorem laneReg_injective : Function.Injective (laneReg l) := by
  intro r r' h
  have hn := congrArg BitVec.toNat h
  rw [laneReg_toNat hl, laneReg_toNat hl] at hn
  exact Fin.ext (by omega)

theorem laneReg_ne (hl' : l' < PARALLEL_CNT) (h : l ≠ l') (r r' : HostReg) :
    laneReg l r ≠ laneReg l' r' := by
  intro he
  have hn := congrArg BitVec.toNat he
  rw [laneReg_toNat hl, laneReg_toNat hl'] at hn
  unfold REG_PER_THREAD NUM_REG PARALLEL_CNT at *
  omega

theorem laneReg_hostReg {r r' : Reg} (hr : r.toNat < REG_PER_THREAD)
    (h : r'.toNat = r.toNat + l * REG_PER_THREAD) : r' = laneReg l (hostReg r) := by
  apply BitVec.eq_of_toNat_eq
  rw [laneReg_toNat hl, h, hostReg, Fin.val_ofNat, Nat.mod_eq_of_lt (show r.toNat < 10 from hr), Nat.add_comm]

end Registers

theorem copyOf_host (u : Word) : CopyOf hostReg id u u :=
  ⟨rfl, rfl, rfl, fun _ => rfl, fun _ => rfl, fun _ => rfl, fun _ => rfl, fun _ => rfl, fun _ => rfl⟩

theorem copyOf_laneWord {w : Word} {l : Nat} (h : HostWord w) (hl : l < PARALLEL_CNT) :
    CopyOf id (laneReg l) w (laneWord w l) where
  decoded := laneWord_cw h hl
  guarded := laneWord_cond h hl
  status := laneWord_sBit h hl
  srcA := by
    intro hu
    have ht := useRegA_of_cw hu
    apply laneReg_hostReg hl (h.a ht)
    rw [id, laneWord_rega h hl, if_pos ht]
  srcB := by
    intro hu
    have ht := useRegB_of_cw hu
    apply laneReg_hostReg hl (h.b ht)
    rw [id, laneWord_regb h hl, if_pos ht]
  dest := by
    intro hu
    have ht := useRegD_of_cw hu
    apply laneReg_hostReg hl (h.d ht)
    rw [id, laneWord_regd h hl, if_pos ht]
  ofst := fun _ => laneWord_imm0 h hl
  immB := fun hs => laneWord_imm1 h hl (immB_tables hs)
  immC := fun hs => laneWord_imm2 h hl (immC_tables hs).1 (immC_tables hs).2

/-! ## The reference runs -/

def reference (l : Nat) (m : Machine Reg) : Machine HostReg :=
  ⟨fun r => m.regs (laneReg l r), m.sreg, m.lmem⟩

def taskAddr (ofst mtaskmem : Word) (l i : Nat) : BitVec 9 :=
  (ofst + BitVec.ofNat 32 (l * mtaskmem.toNat + i)).setWidth 9

def InTask (ofst mtaskmem : Word) (l : Nat) (a : BitVec 9) : Prop :=
  ∃ i < mtaskmem.toNat, a = taskAddr ofst mtaskmem l i

instance (ofst mtaskmem : Word) (l : Nat) : DecidablePred (InTask ofst mtaskmem l) := fun a =>
  inferInstanceAs (Decidable (∃ i < mtaskmem.toNat, a = taskAddr ofst mtaskmem l i))

def Apart (R : Nat → BitVec 9 → Prop) : Prop :=
  ∀ l < PARALLEL_CNT, ∀ l' < PARALLEL_CNT, l ≠ l' → ∀ a, R l a → ¬R l' a

instance (R : Nat → BitVec 9 → Prop) [∀ l, DecidablePred (R l)] : Decidable (Apart R) :=
  inferInstanceAs (Decidable (∀ l < PARALLEL_CNT, ∀ l' < PARALLEL_CNT, l ≠ l' → ∀ a, R l a → ¬R l' a))

section Lanes

variable (F : Fpu) (g : BitVec 17 → Word) {R : Nat → BitVec 9 → Prop} {lmem : BitVec 9 → Word}
  {m : Machine Reg} {r : Nat → Machine HostReg}

/-- The machine shows each lane what its reference run has, and the memory around the lanes is
still `lmem`. -/
structure Lanes (R : Nat → BitVec 9 → Prop) (lmem : BitVec 9 → Word) (m : Machine Reg)
    (r : Nat → Machine HostReg) : Prop where
  alike : ∀ l < PARALLEL_CNT, Alike (laneReg l) id (R l) m (r l)
  sreg : ∀ l < PARALLEL_CNT, m.sreg = (r l).sreg
  around : ∀ a, (∀ l < PARALLEL_CNT, ¬R l a) → m.lmem a = lmem a

theorem lanes_reference (m : Machine Reg) : Lanes R m.lmem m (fun l => reference l m) :=
  ⟨fun _ _ => ⟨fun _ => rfl, fun _ _ => rfl⟩, fun _ _ => rfl, fun _ _ => rfl⟩

theorem Lanes.copy (h : Lanes R lmem m r) (hR : Apart R) {w : Word} (hw : HostWord w)
    (hs : sBit w = false) {l : Nat} (hl : l < PARALLEL_CNT)
    (hacc : Accesses hostReg g (R l) (r l) w) {r' : Nat → Machine HostReg}
    (hown : r' l = Machine.exec F hostReg g (r l) w) (hother : ∀ l', l' ≠ l → r' l' = r l') :
    Lanes R lmem (Machine.exec F id g m (laneWord w l)) r' := by
  have hc := copyOf_laneWord hw hl
  have hflags : SameFlags w m.sreg (r l).sreg := fun _ => h.sreg l hl
  have hacc' : Accesses id g (R l) m (laneWord w l) :=
    hacc.congr (copyOf_host w) hc (h.alike l hl).symm (fun _ => (h.sreg l hl).symm)
  have hsreg : (Machine.exec F id g m (laneWord w l)).sreg = m.sreg :=
    exec_sreg F (by rw [laneWord_sBit hw hl, hs])
  refine ⟨fun l' hl' => ?_, fun l' hl' => ?_, fun a ha => ?_⟩
  · by_cases he : l' = l
    · subst he
      rw [hown]
      exact exec_alike F (laneReg_injective hl) Function.injective_id hc (copyOf_host w)
        (h.alike l' hl) hflags hacc'
    · rw [hother l' he]
      exact (h.alike l' hl').frame F hc (laneReg_ne hl hl' (Ne.symm he)) hacc' (hR l' hl' l hl he)
  · rw [hsreg, h.sreg l' hl']
    by_cases he : l' = l
    · subst he
      rw [hown, exec_sreg F hs]
    · rw [hother l' he]
  · rw [exec_lmem F hacc' (ha l hl)]
    exact h.around a ha

theorem Lanes.copies (h : Lanes R lmem m r) (hR : Apart R) {w : Word} (hw : HostWord w)
    (hs : sBit w = false) (hacc : ∀ l < PARALLEL_CNT, Accesses hostReg g (R l) (r l) w) {n : Nat}
    (hn : n ≤ PARALLEL_CNT) :
    Lanes R lmem (Machine.run F id g ((List.range n).map (laneWord w)) m)
      (fun l => if l < n then Machine.exec F hostReg g (r l) w else r l) := by
  induction n with
  | zero => simpa using h
  | succ n ih =>
    rw [List.range_succ, List.map_append, Machine.run_append]
    apply Lanes.copy F g (ih (by omega)) hR hw hs (show n < PARALLEL_CNT by omega)
    · simpa using hacc n (by omega)
    · simp
    · intro l hl
      simp only [show l < n + 1 ↔ l < n by omega]

theorem exec_nop {ι : Type} [DecidableEq ι] (sel : Reg → ι) (m : Machine ι) {w : Word} (h : opr w = 0)
    (hs : sBit w = false) : Machine.exec F sel g m w = m := by
  have hcw : cw w = Opr.nop.controlWord := cw_of_code h
  unfold Machine.exec Machine.execWith Machine.execOps
  simp [hcw, hs, Opr.controlWord]

theorem run_nops {zs : List Word} (h : ∀ z ∈ zs, z = 0) (m : Machine Reg) :
    Machine.run F id g zs m = m := by
  induction zs with
  | nil => rfl
  | cons z zs ih =>
    rw [List.forall_mem_cons] at h
    rw [Machine.run_cons, h.1, Machine.exec, Machine.execWith_zero, ih h.2]

theorem Lanes.congr (h : Lanes R lmem m r) {r' : Nat → Machine HostReg}
    (hr : ∀ l < PARALLEL_CNT, r' l = r l) : Lanes R lmem m r' :=
  ⟨fun l hl => hr l hl ▸ h.alike l hl, fun l hl => hr l hl ▸ h.sreg l hl, h.around⟩

theorem Lanes.expandInstr (h : Lanes R lmem m r) (hR : Apart R) {w : Word} (hw : HostWord w)
    (hs : sBit w = false) (hacc : ∀ l < PARALLEL_CNT, Accesses hostReg g (R l) (r l) w) :
    Lanes R lmem (Machine.run F id g (Gppcu.expandInstr w) m)
      (fun l => Machine.exec F hostReg g (r l) w) := by
  unfold Gppcu.expandInstr
  by_cases hnop : opr w = 0
  · rw [if_pos hnop, run_nops F g (by simp)]
    simpa only [exec_nop F g _ _ hnop hs] using h
  · rw [if_neg hnop, List.append_assoc, Machine.run_append, run_nops F g (by split_ifs <;> simp [BUBBLES])]
    apply (h.copies F g hR hw hs hacc (Nat.le_refl _)).congr
    intro l hl
    rw [if_pos hl]

theorem Lanes.run (hR : Apart R) {ws : List Word} (hws : ∀ w ∈ ws, HostWord w ∧ sBit w = false)
    (hacc : ∀ l < PARALLEL_CNT,
      Lib.Along (Machine.exec F hostReg g) (Accesses hostReg g (R l)) (r l) ws)
    (h : Lanes R lmem m r) :
    Lanes R lmem (Machine.run F id g (ws.flatMap Gppcu.expandInstr) m)
      (fun l => Machine.run F hostReg g ws (r l)) := by
  induction ws generalizing m r with
  | nil => exact h
  | cons w ws ih =>
    rw [List.forall_mem_cons] at hws
    rw [List.flatMap_cons, Machine.run_append]
    apply ih hws.2 fun l hl => (hacc l hl).2
    exact h.expandInstr F g hR hws.1.1 hws.1.2 fun l hl => (hacc l hl).1

end Lanes

/-! ## The prologue -/

section Prologue

variable (mtaskmem : Word)

theorem pivotWord_fields : cw pivotWord = Opr.ldci.controlWord ∧ cond pivotWord = 0 ∧ sBit pivotWord = false ∧
    regd pivotWord = laneReg 0 9 ∧ imm2 pivotWord = 0 := by decide

theorem lanePivotWord_fields {l : Nat} (hl : l < PARALLEL_CNT) :
    cw (lanePivotWord mtaskmem l) = Opr.adi.controlWord ∧ cond (lanePivotWord mtaskmem l) = 0 ∧
      rega (lanePivotWord mtaskmem l) = laneReg 0 9 ∧
      regd (lanePivotWord mtaskmem l) = (BitVec.ofNat 32 (REGPIVOT + REG_PER_THREAD * (l + 1))).setWidth 5 ∧
      imm1 (lanePivotWord mtaskmem l) = (mtaskmem * BitVec.ofNat 32 (l + 1)).setWidth 12 := by
  refine ⟨cw_of_code (lanePivot_opr mtaskmem hl), ?_, ?_, ?_, ?_⟩
  · unfold Instr.cond
    rw [lanePivot_high mtaskmem hl (by omega)]
    revert l
    decide
  · unfold rega
    rw [lanePivot_high mtaskmem hl (by omega)]
    revert l
    decide
  · unfold regd
    rw [lanePivot_high mtaskmem hl (by omega)]
    revert l
    decide
  · unfold imm1 lanePivotWord gppcuAssembleInstructionB
    have hlow : ∀ l < PARALLEL_CNT, (gppcuAssembleOpr 0 Opr.adi.word 0 |||
        BitVec.ofNat 32 (REGPIVOT + REG_PER_THREAD * (l + 1)) <<< 17 |||
        BitVec.ofNat 32 REGPIVOT <<< 12).extractLsb' 0 12 = 0 := by decide
    rw [BitVec.extractLsb'_or, hlow l hl, Lib.extract_self, BitVec.setWidth_and,
      show (0x0fff : Word).setWidth 12 = BitVec.allOnes 12 by decide, BitVec.and_allOnes]
    simp

variable (F : Fpu) (g : BitVec 17 → Word)

theorem exec_pivotWord (m : Machine Reg) : Machine.exec F id g m pivotWord =
    { m with regs := Function.update m.regs (laneReg 0 9) (g 0) } := by
  obtain ⟨hcw, hcond, hs, hd, himm⟩ := pivotWord_fields
  have hb : Machine.oprB id (g 0) pivotWord m = g 0 := by
    unfold Machine.oprB
    rw [hcw]
    rfl
  have hres : resultOf F Opr.ldci.controlWord (Machine.oprA id pivotWord m) (g 0) m.sreg m.lmem = g 0 :=
    aluQ_mov _ _ _
  rw [Machine.exec_always F id g m hcond, hcw, hs, hd, himm, hb, hres]
  rfl

/-- Register `laneReg 0 9` holds the task offset when the lanes' own pivots are added to it. -/
theorem exec_lanePivotWord (m : Machine Reg) {l : Nat} (hl : l < PARALLEL_CNT) :
    (Machine.exec F id g m (lanePivotWord mtaskmem l)).regs =
        Function.update m.regs ((BitVec.ofNat 32 (REGPIVOT + REG_PER_THREAD * (l + 1))).setWidth 5)
          (m.regs (laneReg 0 9) + ((mtaskmem * BitVec.ofNat 32 (l + 1)).setWidth 12).setWidth 32) ∧
      (Machine.exec F id g m (lanePivotWord mtaskmem l)).lmem = m.lmem := by
  obtain ⟨hcw, hcond, ha, hd, himm⟩ := lanePivotWord_fields mtaskmem hl
  have hb : Machine.oprB id (g (imm2 (lanePivotWord mtaskmem l))) (lanePivotWord mtaskmem l) m =
      ((mtaskmem * BitVec.ofNat 32 (l + 1)).setWidth 12).setWidth 32 := by
    unfold Machine.oprB
    rw [hcw, ← himm]
    rfl
  have hres : ∀ a b, resultOf F Opr.adi.controlWord a b m.sreg m.lmem = a + b := fun a b =>
    aluQ_add a b m.sreg.c
  rw [Machine.exec_always F id g m hcond, hcw, hd, hb, hres, Machine.oprA, ha]
  exact ⟨rfl, rfl⟩

theorem run_zero (ws : List Word) (m : Machine Reg) :
    Machine.run F id g (0 :: ws) m = Machine.run F id g ws m := by
  rw [Machine.run_cons, Machine.exec, Machine.execWith_zero]

theorem run_prologue (m : Machine Reg) : Machine.run F id g (prologue mtaskmem) m =
    Machine.exec F id g (Machine.exec F id g (Machine.exec F id g (Machine.exec F id g m pivotWord)
      (lanePivotWord mtaskmem 0)) (lanePivotWord mtaskmem 1)) (lanePivotWord mtaskmem 2) := by
  have hwords : prologue mtaskmem = [0, 0, pivotWord, 0, 0, lanePivotWord mtaskmem 0, 0, 0,
      lanePivotWord mtaskmem 1, 0, 0, lanePivotWord mtaskmem 2, 0, 0] := rfl
  rw [hwords, run_zero, run_zero, Machine.run_cons, run_zero, run_zero, Machine.run_cons, run_zero,
    run_zero, Machine.run_cons, run_zero, run_zero, Machine.run_cons, run_zero, run_zero,
    Machine.run_nil]

theorem pivot_imm {l : Nat} (hl : l < PARALLEL_CNT) (hm : mtaskmem.toNat < 2 ^ 8) :
    ((mtaskmem * BitVec.ofNat 32 (l + 1)).setWidth 12).setWidth 32 =
      BitVec.ofNat 32 ((l + 1) * mtaskmem.toNat) := by
  have hl' : l < 3 := hl
  have hle : mtaskmem.toNat * (l + 1) ≤ 255 * 3 := Nat.mul_le_mul (by omega) (by omega)
  apply BitVec.eq_of_toNat_eq
  rw [Nat.mul_comm (l + 1)]
  simp only [BitVec.toNat_setWidth, BitVec.toNat_mul, BitVec.toNat_ofNat]
  rw [Nat.mod_eq_of_lt (show l + 1 < 2 ^ 32 by omega)]
  omega

theorem prologue_regs (m : Machine Reg) : (Machine.run F id g (prologue mtaskmem) m).regs =
    Function.update (Function.update (Function.update (Function.update m.regs 9 (g 0))
      19 (g 0 + ((mtaskmem * 1).setWidth 12).setWidth 32))
      29 (g 0 + ((mtaskmem * 2).setWidth 12).setWidth 32))
      7 (g 0 + ((mtaskmem * 3).setWidth 12).setWidth 32) := by
  rw [run_prologue, (exec_lanePivotWord mtaskmem F g _ lane_two).1,
    (exec_lanePivotWord mtaskmem F g _ lane_one).1, (exec_lanePivotWord mtaskmem F g _ lane_zero).1,
    exec_pivotWord]
  rfl

theorem prologue_lmem (m : Machine Reg) :
    (Machine.run F id g (prologue mtaskmem) m).lmem = m.lmem := by
  rw [run_prologue, (exec_lanePivotWord mtaskmem F g _ lane_two).2,
    (exec_lanePivotWord mtaskmem F g _ lane_one).2, (exec_lanePivotWord mtaskmem F g _ lane_zero).2,
    exec_pivotWord]

theorem prologue_pivots (hm : mtaskmem.toNat < 2 ^ 8) (m : Machine Reg) {l : Nat} (hl : l < PARALLEL_CNT) :
    (Machine.run F id g (prologue mtaskmem) m).regs (laneReg l 9) =
      g 0 + BitVec.ofNat 32 (l * mtaskmem.toNat) := by
  have hl' : l < 3 := hl
  rw [prologue_regs]
  obtain rfl | rfl | rfl : l = 0 ∨ l = 1 ∨ l = 2 := by omega
  · rw [show laneReg 0 9 = 9 from rfl]
    simp
  · rw [show laneReg 1 9 = 19 from rfl, ← pivot_imm mtaskmem lane_zero hm]
    simp
  · rw [show laneReg 2 9 = 29 from rfl, ← pivot_imm mtaskmem lane_one hm]
    simp

end Prologue

/-! ## The whole program -/

section Program

variable (F : Fpu) (g : BitVec 17 → Word) {R : Nat → BitVec 9 → Prop} (mtaskmem : Word)

/-- The ten-register machine that lane `l` starts the program on. -/
def laneStart (m : Machine Reg) (l : Nat) : Machine HostReg :=
  reference l (Machine.run F id g (prologue mtaskmem) m)

theorem laneStart_pivot (hm : mtaskmem.toNat < 2 ^ 8) (m : Machine Reg) {l : Nat} (hl : l < PARALLEL_CNT) :
    (laneStart F g mtaskmem m l).regs 9 = g 0 + BitVec.ofNat 32 (l * mtaskmem.toNat) := by
  dsimp only [laneStart, reference]
  exact prologue_pivots mtaskmem F g hm m hl

theorem laneStart_lmem (m : Machine Reg) (l : Nat) : (laneStart F g mtaskmem m l).lmem = m.lmem := by
  dsimp only [laneStart, reference]
  rw [prologue_lmem]

variable {ws : List Word} (hws : ∀ w ∈ ws, HostWord w ∧ sBit w = false) (m : Machine Reg)

include hws

theorem lanes_program (hR : Apart R)
    (hacc : ∀ l < PARALLEL_CNT,
      Lib.Along (Machine.exec F hostReg g) (Accesses hostReg g (R l)) (laneStart F g mtaskmem m l) ws) :
    Lanes R m.lmem (Machine.run F id g (gppcuProgramAutofeedDeviceParallel mtaskmem ws) m)
      (fun l => Machine.run F hostReg g ws (laneStart F g mtaskmem m l)) := by
  unfold gppcuProgramAutofeedDeviceParallel
  rw [Machine.run_append, ← prologue_lmem mtaskmem F g m]
  exact (lanes_reference _).run F g hR hws hacc

/-- An expanded program does in each lane what the program does alone. A word may have a
condition: without S the flags are the same from the first word to the last. -/
theorem expansion_preserves (hm : mtaskmem.toNat < 2 ^ 8)
    (hacc : ∀ l < PARALLEL_CNT,
      Lib.Along (Machine.exec F hostReg g) (Accesses hostReg g (InTask (g 0) mtaskmem l))
        (laneStart F g mtaskmem m l) ws)
    (hR : Apart (InTask (g 0) mtaskmem)) :
    (∀ l < PARALLEL_CNT,
      (laneStart F g mtaskmem m l).regs 9 = g 0 + BitVec.ofNat 32 (l * mtaskmem.toNat) ∧
        (∀ r, (Machine.run F id g (gppcuProgramAutofeedDeviceParallel mtaskmem ws) m).regs (laneReg l r) =
          (Machine.run F hostReg g ws (laneStart F g mtaskmem m l)).regs r) ∧
        ∀ a, InTask (g 0) mtaskmem l a →
          (Machine.run F id g (gppcuProgramAutofeedDeviceParallel mtaskmem ws) m).lmem a =
            (Machine.run F hostReg g ws (laneStart F g mtaskmem m l)).lmem a) ∧
      ∀ a, (∀ l < PARALLEL_CNT, ¬InTask (g 0) mtaskmem l a) →
        (Machine.run F id g (gppcuProgramAutofeedDeviceParallel mtaskmem ws) m).lmem a = m.lmem a := by
  have h := lanes_program F g mtaskmem hws m hR hacc
  refine ⟨fun l hl => ⟨?_, ?_, ?_⟩, h.around⟩
  · exact laneStart_pivot F g mtaskmem hm m hl
  · intro r
    rw [(h.alike l hl).regs r]
    rfl
  · intro a ha
    rw [(h.alike l hl).lmem a ha]

end Program

def squareTask : List HostInstr := [.ldl 0 0 9 0, .fpArith 0 .fmul 0 0 0, .stl 0 0 9 1]

def offsetOnly (ofst : Word) : BitVec 17 → Word := fun a => if a = 0 then ofst else 0

def countingMachine : Machine Reg :=
  { regs := fun _ => 0
    sreg := ⟨false, false, false, false⟩
    lmem := fun a => a.setWidth 32 }

theorem expansion_preserves_square :
    (Machine.run anyFpu id (offsetOnly 4)
        (gppcuProgramAutofeedDeviceParallel 2 (squareTask.map HostInstr.word)) countingMachine).lmem 9 =
      (Machine.run anyFpu hostReg (offsetOnly 4) (squareTask.map HostInstr.word)
        (laneStart anyFpu (offsetOnly 4) 2 countingMachine 2)).lmem 9 := by
  have hws : ∀ w ∈ squareTask.map HostInstr.word, HostWord w ∧ sBit w = false := by
    intro w hw
    obtain ⟨k, hk, rfl⟩ := List.mem_map.mp hw
    have hplain : ∀ k ∈ squareTask, k.WellFormed ∧ k.s = false := by
      unfold squareTask
      simp only [List.forall_mem_cons]
      exact ⟨by decide, by decide, by decide, by simp⟩
    exact ⟨HostInstr.hostWord (hplain k hk).1, by rw [HostInstr.word_sBit, (hplain k hk).2]⟩
  have h := expansion_preserves anyFpu (offsetOnly 4) 2 hws countingMachine (by decide)
    (by decide +kernel) (by decide +kernel)
  exact (h.1 2 (by decide)).2.2 9 (by decide)

end Gppcu
