import Gppcu.Lanes.Spill
import Gppcu.Lib.Live

/-!
# A task by itself

What a lane does to its task when the program sets every register before it reads
it, and addresses words of the task only: whatever the registers, the flags and
the rest of the memory are, the task is left with the words that a machine of its
own would leave it with.
-/

namespace Gppcu

open Instr

/-! ## What a host word reads and sets -/

def readsReg (w : Word) (r : HostReg) : Bool :=
  (cw w).useRegA && hostReg (rega w) == r || (cw w).useRegB && hostReg (regb w) == r

def setsReg (w : Word) (r : HostReg) : Bool := (cw w).regWr && hostReg (regd w) == r && cond w == 0

/-- Every register but the pivot is set before it is read. -/
def SetsFirst (ws : List Word) : Prop := ∀ r, Lib.live readsReg setsReg ws (fun _ => false) r = true → r = 9

instance (ws : List Word) : Decidable (SetsFirst ws) :=
  inferInstanceAs (Decidable (∀ r, _ = true → r = 9))

/-- The machines have the same flags, the same words of `R` and the same in these registers. -/
structure AgreeOn (R : BitVec 9 → Prop) (rs : HostReg → Bool) (m m' : Machine HostReg) : Prop where
  regs : ∀ r, rs r = true → m.regs r = m'.regs r
  lmem : ∀ a, R a → m.lmem a = m'.lmem a
  sreg : m.sreg = m'.sreg

section Step

variable {R : BitVec 9 → Prop} {rs : HostReg → Bool} {g : BitVec 17 → Word} {m m' : Machine HostReg} {w : Word}

theorem AgreeOn.sameOps (h : AgreeOn R (Lib.liveBefore readsReg setsReg w rs) m m') :
    SameOps (cw w) (Machine.oprA hostReg w m) (Machine.oprB hostReg (g (imm2 w)) w m)
      (Machine.oprA hostReg w m') (Machine.oprB hostReg (g (imm2 w)) w m') := by
  constructor
  · intro hu
    exact h.regs _ (by simp [Lib.liveBefore, readsReg, hu])
  · intro hu
    unfold Machine.oprB decOprBMux
    by_cases hb : (cw w).useRegB = true
    · rw [h.regs (hostReg (regb w)) (by simp [Lib.liveBefore, readsReg, hb])]
    -- Without a register B the operand is one of the immediates.
    · have hsel : (cw w).bsel ≠ 0 := by simpa [ControlWord.usesB, hb] using hu
      split
      · exact absurd (BitVec.eq_of_toNat_eq (by assumption)) hsel
      all_goals rfl

section Exec

variable (F : Fpu)

theorem AgreeOn.exec (h : AgreeOn R (Lib.liveBefore readsReg setsReg w rs) m m') (hs : sBit w = false)
    (hacc : Accesses hostReg g R m w) :
    Accesses hostReg g R m' w ∧
      AgreeOn R rs (Machine.exec F hostReg g m w) (Machine.exec F hostReg g m' w) := by
  have hops : SameOps (cw w) _ _ _ _ := h.sameOps (g := g)
  have haddr : (cw w).lmemRd = true ∨ (cw w).lmemWr = true →
      Machine.oprB hostReg (g (imm2 w)) w m = Machine.oprB hostReg (g (imm2 w)) w m' := by
    intro hmem
    apply hops.b
    obtain ⟨o, ho, -⟩ := cw_cases w
    rw [ho] at hmem ⊢
    cases o <;> simp [Opr.controlWord, ControlWord.usesB] at hmem ⊢
  refine ⟨fun ha => ?_, ?_, ?_, ?_⟩
  · rw [Addresses, ← h.sreg, Bool.and_eq_true, Bool.or_eq_true] at ha
    rw [← haddr ha.2]
    apply hacc
    rw [Addresses, Bool.and_eq_true, Bool.or_eq_true]
    exact ha
  · intro r hr
    unfold Machine.exec Machine.execWith Machine.execOps
    rw [← h.sreg]
    by_cases hw : ((cw w).regWr && condOk w m.sreg) = true
    · simp only [hw, if_true]
      rw [Bool.and_eq_true] at hw
      have hload : (cw w).lmemRd = true → _ := fun hrd => h.lmem _ (hacc (by simp [Addresses, hrd, hw.2]))
      rw [resultOf_state F (fun _ => rfl) _ _ hload, resultOf_operands F _ _ hw.1 hops]
      by_cases hd : hostReg (regd w) = r
      · rw [hd, Function.update_self, Function.update_self]
      · rw [Function.update_of_ne (Ne.symm hd), Function.update_of_ne (Ne.symm hd)]
        exact h.regs r (by simp [Lib.liveBefore, setsReg, hr, hd])
    -- A word that does not write may still have a destination, but then it has a condition.
    · simp only [hw]
      apply h.regs r
      have hnot : setsReg w r = false := by
        by_contra hsets
        rw [Bool.not_eq_false, setsReg, Bool.and_eq_true, Bool.and_eq_true, beq_iff_eq, beq_iff_eq] at hsets
        exact hw (by rw [hsets.1.1, condOk_always hsets.2]; rfl)
      simp [Lib.liveBefore, hr, hnot]
  · intro a ha
    unfold Machine.exec Machine.execWith Machine.execOps
    rw [← h.sreg]
    by_cases hw : ((cw w).lmemWr && condOk w m.sreg) = true
    · simp only [hw, if_true]
      rw [Bool.and_eq_true] at hw
      have ha' : (cw w).useRegA = true := by
        obtain ⟨o, ho, -⟩ := cw_cases w
        rw [ho] at hw ⊢
        cases o <;> simp [Opr.controlWord] at hw ⊢
      rw [hops.a ha', haddr (Or.inr hw.1)]
      simp only [Function.update_apply, h.lmem a ha]
    · simp only [hw]
      exact h.lmem a ha
  · rw [exec_sreg F hs, exec_sreg F hs, h.sreg]

theorem agree_run {ws : List Word} (hws : ∀ w ∈ ws, sBit w = false)
    (hacc : Lib.Along (Machine.exec F hostReg g) (Accesses hostReg g R) m ws)
    (h : AgreeOn R (Lib.live readsReg setsReg ws fun _ => false) m m') :
    Lib.Along (Machine.exec F hostReg g) (Accesses hostReg g R) m' ws ∧
      ∀ a, R a → (Machine.run F hostReg g ws m).lmem a = (Machine.run F hostReg g ws m').lmem a := by
  obtain ⟨hacc', hend⟩ := Lib.live_run (fun w hw rs m m' hok hagree => hagree.exec F (hws w hw) hok) hacc h
  exact ⟨hacc', hend.lmem⟩

end Exec

end Step

/-! ## The task of a lane -/

/-- What the third addition of the prologue leaves in the status register. -/
def passFlags (ofst mtaskmem : Word) : Sreg := aluSreg ofst (((mtaskmem * 3).setWidth 12).setWidth 32) false 8

/-- The machine of a single task: its pivot, its words, and nothing of the other lanes. -/
def taskAlone (ofst mtaskmem : Word) (l : Nat) (words : Nat → Word) : Machine HostReg where
  regs := fun r => if r = 9 then ofst + BitVec.ofNat 32 (l * mtaskmem.toNat) else 0
  sreg := passFlags ofst mtaskmem
  lmem := fun a => words (a - taskAddr ofst mtaskmem l 0).toNat

section Task

variable (F : Fpu) (g : BitVec 17 → Word) (ws : List Word) (mtaskmem : Word) (l : Nat)

def taskResult (words : Nat → Word) (j : Nat) : Word :=
  (Machine.run F hostReg g ws (taskAlone (g 0) mtaskmem l words)).lmem (taskAddr (g 0) mtaskmem l j)

/-- Whatever words the task has, the program addresses no others. -/
def OwnsTask : Prop := ∀ words, Lib.Along (Machine.exec F hostReg g)
  (Accesses hostReg g (InTask (g 0) mtaskmem l)) (taskAlone (g 0) mtaskmem l words) ws

theorem taskAlone_word {ofst mtaskmem : Word} (hm : mtaskmem.toNat < 2 ^ 8) (l : Nat) (words : Nat → Word)
    {j : Nat} (hj : j < mtaskmem.toNat) :
    (taskAlone ofst mtaskmem l words).lmem (taskAddr ofst mtaskmem l j) = words j := by
  have hword : taskAddr ofst mtaskmem l j - taskAddr ofst mtaskmem l 0 = BitVec.ofNat 9 j := by
    unfold taskAddr
    rw [BitVec.ofNat_add, ← BitVec.add_assoc, BitVec.setWidth_add _ _ (by omega), Nat.add_zero,
      BitVec.add_comm, BitVec.add_sub_cancel, BitVec.setWidth_ofNat_of_le (by omega)]
  change words (taskAddr ofst mtaskmem l j - taskAddr ofst mtaskmem l 0).toNat = words j
  rw [hword, BitVec.toNat_ofNat, Nat.mod_eq_of_lt (by omega)]

variable {F g ws mtaskmem l} (hm : mtaskmem.toNat < 2 ^ 8) (hc : SetsFirst ws) (hs : ∀ w ∈ ws, sBit w = false)
  (h : OwnsTask F g ws mtaskmem l)

include hm hc hs h

theorem OwnsTask.run {m : Machine HostReg} {words : Nat → Word}
    (hpivot : m.regs 9 = g 0 + BitVec.ofNat 32 (l * mtaskmem.toNat))
    (hflags : m.sreg = passFlags (g 0) mtaskmem)
    (hwords : ∀ j < mtaskmem.toNat, m.lmem (taskAddr (g 0) mtaskmem l j) = words j) :
    Lib.Along (Machine.exec F hostReg g) (Accesses hostReg g (InTask (g 0) mtaskmem l)) m ws ∧
      ∀ j < mtaskmem.toNat, (Machine.run F hostReg g ws m).lmem (taskAddr (g 0) mtaskmem l j) =
        taskResult F g ws mtaskmem l words j := by
  have hagree : AgreeOn (InTask (g 0) mtaskmem l) (Lib.live readsReg setsReg ws fun _ => false)
      (taskAlone (g 0) mtaskmem l words) m := by
    refine ⟨fun r hr => ?_, ?_, hflags.symm⟩
    · rw [hc r hr, hpivot]
      rfl
    · rintro a ⟨j, hj, rfl⟩
      rw [taskAlone_word hm l words hj, hwords j hj]
  obtain ⟨hacc, hend⟩ := agree_run F hs (h words) hagree
  exact ⟨hacc, fun j hj => (hend _ ⟨j, hj, rfl⟩).symm⟩

theorem OwnsTask.congr {words words' : Nat → Word} (hw : ∀ j < mtaskmem.toNat, words j = words' j) {j : Nat}
    (hj : j < mtaskmem.toNat) :
    taskResult F g ws mtaskmem l words j = taskResult F g ws mtaskmem l words' j := by
  refine (h.run hm hc hs rfl rfl fun i hi => ?_).2 j hj
  rw [taskAlone_word hm l words hi, hw i hi]

end Task

/-- The three lanes of a pass leave their tasks with what the program makes of each of them alone, and
nothing else in the memory changes. -/
theorem pass_results (F : Fpu) {g : BitVec 17 → Word} {ws : List Word} {mtaskmem : Word}
    (hm : mtaskmem.toNat < 2 ^ 8) (hc : SetsFirst ws) (hws : ∀ w ∈ ws, HostWord w ∧ sBit w = false)
    (h : ∀ l < PARALLEL_CNT, OwnsTask F g ws mtaskmem l) (hR : Apart (InTask (g 0) mtaskmem))
    (m : Machine Reg) :
    (∀ l < PARALLEL_CNT, ∀ j < mtaskmem.toNat,
      (Machine.run F id g (gppcuProgramAutofeedDeviceParallel mtaskmem ws) m).lmem (taskAddr (g 0) mtaskmem l j) =
        taskResult F g ws mtaskmem l (fun j => m.lmem (taskAddr (g 0) mtaskmem l j)) j) ∧
      ∀ a, (∀ l < PARALLEL_CNT, ¬InTask (g 0) mtaskmem l a) →
        (Machine.run F id g (gppcuProgramAutofeedDeviceParallel mtaskmem ws) m).lmem a = m.lmem a := by
  have hs : ∀ w ∈ ws, sBit w = false := fun w hw => (hws w hw).2
  have hflags : ∀ l, (laneStart F g mtaskmem m l).sreg = passFlags (g 0) mtaskmem := by
    intro l
    dsimp only [laneStart, reference]
    exact prologue_sreg mtaskmem F g m
  have hwords : ∀ l, ∀ j < mtaskmem.toNat, (laneStart F g mtaskmem m l).lmem (taskAddr (g 0) mtaskmem l j) =
      (fun j => m.lmem (taskAddr (g 0) mtaskmem l j)) j := by
    intro l j _
    rw [laneStart_lmem]
  have hrun := fun l hl => (h l hl).run hm hc hs (laneStart_pivot F g mtaskmem hm m hl) (hflags l) (hwords l)
  have hlanes := lanes_program F g mtaskmem hws m hR fun l hl => (hrun l hl).1
  refine ⟨fun l hl j hj => ?_, hlanes.around⟩
  rw [(hlanes.alike l hl).lmem _ ⟨j, hj, rfl⟩, (hrun l hl).2 j hj]

/-! ## Addresses at the pivot -/

def KeepsToTask (base : HostReg) (mtaskmem : Nat) (w : Word) : Prop :=
  ((cw w).regWr = true → hostReg (regd w) ≠ base) ∧
    ((cw w).lmemRd = true ∨ (cw w).lmemWr = true → hostReg (regb w) = base ∧ (imm0 w).toNat < mtaskmem)

instance (base : HostReg) (mtaskmem : Nat) (w : Word) : Decidable (KeepsToTask base mtaskmem w) :=
  inferInstanceAs (Decidable ((_ → _) ∧ (_ → _)))

section Pivot

variable {F : Fpu} {g : BitVec 17 → Word} {base : HostReg} {mtaskmem : Word} {l : Nat} {m : Machine HostReg}
  {w : Word} (h : KeepsToTask base mtaskmem.toNat w)
  (hpivot : m.regs base = g 0 + BitVec.ofNat 32 (l * mtaskmem.toNat))

include h hpivot

theorem KeepsToTask.accesses : Accesses hostReg g (InTask (g 0) mtaskmem l) m w := by
  intro ha
  rw [Addresses, Bool.and_eq_true, Bool.or_eq_true] at ha
  obtain ⟨hbase, himm⟩ := h.2 ha.2
  refine ⟨_, himm, ?_⟩
  have hb : Machine.oprB hostReg (g (imm2 w)) w m = m.regs (hostReg (regb w)) + (imm0 w).setWidth 32 := by
    unfold Machine.oprB
    obtain ⟨o, ho, -⟩ := cw_cases w
    rw [ho] at ha ⊢
    cases o <;> simp [Opr.controlWord] at ha <;> rfl
  have hofst : (imm0 w).setWidth 32 = BitVec.ofNat 32 (imm0 w).toNat := by
    rw [BitVec.ofNat_toNat]
  rw [hb, hbase, hpivot, hofst, taskAddr, BitVec.ofNat_add, BitVec.add_assoc]

theorem KeepsToTask.pivot :
    (Machine.exec F hostReg g m w).regs base = g 0 + BitVec.ofNat 32 (l * mtaskmem.toNat) := by
  rw [← hpivot]
  unfold Machine.exec Machine.execWith Machine.execOps
  by_cases hw : ((cw w).regWr && condOk w m.sreg) = true
  · simp only [hw, if_true]
    rw [Bool.and_eq_true] at hw
    exact Function.update_of_ne (Ne.symm (h.1 hw.1)) ..
  · simp only [hw]
    rfl

end Pivot

theorem keeps_along (F : Fpu) {g : BitVec 17 → Word} {base : HostReg} {ws : List Word} {mtaskmem : Word} {l : Nat}
    (h : ∀ w ∈ ws, KeepsToTask base mtaskmem.toNat w) {m : Machine HostReg}
    (hpivot : m.regs base = g 0 + BitVec.ofNat 32 (l * mtaskmem.toNat)) :
    Lib.Along (Machine.exec F hostReg g) (Accesses hostReg g (InTask (g 0) mtaskmem l)) m ws :=
  Lib.along_of_inv (I := fun m => m.regs base = g 0 + BitVec.ofNat 32 (l * mtaskmem.toNat))
    (fun _ w hw hp => ⟨(h w hw).accesses hp, (h w hw).pivot hp⟩) hpivot

theorem ownsTask (F : Fpu) (g : BitVec 17 → Word) {ws : List Word} {mtaskmem : Word}
    (h : ∀ w ∈ ws, KeepsToTask 9 mtaskmem.toNat w) (l : Nat) : OwnsTask F g ws mtaskmem l :=
  fun _ => keeps_along F h rfl

end Gppcu
