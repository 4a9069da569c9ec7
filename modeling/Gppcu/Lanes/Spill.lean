import Gppcu.Lanes.Expand

/-!
# Where the operands of a pushed word go

The registers of a lane are added to a packed word without a mask. The copies of
a host program always have room for them. The third pivot of the prologue is
register 39: its top bit is the S bit, and what is left is register 7.
-/

namespace Gppcu

open Instr

/-! ## Copies -/

def InUsedField (opc : BitVec 5) (i : Nat) : Prop :=
  (instrUserega opc = true ∧ 12 ≤ i ∧ i < 17) ∨ (instrUseregb opc = true ∧ i < 5) ∨
    (instrUseregd opc = true ∧ 17 ≤ i ∧ i < 22)

/-- `c` is the host word with its registers moved to the lane, and nothing else. -/
structure MovedTo (l : Nat) (w c : Word) : Prop where
  cond : cond c = cond w
  opr : opr c = opr w
  sBit : sBit c = sBit w
  regd : instrUseregd (Instr.opr w) = true → (regd c).toNat = (regd w).toNat + l * REG_PER_THREAD
  rega : instrUserega (Instr.opr w) = true → (rega c).toNat = (rega w).toNat + l * REG_PER_THREAD
  regb : instrUseregb (Instr.opr w) = true → (regb c).toNat = (regb w).toNat + l * REG_PER_THREAD
  rest : ∀ i, ¬ InUsedField (Instr.opr w) i → c.getLsbD i = w.getLsbD i

theorem addReg_getLsbD {use : Bool} {toadd instr : Word} {lo i : Nat}
    (h : use = true → Lib.Fits instr toadd lo 5) (hi : use = true → i + 1 ≤ lo ∨ lo + 5 ≤ i) :
    (addReg use toadd lo instr).getLsbD i = instr.getLsbD i := by
  unfold addReg
  split_ifs with hu
  · exact (h hu).getLsbD_other (hi hu)
  · rfl

theorem movedTo_laneWord {w : Word} {l : Nat} (hw : HostWord w) (hl : l < PARALLEL_CNT) :
    MovedTo l w (laneWord w l) where
  cond := laneWord_cond hw hl
  opr := laneWord_opr hw hl
  sBit := laneWord_sBit hw hl
  regd := fun hu => by rw [laneWord_regd hw hl, if_pos hu]
  rega := fun hu => by rw [laneWord_rega hw hl, if_pos hu]
  regb := fun hu => by rw [laneWord_regb hw hl, if_pos hu]
  rest := by
    intro i hi
    simp only [InUsedField, not_or, not_and, Nat.not_lt] at hi
    obtain ⟨ha, hb, hd⟩ := hi
    have hf := hw.laneFits hl
    unfold laneWord
    rw [addReg_getLsbD hf.d fun hu => ?_, addReg_getLsbD hf.b fun hu => ?_,
      addReg_getLsbD hf.a fun hu => ?_]
    · have := ha hu
      omega
    · have := hb hu
      omega
    · have := hd hu
      omega

/-- Place `i` of what is pushed for `w`: the copy of lane `i`, and a nop behind the copies. -/
def CopyAt (w : Word) (i : Nat) (c : Word) : Prop :=
  if opr w = 0 ∨ PARALLEL_CNT ≤ i then c = 0 else MovedTo i w c

theorem copyAt_expandInstr {w c : Word} (hw : HostWord w) {i : Nat} (hc : (expandInstr w)[i]? = some c) :
    CopyAt w i c := by
  unfold CopyAt
  unfold expandInstr at hc
  by_cases hnop : opr w = 0
  · rw [if_pos hnop] at hc
    rw [if_pos (Or.inl hnop)]
    exact List.mem_singleton.mp (List.mem_of_getElem? hc)
  rw [if_neg hnop, List.append_assoc] at hc
  by_cases hi : i < PARALLEL_CNT
  · rw [if_neg (by rintro (h | h); exacts [hnop h, absurd h (Nat.not_le.mpr hi)])]
    rw [List.getElem?_append_left (by simpa using hi), List.getElem?_map, List.getElem?_range hi] at hc
    obtain rfl := Option.some.inj hc
    exact movedTo_laneWord hw hi
  · rw [if_pos (Or.inr (Nat.not_lt.mp hi))]
    rw [List.getElem?_append_right (by simpa using hi)] at hc
    have hm := List.mem_of_getElem? hc
    split_ifs at hm <;> simp [BUBBLES] at hm <;> exact hm

/-! ## The prologue -/

/-- `w` sets the pivot of a lane to the task offset, and nothing else. -/
def SetsPivot (mtaskmem w : Word) : Prop := cond w = 0 ∧ sBit w = false ∧
  ((opr w = Opr.ldci.code ∧ regd w = laneReg 0 9 ∧ imm2 w = 0) ∨
    ∃ l < PARALLEL_CNT, opr w = Opr.adi.code ∧ regd w = laneReg l 9 ∧ rega w = laneReg 0 9 ∧
      (imm1 w).toNat = l * mtaskmem.toNat)

theorem pivotWord_sets (mtaskmem : Word) : SetsPivot mtaskmem pivotWord := by
  obtain ⟨-, hcond, hs, hd, himm⟩ := pivotWord_fields
  exact ⟨hcond, hs, Or.inl ⟨by decide, hd, himm⟩⟩

theorem lanePivot_sBit (mtaskmem : Word) {l : Nat} (hl : l < PARALLEL_CNT) :
    sBit (lanePivotWord mtaskmem l) = decide (l = 2) := by
  have h : ∀ l < PARALLEL_CNT, sBit (lanePivotWord 0 l) = decide (l = 2) := by decide
  rw [← h l hl]
  unfold sBit
  rw [Lib.getLsbD_eq_extract, lanePivot_high mtaskmem hl (by omega), ← Lib.getLsbD_eq_extract]

theorem lanePivot_imm1 {mtaskmem : Word} (hm : mtaskmem.toNat < 2 ^ 8) {l : Nat} (hl : l < PARALLEL_CNT) :
    (imm1 (lanePivotWord mtaskmem l)).toNat = (l + 1) * mtaskmem.toNat := by
  have hl' : l < 3 := hl
  have hle : mtaskmem.toNat * (l + 1) ≤ 255 * 3 := Nat.mul_le_mul (by omega) (by omega)
  obtain ⟨-, -, -, -, himm⟩ := lanePivotWord_fields mtaskmem hl
  have h := congrArg BitVec.toNat (pivot_imm mtaskmem hl hm)
  rw [← himm, BitVec.toNat_setWidth, BitVec.toNat_ofNat, Nat.mul_comm (l + 1)] at h
  rw [Nat.mul_comm (l + 1)]
  omega

theorem lanePivotWord_sets {mtaskmem : Word} (hm : mtaskmem.toNat < 2 ^ 8) {l : Nat} (hl : l < 2) :
    SetsPivot mtaskmem (lanePivotWord mtaskmem l) := by
  have hl' : l < PARALLEL_CNT := Nat.lt_succ_of_lt hl
  obtain ⟨-, hcond, ha, hd, -⟩ := lanePivotWord_fields mtaskmem hl'
  refine ⟨hcond, ?_, Or.inr ⟨l + 1, Nat.succ_lt_succ hl, lanePivot_opr mtaskmem hl', ?_, ha,
    lanePivot_imm1 hm hl'⟩⟩
  · rw [lanePivot_sBit mtaskmem hl']
    exact decide_eq_false (by omega)
  · rw [hd]
    obtain rfl | rfl : l = 0 ∨ l = 1 := by omega
    · rfl
    · rfl

theorem mem_prologue {mtaskmem w : Word} (h : w ∈ prologue mtaskmem) :
    w = 0 ∨ w = pivotWord ∨ ∃ l < PARALLEL_CNT, w = lanePivotWord mtaskmem l := by
  simp only [prologue, List.mem_append, List.mem_flatMap, List.mem_range, List.mem_cons,
    List.not_mem_nil, or_false] at h
  rcases h with ((rfl | rfl | rfl) | ⟨l, hl, rfl | rfl | rfl⟩) | rfl | rfl
  · exact Or.inl rfl
  · exact Or.inl rfl
  · exact Or.inr (Or.inl rfl)
  · exact Or.inl rfl
  · exact Or.inl rfl
  · exact Or.inr (Or.inr ⟨l, hl, rfl⟩)
  · exact Or.inl rfl
  · exact Or.inl rfl

theorem third_mem (mtaskmem : Word) : lanePivotWord mtaskmem 2 ∈ prologue mtaskmem := by
  simp [prologue, PARALLEL_CNT, List.range_succ]

theorem third_fields (mtaskmem : Word) : sBit (lanePivotWord mtaskmem 2) = true ∧
    regd (lanePivotWord mtaskmem 2) = 7 := by
  obtain ⟨-, -, -, hd, -⟩ := lanePivotWord_fields mtaskmem lane_two
  exact ⟨lanePivot_sBit mtaskmem lane_two, hd⟩

section Frame

variable (mtaskmem : Word) (F : Fpu) (g : BitVec 17 → Word) (m : Machine Reg)

theorem prologue_frame {r : Reg} (h : ∀ l < PARALLEL_CNT, r ≠ laneReg l 9) (h7 : r ≠ 7) :
    (Machine.run F id g (prologue mtaskmem) m).regs r = m.regs r := by
  have h0 : r ≠ 9 := h 0 (by decide)
  have h1 : r ≠ 19 := h 1 (by decide)
  have h2 : r ≠ 29 := h 2 (by decide)
  rw [prologue_regs, Function.update_of_ne h7, Function.update_of_ne h2, Function.update_of_ne h1,
    Function.update_of_ne h0]

theorem prologue_seventh : (Machine.run F id g (prologue mtaskmem) m).regs 7 =
    g 0 + ((mtaskmem * 3).setWidth 12).setWidth 32 := by
  rw [prologue_regs, Function.update_self]

theorem prologue_sreg : (Machine.run F id g (prologue mtaskmem) m).sreg =
    aluSreg (g 0) (((mtaskmem * 3).setWidth 12).setWidth 32) false 8 := by
  obtain ⟨hcw, hcond, ha, -, himm⟩ := lanePivotWord_fields mtaskmem lane_two
  have hs := (third_fields mtaskmem).1
  rw [run_prologue]
  generalize hm : Machine.exec F id g (Machine.exec F id g (Machine.exec F id g m pivotWord)
    (lanePivotWord mtaskmem 0)) (lanePivotWord mtaskmem 1) = m'
  have hpivot : m'.regs (laneReg 0 9) = g 0 := by
    rw [← hm, (exec_lanePivotWord mtaskmem F g _ lane_one).1, (exec_lanePivotWord mtaskmem F g _ lane_zero).1,
      exec_pivotWord]
    rfl
  have hb : Machine.oprB id (g (imm2 (lanePivotWord mtaskmem 2))) (lanePivotWord mtaskmem 2) m' =
      ((mtaskmem * 3).setWidth 12).setWidth 32 := by
    unfold Machine.oprB
    rw [hcw]
    exact congrArg (BitVec.setWidth 32) himm
  rw [Machine.exec_always F id g m' hcond, hcw, hs, hb, Machine.oprA, ha]
  change flagsOf Opr.adi.controlWord (m'.regs (laneReg 0 9)) _ m'.sreg = _
  rw [hpivot]
  rfl

end Frame

/-! ## Spilling -/

/-- What the expansion intends: its prologue touches the pivots of the lanes and nothing else, and
the copies of a word touch the registers of their lanes and nothing else. -/
structure NoSpill (mtaskmem : Word) (ws : List Word) : Prop where
  prologue : ∀ w ∈ prologue mtaskmem, w = 0 ∨ SetsPivot mtaskmem w
  copies : ∀ w ∈ ws, ∀ i c, (expandInstr w)[i]? = some c → CopyAt w i c
  regs : ∀ F g m r, (∀ l < PARALLEL_CNT, r ≠ laneReg l 9) →
    (Machine.run F id g (Gppcu.prologue mtaskmem) m).regs r = m.regs r
  sreg : ∀ F g m, (Machine.run F id g (Gppcu.prologue mtaskmem) m).sreg = m.sreg

/-- The expansion of every program spills, in the third addition of the prologue and there only:
that one writes register 7 and the status register. -/
theorem prologue_spills {mtaskmem : Word} (hm : mtaskmem.toNat < 2 ^ 8) {calls : List HostInstr}
    (hcalls : ∀ k ∈ calls, k.WellFormed) :
    ¬NoSpill mtaskmem (calls.map HostInstr.word) ∧
      (lanePivotWord mtaskmem 2 ∈ prologue mtaskmem ∧ sBit (lanePivotWord mtaskmem 2) = true ∧
        regd (lanePivotWord mtaskmem 2) = 7) ∧
      (∀ w ∈ prologue mtaskmem, w = lanePivotWord mtaskmem 2 ∨ w = 0 ∨ SetsPivot mtaskmem w) ∧
      (∀ w ∈ calls.map HostInstr.word, ∀ i c, (expandInstr w)[i]? = some c → CopyAt w i c) ∧
      ∀ F g m, (∀ r, (∀ l < PARALLEL_CNT, r ≠ laneReg l 9) → r ≠ 7 →
          (Machine.run F id g (prologue mtaskmem) m).regs r = m.regs r) ∧
        (Machine.run F id g (prologue mtaskmem) m).regs 7 =
          g 0 + ((mtaskmem * 3).setWidth 12).setWidth 32 ∧
        (Machine.run F id g (prologue mtaskmem) m).sreg =
          aluSreg (g 0) (((mtaskmem * 3).setWidth 12).setWidth 32) false 8 := by
  have hmem := third_mem mtaskmem
  obtain ⟨hs, hd⟩ := third_fields mtaskmem
  refine ⟨?_, ⟨hmem, hs, hd⟩, ?_, ?_, ?_⟩
  · rintro ⟨hprologue, -, -, -⟩
    rcases hprologue _ hmem with hz | ⟨-, hs', -⟩
    · rw [hz] at hs
      cases hs
    · rw [hs] at hs'
      cases hs'
  · rintro w hw
    rcases mem_prologue hw with rfl | rfl | ⟨l, hl, rfl⟩
    · exact Or.inr (Or.inl rfl)
    · exact Or.inr (Or.inr (pivotWord_sets mtaskmem))
    · obtain rfl | hlt := Nat.eq_or_lt_of_le (Nat.le_of_lt_succ hl)
      · exact Or.inl rfl
      · exact Or.inr (Or.inr (lanePivotWord_sets hm hlt))
  · rintro w hw i c hc
    obtain ⟨k, hk, rfl⟩ := List.mem_map.mp hw
    exact copyAt_expandInstr (HostInstr.hostWord (hcalls k hk)) hc
  · intro F g m
    exact ⟨fun r hr h7 => prologue_frame mtaskmem F g m hr h7, prologue_seventh mtaskmem F g m,
      prologue_sreg mtaskmem F g m⟩

def storeFive : List HostInstr := [.arithB 0 .adi false 1 1 5, .stl 0 1 9 0]

theorem prologue_spills_max : ¬NoSpill 255 (storeFive.map HostInstr.word) :=
  (prologue_spills (show (255 : Word).toNat < 2 ^ 8 by decide) (by decide)).1

theorem spills_seventh : (∀ k ∈ storeFive, k.WellFormed) ∧ ¬NoSpill 8 (storeFive.map HostInstr.word) := by
  refine ⟨by decide, ?_⟩
  rintro ⟨-, -, hregs, -⟩
  have h7 := hregs anyFpu (fun _ => 0) ⟨fun _ => 0, ⟨false, false, false, false⟩, fun _ => 0⟩ 7 (by decide)
  rw [prologue_seventh] at h7
  revert h7
  decide

end Gppcu
