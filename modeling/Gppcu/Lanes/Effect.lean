import Gppcu.Lanes.Alike

/-!
# What the calls of a host program do

The functions of `gppcu.h` on the ten-register machine, each one without a
condition and without S.
-/

namespace Gppcu

open Instr

/-! ## The operations of the FPU -/

namespace Fpu

variable (F : Fpu)

def fmul (a b : Word) : Word := F.result Opr.fmul.controlWord.fpuN a b

def fadd (a b : Word) : Word := F.result Opr.fadd.controlWord.fpuN a b

def ftoi (a : Word) : Word := F.result Opr.ftoi.controlWord.fpuN a 0

end Fpu

namespace HostInstr

variable (F : Fpu) (g : BitVec 17 → Word) (m : Machine HostReg)

theorem hostReg_code (r : HostReg) : hostReg r.code = r := by
  have hr := r.isLt
  apply Fin.ext
  rw [hostReg, toNat_code, Fin.val_ofNat, Nat.mod_eq_of_lt hr]

theorem exec_plain {k : HostInstr} (hk : k.Plain) : Machine.exec F hostReg g m k.word =
    { regs := if k.opr.controlWord.regWr then
          Function.update m.regs (hostReg (regd k.word)) (resultOf F k.opr.controlWord
            (Machine.oprA hostReg k.word m) (Machine.oprB hostReg (g (imm2 k.word)) k.word m)
            m.sreg m.lmem)
        else m.regs
      sreg := m.sreg
      lmem := if k.opr.controlWord.lmemWr then
          Function.update m.lmem ((Machine.oprB hostReg (g (imm2 k.word)) k.word m).setWidth 9)
            (Machine.oprA hostReg k.word m)
        else m.lmem } := by
  have hcond : Instr.cond k.word = 0 := by
    rw [word_cond, hk.1]
    rfl
  rw [Machine.exec_always F hostReg g m hcond, word_cw, word_sBit, hk.2]
  simp

def address (pivot : Word) (ofst : BitVec 8) : BitVec 9 :=
  (pivot + (ofst.setWidth 7).setWidth 32).setWidth 9

variable (d a b : HostReg)

theorem word_hostReg {k : HostInstr} (hk : k.WellFormed) :
    (k.opr.controlWord.regWr = true → hostReg (regd k.word) = k.rd) ∧
      (k.opr.controlWord.useRegA = true → hostReg (rega k.word) = k.ra) ∧
      (k.opr.controlWord.useRegB = true → hostReg (regb k.word) = k.rb) := by
  obtain ⟨hd, ha, hb⟩ := word_regs hk
  refine ⟨fun hu => ?_, fun hu => ?_, fun hu => ?_⟩
  · rw [hd hu, hostReg_code]
  · rw [ha hu, hostReg_code]
  · rw [hb hu, hostReg_code]

@[simp] theorem exec_ldl (ofst : BitVec 8) : Machine.exec F hostReg g m (word (.ldl 0 d b ofst)) =
    { m with regs := Function.update m.regs d (m.lmem (address (m.regs b) ofst)) } := by
  obtain ⟨hd, -, hb⟩ := word_hostReg (show InstrCall.WellFormed (.ldl 0 d b ofst : HostInstr) from trivial)
  have himm : imm0 (word (.ldl 0 d b ofst)) = (ofst.setWidth 32).setWidth 7 :=
    (Build.formA 0 .ldl false d.code 0 b.code (ofst.setWidth 32)).imm7
  rw [exec_plain F g m ⟨rfl, rfl⟩, hd rfl]
  simp [InstrCall.opr, InstrCall.rd, InstrCall.rb, Opr.controlWord, resultOf, Machine.oprB, decOprBMux, word_cw, hb rfl, himm, address]

@[simp] theorem exec_stl (ofst : BitVec 8) : Machine.exec F hostReg g m (word (.stl 0 a b ofst)) =
    { m with lmem := Function.update m.lmem (address (m.regs b) ofst) (m.regs a) } := by
  obtain ⟨-, ha, hb⟩ := word_hostReg (show InstrCall.WellFormed (.stl 0 a b ofst : HostInstr) from trivial)
  have himm : imm0 (word (.stl 0 a b ofst)) = (ofst.setWidth 32).setWidth 7 :=
    (Build.formA 0 .stl false 0 a.code b.code (ofst.setWidth 32)).imm7
  rw [exec_plain F g m ⟨rfl, rfl⟩]
  simp [InstrCall.opr, InstrCall.ra, InstrCall.rb, Opr.controlWord, Machine.oprA, Machine.oprB, decOprBMux, word_cw, ha rfl, hb rfl,
    himm, address]

@[simp] theorem exec_ldci (addr : Word) : Machine.exec F hostReg g m (word (.ldci 0 d addr)) =
    { m with regs := Function.update m.regs d (g (addr.setWidth 17)) } := by
  obtain ⟨hd, -, -⟩ := word_hostReg (show InstrCall.WellFormed (.ldci 0 d addr : HostInstr) from trivial)
  have himm : imm2 (word (.ldci 0 d addr)) = addr.setWidth 17 :=
    (Build.formC 0 .ldci false d.code addr).imm17
  rw [exec_plain F g m ⟨rfl, rfl⟩, hd rfl]
  simp [InstrCall.opr, InstrCall.rd, Opr.controlWord, resultOf, Machine.oprB, decOprBMux, word_cw, himm, aluQ_mov]

@[simp] theorem exec_mvi (imm : Word) : Machine.exec F hostReg g m (word (.mvi 0 false d imm)) =
    { m with regs := Function.update m.regs d ((imm.setWidth 17).setWidth 32) } := by
  obtain ⟨hd, -, -⟩ := word_hostReg (show InstrCall.WellFormed (.mvi 0 false d imm : HostInstr) from trivial)
  have himm : imm2 (word (.mvi 0 false d imm)) = imm.setWidth 17 :=
    (Build.formC 0 .mvi false d.code imm).imm17
  rw [exec_plain F g m ⟨rfl, rfl⟩, hd rfl]
  simp [InstrCall.opr, InstrCall.rd, Opr.controlWord, resultOf, Machine.oprB, decOprBMux, word_cw, himm, aluQ_mov]

@[simp] theorem exec_adi (imm : BitVec 16) : Machine.exec F hostReg g m (word (.arithB 0 .adi false d a imm)) =
    { m with regs := Function.update m.regs d (m.regs a + (imm.setWidth 12).setWidth 32) } := by
  obtain ⟨hd, ha, -⟩ := word_hostReg (show InstrCall.WellFormed (.arithB 0 .adi false d a imm : HostInstr) from rfl)
  have himm : imm1 (word (.arithB 0 .adi false d a imm)) = (imm.signExtend 32).setWidth 12 :=
    (Build.formB 0 .adi false d.code a.code (imm.signExtend 32)).imm12
  have hlow : (imm.signExtend 32).setWidth 12 = imm.setWidth 12 := by
    apply BitVec.eq_of_getLsbD_eq
    intro i hi
    rw [BitVec.getLsbD_setWidth, BitVec.getLsbD_setWidth, BitVec.getLsbD_signExtend]
    simp [show i < 16 by omega, show i < 32 by omega]
  rw [exec_plain F g m ⟨rfl, rfl⟩, hd rfl]
  simp [InstrCall.opr, InstrCall.ra, InstrCall.rd, Opr.controlWord, resultOf, Machine.oprA, Machine.oprB, decOprBMux, word_cw,
    ha rfl, himm, hlow, aluQ_add]

theorem exec_fpArith {o : Opr} (ho : o.family = .a) (hf : o.controlWord.fpOp = true) :
    Machine.exec F hostReg g m (word (.fpArith 0 o d a b)) =
      { m with regs := Function.update m.regs d (F.result o.controlWord.fpuN (m.regs a) (m.regs b)) } := by
  obtain ⟨hd, ha, hb⟩ := word_hostReg (show InstrCall.WellFormed (.fpArith 0 o d a b : HostInstr) from ho)
  have himm : imm0 (word (.fpArith 0 o d a b)) = 0 := (Build.formA 0 o false d.code a.code b.code 0).imm7
  have hopr : InstrCall.opr (.fpArith 0 o d a b : HostInstr) = o := rfl
  rw [hopr] at hd ha hb
  rw [exec_plain F g m ⟨rfl, rfl⟩, hopr]
  unfold Machine.oprA Machine.oprB decOprBMux
  rw [word_cw, hopr, himm]
  cases o <;> simp only [Opr.family, reduceCtorEq] at ho
  all_goals
    rw [hd rfl, ha rfl, hb rfl]
    simp [Opr.controlWord, resultOf, InstrCall.rd, InstrCall.ra, InstrCall.rb] at hf ⊢

@[simp] theorem exec_fmul : Machine.exec F hostReg g m (word (.fpArith 0 .fmul d a b)) =
    { m with regs := Function.update m.regs d (F.fmul (m.regs a) (m.regs b)) } :=
  exec_fpArith F g m d a b rfl rfl

@[simp] theorem exec_fadd : Machine.exec F hostReg g m (word (.fpArith 0 .fadd d a b)) =
    { m with regs := Function.update m.regs d (F.fadd (m.regs a) (m.regs b)) } :=
  exec_fpArith F g m d a b rfl rfl

@[simp] theorem exec_ftoi : Machine.exec F hostReg g m (word (.fp0 0 .ftoi d a)) =
    { m with regs := Function.update m.regs d (F.ftoi (m.regs a)) } := by
  obtain ⟨hd, ha, -⟩ := word_hostReg (show InstrCall.WellFormed (.fp0 0 .ftoi d a : HostInstr) from rfl)
  rw [exec_plain F g m ⟨rfl, rfl⟩, hd rfl]
  have hunary : ∀ b, F.result Opr.ftoi.controlWord.fpuN (m.regs a) b = F.ftoi (m.regs a) := fun b =>
    F.unary _ (by decide) _ b 0
  simp only [InstrCall.opr, InstrCall.ra, InstrCall.rd, resultOf, Machine.oprA, ha rfl, hunary]
  simp [Opr.controlWord]

/-! ## What they address -/

variable {m} {R : BitVec 9 → Prop}

theorem accesses_none {k : HostInstr} (h : k.opr.controlWord.lmemRd = false ∧ k.opr.controlWord.lmemWr = false) :
    Accesses hostReg g R m k.word := by
  intro ha
  rw [Addresses, word_cw, h.1, h.2] at ha
  simp at ha

theorem oprB_address {k : HostInstr} (hk : k.WellFormed) {ofst : BitVec 8}
    (hb : k.opr.controlWord.useRegB = true ∧ k.opr.controlWord.bsel = 0)
    (himm : imm0 k.word = (ofst.setWidth 32).setWidth 7) :
    (Machine.oprB hostReg (g (imm2 k.word)) k.word m).setWidth 9 = address (m.regs k.rb) ofst := by
  unfold Machine.oprB decOprBMux address
  rw [word_cw, hb.2, (word_hostReg hk).2.2 hb.1, himm]
  simp

theorem accesses_ldl {ofst : BitVec 8} (h : R (address (m.regs b) ofst)) :
    Accesses hostReg g R m (word (.ldl 0 d b ofst)) := by
  intro _
  rwa [oprB_address g (k := .ldl 0 d b ofst) trivial ⟨rfl, rfl⟩
    ((Build.formA 0 .ldl false d.code 0 b.code (ofst.setWidth 32)).imm7)]

theorem accesses_stl {ofst : BitVec 8} (h : R (address (m.regs b) ofst)) :
    Accesses hostReg g R m (word (.stl 0 a b ofst)) := by
  intro _
  rwa [oprB_address g (k := .stl 0 a b ofst) trivial ⟨rfl, rfl⟩
    ((Build.formA 0 .stl false 0 a.code b.code (ofst.setWidth 32)).imm7)]

end HostInstr

end Gppcu
