import Gppcu.Isa.Machine
import Gppcu.Lib.Field

/-!
# The instruction builders

The `GPPCU_ASSEMBLE_*` macros and the functions of `gppcu.h` that queue one
instruction each. A host program is a list of calls of these functions.
-/

namespace Gppcu

open Instr

def gppcuAssembleOpr (cond opr sEn : Word) : Word := cond <<< 28 ||| opr <<< 23 ||| sEn <<< 22

def gppcuAssembleInstructionA (cond opr sEn rd ra imm7 rb : Word) : Word :=
  gppcuAssembleOpr cond opr sEn ||| rd <<< 17 ||| ra <<< 12 ||| (imm7 &&& 0x7f) <<< 5 ||| rb

def gppcuAssembleInstructionB (cond opr sEn rd ra imm12 : Word) : Word :=
  gppcuAssembleOpr cond opr sEn ||| rd <<< 17 ||| ra <<< 12 ||| imm12 &&& 0x0fff

def gppcuAssembleInstructionC (cond opr sEn rd imm17 : Word) : Word :=
  gppcuAssembleOpr cond opr sEn ||| rd <<< 17 ||| imm17 &&& 0x1ffff

/-! ## Fields of an assembled word -/

section Fields

variable {cond opr sEn rd ra rb : Word}

structure Fitting (cond opr sEn rd ra rb : Word) : Prop where
  cond : cond.toNat < 2 ^ 4
  opr : opr.toNat < 2 ^ 5
  sEn : sEn.toNat < 2 ^ 1
  rd : rd.toNat < 2 ^ 5
  ra : ra.toNat < 2 ^ 5
  rb : rb.toNat < 2 ^ 5

theorem and_mask_lt (x mask : Word) {len : Nat} (h : mask.toNat < 2 ^ len) : (x &&& mask).toNat < 2 ^ len := by
  rw [BitVec.toNat_and]
  exact Nat.lt_of_le_of_lt Nat.and_le_right h

theorem assembleOpr_low (h : Fitting cond opr sEn rd ra rb) {lo len : Nat} (hd : lo + len ≤ 22) :
    (gppcuAssembleOpr cond opr sEn).extractLsb' lo len = 0 := by
  unfold gppcuAssembleOpr
  rw [BitVec.extractLsb'_or, BitVec.extractLsb'_or, Lib.extract_shiftLeft_other h.cond (by omega),
    Lib.extract_shiftLeft_other h.opr (by omega), Lib.extract_shiftLeft_other h.sEn (by omega)]
  simp

theorem assembleOpr_high (h : Fitting cond opr sEn rd ra rb) {low : Word} (hl : low.toNat < 2 ^ 22) :
    Instr.cond (gppcuAssembleOpr cond opr sEn ||| low) = cond.setWidth 4 ∧
      Instr.opr (gppcuAssembleOpr cond opr sEn ||| low) = opr.setWidth 5 ∧
      sBit (gppcuAssembleOpr cond opr sEn ||| low) = sEn.getLsbD 0 := by
  unfold Instr.cond Instr.opr sBit gppcuAssembleOpr
  rw [Lib.getLsbD_eq_extract]
  simp only [BitVec.extractLsb'_or]
  refine ⟨?_, ?_, ?_⟩
  · rw [Lib.extract_shiftLeft_self (by omega), Lib.extract_shiftLeft_other h.opr (by omega),
      Lib.extract_shiftLeft_other h.sEn (by omega), Lib.extract_of_small hl (by omega)]
    simp
  · rw [Lib.extract_shiftLeft_self (by omega), Lib.extract_shiftLeft_other h.cond (by omega),
      Lib.extract_shiftLeft_other h.sEn (by omega), Lib.extract_of_small hl (by omega)]
    simp
  · rw [Lib.extract_shiftLeft_self (by omega), Lib.extract_shiftLeft_other h.cond (by omega),
      Lib.extract_shiftLeft_other h.opr (by omega), Lib.extract_of_small hl (by omega)]
    simp

theorem shiftLeft_lt {x : Word} {lo len m : Nat} (hx : x.toNat < 2 ^ len) (hm : lo + len ≤ m) :
    (x <<< lo).toNat < 2 ^ m := by
  rw [BitVec.toNat_shiftLeft, Nat.shiftLeft_eq]
  calc x.toNat * 2 ^ lo % 2 ^ 32 ≤ x.toNat * 2 ^ lo := Nat.mod_le _ _
    _ < 2 ^ len * 2 ^ lo := Nat.mul_lt_mul_of_pos_right hx (Nat.two_pow_pos lo)
    _ = 2 ^ (lo + len) := by rw [← Nat.pow_add, Nat.add_comm]
    _ ≤ 2 ^ m := Nat.pow_le_pow_right (by omega) hm

theorem or_lt {x y : Word} {m : Nat} (hx : x.toNat < 2 ^ m) (hy : y.toNat < 2 ^ m) :
    (x ||| y).toNat < 2 ^ m := by
  rw [BitVec.toNat_or]
  exact Nat.or_lt_two_pow hx hy

theorem small_le {x : Word} {len m : Nat} (hx : x.toNat < 2 ^ len) (hm : len ≤ m) : x.toNat < 2 ^ m :=
  Nat.lt_of_lt_of_le hx (Nat.pow_le_pow_right (by omega) hm)

theorem assembleA_high (imm : Word) (h : Fitting cond opr sEn rd ra rb) :
    Instr.cond (gppcuAssembleInstructionA cond opr sEn rd ra imm rb) = cond.setWidth 4 ∧
      Instr.opr (gppcuAssembleInstructionA cond opr sEn rd ra imm rb) = opr.setWidth 5 ∧
      sBit (gppcuAssembleInstructionA cond opr sEn rd ra imm rb) = sEn.getLsbD 0 := by
  have himm := and_mask_lt imm 0x7f (show (0x7f : Word).toNat < 2 ^ 7 by decide)
  unfold gppcuAssembleInstructionA
  simp only [BitVec.or_assoc (gppcuAssembleOpr cond opr sEn)]
  apply assembleOpr_high h
  exact or_lt (or_lt (or_lt (shiftLeft_lt h.rd (by omega)) (shiftLeft_lt h.ra (by omega)))
    (shiftLeft_lt himm (by omega))) (small_le h.rb (by omega))

theorem assembleA_regs (imm : Word) (h : Fitting cond opr sEn rd ra rb) :
    regd (gppcuAssembleInstructionA cond opr sEn rd ra imm rb) = rd.setWidth 5 ∧
      rega (gppcuAssembleInstructionA cond opr sEn rd ra imm rb) = ra.setWidth 5 ∧
      regb (gppcuAssembleInstructionA cond opr sEn rd ra imm rb) = rb.setWidth 5 := by
  have himm := and_mask_lt imm 0x7f (show (0x7f : Word).toNat < 2 ^ 7 by decide)
  unfold regd rega regb gppcuAssembleInstructionA
  simp only [BitVec.extractLsb'_or]
  refine ⟨?_, ?_, ?_⟩
  · rw [assembleOpr_low h (by omega), Lib.extract_shiftLeft_self (by omega),
      Lib.extract_shiftLeft_other h.ra (by omega), Lib.extract_shiftLeft_other himm (by omega),
      Lib.extract_of_small h.rb (by omega)]
    simp
  · rw [assembleOpr_low h (by omega), Lib.extract_shiftLeft_self (by omega),
      Lib.extract_shiftLeft_other h.rd (by omega), Lib.extract_shiftLeft_other himm (by omega),
      Lib.extract_of_small h.rb (by omega)]
    simp
  · rw [assembleOpr_low h (by omega), Lib.extract_shiftLeft_other h.rd (by omega),
      Lib.extract_shiftLeft_other h.ra (by omega), Lib.extract_shiftLeft_other himm (by omega),
      Lib.extract_self]
    simp

theorem assembleA_imm (imm : Word) (h : Fitting cond opr sEn rd ra rb) :
    imm0 (gppcuAssembleInstructionA cond opr sEn rd ra imm rb) = imm.setWidth 7 := by
  unfold imm0 gppcuAssembleInstructionA
  simp only [BitVec.extractLsb'_or]
  rw [assembleOpr_low h (by omega), Lib.extract_shiftLeft_other h.rd (by omega),
    Lib.extract_shiftLeft_other h.ra (by omega), Lib.extract_shiftLeft_self (by omega),
    Lib.extract_of_small h.rb (by omega), BitVec.setWidth_and,
    show (0x7f : Word).setWidth 7 = BitVec.allOnes 7 by decide, BitVec.and_allOnes]
  simp

theorem assembleB_high (imm : Word) (h : Fitting cond opr sEn rd ra rb) :
    Instr.cond (gppcuAssembleInstructionB cond opr sEn rd ra imm) = cond.setWidth 4 ∧
      Instr.opr (gppcuAssembleInstructionB cond opr sEn rd ra imm) = opr.setWidth 5 ∧
      sBit (gppcuAssembleInstructionB cond opr sEn rd ra imm) = sEn.getLsbD 0 := by
  have himm := and_mask_lt imm 0x0fff (show (0x0fff : Word).toNat < 2 ^ 12 by decide)
  unfold gppcuAssembleInstructionB
  simp only [BitVec.or_assoc (gppcuAssembleOpr cond opr sEn)]
  apply assembleOpr_high h
  exact or_lt (or_lt (shiftLeft_lt h.rd (by omega)) (shiftLeft_lt h.ra (by omega)))
    (small_le himm (by omega))

theorem assembleB_regs (imm : Word) (h : Fitting cond opr sEn rd ra rb) :
    regd (gppcuAssembleInstructionB cond opr sEn rd ra imm) = rd.setWidth 5 ∧
      rega (gppcuAssembleInstructionB cond opr sEn rd ra imm) = ra.setWidth 5 := by
  have himm := and_mask_lt imm 0x0fff (show (0x0fff : Word).toNat < 2 ^ 12 by decide)
  unfold regd rega gppcuAssembleInstructionB
  simp only [BitVec.extractLsb'_or]
  refine ⟨?_, ?_⟩
  · rw [assembleOpr_low h (by omega), Lib.extract_shiftLeft_self (by omega),
      Lib.extract_shiftLeft_other h.ra (by omega), Lib.extract_of_small himm (by omega)]
    simp
  · rw [assembleOpr_low h (by omega), Lib.extract_shiftLeft_self (by omega),
      Lib.extract_shiftLeft_other h.rd (by omega), Lib.extract_of_small himm (by omega)]
    simp

theorem assembleB_imm (imm : Word) (h : Fitting cond opr sEn rd ra rb) :
    imm1 (gppcuAssembleInstructionB cond opr sEn rd ra imm) = imm.setWidth 12 := by
  unfold imm1 gppcuAssembleInstructionB
  simp only [BitVec.extractLsb'_or]
  rw [assembleOpr_low h (by omega), Lib.extract_shiftLeft_other h.rd (by omega),
    Lib.extract_shiftLeft_other h.ra (by omega), Lib.extract_self, BitVec.setWidth_and,
    show (0x0fff : Word).setWidth 12 = BitVec.allOnes 12 by decide, BitVec.and_allOnes]
  simp

theorem assembleC_high (imm : Word) (h : Fitting cond opr sEn rd ra rb) :
    Instr.cond (gppcuAssembleInstructionC cond opr sEn rd imm) = cond.setWidth 4 ∧
      Instr.opr (gppcuAssembleInstructionC cond opr sEn rd imm) = opr.setWidth 5 ∧
      sBit (gppcuAssembleInstructionC cond opr sEn rd imm) = sEn.getLsbD 0 := by
  have himm := and_mask_lt imm 0x1ffff (show (0x1ffff : Word).toNat < 2 ^ 17 by decide)
  unfold gppcuAssembleInstructionC
  simp only [BitVec.or_assoc (gppcuAssembleOpr cond opr sEn)]
  apply assembleOpr_high h
  exact or_lt (shiftLeft_lt h.rd (by omega)) (small_le himm (by omega))

theorem assembleC_fields (imm : Word) (h : Fitting cond opr sEn rd ra rb) :
    regd (gppcuAssembleInstructionC cond opr sEn rd imm) = rd.setWidth 5 ∧
      imm2 (gppcuAssembleInstructionC cond opr sEn rd imm) = imm.setWidth 17 := by
  have himm := and_mask_lt imm 0x1ffff (show (0x1ffff : Word).toNat < 2 ^ 17 by decide)
  unfold regd imm2 gppcuAssembleInstructionC
  simp only [BitVec.extractLsb'_or]
  refine ⟨?_, ?_⟩
  · rw [assembleOpr_low h (by omega), Lib.extract_shiftLeft_self (by omega),
      Lib.extract_of_small himm (by omega)]
    simp
  · rw [assembleOpr_low h (by omega), Lib.extract_shiftLeft_other h.rd (by omega), Lib.extract_self]
    rw [BitVec.setWidth_and, show (0x1ffff : Word).setWidth 17 = BitVec.allOnes 17 by decide,
      BitVec.and_allOnes]
    simp

end Fields

/-! ## The functions of `gppcu.h` -/

inductive Opr.Family
  | none | s | a | b | c | zero | x
  deriving DecidableEq

def Opr.family : Opr → Opr.Family
  | .mov | .mvn => .s
  | .adc | .sbc | .and | .orr | .xor | .fmul | .fdiv | .fadd | .fsub => .a
  | .adi | .sbi => .b
  | .mvi => .c
  | .lsl | .lsr | .asr | .itof | .ftoi | .fsqrt => .zero
  | .fneg => .x
  | .nop | .ldl | .ldci | .stl => .none

def Opr.word (o : Opr) : Word := o.code.setWidth 32
def sWord (s : Bool) : Word := (BitVec.ofBool s).setWidth 32

/-- One call of a function that queues an instruction, with conditions `C` and registers `R`. -/
inductive InstrCall (C R : Type)
  | nop
  | arithS (cond : C) (opr : Opr) (s : Bool) (regd regb : R) (imm7 : BitVec 8)
  | arith0 (cond : C) (opr : Opr) (s : Bool) (regd rega : R)
  | mvi (cond : C) (s : Bool) (regd : R) (imm17 : Word)
  | arithA (cond : C) (opr : Opr) (s : Bool) (regd rega regb : R) (imm7 : BitVec 8)
  | arithB (cond : C) (opr : Opr) (s : Bool) (regd rega : R) (imm12 : BitVec 16)
  | fpArith (cond : C) (opr : Opr) (regd rega regb : R)
  | fp0 (cond : C) (opr : Opr) (regd rega : R)
  | ldl (cond : C) (dest addr : R) (ofst : BitVec 8)
  | stl (cond : C) (data addr : R) (ofst : BitVec 8)
  | ldci (cond : C) (dest : R) (addr : Word)

namespace InstrCall

variable {C C' R R' : Type}

def opr : InstrCall C R → Opr
  | nop => .nop
  | arithS _ o _ _ _ _ | arith0 _ o _ _ _ | arithA _ o _ _ _ _ _ | arithB _ o _ _ _ _ => o
  | fpArith _ o _ _ _ | fp0 _ o _ _ => o
  | mvi .. => .mvi
  | ldl .. => .ldl
  | stl .. => .stl
  | ldci .. => .ldci

def s : InstrCall C R → Bool
  | arithS _ _ s _ _ _ | arith0 _ _ s _ _ | mvi _ s _ _ | arithA _ _ s _ _ _ _ | arithB _ _ s _ _ _ => s
  | nop | fpArith .. | fp0 .. | ldl .. | stl .. | ldci .. => false

def cond [OfNat C 0] : InstrCall C R → C
  | nop => 0
  | arithS c _ _ _ _ _ | arith0 c _ _ _ _ | mvi c _ _ _ | arithA c _ _ _ _ _ _ | arithB c _ _ _ _ _ => c
  | fpArith c _ _ _ _ | fp0 c _ _ _ | ldl c _ _ _ | stl c _ _ _ | ldci c _ _ => c

section Registers

variable [OfNat R 0]

def rd : InstrCall C R → R
  | arithS _ _ _ d _ _ | arith0 _ _ _ d _ | mvi _ _ d _ | arithA _ _ _ d _ _ _ | arithB _ _ _ d _ _ => d
  | fpArith _ _ d _ _ | fp0 _ _ d _ | ldl _ d _ _ | ldci _ d _ => d
  | nop | stl .. => 0

def ra : InstrCall C R → R
  | arith0 _ _ _ _ a | arithA _ _ _ _ a _ _ | arithB _ _ _ _ a _ => a
  | fpArith _ _ _ a _ | fp0 _ _ _ a | stl _ a _ _ => a
  | nop | arithS .. | mvi .. | ldl .. | ldci .. => 0

def rb : InstrCall C R → R
  | arithS _ _ _ _ b _ | arithA _ _ _ _ _ b _ | fpArith _ _ _ _ b | ldl _ _ b _ | stl _ _ b _ => b
  | nop | arith0 .. | mvi .. | arithB .. | fp0 .. | ldci .. => 0

end Registers

/-- The opcode is one of the function's family. -/
def WellFormed : InstrCall C R → Prop
  | arithS _ o _ _ _ _ => o.family = .s
  | arith0 _ o _ _ _ | fp0 _ o _ _ => o.family = .zero
  | arithA _ o _ _ _ _ _ | fpArith _ o _ _ _ => o.family = .a
  | arithB _ o _ _ _ _ => o.family = .b
  | nop | mvi .. | ldl .. | stl .. | ldci .. => True

instance : (k : InstrCall C R) → Decidable k.WellFormed
  | arithS _ o _ _ _ _ => inferInstanceAs (Decidable (o.family = .s))
  | arith0 _ o _ _ _ | fp0 _ o _ _ => inferInstanceAs (Decidable (o.family = .zero))
  | arithA _ o _ _ _ _ _ | fpArith _ o _ _ _ => inferInstanceAs (Decidable (o.family = .a))
  | arithB _ o _ _ _ _ => inferInstanceAs (Decidable (o.family = .b))
  | nop | mvi .. | ldl .. | stl .. | ldci .. => .isTrue trivial

def map (f : C → C') (g : R → R') : InstrCall C R → InstrCall C' R'
  | nop => nop
  | arithS c o s d b i => arithS (f c) o s (g d) (g b) i
  | arith0 c o s d a => arith0 (f c) o s (g d) (g a)
  | mvi c s d i => mvi (f c) s (g d) i
  | arithA c o s d a b i => arithA (f c) o s (g d) (g a) (g b) i
  | arithB c o s d a i => arithB (f c) o s (g d) (g a) i
  | fpArith c o d a b => fpArith (f c) o (g d) (g a) (g b)
  | fp0 c o d a => fp0 (f c) o (g d) (g a)
  | ldl c d b i => ldl (f c) (g d) (g b) i
  | stl c a b i => stl (f c) (g a) (g b) i
  | ldci c d i => ldci (f c) (g d) i

section Map

variable (f : C → C') (g : R → R') (k : InstrCall C R)

@[simp] theorem opr_map : (k.map f g).opr = k.opr := by cases k <;> rfl

@[simp] theorem s_map : (k.map f g).s = k.s := by cases k <;> rfl

@[simp] theorem wellFormed_map : (k.map f g).WellFormed ↔ k.WellFormed := by cases k <;> rfl

theorem cond_map [OfNat C 0] [OfNat C' 0] (hf : f 0 = 0) : (k.map f g).cond = f k.cond := by
  cases k with
  | nop => exact hf.symm
  | _ => rfl

theorem regs_map [OfNat R 0] [OfNat R' 0] (hg : g 0 = 0) :
    (k.map f g).rd = g k.rd ∧ (k.map f g).ra = g k.ra ∧ (k.map f g).rb = g k.rb := by
  cases k <;> simp [map, rd, ra, rb, hg]

end Map

end InstrCall

/-! ## The words -/

/-- A call with any register and any condition: these are enumerations in the source. -/
abbrev Build := InstrCall (BitVec 4) Reg

namespace Build

/-- The word that `gppcu_put_instr` is given. -/
def word : Build → Word
  | .nop => 0
  | .arithS c o s regd regb imm7 =>
    gppcuAssembleInstructionA (c.setWidth 32) o.word (sWord s) (regd.setWidth 32) 0
      (imm7.signExtend 32) (regb.setWidth 32)
  | .arith0 c o s regd rega =>
    gppcuAssembleInstructionB (c.setWidth 32) o.word (sWord s) (regd.setWidth 32) (rega.setWidth 32) 0
  | .mvi c s regd imm17 =>
    gppcuAssembleInstructionC (c.setWidth 32) Opr.mvi.word (sWord s) (regd.setWidth 32) imm17
  | .arithA c o s regd rega regb imm7 =>
    gppcuAssembleInstructionA (c.setWidth 32) o.word (sWord s) (regd.setWidth 32) (rega.setWidth 32)
      (imm7.signExtend 32) (regb.setWidth 32)
  | .arithB c o s regd rega imm12 =>
    gppcuAssembleInstructionB (c.setWidth 32) o.word (sWord s) (regd.setWidth 32) (rega.setWidth 32)
      (imm12.signExtend 32)
  | .fpArith c o regd rega regb =>
    gppcuAssembleInstructionA (c.setWidth 32) o.word 0 (regd.setWidth 32) (rega.setWidth 32) 0
      (regb.setWidth 32)
  | .fp0 c o regd rega =>
    gppcuAssembleInstructionA (c.setWidth 32) o.word 0 (regd.setWidth 32) (rega.setWidth 32) 0 0
  | .ldl c dest addr ofst =>
    gppcuAssembleInstructionA (c.setWidth 32) Opr.ldl.word 0 (dest.setWidth 32) 0 (ofst.setWidth 32)
      (addr.setWidth 32)
  | .stl c data addr ofst =>
    gppcuAssembleInstructionA (c.setWidth 32) Opr.stl.word 0 0 (data.setWidth 32) (ofst.setWidth 32)
      (addr.setWidth 32)
  | .ldci c dest addr =>
    gppcuAssembleInstructionC (c.setWidth 32) Opr.ldci.word 0 (dest.setWidth 32) addr

section Forms

variable (c : BitVec 4) (o : Opr) (s : Bool) (d a b : Reg) (imm : Word)

theorem fitting : Fitting (c.setWidth 32) o.word (sWord s) (d.setWidth 32) (a.setWidth 32)
    (b.setWidth 32) := by
  have hreg : ∀ r : Reg, (r.setWidth 32).toNat < 2 ^ 5 := by
    intro r
    rw [BitVec.toNat_setWidth]
    omega
  refine ⟨?_, ?_, ?_, hreg d, hreg a, hreg b⟩
  · rw [BitVec.toNat_setWidth]
    omega
  · cases o <;> decide
  · cases s <;> decide

theorem reg_back (r : Reg) : (r.setWidth 32).setWidth 5 = r := by simp

theorem high_back : (c.setWidth 32).setWidth 4 = c ∧ o.word.setWidth 5 = o.code ∧ (sWord s).getLsbD 0 = s := by
  refine ⟨by simp, ?_, ?_⟩
  · cases o <;> decide
  · cases s <;> decide

/-- The three forms of a word, `w` being it. -/
structure FormA (w : Word) : Prop where
  cond : Instr.cond w = c
  opr : Instr.opr w = o.code
  sBit : sBit w = s
  regd : regd w = d
  rega : rega w = a
  regb : regb w = b
  imm7 : imm0 w = imm.setWidth 7

structure FormB (w : Word) : Prop where
  cond : Instr.cond w = c
  opr : Instr.opr w = o.code
  sBit : sBit w = s
  regd : regd w = d
  rega : rega w = a
  imm12 : imm1 w = imm.setWidth 12

structure FormC (w : Word) : Prop where
  cond : Instr.cond w = c
  opr : Instr.opr w = o.code
  sBit : sBit w = s
  regd : regd w = d
  imm17 : imm2 w = imm.setWidth 17

theorem formA : FormA c o s d a b imm (gppcuAssembleInstructionA (c.setWidth 32) o.word (sWord s)
    (d.setWidth 32) (a.setWidth 32) imm (b.setWidth 32)) := by
  have h := fitting c o s d a b
  obtain ⟨hc, ho, hs⟩ := assembleA_high imm h
  obtain ⟨hd, ha, hb⟩ := assembleA_regs imm h
  obtain ⟨hc', ho', hs'⟩ := high_back c o s
  exact ⟨hc.trans hc', ho.trans ho', hs.trans hs', hd.trans (reg_back d), ha.trans (reg_back a),
    hb.trans (reg_back b), assembleA_imm imm h⟩

theorem formB : FormB c o s d a imm (gppcuAssembleInstructionB (c.setWidth 32) o.word (sWord s)
    (d.setWidth 32) (a.setWidth 32) imm) := by
  have h := fitting c o s d a 0
  obtain ⟨hc, ho, hs⟩ := assembleB_high imm h
  obtain ⟨hd, ha⟩ := assembleB_regs imm h
  obtain ⟨hc', ho', hs'⟩ := high_back c o s
  exact ⟨hc.trans hc', ho.trans ho', hs.trans hs', hd.trans (reg_back d), ha.trans (reg_back a),
    assembleB_imm imm h⟩

theorem formC : FormC c o s d imm (gppcuAssembleInstructionC (c.setWidth 32) o.word (sWord s)
    (d.setWidth 32) imm) := by
  have h := fitting c o s d 0 0
  obtain ⟨hc, ho, hs⟩ := assembleC_high imm h
  obtain ⟨hd, himm⟩ := assembleC_fields imm h
  obtain ⟨hc', ho', hs'⟩ := high_back c o s
  exact ⟨hc.trans hc', ho.trans ho', hs.trans hs', hd.trans (reg_back d), himm⟩

end Forms

theorem word_high (k : Build) :
    Instr.cond k.word = k.cond ∧ Instr.opr k.word = k.opr.code ∧ sBit k.word = k.s := by
  cases k with
  | nop => decide
  | arithS c o s d b i =>
    have h := formA c o s d 0 b (i.signExtend 32)
    exact ⟨h.cond, h.opr, h.sBit⟩
  | arith0 c o s d a =>
    have h := formB c o s d a 0
    exact ⟨h.cond, h.opr, h.sBit⟩
  | mvi c s d i =>
    have h := formC c .mvi s d i
    exact ⟨h.cond, h.opr, h.sBit⟩
  | arithA c o s d a b i =>
    have h := formA c o s d a b (i.signExtend 32)
    exact ⟨h.cond, h.opr, h.sBit⟩
  | arithB c o s d a i =>
    have h := formB c o s d a (i.signExtend 32)
    exact ⟨h.cond, h.opr, h.sBit⟩
  | fpArith c o d a b =>
    have h := formA c o false d a b 0
    exact ⟨h.cond, h.opr, h.sBit⟩
  | fp0 c o d a =>
    have h := formA c o false d a 0 0
    exact ⟨h.cond, h.opr, h.sBit⟩
  | ldl c d b i =>
    have h := formA c .ldl false d 0 b (i.setWidth 32)
    exact ⟨h.cond, h.opr, h.sBit⟩
  | stl c a b i =>
    have h := formA c .stl false 0 a b (i.setWidth 32)
    exact ⟨h.cond, h.opr, h.sBit⟩
  | ldci c d i =>
    have h := formC c .ldci false d i
    exact ⟨h.cond, h.opr, h.sBit⟩

theorem word_opr (k : Build) : Instr.opr k.word = k.opr.code := (word_high k).2.1

theorem family_operands (o : Opr) :
    (o.family = .s ∨ o.family = .a → o.controlWord.bsel = 0 ∧ o.controlWord.useRegB = true) ∧
      (o.family = .b → o.controlWord.bsel = 1 ∧ o.controlWord.useRegB = false) ∧
      (o.family = .zero → o.controlWord.useRegB = false) ∧
      (o.controlWord.bsel = 3 → o.family = .none) := by
  cases o <;> simp [Opr.family, Opr.controlWord]

theorem word_regs {k : Build} (hk : k.WellFormed) :
    (k.opr.controlWord.regWr = true → regd k.word = k.rd) ∧
      (k.opr.controlWord.useRegA = true → rega k.word = k.ra) ∧
      (k.opr.controlWord.useRegB = true → regb k.word = k.rb) := by
  cases k with
  | nop => exact ⟨nofun, nofun, nofun⟩
  | arithS c o s d b i =>
    have h := formA c o s d 0 b (i.signExtend 32)
    exact ⟨fun _ => h.regd, fun _ => h.rega, fun _ => h.regb⟩
  | arith0 c o s d a =>
    have h := formB c o s d a 0
    refine ⟨fun _ => h.regd, fun _ => h.rega, fun hu => ?_⟩
    exact absurd (((family_operands o).2.2.1 hk).symm.trans hu) Bool.false_ne_true
  | mvi c s d i => exact ⟨fun _ => (formC c .mvi s d i).regd, nofun, nofun⟩
  | arithA c o s d a b i =>
    have h := formA c o s d a b (i.signExtend 32)
    exact ⟨fun _ => h.regd, fun _ => h.rega, fun _ => h.regb⟩
  | arithB c o s d a i =>
    have h := formB c o s d a (i.signExtend 32)
    refine ⟨fun _ => h.regd, fun _ => h.rega, fun hu => ?_⟩
    exact absurd (((family_operands o).2.1 hk).2.symm.trans hu) Bool.false_ne_true
  | fpArith c o d a b =>
    have h := formA c o false d a b 0
    exact ⟨fun _ => h.regd, fun _ => h.rega, fun _ => h.regb⟩
  | fp0 c o d a =>
    have h := formA c o false d a 0 0
    exact ⟨fun _ => h.regd, fun _ => h.rega, fun _ => h.regb⟩
  | ldl c d b i =>
    have h := formA c .ldl false d 0 b (i.setWidth 32)
    exact ⟨fun _ => h.regd, fun _ => h.rega, fun _ => h.regb⟩
  | stl c a b i =>
    have h := formA c .stl false 0 a b (i.setWidth 32)
    exact ⟨fun _ => h.regd, fun _ => h.rega, fun _ => h.regb⟩
  | ldci c d i => exact ⟨fun _ => (formC c .ldci false d i).regd, nofun, nofun⟩

end Build

/-! ## Host programs -/

/-- `GPPCU_CONDTION`, `COND_ALWAYS` to `COND_LT`. -/
abbrev Cond := Fin 15

abbrev HostReg := Fin 10

-- Their numerals need these, and find the same ones in every module.
instance neZeroCond : NeZero 15 := ⟨by decide⟩
instance neZeroHostReg : NeZero 10 := ⟨by decide⟩

def Cond.code (c : Cond) : BitVec 4 := BitVec.ofNat 4 c.val
def HostReg.code (r : HostReg) : Reg := BitVec.ofNat 5 r.val

abbrev HostInstr := InstrCall Cond HostReg

namespace HostInstr

def build (k : HostInstr) : Build := k.map Cond.code HostReg.code

def word (k : HostInstr) : Word := k.build.word

/-- What the macros of the driver emit: no condition, no S. -/
def Plain (k : HostInstr) : Prop := k.cond = 0 ∧ k.s = false

instance (k : HostInstr) : Decidable k.Plain := inferInstanceAs (Decidable (k.cond = 0 ∧ k.s = false))

theorem toNat_code (r : HostReg) : r.code.toNat = r.val := by
  have hr := r.isLt
  rw [HostReg.code, BitVec.toNat_ofNat, Nat.mod_eq_of_lt (by omega)]

theorem code_inj {d a : HostReg} (h : d.code = a.code) : d = a := by
  have hval := congrArg BitVec.toNat h
  rw [toNat_code, toNat_code] at hval
  exact Fin.ext hval

theorem word_cond (k : HostInstr) : Instr.cond k.word = k.cond.code := by
  rw [word, (Build.word_high _).1, build, InstrCall.cond_map Cond.code HostReg.code k rfl]

theorem word_opr (k : HostInstr) : Instr.opr k.word = k.opr.code := by
  rw [word, Build.word_opr, build, InstrCall.opr_map]

theorem word_cw (k : HostInstr) : cw k.word = k.opr.controlWord := cw_of_code (word_opr k)

theorem word_sBit (k : HostInstr) : sBit k.word = k.s := by
  rw [word, (Build.word_high _).2.2, build, InstrCall.s_map]

theorem word_regs {k : HostInstr} (hk : k.WellFormed) :
    (k.opr.controlWord.regWr = true → regd k.word = k.rd.code) ∧
      (k.opr.controlWord.useRegA = true → rega k.word = k.ra.code) ∧
      (k.opr.controlWord.useRegB = true → regb k.word = k.rb.code) := by
  have h := Build.word_regs (k := k.build) ((InstrCall.wellFormed_map ..).mpr hk)
  obtain ⟨hd, ha, hb⟩ := InstrCall.regs_map Cond.code HostReg.code k rfl
  rw [build, InstrCall.opr_map, hd, ha, hb] at h
  exact h

end HostInstr

end Gppcu
