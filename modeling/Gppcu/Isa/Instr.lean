import Mathlib.Logic.Function.Basic

/-!
# The instruction word

`GPPCU_PARAMETERS.vh`, `GPPCU_INSTR_DEC`, `GPPCU_ALU` and `GPPCU_COND_VERIFIER`:
what the device reads out of one word, with no pipeline in it.
-/

namespace Gppcu

abbrev Word := BitVec 32
abbrev Reg := BitVec 5

/-! ## Fields: the `INSTR_*` positions -/

namespace Instr

def imm0 (w : Word) : BitVec 7 := w.extractLsb' 5 7
def imm1 (w : Word) : BitVec 12 := w.extractLsb' 0 12
def imm2 (w : Word) : BitVec 17 := w.extractLsb' 0 17
def regb (w : Word) : Reg := w.extractLsb' 0 5
def rega (w : Word) : Reg := w.extractLsb' 12 5
def regd (w : Word) : Reg := w.extractLsb' 17 5
def sBit (w : Word) : Bool := w.getLsbD 22
def opr (w : Word) : BitVec 5 := w.extractLsb' 23 5
def cond (w : Word) : BitVec 4 := w.extractLsb' 28 4

end Instr

/-! ## Opcodes -/

inductive Opr
  | nop | mov | mvn | adc | sbc | and | orr | xor | adi | sbi | mvi | lsl | lsr | asr
  | itof | ftoi | fmul | fdiv | fadd | fsub | fneg | fsqrt | ldl | ldci | stl
  deriving DecidableEq, Repr

def Opr.code : Opr → BitVec 5
  | .nop => 0 | .mov => 1 | .mvn => 2 | .adc => 3 | .sbc => 4 | .and => 5 | .orr => 6
  | .xor => 7 | .adi => 8 | .sbi => 9 | .mvi => 10 | .lsl => 11 | .lsr => 12 | .asr => 13
  | .itof => 14 | .ftoi => 15 | .fmul => 16 | .fdiv => 17 | .fadd => 18 | .fsub => 19
  | .fneg => 20 | .fsqrt => 21 | .ldl => 22 | .ldci => 23 | .stl => 24

def Opr.ofCode (c : BitVec 5) : Option Opr :=
  match c.toNat with
  | 0 => some .nop | 1 => some .mov | 2 => some .mvn | 3 => some .adc | 4 => some .sbc
  | 5 => some .and | 6 => some .orr | 7 => some .xor | 8 => some .adi | 9 => some .sbi
  | 10 => some .mvi | 11 => some .lsl | 12 => some .lsr | 13 => some .asr
  | 14 => some .itof | 15 => some .ftoi | 16 => some .fmul | 17 => some .fdiv
  | 18 => some .fadd | 19 => some .fsub | 20 => some .fneg | 21 => some .fsqrt
  | 22 => some .ldl | 23 => some .ldci | 24 => some .stl
  | _ => none

@[simp] theorem Opr.ofCode_code (o : Opr) : Opr.ofCode o.code = some o := by
  cases o <;> rfl

theorem Opr.code_of_ofCode {c : BitVec 5} {o : Opr} (h : Opr.ofCode c = some o) : o.code = c := by
  revert h
  revert c
  cases o <;> decide

/-! ## The decoder -/

/-- The control word, without `CW_VALID`: the core keeps the valid bits apart. -/
structure ControlWord where
  useRegA : Bool
  useRegB : Bool
  fpOp : Bool
  alOp : Bool
  lmemRd : Bool
  lmemWr : Bool
  fpOpc : BitVec 4
  alOpc : BitVec 4
  bsel : BitVec 2
  gmemRd : Bool
  regWr : Bool
  deriving DecidableEq, Repr

def ControlWord.fpuN (cw : ControlWord) : BitVec 3 := cw.fpOpc.setWidth 3

/-- The `case` of `GPPCU_INSTR_DEC`. A don't-care bit (`x`) of the source is 0 here. -/
def Opr.controlWord : Opr → ControlWord
  | .nop   => ⟨false, false, false, false, false, false, 0b0000, 0b0000, 0b00, false, false⟩
  | .mov   => ⟨false, true,  false, true,  false, false, 0b0000, 0b0001, 0b00, false, true⟩
  | .mvn   => ⟨false, true,  false, true,  false, false, 0b0000, 0b0010, 0b00, false, true⟩
  | .adc   => ⟨true,  true,  false, true,  false, false, 0b0000, 0b0011, 0b00, false, true⟩
  | .sbc   => ⟨true,  true,  false, true,  false, false, 0b0000, 0b0100, 0b00, false, true⟩
  | .and   => ⟨true,  true,  false, true,  false, false, 0b0000, 0b0101, 0b00, false, true⟩
  | .orr   => ⟨true,  true,  false, true,  false, false, 0b0000, 0b0110, 0b00, false, true⟩
  | .xor   => ⟨true,  true,  false, true,  false, false, 0b0000, 0b0111, 0b00, false, true⟩
  | .adi   => ⟨true,  false, false, true,  false, false, 0b0000, 0b1000, 0b01, false, true⟩
  | .sbi   => ⟨true,  false, false, true,  false, false, 0b0000, 0b1001, 0b01, false, true⟩
  | .mvi   => ⟨false, false, false, true,  false, false, 0b0000, 0b0001, 0b10, false, true⟩
  | .lsl   => ⟨true,  false, false, true,  false, false, 0b0000, 0b1011, 0b00, false, true⟩
  | .lsr   => ⟨true,  false, false, true,  false, false, 0b0000, 0b1100, 0b00, false, true⟩
  | .asr   => ⟨true,  false, false, true,  false, false, 0b0000, 0b1101, 0b00, false, true⟩
  | .itof  => ⟨true,  false, true,  false, false, false, 0b0010, 0b0000, 0b00, false, true⟩
  | .ftoi  => ⟨true,  false, true,  false, false, false, 0b0001, 0b0000, 0b00, false, true⟩
  | .fmul  => ⟨true,  true,  true,  false, false, false, 0b0100, 0b0000, 0b00, false, true⟩
  | .fdiv  => ⟨true,  true,  true,  false, false, false, 0b0111, 0b0000, 0b00, false, true⟩
  | .fadd  => ⟨true,  true,  true,  false, false, false, 0b0101, 0b0000, 0b00, false, true⟩
  | .fsub  => ⟨true,  true,  true,  false, false, false, 0b0110, 0b0000, 0b00, false, true⟩
  | .fneg  => ⟨false, false, true,  false, false, false, 0b0000, 0b0000, 0b00, false, false⟩
  | .fsqrt => ⟨true,  false, true,  false, false, false, 0b0011, 0b0000, 0b00, false, true⟩
  | .ldl   => ⟨false, true,  false, false, true,  false, 0b0000, 0b0000, 0b00, false, true⟩
  | .ldci  => ⟨false, false, false, true,  false, false, 0b0000, 0b0001, 0b11, true,  true⟩
  | .stl   => ⟨true,  true,  false, false, false, true,  0b0000, 0b0000, 0b00, false, false⟩

/-- `GPPCU_INSTR_DEC`. An opcode above `STL` decodes to all zeros. -/
def gppcuInstrDec (iOPC : BitVec 5) : ControlWord :=
  match Opr.ofCode iOPC with
  | some o => o.controlWord
  | none => Opr.controlWord .nop

def Instr.cw (w : Word) : ControlWord := gppcuInstrDec (opr w)

/-- Every control word is that of an opcode, so a case split on opcodes covers all words. -/
theorem Instr.cw_cases (w : Word) :
    ∃ o : Opr, cw w = o.controlWord ∧ (Opr.ofCode (opr w) = some o ∨
      (Opr.ofCode (opr w) = none ∧ o = .nop)) := by
  unfold cw gppcuInstrDec
  cases h : Opr.ofCode (opr w) with
  | none => exact ⟨.nop, rfl, Or.inr ⟨rfl, rfl⟩⟩
  | some o => exact ⟨o, rfl, Or.inl rfl⟩

theorem Instr.cw_of_code {w : Word} {o : Opr} (h : opr w = o.code) : cw w = o.controlWord := by
  simp [cw, gppcuInstrDec, h]

/-! ## The ALU -/

/-- `exec_sreg`. Bit 4 (`SREG_RESERVED`) has no driver and no reader. -/
structure Sreg where
  v : Bool
  c : Bool
  n : Bool
  z : Bool
  deriving DecidableEq, Repr

/-- `{oC, oQ}` of `GPPCU_ALU`, 33 bits wide. The source has no case for 14 and 15, and no
control word asks for them. -/
def aluCQ (iA iB : Word) (iC : Bool) (iOP : BitVec 4) : BitVec 33 :=
  match iOP.toNat with
  | 0 => 0
  | 1 => iB.setWidth 33
  | 2 => 1#1 ++ ~~~iB
  | 3 => iA.setWidth 33 + iB.setWidth 33 + (BitVec.ofBool iC).setWidth 33
  | 4 => iA.setWidth 33 - iB.setWidth 33 - (BitVec.ofBool iC).setWidth 33
  | 5 => (iA &&& iB).setWidth 33
  | 6 => (iA ||| iB).setWidth 33
  | 7 => (iA ^^^ iB).setWidth 33
  | 8 => iA.setWidth 33 + iB.setWidth 33
  | 9 => iA.setWidth 33 - iB.setWidth 33
  | 10 => iB.setWidth 33
  | 11 => (iA <<< 1).setWidth 33
  | 12 => (iA >>> 1).setWidth 33
  | 13 => (iA.sshiftRight 1).setWidth 33
  | _ => 0

def aluQ (iA iB : Word) (iC : Bool) (iOP : BitVec 4) : Word := (aluCQ iA iB iC iOP).setWidth 32

def aluSreg (iA iB : Word) (iC : Bool) (iOP : BitVec 4) : Sreg :=
  let oQ := aluQ iA iB iC iOP
  { v := !(iA.msb ^^ iB.msb) && (iA.msb ^^ oQ.msb)
    c := (aluCQ iA iB iC iOP).msb
    n := oQ.msb
    z := oQ == 0 }

/-! ## Conditions -/

/-- `GPPCU_COND_VERIFIER`. `COND_RESERVED` (15) has no case in the source. -/
def gppcuCondVerifier (iCOND : BitVec 4) (iSREG : Sreg) : Bool :=
  let ⟨sv, sc, sn, sz⟩ := iSREG
  match iCOND.toNat with
  | 0 => true
  | 1 => false
  | 2 => sc
  | 3 => !sc
  | 4 => sz
  | 5 => !sz
  | 6 => sv
  | 7 => !sv
  | 8 => sn
  | 9 => !sn
  | 10 => (!sv && sn) || (sv && sc)
  | 11 => (!sv && !sn) || (sv && !sc)
  | 12 => !sc && sz
  | 13 => (!sv && !sn) || (sv && !sc)
  | 14 => (!sv && sn) || (sv && sc)
  | _ => false

end Gppcu
