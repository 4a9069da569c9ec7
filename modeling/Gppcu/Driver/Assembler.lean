import Gppcu.Driver.Builders
import Mathlib.Tactic.SplitIfs

/-!
# The assembler and the decoder

Every function of `gppcu.h` that builds an instruction, over all registers and
conditions, and what the decoder reads out of its word. The fields come back as
they were given. An immediate does not when its sign or its top bit is set: the
macros cut it to its field and the operand multiplexer fills up with zeros.
-/

namespace Gppcu

open Instr

namespace Build

/-! ## What the caller passed -/

def imm? : Build → Option Int
  | .arithS _ _ _ _ _ imm7 | .arithA _ _ _ _ _ _ imm7 => some imm7.toInt
  | .mvi _ _ _ imm17 => some imm17.toInt
  | .arithB _ _ _ _ _ imm12 => some imm12.toInt
  | .fpArith .. => some 0
  | .ldl _ _ _ ofst | .stl _ _ _ ofst => some ofst.toNat
  | .nop | .arith0 .. | .fp0 .. | .ldci .. => none

def constant? : Build → Option Word
  | .ldci _ _ addr => some addr
  | _ => none

/-- The immediate is one that the field has room for, signed where the parameter is. -/
def Admitted : Build → Prop
  | .arithS _ _ _ _ _ imm7 | .arithA _ _ _ _ _ _ imm7 => -64 ≤ imm7.toInt ∧ imm7.toInt ≤ 63
  | .mvi _ _ _ imm17 => -65536 ≤ imm17.toInt ∧ imm17.toInt ≤ 65535
  | .arithB _ _ _ _ _ imm12 => -2048 ≤ imm12.toInt ∧ imm12.toInt ≤ 2047
  | .ldci _ _ addr => addr.toNat < 2 ^ 17
  | .nop | .arith0 .. | .fpArith .. | .fp0 .. | .ldl .. | .stl .. => True

def Unsigned : Build → Prop
  | .arithS _ _ _ _ _ imm7 | .arithA _ _ _ _ _ _ imm7 => 0 ≤ imm7.toInt
  | .mvi _ _ _ imm17 => 0 ≤ imm17.toInt
  | .arithB _ _ _ _ _ imm12 => 0 ≤ imm12.toInt
  | .ldl _ _ _ ofst | .stl _ _ _ ofst => ofst.toNat < 2 ^ 7
  | .nop | .arith0 .. | .fpArith .. | .fp0 .. | .ldci .. => True

/-! ## What the hardware reads -/

/-- The decoder finds what the caller passed in the fields that the opcode uses. -/
structure ReadsFields (k : Build) : Prop where
  cond : Instr.cond k.word = k.cond
  opr : Instr.opr k.word = k.opr.code
  sBit : sBit k.word = k.s
  regd : k.opr.controlWord.regWr = true → regd k.word = k.rd
  rega : k.opr.controlWord.useRegA = true → rega k.word = k.ra
  regb : k.opr.controlWord.useRegB = true → regb k.word = k.rb
  gmemAddr : ∀ addr, k.constant? = some addr → (imm2 k.word).setWidth 32 = addr

/-- And operand B is the register, if there is one, with the immediate. -/
structure Agrees (k : Build) : Prop extends ReadsFields k where
  oprB : ∀ imm, k.imm? = some imm → ∀ regB gdata, decOprBMux (cw k.word) k.word regB gdata =
    (if k.opr.controlWord.useRegB then regB else 0) + BitVec.ofInt 32 imm

/-! ## Immediates -/

section Immediates

variable {x : Word} {n : Nat}

theorem zeroFill_iff : (x.setWidth n).setWidth 32 = x ↔ x.toNat < 2 ^ n := by
  rw [← BitVec.toNat_inj, BitVec.toNat_setWidth, BitVec.toNat_setWidth]
  have hx := x.isLt
  constructor
  · intro h
    rw [← h]
    exact Nat.lt_of_le_of_lt (Nat.mod_le _ _) (Nat.mod_lt _ (Nat.two_pow_pos n))
  · intro h
    rw [Nat.mod_eq_of_lt h, Nat.mod_eq_of_lt hx]

theorem unsigned_iff (hn : n ≤ 31) (h : x.toInt < 2 ^ n) : x.toNat < 2 ^ n ↔ 0 ≤ x.toInt := by
  have hx := x.isLt
  have hpow : 2 ^ n ≤ 2 ^ 31 := Nat.pow_le_pow_right (by omega) hn
  have hcast : ((2 ^ n : Nat) : Int) = 2 ^ n := by push_cast; rfl
  rw [← hcast] at h
  rw [BitVec.toInt_eq_toNat_cond] at *
  split_ifs at * <;> omega

theorem signExtend_unsigned {m : Nat} (y : BitVec m) (hm : m ≤ 32) (hn : n ≤ 31) (h : y.toInt < 2 ^ n) :
    (y.signExtend 32).toNat < 2 ^ n ↔ 0 ≤ y.toInt := by
  have hy := BitVec.toInt_signExtend_of_le (x := y) hm
  rw [unsigned_iff hn (by rwa [hy]), hy]

end Immediates

/-! ## Operand B -/

def ReadsImm (k : Build) (n : Nat) (x : Word) : Prop := ∀ regB gdata,
  decOprBMux (cw k.word) k.word regB gdata =
    (if k.opr.controlWord.useRegB then regB else 0) + (x.setWidth n).setWidth 32

section Operand

variable {k : Build} {x : Word} {n : Nat}

theorem FormA.readsImm (h : FormA k.cond k.opr k.s k.rd k.ra k.rb x k.word)
    (hb : k.opr.controlWord.bsel = 0) (hu : k.opr.controlWord.useRegB = true) : k.ReadsImm 7 x := by
  intro regB gdata
  unfold decOprBMux
  rw [cw_of_code h.opr, hb, h.imm7, hu]
  rfl

theorem FormB.readsImm (h : FormB k.cond k.opr k.s k.rd k.ra x k.word)
    (hb : k.opr.controlWord.bsel = 1) (hu : k.opr.controlWord.useRegB = false) : k.ReadsImm 12 x := by
  intro regB gdata
  unfold decOprBMux
  rw [cw_of_code h.opr, hb, h.imm12, hu]
  exact (BitVec.zero_add _).symm

theorem FormC.readsImm (h : FormC k.cond k.opr k.s k.rd x k.word)
    (hb : k.opr.controlWord.bsel = 2) (hu : k.opr.controlWord.useRegB = false) : k.ReadsImm 17 x := by
  intro regB gdata
  unfold decOprBMux
  rw [cw_of_code h.opr, hb, h.imm17, hu]
  exact (BitVec.zero_add _).symm

theorem ReadsImm.agrees_imm (h : k.ReadsImm n x) (hf : k.ReadsFields) {i : Int} (himm : k.imm? = some i)
    (hx : BitVec.ofInt 32 i = x) : k.Agrees ↔ x.toNat < 2 ^ n := by
  rw [← zeroFill_iff]
  constructor
  · intro hk
    have hb := hk.oprB i himm 0 0
    rw [h, hx] at hb
    exact (BitVec.add_right_inj _).mp hb
  · intro hfill
    refine ⟨hf, fun j hj regB gdata => ?_⟩
    obtain rfl := Option.some.inj (himm.symm.trans hj)
    rw [h, hx, hfill]

theorem ReadsFields.agrees (hf : k.ReadsFields) (himm : k.imm? = none) : k.Agrees := by
  refine ⟨hf, fun j hj => ?_⟩
  rw [himm] at hj
  cases hj

end Operand

/-! ## Every builder -/

theorem readsFields {k : Build} (hk : k.WellFormed) (hadm : k.Admitted) : k.ReadsFields := by
  obtain ⟨hcond, hopr, hs⟩ := word_high k
  obtain ⟨hd, ha, hb⟩ := word_regs hk
  refine ⟨hcond, hopr, hs, hd, ha, hb, fun addr haddr => ?_⟩
  cases k with
  | ldci c d addr' =>
    obtain rfl := Option.some.inj haddr
    rw [show imm2 (word (.ldci c d addr')) = addr'.setWidth 17 from (formC c .ldci false d addr').imm17]
    exact zeroFill_iff.mpr hadm
  | _ => cases haddr

/-- Assembler and decoder agree on every word but those with a negative immediate or an offset
above 127. -/
theorem agrees_iff {k : Build} (hk : k.WellFormed) (hadm : k.Admitted) : k.Agrees ↔ k.Unsigned := by
  have hf := readsFields hk hadm
  cases k with
  | nop | arith0 | fp0 | ldci => exact iff_of_true (hf.agrees rfl) trivial
  | arithS c o s d b i =>
    obtain ⟨hb, hu⟩ := (family_operands o).1 (Or.inl hk)
    have h := FormA.readsImm (k := .arithS c o s d b i) (formA c o s d 0 b (i.signExtend 32)) hb hu
    exact (h.agrees_imm hf rfl rfl).trans
      (signExtend_unsigned i (by omega) (by omega) (by have := hadm.2; omega))
  | arithA c o s d a b i =>
    obtain ⟨hb, hu⟩ := (family_operands o).1 (Or.inr hk)
    have h := FormA.readsImm (k := .arithA c o s d a b i) (formA c o s d a b (i.signExtend 32)) hb hu
    exact (h.agrees_imm hf rfl rfl).trans
      (signExtend_unsigned i (by omega) (by omega) (by have := hadm.2; omega))
  | arithB c o s d a i =>
    obtain ⟨hb, hu⟩ := (family_operands o).2.1 hk
    have h := FormB.readsImm (k := .arithB c o s d a i) (formB c o s d a (i.signExtend 32)) hb hu
    exact (h.agrees_imm hf rfl rfl).trans
      (signExtend_unsigned i (by omega) (by omega) (by have := hadm.2; omega))
  | mvi c s d i =>
    have h := FormC.readsImm (k := .mvi c s d i) (formC c .mvi s d i) rfl rfl
    exact (h.agrees_imm hf rfl (BitVec.ofInt_toInt)).trans
      (unsigned_iff (by omega) (by have := hadm.2; omega))
  | fpArith c o d a b =>
    obtain ⟨hb, hu⟩ := (family_operands o).1 (Or.inr hk)
    have h := FormA.readsImm (k := .fpArith c o d a b) (formA c o false d a b 0) hb hu
    exact (h.agrees_imm hf rfl rfl).trans (iff_of_true (by decide) trivial)
  | ldl c d b i =>
    have h := FormA.readsImm (k := .ldl c d b i) (formA c .ldl false d 0 b (i.setWidth 32)) rfl rfl
    rw [h.agrees_imm hf rfl (by simp), BitVec.toNat_setWidth_of_le (by omega)]
    rfl
  | stl c a b i =>
    have h := FormA.readsImm (k := .stl c a b i) (formA c .stl false 0 a b (i.setWidth 32)) rfl rfl
    rw [h.agrees_imm hf rfl (by simp), BitVec.toNat_setWidth_of_le (by omega)]
    rfl

theorem agrees_five : Agrees (.arithB 0 .adi false 1 1 5) :=
  (agrees_iff (k := .arithB 0 .adi false 1 1 5) rfl ⟨by decide, by decide⟩).mpr
    (show 0 ≤ (5 : BitVec 16).toInt by decide)

theorem not_agrees_minus : InstrCall.WellFormed (.arithB 0 .adi false 1 1 (-1) : Build) ∧
    Admitted (.arithB 0 .adi false 1 1 (-1)) ∧ ¬Agrees (.arithB 0 .adi false 1 1 (-1)) := by
  refine ⟨rfl, ⟨by decide, by decide⟩, fun h => ?_⟩
  have hb := h.oprB (-1) (by decide) 0 0
  revert hb
  decide

end Build

end Gppcu
