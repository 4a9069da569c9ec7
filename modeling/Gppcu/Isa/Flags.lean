import Gppcu.Isa.Instr
import Mathlib.Algebra.Group.Int.Defs
import Mathlib.Algebra.Group.Nat.Defs
import Mathlib.Tactic.SplitIfs

/-!
# Signed conditions

The flags of `GPPCU_ALU` and the signed conditions of `GPPCU_COND_VERIFIER`.
One formula for `oV` serves additions and subtractions, and it is the one of an
addition: a difference that does not fit 32 bits gets the wrong sign.
-/

namespace Gppcu

def COND_NEG : BitVec 4 := 10
def COND_POS : BitVec 4 := 11
def COND_EQ : BitVec 4 := 12
def COND_GR : BitVec 4 := 13
def COND_LT : BitVec 4 := 14

/-! ## Sums and differences -/

/-- The opcodes whose flags are those of a sum or a difference. -/
inductive ArithOpr
  | adc | adi | sbc | sbi
  deriving DecidableEq

namespace ArithOpr

def opr : ArithOpr → Opr
  | adc => .adc
  | adi => .adi
  | sbc => .sbc
  | sbi => .sbi

def alOpc (o : ArithOpr) : BitVec 4 := o.opr.controlWord.alOpc

def subtracts : ArithOpr → Bool
  | sbc | sbi => true
  | adc | adi => false

def carryIn : ArithOpr → Bool → Nat
  | adc, C | sbc, C => C.toNat
  | adi, _ | sbi, _ => 0

/-- The mathematical result, of the operands as signed numbers. -/
def exact (o : ArithOpr) (A B : Word) (C : Bool) : Int :=
  if o.subtracts then A.toInt - B.toInt - o.carryIn C else A.toInt + B.toInt + o.carryIn C

theorem carryIn_le (o : ArithOpr) (C : Bool) : o.carryIn C ≤ 1 := by
  cases o <;> cases C <;> decide

theorem aluCQ_toNat (o : ArithOpr) (A B : Word) (C : Bool) : (aluCQ A B C o.alOpc).toNat =
    if o.subtracts then (2 ^ 33 + A.toNat - B.toNat - o.carryIn C) % 2 ^ 33
    else A.toNat + B.toNat + o.carryIn C := by
  have hA := A.isLt
  have hB := B.isLt
  cases o <;> cases C <;>
    simp [alOpc, opr, Opr.controlWord, aluCQ, subtracts, carryIn, BitVec.toNat_add, BitVec.toNat_sub] <;>
    omega

theorem aluQ_toNat (o : ArithOpr) (A B : Word) (C : Bool) : (aluQ A B C o.alOpc).toNat =
    if o.subtracts then (2 ^ 32 + A.toNat - B.toNat - o.carryIn C) % 2 ^ 32
    else (A.toNat + B.toNat + o.carryIn C) % 2 ^ 32 := by
  have hA := A.isLt
  have hB := B.isLt
  have hC := o.carryIn_le C
  unfold aluQ
  rw [BitVec.toNat_setWidth, aluCQ_toNat]
  split_ifs
  · omega
  · rfl

theorem aluSreg_c (o : ArithOpr) (A B : Word) (C : Bool) : (aluSreg A B C o.alOpc).c =
    if o.subtracts then decide (A.toNat < B.toNat + o.carryIn C)
    else decide (2 ^ 32 ≤ A.toNat + B.toNat + o.carryIn C) := by
  have hA := A.isLt
  have hB := B.isLt
  have hC := o.carryIn_le C
  unfold aluSreg
  simp only
  rw [BitVec.msb_eq_decide, aluCQ_toNat]
  split_ifs
  · simp only [decide_eq_decide]
    omega
  · rfl

end ArithOpr

/-! ## The conditions -/

theorem condVerifier_pos (s : Sreg) : gppcuCondVerifier COND_POS s = !gppcuCondVerifier COND_NEG s ∧
    gppcuCondVerifier COND_GR s = !gppcuCondVerifier COND_NEG s ∧
    gppcuCondVerifier COND_LT s = gppcuCondVerifier COND_NEG s := by
  obtain ⟨v, c, n, z⟩ := s
  revert v c n z
  decide

theorem condVerifier_neg (s : Sreg) :
    gppcuCondVerifier COND_NEG s = if s.v then s.c else s.n := by
  obtain ⟨v, c, n, z⟩ := s
  revert v c n z
  decide

namespace ArithOpr

variable (o : ArithOpr) (A B : Word) (C : Bool)

def Fits : Prop := -2 ^ 31 ≤ o.exact A B C ∧ o.exact A B C < 2 ^ 31

instance : Decidable (o.Fits A B C) :=
  inferInstanceAs (Decidable (-2 ^ 31 ≤ o.exact A B C ∧ o.exact A B C < 2 ^ 31))

theorem neg_sum (h : o.subtracts = false) :
    gppcuCondVerifier COND_NEG (aluSreg A B C o.alOpc) = decide (o.exact A B C < 0) := by
  have hA := A.isLt
  have hB := B.isLt
  have hC := o.carryIn_le C
  rw [condVerifier_neg, aluSreg_c, exact, h]
  unfold aluSreg
  simp only [BitVec.msb_eq_decide, aluQ_toNat, h, BitVec.toInt_eq_toNat_cond, Bool.false_eq_true,
    if_false, Nat.reducePow, Nat.reduceSub]
  by_cases hsA : 2147483648 ≤ A.toNat <;> by_cases hsB : 2147483648 ≤ B.toNat <;>
    by_cases hsQ : 2147483648 ≤ (A.toNat + B.toNat + o.carryIn C) % 4294967296 <;>
    simp [hsA, hsB, hsQ] <;> omega

theorem neg_difference (h : o.subtracts = true) :
    gppcuCondVerifier COND_NEG (aluSreg A B C o.alOpc) = decide (o.exact A B C < 0) ↔ o.Fits A B C := by
  have hA := A.isLt
  have hB := B.isLt
  have hC := o.carryIn_le C
  rw [condVerifier_neg, aluSreg_c, Fits, exact, h]
  unfold aluSreg
  simp only [BitVec.msb_eq_decide, aluQ_toNat, h, BitVec.toInt_eq_toNat_cond, if_true, Nat.reducePow,
    Nat.reduceSub]
  by_cases hsA : 2147483648 ≤ A.toNat <;> by_cases hsB : 2147483648 ≤ B.toNat <;>
    by_cases hsQ : 2147483648 ≤ (4294967296 + A.toNat - B.toNat - o.carryIn C) % 4294967296 <;>
    simp [hsA, hsB, hsQ] <;> omega

/-- What the conditions say behind an instruction with S. -/
structure CondsMean : Prop where
  neg : gppcuCondVerifier COND_NEG (aluSreg A B C o.alOpc) = true ↔ o.exact A B C < 0
  lt : gppcuCondVerifier COND_LT (aluSreg A B C o.alOpc) = true ↔ o.exact A B C < 0
  pos : gppcuCondVerifier COND_POS (aluSreg A B C o.alOpc) = true ↔ 0 ≤ o.exact A B C
  gr : gppcuCondVerifier COND_GR (aluSreg A B C o.alOpc) = true ↔ 0 ≤ o.exact A B C
  eq : o = sbi → (gppcuCondVerifier COND_EQ (aluSreg A B C o.alOpc) = true ↔ A = B)

theorem eq_sbi : gppcuCondVerifier COND_EQ (aluSreg A B C sbi.alOpc) = true ↔ A = B := by
  have hA := A.isLt
  have hB := B.isLt
  have hz : (aluSreg A B C sbi.alOpc).z = decide ((aluQ A B C sbi.alOpc).toNat = 0) := by
    rw [Bool.eq_iff_iff, decide_eq_true_iff]
    unfold aluSreg
    simp only [beq_iff_eq]
    rw [← BitVec.toNat_inj]
    rfl
  have hq : sbi.subtracts = true ∧ sbi.carryIn C = 0 := ⟨rfl, rfl⟩
  change (!(aluSreg A B C sbi.alOpc).c && (aluSreg A B C sbi.alOpc).z) = true ↔ A = B
  rw [aluSreg_c, hz, aluQ_toNat, hq.1, hq.2, ← BitVec.toNat_inj]
  simp only [if_true, Bool.and_eq_true, Bool.not_eq_true', decide_eq_false_iff_not, decide_eq_true_eq]
  omega

theorem condsMean_of_neg
    (h : gppcuCondVerifier COND_NEG (aluSreg A B C o.alOpc) = decide (o.exact A B C < 0)) :
    o.CondsMean A B C := by
  obtain ⟨hpos, hgr, hlt⟩ := condVerifier_pos (aluSreg A B C o.alOpc)
  constructor
  · simp [h]
  · simp [hlt, h]
  · simp [hpos, h]
  · simp [hgr, h]
  · rintro rfl
    exact eq_sbi A B C

/-- Signed conditions mean what they say behind every sum, and behind a difference exactly when it
fits 32 bits. -/
theorem conds_mean_iff : o.CondsMean A B C ↔ (o.subtracts = true → o.Fits A B C) := by
  constructor
  · intro h hs
    rw [← neg_difference o A B C hs, Bool.eq_iff_iff, decide_eq_true_iff]
    exact h.neg
  · intro h
    apply condsMean_of_neg
    cases hs : o.subtracts with
    | false => exact neg_sum o A B C hs
    | true => exact (neg_difference o A B C hs).mpr (h hs)

end ArithOpr

theorem conds_not_mean : ¬ ArithOpr.sbi.CondsMean 0x80000000 1 false := by
  intro h
  have hneg := h.neg
  revert hneg
  decide

end Gppcu
