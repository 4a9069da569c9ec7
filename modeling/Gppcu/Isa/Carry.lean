import Gppcu.Isa.Flags
import Gppcu.Isa.Machine
import Gppcu.Lib.Limbs

/-!
# Numbers of several words

`ADC` and `SBC` hand the carry, or the borrow, on in the status register. With
one instruction for each limb they add and subtract numbers of any length.
-/

namespace Gppcu

open Instr

structure LimbWord (o : ArithOpr) (w : Word) : Prop where
  opr : opr w = o.opr.code
  cond : cond w = 0
  sBit : sBit w = true
  imm7 : imm0 w = 0

/-- The number whose limbs are these, the least significant one first. -/
def limbsNat (ws : List Word) : Nat := Nat.ofDigits (2 ^ 32) (ws.map BitVec.toNat)

section Runs

variable (F : Fpu) (g : BitVec 17 → Word)

/-- One instruction for each pair of limbs, in order, and what each one writes. Between two of them
the registers may be loaded as the program likes, but the flags stay. -/
inductive LimbRun (o : ArithOpr) : Sreg → List Word → List Word → List Word → Sreg → Prop
  | nil (s : Sreg) : LimbRun o s [] [] [] s
  | cons {m : Machine Reg} {w : Word} {as bs qs : List Word} {s' : Sreg} : LimbWord o w →
    LimbRun o (Machine.exec F id g m w).sreg as bs qs s' →
      LimbRun o m.sreg (m.regs (rega w) :: as) (m.regs (regb w) :: bs)
        ((Machine.exec F id g m w).regs (regd w) :: qs) s'

/-! ## One limb -/

section Limb

variable {o : ArithOpr} {w : Word} (hw : LimbWord o w) (ho : o = .adc ∨ o = .sbc) (m : Machine Reg)

include hw ho

theorem limb_oprB (gdata : Word) : Machine.oprB id gdata w m = m.regs (regb w) := by
  have hb : o.opr.controlWord.bsel = 0 := by
    rcases ho with rfl | rfl <;> rfl
  unfold Machine.oprB decOprBMux
  rw [cw_of_code hw.opr, hb, hw.imm7]
  simp

theorem limb_exec : (Machine.exec F id g m w).regs (regd w) =
      aluQ (m.regs (rega w)) (m.regs (regb w)) m.sreg.c o.alOpc ∧
    (Machine.exec F id g m w).sreg =
      aluSreg (m.regs (rega w)) (m.regs (regb w)) m.sreg.c o.alOpc := by
  have hcw : o.opr.controlWord.regWr = true ∧ o.opr.controlWord.lmemRd = false ∧
      o.opr.controlWord.fpOp = false := by
    rcases ho with rfl | rfl <;> exact ⟨rfl, rfl, rfl⟩
  rw [Machine.exec_always F id g m hw.cond, limb_oprB hw ho, cw_of_code hw.opr, hw.sBit]
  simp [resultOf, flagsOf, hcw, Machine.oprA, ArithOpr.alOpc]

end Limb

theorem adc_limb (A B : Word) (C : Bool) :
    (aluQ A B C ArithOpr.adc.alOpc).toNat + 2 ^ 32 * (aluSreg A B C ArithOpr.adc.alOpc).c.toNat =
      A.toNat + B.toNat + C.toNat := by
  have hA := A.isLt
  have hB := B.isLt
  have hC := Bool.toNat_le C
  have hq : (aluQ A B C ArithOpr.adc.alOpc).toNat = (A.toNat + B.toNat + C.toNat) % 2 ^ 32 :=
    ArithOpr.adc.aluQ_toNat A B C
  have hc : (aluSreg A B C ArithOpr.adc.alOpc).c = decide (2 ^ 32 ≤ A.toNat + B.toNat + C.toNat) :=
    ArithOpr.adc.aluSreg_c A B C
  rw [hq, hc]
  by_cases h : 2 ^ 32 ≤ A.toNat + B.toNat + C.toNat
  · rw [decide_eq_true h, Bool.toNat_true]
    omega
  · rw [decide_eq_false h, Bool.toNat_false]
    omega

theorem sbc_limb (A B : Word) (C : Bool) :
    A.toNat + 2 ^ 32 * (aluSreg A B C ArithOpr.sbc.alOpc).c.toNat =
      B.toNat + (aluQ A B C ArithOpr.sbc.alOpc).toNat + C.toNat := by
  have hA := A.isLt
  have hB := B.isLt
  have hC := Bool.toNat_le C
  have hq : (aluQ A B C ArithOpr.sbc.alOpc).toNat =
      (2 ^ 32 + A.toNat - B.toNat - C.toNat) % 2 ^ 32 := ArithOpr.sbc.aluQ_toNat A B C
  have hc : (aluSreg A B C ArithOpr.sbc.alOpc).c = decide (A.toNat < B.toNat + C.toNat) :=
    ArithOpr.sbc.aluSreg_c A B C
  rw [hq, hc]
  by_cases h : A.toNat < B.toNat + C.toNat
  · rw [decide_eq_true h, Bool.toNat_true]
    omega
  · rw [decide_eq_false h, Bool.toNat_false]
    omega

/-! ## The whole chain -/

variable {F g} {s s' : Sreg} {as bs qs : List Word}

theorem LimbRun.adc_carries (h : LimbRun F g .adc s as bs qs s') :
    ∃ cols, cols.map (·.1) = as.map BitVec.toNat ∧ cols.map (·.2.1) = bs.map BitVec.toNat ∧
      cols.map (·.2.2) = qs.map BitVec.toNat ∧ Lib.Carries (2 ^ 32) s.c.toNat cols s'.c.toNat := by
  induction h with
  | nil s => exact ⟨[], rfl, rfl, rfl, rfl⟩
  | @cons m w as bs qs s' hw _ ih =>
    obtain ⟨cols, hx, hy, hz, hcols⟩ := ih
    obtain ⟨hq, hs⟩ := limb_exec F g hw (Or.inl rfl) m
    rw [hs] at hcols
    refine ⟨((m.regs (rega w)).toNat, (m.regs (regb w)).toNat,
      ((Machine.exec F id g m w).regs (regd w)).toNat) :: cols, ?_, ?_, ?_, _, ?_, hcols⟩
    · rw [List.map_cons, hx, List.map_cons]
    · rw [List.map_cons, hy, List.map_cons]
    · rw [List.map_cons, hz, List.map_cons]
    · rw [hq]
      exact adc_limb _ _ _

theorem LimbRun.sbc_carries (h : LimbRun F g .sbc s as bs qs s') :
    ∃ cols, cols.map (·.1) = bs.map BitVec.toNat ∧ cols.map (·.2.1) = qs.map BitVec.toNat ∧
      cols.map (·.2.2) = as.map BitVec.toNat ∧ Lib.Carries (2 ^ 32) s.c.toNat cols s'.c.toNat := by
  induction h with
  | nil s => exact ⟨[], rfl, rfl, rfl, rfl⟩
  | @cons m w as bs qs s' hw _ ih =>
    obtain ⟨cols, hx, hy, hz, hcols⟩ := ih
    obtain ⟨hq, hs⟩ := limb_exec F g hw (Or.inr rfl) m
    rw [hs] at hcols
    refine ⟨((m.regs (regb w)).toNat, ((Machine.exec F id g m w).regs (regd w)).toNat,
      (m.regs (rega w)).toNat) :: cols, ?_, ?_, ?_, _, ?_, hcols⟩
    · rw [List.map_cons, hx, List.map_cons]
    · rw [List.map_cons, hy, List.map_cons]
    · rw [List.map_cons, hz, List.map_cons]
    · rw [hq]
      exact sbc_limb _ _ _

theorem limbs_row {ws : List Word} {cols : List (Nat × Nat × Nat)} {f : Nat × Nat × Nat → Nat}
    (h : cols.map f = ws.map BitVec.toNat) :
    Lib.row (2 ^ 32) f cols = limbsNat ws ∧ (∀ col ∈ cols, f col < 2 ^ 32) ∧ cols.length = ws.length := by
  refine ⟨?_, ?_, ?_⟩
  · rw [Lib.row, limbsNat, h]
  · intro col hcol
    have hmem : f col ∈ ws.map BitVec.toNat := h ▸ List.mem_map_of_mem hcol
    obtain ⟨w, -, hw⟩ := List.mem_map.mp hmem
    rw [← hw]
    exact w.isLt
  · have hlen := congrArg List.length h
    rwa [List.length_map, List.length_map] at hlen

theorem LimbRun.sum (h : LimbRun F g .adc s as bs qs s') (hs : s.c = false) :
    qs.length = as.length ∧ limbsNat qs = (limbsNat as + limbsNat bs) % 2 ^ (32 * as.length) ∧
      (s'.c = true ↔ 2 ^ (32 * as.length) ≤ limbsNat as + limbsNat bs) := by
  obtain ⟨cols, hx, hy, hz, hcols⟩ := h.adc_carries
  obtain ⟨hrx, hltx, hlenx⟩ := limbs_row hx
  obtain ⟨hry, hlty, -⟩ := limbs_row hy
  obtain ⟨hrz, hltz, hlenz⟩ := limbs_row hz
  rw [hs, Bool.toNat_false] at hcols
  obtain ⟨hsum, hcarry⟩ := hcols.sum (by decide) hltz
  have hbx := Lib.row_lt (by decide) hltx
  have hby := Lib.row_lt (by decide) hlty
  rw [hrx, hlenx, ← Nat.pow_mul] at hbx
  rw [hry, hlenx, ← Nat.pow_mul] at hby
  rw [hrx, hry, hlenx, ← Nat.pow_mul] at hsum hcarry
  rw [hrz] at hsum
  refine ⟨by omega, hsum, ?_⟩
  rw [← Bool.toNat_eq_one, hcarry]
  constructor
  · intro h1
    by_contra hlt
    rw [Nat.div_eq_of_lt (by omega)] at h1
    cases h1
  · intro hle
    apply Nat.div_eq_of_lt_le
    · omega
    · omega

theorem LimbRun.difference (h : LimbRun F g .sbc s as bs qs s') (hs : s.c = false) :
    qs.length = as.length ∧
      (limbsNat qs : Int) = ((limbsNat as : Int) - limbsNat bs) % 2 ^ (32 * as.length) ∧
      (s'.c = true ↔ limbsNat as < limbsNat bs) := by
  obtain ⟨cols, hx, hy, hz, hcols⟩ := h.sbc_carries
  obtain ⟨hrx, -, -⟩ := limbs_row hx
  obtain ⟨hry, hlty, hleny⟩ := limbs_row hy
  obtain ⟨hrz, hltz, hlenz⟩ := limbs_row hz
  rw [hs, Bool.toNat_false] at hcols
  have hby := Lib.row_lt (by decide) hlty
  obtain ⟨hdiff, hborrow⟩ := hcols.difference (by decide) (Bool.toNat_le _) hltz hby
  rw [hrx, hry, hrz, hlenz, ← Nat.pow_mul] at hdiff
  rw [hrx, hrz] at hborrow
  refine ⟨by omega, ?_, ?_⟩
  · rw [hdiff]
    push_cast
    rfl
  · rw [← Bool.toNat_eq_one, hborrow]

def limbWord : ArithOpr → Word
  | .sbc => 0x02461002
  | _ => 0x01c61002

theorem limbWord_limb {o : ArithOpr} (ho : o = .adc ∨ o = .sbc) : LimbWord o (limbWord o) := by
  rcases ho with rfl | rfl <;> constructor <;> decide

variable (F g)

theorem exists_limbRun {o : ArithOpr} (ho : o = .adc ∨ o = .sbc) (as bs : List Word)
    (hlen : as.length = bs.length) (s : Sreg) : ∃ qs s', LimbRun F g o s as bs qs s' := by
  induction as generalizing bs s with
  | nil =>
    obtain rfl := List.length_eq_zero_iff.mp hlen.symm
    exact ⟨[], s, .nil s⟩
  | cons a as ih =>
    cases bs with
    | nil => cases hlen
    | cons b bs =>
      let m : Machine Reg := ⟨fun r => if r = 1 then a else b, s, fun _ => 0⟩
      obtain ⟨qs, s', hrest⟩ := ih bs (Nat.succ.inj hlen) (Machine.exec F id g m (limbWord o)).sreg
      have hregs : m.regs (rega (limbWord o)) = a ∧ m.regs (regb (limbWord o)) = b := by
        rcases ho with rfl | rfl <;> exact ⟨rfl, rfl⟩
      have hrun := LimbRun.cons (m := m) (limbWord_limb ho) hrest
      rw [hregs.1, hregs.2] at hrun
      exact ⟨_, s', hrun⟩

/-- One `ADC` for each limb adds numbers of any length, and one `SBC` for each subtracts them. -/
theorem carry_chains {s : Sreg} (hs : s.c = false) {as bs : List Word} (hlen : as.length = bs.length) :
    ((∃ qs s', LimbRun F g .adc s as bs qs s') ∧ ∀ qs s', LimbRun F g .adc s as bs qs s' →
      qs.length = as.length ∧ limbsNat qs = (limbsNat as + limbsNat bs) % 2 ^ (32 * as.length) ∧
        (s'.c = true ↔ 2 ^ (32 * as.length) ≤ limbsNat as + limbsNat bs)) ∧
      (∃ qs s', LimbRun F g .sbc s as bs qs s') ∧ ∀ qs s', LimbRun F g .sbc s as bs qs s' →
        qs.length = as.length ∧
          (limbsNat qs : Int) = ((limbsNat as : Int) - limbsNat bs) % 2 ^ (32 * as.length) ∧
          (s'.c = true ↔ limbsNat as < limbsNat bs) :=
  ⟨⟨exists_limbRun F g (Or.inl rfl) as bs hlen s, fun _ _ h => h.sum hs⟩,
    exists_limbRun F g (Or.inr rfl) as bs hlen s, fun _ _ h => h.difference hs⟩

theorem carry_chains_ones : ∃ qs s',
    LimbRun anyFpu (fun _ => 0) .adc ⟨false, false, false, false⟩ [0xffffffff, 0xffffffff] [1, 0] qs s' ∧
      limbsNat qs = 0 ∧ s'.c = true := by
  have h := @carry_chains anyFpu (fun _ => 0) ⟨false, false, false, false⟩ rfl
    [0xffffffff, 0xffffffff] [1, 0] rfl
  obtain ⟨⟨qs, s', hrun⟩, hall⟩ := h.1
  obtain ⟨-, hsum, hcarry⟩ := hall qs s' hrun
  exact ⟨qs, s', hrun, hsum.trans (by decide), hcarry.mpr (by decide)⟩

end Runs

end Gppcu
