import Gppcu.Driver.Builders
import Mathlib.Tactic.SplitIfs

/-!
# The lane expansion

`gppcu_program_autofeed_device_parallel`: the words it pushes for the queued
instructions, three copies of each with the registers of a lane.
-/

namespace Gppcu

open Instr

def NUM_REG : Nat := 32
def PARALLEL_CNT : Nat := 3
def REG_PER_THREAD : Nat := NUM_REG / PARALLEL_CNT
def BUBBLES : Nat := 1
def REGPIVOT : Nat := REG_PER_THREAD - 1

theorem lane_zero : 0 < PARALLEL_CNT := by decide

theorem lane_one : 1 < PARALLEL_CNT := by decide

theorem lane_two : 2 < PARALLEL_CNT := by decide

/-! ## The tables of the driver -/

def instrUseregd (opc : BitVec 5) : Bool :=
  match Opr.ofCode opc with
  | none | some .nop | some .fneg | some .stl => false
  | some _ => true

def instrUserega (opc : BitVec 5) : Bool :=
  match Opr.ofCode opc with
  | none | some .nop | some .mov | some .mvn | some .mvi | some .ldci => false
  | some _ => true

def instrUseregb (opc : BitVec 5) : Bool :=
  match Opr.ofCode opc with
  | some .mov | some .mvn | some .adc | some .sbc | some .and | some .orr | some .xor
  | some .fmul | some .fdiv | some .fadd | some .fsub | some .ldl | some .stl => true
  | _ => false

/-- The driver's tables cover what the decoder uses, and spare the immediates it uses. -/
theorem tables_of_cw (w : Word) :
    ((cw w).useRegA = true → instrUserega (opr w) = true) ∧
      ((cw w).useRegB = true → instrUseregb (opr w) = true) ∧
      ((cw w).regWr = true → instrUseregd (opr w) = true) ∧
      ((cw w).bsel = 1 → instrUseregb (opr w) = false) ∧
      ((cw w).bsel = 2 ∨ (cw w).bsel = 3 →
        instrUserega (opr w) = false ∧ instrUseregb (opr w) = false) := by
  unfold instrUserega instrUseregb instrUseregd
  obtain ⟨o, ho, hc | ⟨hc, hn⟩⟩ := cw_cases w
  · rw [ho, hc]
    cases o <;> simp [Opr.controlWord]
  · rw [ho, hc, hn]
    simp [Opr.controlWord]

theorem useRegA_of_cw {w : Word} (h : (cw w).useRegA = true) : instrUserega (opr w) = true :=
  (tables_of_cw w).1 h

theorem useRegB_of_cw {w : Word} (h : (cw w).useRegB = true) : instrUseregb (opr w) = true :=
  (tables_of_cw w).2.1 h

theorem useRegD_of_cw {w : Word} (h : (cw w).regWr = true) : instrUseregd (opr w) = true :=
  (tables_of_cw w).2.2.1 h

theorem immB_tables {w : Word} (h : (cw w).bsel = 1) : instrUseregb (opr w) = false :=
  (tables_of_cw w).2.2.2.1 h

theorem immC_tables {w : Word} (h : (cw w).bsel = 2 ∨ (cw w).bsel = 3) :
    instrUserega (opr w) = false ∧ instrUseregb (opr w) = false :=
  (tables_of_cw w).2.2.2.2 h

/-! ## The pushed words -/

/-- `pinstr[0] += toadd << lo`, where the table says so. -/
def addReg (use : Bool) (toadd : Word) (lo : Nat) (instr : Word) : Word :=
  if use then instr + toadd <<< lo else instr

/-- `parallel_instr[pcnt]`. -/
def laneWord (instr : Word) (pcnt : Nat) : Word :=
  let opc := opr instr
  let toadd := BitVec.ofNat 32 (pcnt * REG_PER_THREAD)
  addReg (instrUseregd opc) toadd 17
    (addReg (instrUseregb opc) toadd 0 (addReg (instrUserega opc) toadd 12 instr))

/-- `OPR_0_ITOF <= opc && opc <= OPR_0_FSQRT`. -/
def isFpOpc (opc : BitVec 5) : Bool := Opr.itof.code ≤ opc && opc ≤ Opr.fsqrt.code

def expandInstr (instr : Word) : List Word :=
  if opr instr = 0 then [0]
  else (List.range PARALLEL_CNT).map (laneWord instr) ++ List.replicate BUBBLES 0 ++
    if isFpOpc (opr instr) then [0] else []

def pivotWord : Word := gppcuAssembleInstructionC 0 Opr.ldci.word 0 (BitVec.ofNat 32 REGPIVOT) 0

def lanePivotWord (mtaskmem : Word) (pcnt : Nat) : Word :=
  gppcuAssembleInstructionB 0 Opr.adi.word 0 (BitVec.ofNat 32 (REGPIVOT + REG_PER_THREAD * (pcnt + 1)))
    (BitVec.ofNat 32 REGPIVOT) (mtaskmem * BitVec.ofNat 32 (pcnt + 1))

def prologue (mtaskmem : Word) : List Word :=
  [0, 0, pivotWord] ++ (List.range PARALLEL_CNT).flatMap (fun pcnt => [0, 0, lanePivotWord mtaskmem pcnt]) ++
    [0, 0]

def gppcuProgramAutofeedDeviceParallel (mtaskmem : Word) (marr : List Word) : List Word :=
  prologue mtaskmem ++ marr.flatMap expandInstr

/-! ## Fields of a lane's copy -/

theorem addReg_other {use : Bool} {toadd instr : Word} {lo : Nat} {lo' len' : Nat}
    (h : use = true → Lib.Fits instr toadd lo 5) (hd : lo' + len' ≤ lo ∨ lo + 5 ≤ lo') :
    (addReg use toadd lo instr).extractLsb' lo' len' = instr.extractLsb' lo' len' := by
  unfold addReg
  split_ifs with hu
  · exact (h hu).extract_other hd
  · rfl

theorem addReg_self {use : Bool} {toadd instr : Word} {lo : Nat}
    (h : use = true → Lib.Fits instr toadd lo 5) :
    ((addReg use toadd lo instr).extractLsb' lo 5).toNat =
      (instr.extractLsb' lo 5).toNat + if use then toadd.toNat else 0 := by
  unfold addReg
  split_ifs with hu
  · exact (h hu).extract_self
  · rfl

/-- A word whose register fields are those of a host program, where the driver's tables look. -/
structure HostWord (w : Word) : Prop where
  d : instrUseregd (opr w) = true → (regd w).toNat < REG_PER_THREAD
  a : instrUserega (opr w) = true → (rega w).toNat < REG_PER_THREAD
  b : instrUseregb (opr w) = true → (regb w).toNat < REG_PER_THREAD

/-! ## Host words -/

section Host

variable {c : BitVec 4} {o : Opr} {s : Bool} {d a b : HostReg} {imm w : Word}

theorem reg_lt (r : HostReg) : r.code.toNat < REG_PER_THREAD := by
  rw [HostInstr.toNat_code]
  exact r.isLt

theorem formA_hostWord (h : Build.FormA c o s d.code a.code b.code imm w) : HostWord w := by
  refine ⟨fun _ => ?_, fun _ => ?_, fun _ => ?_⟩
  · rw [h.regd]
    exact reg_lt d
  · rw [h.rega]
    exact reg_lt a
  · rw [h.regb]
    exact reg_lt b

theorem formB_hostWord (h : Build.FormB c o s d.code a.code imm w) (hb : instrUseregb o.code = false) :
    HostWord w := by
  refine ⟨fun _ => ?_, fun _ => ?_, fun hu => ?_⟩
  · rw [h.regd]
    exact reg_lt d
  · rw [h.rega]
    exact reg_lt a
  · rw [h.opr, hb] at hu
    cases hu

theorem formC_hostWord (h : Build.FormC c o s d.code imm w) (ha : instrUserega o.code = false)
    (hb : instrUseregb o.code = false) : HostWord w := by
  refine ⟨fun _ => ?_, fun hu => ?_, fun hu => ?_⟩
  · rw [h.regd]
    exact reg_lt d
  · rw [h.opr, ha] at hu
    cases hu
  · rw [h.opr, hb] at hu
    cases hu

theorem family_useregb (h : o.family = .zero ∨ o.family = .b) : instrUseregb o.code = false := by
  cases o <;> simp [Opr.family] at h <;> rfl

theorem HostInstr.hostWord {k : HostInstr} (h : k.WellFormed) : HostWord k.word := by
  cases k with
  | nop => exact ⟨by decide, by decide, by decide⟩
  | arithS c o s d b i => exact formA_hostWord (a := 0) (Build.formA c.code o s d.code 0 b.code (i.signExtend 32))
  | arith0 c o s d a =>
    exact formB_hostWord (Build.formB c.code o s d.code a.code 0) (family_useregb (Or.inl h))
  | mvi c s d i => exact formC_hostWord (Build.formC c.code .mvi s d.code i) rfl rfl
  | arithA c o s d a b i => exact formA_hostWord (Build.formA c.code o s d.code a.code b.code (i.signExtend 32))
  | arithB c o s d a i =>
    exact formB_hostWord (Build.formB c.code o s d.code a.code (i.signExtend 32)) (family_useregb (Or.inr h))
  | fpArith c o d a b => exact formA_hostWord (Build.formA c.code o false d.code a.code b.code 0)
  | fp0 c o d a => exact formA_hostWord (b := 0) (Build.formA c.code o false d.code a.code 0 0)
  | ldl c d b i => exact formA_hostWord (a := 0) (Build.formA c.code .ldl false d.code 0 b.code (i.setWidth 32))
  | stl c a b i => exact formA_hostWord (d := 0) (Build.formA c.code .stl false 0 a.code b.code (i.setWidth 32))
  | ldci c d i => exact formC_hostWord (Build.formC c.code .ldci false d.code i) rfl rfl

end Host

section Lane

variable {w : Word} {l : Nat}

theorem toadd_toNat (hl : l < PARALLEL_CNT) :
    (BitVec.ofNat 32 (l * REG_PER_THREAD)).toNat = l * REG_PER_THREAD := by
  have hl' : l < 3 := hl
  rw [BitVec.toNat_ofNat, Nat.mod_eq_of_lt]
  change l * 10 < 2 ^ 32
  omega

theorem fits_of_lt {x : Word} {lo : Nat} (hl : l < PARALLEL_CNT) (hlo : lo + 5 ≤ 32)
    (hx : (x.extractLsb' lo 5).toNat < REG_PER_THREAD) :
    Lib.Fits x (BitVec.ofNat 32 (l * REG_PER_THREAD)) lo 5 := by
  refine ⟨hlo, ?_⟩
  rw [toadd_toNat hl]
  have hl' : l < 3 := hl
  have hx' : (x.extractLsb' lo 5).toNat < 10 := hx
  change (x.extractLsb' lo 5).toNat + l * 10 < 2 ^ 5
  omega

/-- The three additions of a lane's copy, with the room that each one needs. -/
structure LaneFits (w : Word) (l : Nat) : Prop where
  a : instrUserega (opr w) = true → Lib.Fits w (BitVec.ofNat 32 (l * REG_PER_THREAD)) 12 5
  b : instrUseregb (opr w) = true → Lib.Fits
    (addReg (instrUserega (opr w)) (BitVec.ofNat 32 (l * REG_PER_THREAD)) 12 w)
    (BitVec.ofNat 32 (l * REG_PER_THREAD)) 0 5
  d : instrUseregd (opr w) = true → Lib.Fits
    (addReg (instrUseregb (opr w)) (BitVec.ofNat 32 (l * REG_PER_THREAD)) 0
      (addReg (instrUserega (opr w)) (BitVec.ofNat 32 (l * REG_PER_THREAD)) 12 w))
    (BitVec.ofNat 32 (l * REG_PER_THREAD)) 17 5

theorem HostWord.laneFits (h : HostWord w) (hl : l < PARALLEL_CNT) : LaneFits w l := by
  have ha : instrUserega (opr w) = true →
      Lib.Fits w (BitVec.ofNat 32 (l * REG_PER_THREAD)) 12 5 :=
    fun hu => fits_of_lt hl (by omega) (h.a hu)
  have hb : instrUseregb (opr w) = true → Lib.Fits
      (addReg (instrUserega (opr w)) (BitVec.ofNat 32 (l * REG_PER_THREAD)) 12 w)
      (BitVec.ofNat 32 (l * REG_PER_THREAD)) 0 5 := by
    intro hu
    apply fits_of_lt hl (by omega)
    rw [addReg_other ha (by omega)]
    exact h.b hu
  refine ⟨ha, hb, fun hu => fits_of_lt hl (by omega) ?_⟩
  rw [addReg_other hb (by omega), addReg_other ha (by omega)]
  exact h.d hu

theorem LaneFits.high (h : LaneFits w l) {lo len : Nat} (hlo : 22 ≤ lo) :
    (laneWord w l).extractLsb' lo len = w.extractLsb' lo len := by
  unfold laneWord
  rw [addReg_other h.d (by omega), addReg_other h.b (by omega), addReg_other h.a (by omega)]

variable (h : HostWord w) (hl : l < PARALLEL_CNT)

include h hl

theorem laneWord_opr : opr (laneWord w l) = opr w := (h.laneFits hl).high (by omega)

theorem laneWord_cond : cond (laneWord w l) = cond w := (h.laneFits hl).high (by omega)

theorem laneWord_sBit : sBit (laneWord w l) = sBit w := by
  unfold sBit
  rw [Lib.getLsbD_eq_extract, (h.laneFits hl).high (by omega), ← Lib.getLsbD_eq_extract]

theorem laneWord_cw : cw (laneWord w l) = cw w := by
  unfold cw
  rw [laneWord_opr h hl]

theorem laneWord_regd : (regd (laneWord w l)).toNat =
    (regd w).toNat + if instrUseregd (opr w) then l * REG_PER_THREAD else 0 := by
  have hf := h.laneFits hl
  unfold regd laneWord
  rw [addReg_self hf.d, addReg_other hf.b (by omega), addReg_other hf.a (by omega), toadd_toNat hl]

theorem laneWord_rega : (rega (laneWord w l)).toNat =
    (rega w).toNat + if instrUserega (opr w) then l * REG_PER_THREAD else 0 := by
  have hf := h.laneFits hl
  unfold rega laneWord
  rw [addReg_other hf.d (by omega), addReg_other hf.b (by omega), addReg_self hf.a, toadd_toNat hl]

theorem laneWord_regb : (regb (laneWord w l)).toNat =
    (regb w).toNat + if instrUseregb (opr w) then l * REG_PER_THREAD else 0 := by
  have hf := h.laneFits hl
  unfold regb laneWord
  rw [addReg_other hf.d (by omega), addReg_self hf.b, addReg_other hf.a (by omega), toadd_toNat hl]

theorem laneWord_imm0 : imm0 (laneWord w l) = imm0 w := by
  have hf := h.laneFits hl
  unfold imm0 laneWord
  rw [addReg_other hf.d (by omega), addReg_other hf.b (by omega), addReg_other hf.a (by omega)]

theorem laneWord_imm1 (hb : instrUseregb (opr w) = false) : imm1 (laneWord w l) = imm1 w := by
  have hf := h.laneFits hl
  unfold imm1 laneWord
  rw [addReg_other hf.d (by omega), hb]
  unfold addReg
  rw [if_neg Bool.false_ne_true]
  exact addReg_other hf.a (by omega)

theorem laneWord_imm2 (ha : instrUserega (opr w) = false) (hb : instrUseregb (opr w) = false) :
    imm2 (laneWord w l) = imm2 w := by
  have hf := h.laneFits hl
  unfold imm2 laneWord
  rw [addReg_other hf.d (by omega), ha, hb]
  rfl

end Lane

/-! ## The words that set the pivots -/

/-- Above its immediate `lanePivotWord` does not depend on the task size. The destination of the
third one is register 39, whose top bit falls on S. -/
theorem lanePivot_high (mtaskmem : Word) {l : Nat} (hl : l < PARALLEL_CNT) {lo len : Nat} (hlo : 12 ≤ lo) :
    (lanePivotWord mtaskmem l).extractLsb' lo len = (lanePivotWord 0 l).extractLsb' lo len := by
  have hl' : l < 3 := hl
  have himm : ∀ x : Word, (x &&& 0x0fff).extractLsb' lo len = 0 := fun x =>
    Lib.extract_of_small (and_mask_lt x 0x0fff (show (0x0fff : Word).toNat < 2 ^ 12 by decide)) hlo
  unfold lanePivotWord gppcuAssembleInstructionB
  rw [BitVec.extractLsb'_or, himm, BitVec.extractLsb'_or (x := _ ||| _ ||| _), himm]

theorem lanePivot_opr (mtaskmem : Word) {l : Nat} (hl : l < PARALLEL_CNT) :
    opr (lanePivotWord mtaskmem l) = Opr.adi.code := by
  have h : ∀ l < PARALLEL_CNT, opr (lanePivotWord 0 l) = Opr.adi.code := by decide
  rw [← h l hl]
  exact lanePivot_high mtaskmem hl (by omega)

end Gppcu
