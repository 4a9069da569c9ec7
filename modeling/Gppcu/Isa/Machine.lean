import Gppcu.Isa.Instr
import Mathlib.Logic.Function.Iterate
import Mathlib.Tactic.SplitIfs

/-!
# The sequential machine

What a program means with no pipeline under it: one word at a time, over a
register bank, a status register and a local memory. The register bank is any
index type, so the same machine runs the 32 registers of a thread and the ten
registers that a host program sees.
-/

namespace Gppcu

open Instr

/-- The generated FPU: a fixed function of the operation and its operands, and how many clocks
after its start pulse it raises `done`. -/
structure Fpu where
  result : BitVec 3 → Word → Word → Word
  latency : BitVec 3 → Nat
  /-- `ALT_FPU_FTOI`, `ALT_FPU_ITOF` and `ALT_FPU_SQRT` do not look at operand B. -/
  unary : ∀ n : BitVec 3, n = 1 ∨ n = 2 ∨ n = 3 → ∀ a b b', result n a b = result n a b'

def anyFpu : Fpu := ⟨fun _ a _ => a, fun _ => 0, fun _ _ _ _ _ => rfl⟩

structure Machine (ι : Type) where
  regs : ι → Word
  sreg : Sreg
  lmem : BitVec 9 → Word

def decOprBMux (cw : ControlWord) (w regB gdata : Word) : Word :=
  match cw.bsel.toNat with
  | 0 => regB + (imm0 w).setWidth 32
  | 1 => (imm1 w).setWidth 32
  | 2 => (imm2 w).setWidth 32
  | _ => gdata

def resultOf (F : Fpu) (cw : ControlWord) (a b : Word) (s : Sreg) (lmem : BitVec 9 → Word) : Word :=
  if cw.lmemRd then lmem (b.setWidth 9)
  else if cw.fpOp then F.result cw.fpuN a b
  else aluQ a b s.c cw.alOpc

def flagsOf (cw : ControlWord) (a b : Word) (s : Sreg) : Sreg :=
  if cw.fpOp then ⟨false, false, false, false⟩ else aluSreg a b s.c cw.alOpc

def condOk (w : Word) (s : Sreg) : Bool := gppcuCondVerifier (cond w) s

namespace Machine

variable {ι : Type} [DecidableEq ι] (F : Fpu) (sel : Reg → ι)

def execOps (w a b : Word) (m : Machine ι) : Machine ι :=
  { regs := if (cw w).regWr && condOk w m.sreg then
        Function.update m.regs (sel (regd w)) (resultOf F (cw w) a b m.sreg m.lmem)
      else m.regs
    sreg := if condOk w m.sreg && sBit w then flagsOf (cw w) a b m.sreg else m.sreg
    lmem := if (cw w).lmemWr && condOk w m.sreg then
        Function.update m.lmem (b.setWidth 9) a
      else m.lmem }

def oprA (w : Word) (m : Machine ι) : Word := m.regs (sel (rega w))

def oprB (gdata w : Word) (m : Machine ι) : Word :=
  decOprBMux (cw w) w (m.regs (sel (regb w))) gdata

def execWith (gdata w : Word) (m : Machine ι) : Machine ι :=
  execOps F sel w (oprA sel w m) (oprB sel gdata w m) m

def exec (g : BitVec 17 → Word) (m : Machine ι) (w : Word) : Machine ι :=
  execWith F sel (g (imm2 w)) w m

def run (g : BitVec 17 → Word) (ws : List Word) (m : Machine ι) : Machine ι :=
  ws.foldl (exec F sel g) m

@[simp] theorem run_nil (g : BitVec 17 → Word) (m : Machine ι) : run F sel g [] m = m := rfl

@[simp] theorem run_cons (g : BitVec 17 → Word) (w : Word) (ws : List Word) (m : Machine ι) :
    run F sel g (w :: ws) m = run F sel g ws (exec F sel g m w) := rfl

theorem run_append (g : BitVec 17 → Word) (us ws : List Word) (m : Machine ι) :
    run F sel g (us ++ ws) m = run F sel g ws (run F sel g us m) := List.foldl_append ..

end Machine

/-! ## Which operands a word looks at -/

/-- Operand B is declared: a register that the stall generator watches, or no register at all. -/
def ControlWord.usesB (cw : ControlWord) : Bool := cw.useRegB || cw.bsel != 0

def Instr.reads (w : Word) (r : Reg) : Bool :=
  ((cw w).useRegA && rega w == r) || ((cw w).useRegB && regb w == r)

def Instr.writes (w : Word) (r : Reg) : Bool := (cw w).regWr && regd w == r

/-- Opcodes whose flags depend on declared operands only. -/
def Opr.flagsDeclared : Opr → Bool
  | .mov | .adc | .sbc | .and | .orr | .xor | .adi | .sbi | .mvi => true
  | _ => false

def Instr.sAllowed (w : Word) : Prop :=
  sBit w = true → (Opr.ofCode (opr w)).any Opr.flagsDeclared = true

instance (w : Word) : Decidable (sAllowed w) :=
  inferInstanceAs (Decidable (sBit w = true → (Opr.ofCode (opr w)).any Opr.flagsDeclared = true))

theorem Instr.sAllowed.opr {w : Word} (h : sAllowed w) (hs : sBit w = true) :
    ∃ o : Opr, Opr.ofCode (opr w) = some o ∧ o.flagsDeclared = true :=
  (Option.any_eq_true ..).mp (h hs)

/-- Two pairs of operands that differ at most where the control word does not look. -/
structure SameOps (cw : ControlWord) (a b a' b' : Word) : Prop where
  a : cw.useRegA = true → a = a'
  b : cw.usesB = true → b = b'

theorem mov_v (a b : Word) (c : Bool) : aluSreg a b c 1 = aluSreg b b c 1 := by
  simp [aluSreg, aluQ, aluCQ]

theorem flagsOf_congr {o : Opr} {a b a' b' : Word} (s : Sreg) (ho : o.flagsDeclared = true)
    (h : SameOps o.controlWord a b a' b') :
    flagsOf o.controlWord a b s = flagsOf o.controlWord a' b' s := by
  cases o <;> simp only [Opr.flagsDeclared, Bool.false_eq_true] at ho
  all_goals obtain ⟨ha, hb⟩ := h
  case mov | mvi =>
    obtain rfl := hb rfl
    change aluSreg a b s.c 1 = aluSreg a' b s.c 1
    rw [mov_v, mov_v a']
  all_goals
    obtain rfl := ha rfl
    obtain rfl := hb rfl
    rfl

theorem fpu_result_congr (F : Fpu) {o : Opr} {a b a' b' : Word} (hf : o.controlWord.fpOp = true)
    (hw : o.controlWord.regWr = true) (h : SameOps o.controlWord a b a' b') :
    F.result o.controlWord.fpuN a b = F.result o.controlWord.fpuN a' b' := by
  cases o <;> simp only [Opr.controlWord, Bool.false_eq_true] at hf hw
  all_goals obtain ⟨ha, hb⟩ := h; obtain rfl := ha rfl
  case itof | ftoi | fsqrt => exact F.unary _ (by decide) _ _ _
  all_goals obtain rfl := hb rfl; rfl

theorem aluQ_shift (a b b' : Word) (c : Bool) (o : Opr) (ho : o = .lsl ∨ o = .lsr ∨ o = .asr) :
    aluQ a b c o.controlWord.alOpc = aluQ a b' c o.controlWord.alOpc := by
  rcases ho with rfl | rfl | rfl <;> simp [aluQ, aluCQ, Opr.controlWord]

theorem aluQ_move (a a' b : Word) (c : Bool) (o : Opr)
    (ho : o = .mov ∨ o = .mvn ∨ o = .mvi ∨ o = .ldci) :
    aluQ a b c o.controlWord.alOpc = aluQ a' b c o.controlWord.alOpc := by
  rcases ho with rfl | rfl | rfl | rfl <;> simp [aluQ, aluCQ, Opr.controlWord]

theorem resultOf_congr (F : Fpu) {o : Opr} {a b a' b' : Word} (s : Sreg) (lmem : BitVec 9 → Word)
    (hw : o.controlWord.regWr = true) (h : SameOps o.controlWord a b a' b') :
    resultOf F o.controlWord a b s lmem = resultOf F o.controlWord a' b' s lmem := by
  unfold resultOf
  by_cases hr : o.controlWord.lmemRd = true
  · rw [if_pos hr, if_pos hr]
    cases o <;> simp only [Opr.controlWord, Bool.false_eq_true] at hr
    rw [h.b rfl]
  by_cases hf : o.controlWord.fpOp = true
  · rw [if_neg hr, if_neg hr, if_pos hf, if_pos hf, fpu_result_congr F hf hw h]
  rw [if_neg hr, if_neg hr, if_neg hf, if_neg hf]
  cases o
  case lsl | lsr | asr => obtain rfl := h.a rfl; exact aluQ_shift _ _ _ _ _ (by simp)
  case mov | mvn | mvi | ldci => obtain rfl := h.b rfl; exact aluQ_move _ _ _ _ _ (by simp)
  all_goals first | exact absurd hw (by decide) | exact absurd rfl hf | exact absurd rfl hr | skip
  all_goals obtain rfl := h.a rfl; obtain rfl := h.b rfl; rfl

theorem Machine.execOps_congr {ι : Type} [DecidableEq ι] (F : Fpu) (sel : Reg → ι) {w a b a' b' : Word}
    (m : Machine ι) (hs : sAllowed w) (h : SameOps (cw w) a b a' b') :
    execOps F sel w a b m = execOps F sel w a' b' m := by
  obtain ⟨o, ho, hcode⟩ := cw_cases w
  unfold execOps
  rw [ho] at h ⊢
  congr 1
  · by_cases hw : o.controlWord.regWr = true
    · rw [resultOf_congr F m.sreg m.lmem hw h]
    · simp [hw]
  · by_cases hsb : sBit w = true
    · obtain ⟨o', ho', hf⟩ := hs.opr hsb
      have : o' = o := by
        rcases hcode with hc | ⟨hc, -⟩ <;> simp_all
      rw [← this] at h ⊢
      rw [flagsOf_congr m.sreg hf h]
    · simp [hsb]
  · by_cases hw : o.controlWord.lmemWr = true
    · cases o <;> simp only [Opr.controlWord, Bool.false_eq_true] at hw
      obtain rfl := h.a rfl
      obtain rfl := h.b rfl
      rfl
    · simp [hw]

/-! ## Words without a condition -/

theorem aluQ_mov (a b : Word) (c : Bool) : aluQ a b c 1#4 = b := by
  unfold aluQ aluCQ
  apply BitVec.eq_of_toNat_eq
  simp

theorem aluQ_add (a b : Word) (c : Bool) : aluQ a b c 8#4 = a + b := by
  unfold aluQ aluCQ
  apply BitVec.eq_of_toNat_eq
  simp

theorem condOk_always {w : Word} (h : cond w = 0) (s : Sreg) : condOk w s = true := by
  unfold condOk
  rw [h]
  rfl

theorem condOk_never {w : Word} (h : cond w = 1) (s : Sreg) : condOk w s = false := by
  unfold condOk
  rw [h]
  rfl

theorem Machine.exec_always {ι : Type} [DecidableEq ι] (F : Fpu) (sel : Reg → ι) (g : BitVec 17 → Word)
    (m : Machine ι) {w : Word} (hc : cond w = 0) : exec F sel g m w =
    { regs := if (cw w).regWr then
          Function.update m.regs (sel (regd w)) (resultOf F (cw w) (oprA sel w m)
            (oprB sel (g (imm2 w)) w m) m.sreg m.lmem)
        else m.regs
      sreg := if sBit w then flagsOf (cw w) (oprA sel w m) (oprB sel (g (imm2 w)) w m) m.sreg
        else m.sreg
      lmem := if (cw w).lmemWr then
          Function.update m.lmem ((oprB sel (g (imm2 w)) w m).setWidth 9) (oprA sel w m)
        else m.lmem } := by
  unfold exec execWith execOps
  rw [condOk_always hc]
  simp only [Bool.and_true, Bool.true_and]

/-! ## Words that change nothing, and words that may run twice -/

theorem Machine.execWith_zero {ι : Type} [DecidableEq ι] (F : Fpu) (sel : Reg → ι) (gdata : Word) (m : Machine ι) :
    execWith F sel gdata 0 m = m := by
  have hc : cw 0#32 = Opr.nop.controlWord := by decide
  have hs : sBit 0#32 = false := by decide
  simp only [execWith, execOps, BitVec.ofNat_eq_ofNat, hc, hs]
  simp [Opr.controlWord]

theorem Machine.execWith_gdata {ι : Type} [DecidableEq ι] (F : Fpu) (sel : Reg → ι) {w : Word} (g g' : Word)
    (m : Machine ι) (h : (cw w).bsel ≠ 3) : execWith F sel g w m = execWith F sel g' w m := by
  have hb : oprB sel g w m = oprB sel g' w m := by
    obtain ⟨o, ho, -⟩ := cw_cases w
    unfold oprB decOprBMux
    rw [ho] at h ⊢
    cases o <;> first | rfl | exact absurd rfl h
  rw [execWith, hb, execWith]

theorem Machine.execOps_regs (F : Fpu) (w a b : Word) (m : Machine Reg) (r : Reg)
    (h : writes w r = false) : (Machine.execOps F id w a b m).regs r = m.regs r := by
  unfold execOps
  simp only [id]
  split_ifs with hw
  · rw [Bool.and_eq_true] at hw
    rw [writes, hw.1, Bool.true_and, beq_eq_false_iff_ne] at h
    rw [Function.update_of_ne (Ne.symm h)]
  · rfl

theorem Machine.sameOps_of_reads {w : Word} {m m' : Machine Reg} (g : Word)
    (h : ∀ r, reads w r = true → m.regs r = m'.regs r) :
    SameOps (cw w) (oprA id w m) (oprB id g w m) (oprA id w m') (oprB id g w m') := by
  constructor
  · intro hu
    exact h _ (by simp [reads, hu])
  · intro hu
    unfold oprB
    by_cases hb : (cw w).useRegB = true
    · have hr := h (regb w) (by simp [reads, hb])
      rw [id, hr]
    -- No register behind operand B: the mux takes an immediate or the constant memory.
    · obtain ⟨o, ho, -⟩ := cw_cases w
      rw [ho] at hu hb ⊢
      cases o <;> simp [Opr.controlWord, ControlWord.usesB, decOprBMux] at hu hb ⊢

theorem Machine.execOps_again (F : Fpu) {w : Word} (a b : Word) (m : Machine Reg) (hs : sBit w = false) :
    execOps F id w a b (execOps F id w a b m) = execOps F id w a b m := by
  obtain ⟨o, ho, -⟩ := cw_cases w
  have hwr : (cw w).regWr = true → (cw w).lmemWr = false := by
    rw [ho]
    cases o <;> simp [Opr.controlWord]
  unfold execOps
  simp only [hs, Bool.and_false, Bool.false_eq_true, if_false, Machine.mk.injEq, true_and]
  constructor
  · by_cases hw : ((cw w).regWr && condOk w m.sreg) = true
    · rw [Bool.and_eq_true] at hw
      simp [hw.1, hw.2, hwr hw.1]
    · simp [hw]
  · by_cases hw : ((cw w).lmemWr && condOk w m.sreg) = true
    · simp [hw]
    · simp [hw]

theorem Machine.execWith_again (F : Fpu) {w : Word} (g : Word) (m : Machine Reg) (hs : sBit w = false)
    (hr : ∀ r, reads w r = true → writes w r = false) :
    execWith F id g w (execWith F id g w m) = execWith F id g w m := by
  have hregs : ∀ r, reads w r = true → (execWith F id g w m).regs r = m.regs r := by
    intro r hread
    exact execOps_regs F w _ _ m r (hr r hread)
  have hops := sameOps_of_reads g hregs
  have hallow : sAllowed w := fun h => absurd h (by simp [hs])
  calc execWith F id g w (execWith F id g w m)
      = execOps F id w (oprA id w m) (oprB id g w m) (execWith F id g w m) :=
        execOps_congr F id _ hallow hops
    _ = execWith F id g w m := execOps_again F _ _ m hs

end Gppcu
