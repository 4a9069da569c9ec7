import Gppcu.Driver.Builders

/-!
# Two machines that see the same lane

A machine shows ten of its registers and a part of its local memory to a host
program. Two machines that show the same still do after a word of the lane, and
a word of another lane does not touch what they show.
-/

namespace Gppcu

open Instr

/-! ## What a word needs of the flags -/

def ControlWord.carries (cw : ControlWord) : Bool := cw.alOpc == 3 || cw.alOpc == 4

def Instr.consumes (w : Word) : Bool := (cond w != 0 && cond w != 1) || (cw w).carries

/-- What a word of these flags may do, under these other ones it does too. -/
def SameFlags (w : Word) (s s' : Sreg) : Prop := consumes w = true → s = s'

theorem condOk_congr {w : Word} {s s' : Sreg} (h : SameFlags w s s') : condOk w s = condOk w s' := by
  by_cases hw : consumes w = true
  · rw [h hw]
  · rw [consumes, Bool.or_eq_true, not_or, Bool.and_eq_true, not_and_or] at hw
    rcases hw.1 with h0 | h1
    · rw [condOk_always (by simpa using h0), condOk_always (by simpa using h0)]
    · rw [condOk_never (by simpa using h1), condOk_never (by simpa using h1)]

theorem aluCQ_carry (a b : Word) (c c' : Bool) {op : BitVec 4} (h : (op == 3 || op == 4) = false) :
    aluCQ a b c op = aluCQ a b c' op := by
  have hop : ∀ op : BitVec 4, (op == 3 || op == 4) = false → op.toNat ≠ 3 ∧ op.toNat ≠ 4 := by decide
  obtain ⟨h3, h4⟩ := hop op h
  unfold aluCQ
  split <;> first | rfl | contradiction

theorem carry_congr {w : Word} {s s' : Sreg} (h : SameFlags w s s') (a b : Word) :
    aluCQ a b s.c (cw w).alOpc = aluCQ a b s'.c (cw w).alOpc := by
  by_cases hc : (cw w).carries = true
  · rw [h (by simp [consumes, hc])]
  · exact aluCQ_carry a b _ _ (by simpa [ControlWord.carries] using hc)

theorem flagsOf_flags {w : Word} {s s' : Sreg} (h : SameFlags w s s') (a b : Word) :
    flagsOf (cw w) a b s = flagsOf (cw w) a b s' := by
  unfold flagsOf aluSreg aluQ
  rw [carry_congr h]

theorem resultOf_state (F : Fpu) {w : Word} {s s' : Sreg} {lmem lmem' : BitVec 9 → Word}
    (h : SameFlags w s s') (a b : Word)
    (hmem : (cw w).lmemRd = true → lmem (b.setWidth 9) = lmem' (b.setWidth 9)) :
    resultOf F (cw w) a b s lmem = resultOf F (cw w) a b s' lmem' := by
  unfold resultOf
  by_cases hr : (cw w).lmemRd = true
  · rw [if_pos hr, if_pos hr, hmem hr]
  · rw [if_neg hr, if_neg hr]
    unfold aluQ
    rw [carry_congr h]

theorem resultOf_operands (F : Fpu) {w : Word} {a b a' b' : Word} (s : Sreg) (lmem : BitVec 9 → Word)
    (hw : (cw w).regWr = true) (h : SameOps (cw w) a b a' b') :
    resultOf F (cw w) a b s lmem = resultOf F (cw w) a' b' s lmem := by
  obtain ⟨o, ho, -⟩ := cw_cases w
  rw [ho] at hw h ⊢
  exact resultOf_congr F s lmem hw h

/-! ## A word as a lane sees it -/

/-- The ten registers of a host program, as a register file of their own. -/
def hostReg (r : Reg) : HostReg := Fin.ofNat 10 r.toNat

section Copies

variable {ι : Type} (sel : Reg → ι) (e : HostReg → ι)

/-- `w` is the host word `u` with its registers taken from `e`. -/
structure CopyOf (u w : Word) : Prop where
  decoded : cw w = cw u
  guarded : cond w = cond u
  status : sBit w = sBit u
  srcA : (cw u).useRegA = true → sel (rega w) = e (hostReg (rega u))
  srcB : (cw u).useRegB = true → sel (regb w) = e (hostReg (regb u))
  dest : (cw u).regWr = true → sel (regd w) = e (hostReg (regd u))
  ofst : (cw u).useRegB = true → imm0 w = imm0 u
  immB : (cw u).bsel = 1 → imm1 w = imm1 u
  immC : (cw u).bsel = 2 ∨ (cw u).bsel = 3 → imm2 w = imm2 u

def Addresses [DecidableEq ι] (w : Word) (m : Machine ι) : Bool :=
  condOk w m.sreg && ((Instr.cw w).lmemRd || (Instr.cw w).lmemWr)

def Accesses [DecidableEq ι] (g : BitVec 17 → Word) (R : BitVec 9 → Prop) (m : Machine ι) (w : Word) : Prop :=
  Addresses w m = true → R ((Machine.oprB sel (g (Instr.imm2 w)) w m).setWidth 9)

instance [DecidableEq ι] {g : BitVec 17 → Word} {R : BitVec 9 → Prop} [DecidablePred R] (m : Machine ι)
    (w : Word) : Decidable (Accesses sel g R m w) :=
  inferInstanceAs (Decidable (Addresses w m = true → R _))

end Copies

/-- Two machines show the same registers, and the same words of `R`. -/
structure Alike {ι κ : Type} (e : HostReg → ι) (e' : HostReg → κ) (R : BitVec 9 → Prop)
    (m : Machine ι) (m' : Machine κ) : Prop where
  regs : ∀ i, m.regs (e i) = m'.regs (e' i)
  lmem : ∀ a, R a → m.lmem a = m'.lmem a

section Step

variable {ι κ : Type} {sel : Reg → ι} {sel' : Reg → κ} {e : HostReg → ι}
  {e' : HostReg → κ} {R : BitVec 9 → Prop} {g : BitVec 17 → Word} {m : Machine ι} {m' : Machine κ}
  {u w w' : Word}

theorem CopyOf.condOk (h : CopyOf sel e u w) (s : Sreg) : condOk w s = condOk u s := by
  unfold Gppcu.condOk
  rw [h.guarded]

theorem CopyOf.sameOps [DecidableEq ι] [DecidableEq κ] (h : CopyOf sel e u w) (h' : CopyOf sel' e' u w')
    (hm : Alike e e' R m m') :
    SameOps (cw u) (Machine.oprA sel w m) (Machine.oprB sel (g (imm2 w)) w m)
      (Machine.oprA sel' w' m') (Machine.oprB sel' (g (imm2 w')) w' m') := by
  constructor
  · intro hu
    unfold Machine.oprA
    rw [h.srcA hu, h'.srcA hu, hm.regs]
  · intro hu
    unfold Machine.oprB decOprBMux
    rw [h.decoded, h'.decoded]
    by_cases hb : (cw u).useRegB = true
    · rw [h.srcB hb, h'.srcB hb, hm.regs, h.ofst hb, h'.ofst hb]
      have hsel : (cw u).bsel = 0 := by
        obtain ⟨o, ho, -⟩ := cw_cases u
        rw [ho] at hb ⊢
        cases o <;> simp [Opr.controlWord] at hb ⊢
      simp [hsel]
    -- Without a register B the operand is one of the immediates.
    · have h1 := h.immB
      have h1' := h'.immB
      have h2 := h.immC
      have h2' := h'.immC
      obtain ⟨o, ho, -⟩ := cw_cases u
      rw [ho] at hu hb h1 h1' h2 h2' ⊢
      cases o <;> simp_all [Opr.controlWord, ControlWord.usesB]

section Exec

variable [DecidableEq ι] [DecidableEq κ] (F : Fpu)

theorem Accesses.eq (h : CopyOf sel e u w) (hacc : Accesses sel g R m w)
    (hmem : (cw u).lmemRd = true ∨ (cw u).lmemWr = true) (hc : Gppcu.condOk u m.sreg = true) :
    R ((Machine.oprB sel (g (imm2 w)) w m).setWidth 9) := by
  apply hacc
  unfold Addresses
  rw [h.condOk, hc, h.decoded]
  simpa using hmem

theorem Addresses.congr (h : CopyOf sel e u w) (h' : CopyOf sel' e' u w')
    (hs : SameFlags u m.sreg m'.sreg) : Addresses w m = Addresses w' m' := by
  unfold Addresses
  rw [h.condOk, h'.condOk, condOk_congr hs, h.decoded, h'.decoded]

theorem Accesses.congr (h : CopyOf sel e u w) (h' : CopyOf sel' e' u w') (hm : Alike e e' R m m')
    (hs : SameFlags u m.sreg m'.sreg) (hacc : Accesses sel g R m w) : Accesses sel' g R m' w' := by
  intro ha'
  have ha : Addresses w m = true := by rwa [Addresses.congr h h' hs]
  have hb : Machine.oprB sel (g (imm2 w)) w m = Machine.oprB sel' (g (imm2 w')) w' m' := by
    apply (h.sameOps h' hm).b
    rw [Addresses, h.decoded, Bool.and_eq_true] at ha
    obtain ⟨o, ho, -⟩ := cw_cases u
    rw [ho] at ha ⊢
    cases o <;> simp [Opr.controlWord, ControlWord.usesB] at ha ⊢
  rw [← hb]
  exact hacc ha

theorem exec_alike (he : Function.Injective e) (he' : Function.Injective e') (h : CopyOf sel e u w)
    (h' : CopyOf sel' e' u w') (hm : Alike e e' R m m') (hs : SameFlags u m.sreg m'.sreg)
    (hacc : Accesses sel g R m w) :
    Alike e e' R (Machine.exec F sel g m w) (Machine.exec F sel' g m' w') := by
  have hops : SameOps (cw u) _ _ _ _ := h.sameOps (g := g) h' hm
  have hcond : Gppcu.condOk w m.sreg = Gppcu.condOk w' m'.sreg := by
    rw [h.condOk, h'.condOk, condOk_congr hs]
  unfold Machine.exec Machine.execWith Machine.execOps
  rw [hcond, h.decoded, h'.decoded]
  constructor
  · intro i
    by_cases hw : ((cw u).regWr && Gppcu.condOk w' m'.sreg) = true
    · simp only [hw, if_true]
      rw [Bool.and_eq_true] at hw
      have hval := resultOf_state F hs (Machine.oprA sel w m) (Machine.oprB sel (g (imm2 w)) w m)
        (fun hr => hm.lmem _ (hacc.eq h (Or.inl hr) (by rw [← h.condOk, hcond, hw.2])))
      rw [hval, resultOf_operands F _ _ hw.1 hops, h.dest hw.1, h'.dest hw.1,
        Function.update_apply_of_injective _ he, Function.update_apply_of_injective _ he']
      simp only [Function.update_apply, hm.regs]
    · simp only [hw]
      exact hm.regs i
  · intro a ha
    by_cases hw : ((cw u).lmemWr && Gppcu.condOk w' m'.sreg) = true
    · simp only [hw, if_true]
      have hst : (cw u).useRegA = true ∧ (cw u).usesB = true := by
        rw [Bool.and_eq_true] at hw
        obtain ⟨o, ho, -⟩ := cw_cases u
        rw [ho] at hw ⊢
        cases o <;> simp [Opr.controlWord, ControlWord.usesB] at hw ⊢
      rw [hops.a hst.1, hops.b hst.2]
      simp only [Function.update_apply, hm.lmem a ha]
    · simp only [hw]
      exact hm.lmem a ha

/-! ## What a word leaves alone -/

theorem exec_sreg (hs : sBit w = false) : (Machine.exec F sel g m w).sreg = m.sreg := by
  unfold Machine.exec Machine.execWith Machine.execOps
  simp [hs]

theorem exec_regs (h : CopyOf sel e u w) {r : ι} (hr : ∀ i, e i ≠ r) :
    (Machine.exec F sel g m w).regs r = m.regs r := by
  unfold Machine.exec Machine.execWith Machine.execOps
  by_cases hw : ((cw w).regWr && Gppcu.condOk w m.sreg) = true
  · simp only [hw, if_true]
    rw [h.decoded, Bool.and_eq_true] at hw
    rw [h.dest hw.1, Function.update_of_ne (hr _).symm]
  · simp only [hw]
    rfl

theorem exec_lmem (hacc : Accesses sel g R m w) {a : BitVec 9} (ha : ¬R a) :
    (Machine.exec F sel g m w).lmem a = m.lmem a := by
  unfold Machine.exec Machine.execWith Machine.execOps
  by_cases hw : ((cw w).lmemWr && Gppcu.condOk w m.sreg) = true
  · simp only [hw, if_true]
    rw [Bool.and_eq_true] at hw
    have hin := hacc (by simp [Addresses, hw.1, hw.2])
    apply Function.update_of_ne
    rintro rfl
    exact ha hin
  · simp only [hw]
    rfl

omit [DecidableEq κ] in
theorem Alike.frame {e₁ : HostReg → ι} {R₁ : BitVec 9 → Prop} (hm : Alike e e' R m m')
    (h : CopyOf sel e₁ u w) (he : ∀ i j, e₁ i ≠ e j) (hacc : Accesses sel g R₁ m w)
    (hR : ∀ a, R a → ¬R₁ a) : Alike e e' R (Machine.exec F sel g m w) m' where
  regs := by
    intro i
    rw [exec_regs F h fun j => he j i]
    exact hm.regs i
  lmem := by
    intro a ha
    rw [exec_lmem F hacc (hR a ha)]
    exact hm.lmem a ha

end Exec

theorem Alike.symm (hm : Alike e e' R m m') : Alike e' e R m' m :=
  ⟨fun i => (hm.regs i).symm, fun a ha => (hm.lmem a ha).symm⟩

end Step

end Gppcu
