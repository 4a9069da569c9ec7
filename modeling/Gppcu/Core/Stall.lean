import Gppcu.Core.Spec
import Gppcu.Lib.Run
import Mathlib.Data.List.Induction

/-!
# What the stall generator waits for

An occupied register should belong to an older instruction in exec or
write-back. `insig` also marks the register of an instruction that the FPU's
delay holds in decode, and when that instruction reads the same register
nobody is left to release it.
-/

namespace Gppcu

open Instr

namespace Ctl

def occ (c : Ctl) (r : Reg) : Bool := c.occupied.getLsbD r.toNat

def requests (c : Ctl) (r : Reg) : Bool :=
  (c.validDecode && c.cwDecode.useRegA && r == rega c.instrDecode) ||
    (c.validDecode && c.cwDecode.useRegB && r == regb c.instrDecode)

def decodeWrites (c : Ctl) (r : Reg) : Bool := c.validRegd && r == regd c.instrDecode

def execWrites (c : Ctl) (r : Reg) : Bool :=
  c.validExec && c.cwExec.regWr && r == regd c.instrExec

def writebackWrites (c : Ctl) (r : Reg) : Bool :=
  c.validWriteback && c.cwWriteback.regWr && r == regd c.instrWriteback

theorem rqMask_getLsbD (c : Ctl) (r : Reg) : c.rqMask.getLsbD r.toNat = c.requests r := by
  simp [rqMask, requests]

theorem insig_getLsbD (c : Ctl) (r : Reg) :
    c.insig.getLsbD r.toNat = (c.canUseReg && c.decodeWrites r) := by
  simp [insig, decodeWrites, Bool.and_assoc]

theorem outsig_getLsbD (c : Ctl) (r : Reg) : c.outsig.getLsbD r.toNat = c.writebackWrites r := by
  simp [outsig, writebackWrites]

theorem eq_zero_iff (x : BitVec 32) : x = 0 ↔ ∀ r : Reg, x.getLsbD r.toNat = false := by
  constructor
  · rintro rfl r; simp
  · intro h
    apply BitVec.eq_of_getLsbD_eq
    intro i hi
    have := h (BitVec.ofNat 5 i)
    rw [BitVec.toNat_ofNat, Nat.mod_eq_of_lt hi] at this
    simpa using this

theorem canUseReg_iff (c : Ctl) :
    c.canUseReg = true ↔ ∀ r, c.occ r = true → c.requests r = false := by
  rw [canUseReg, beq_iff_eq, eq_zero_iff]
  simp only [BitVec.getLsbD_and, rqMask_getLsbD, Bool.and_eq_false_imp]
  rfl

variable (iINSTR : Word) (iINSTR_VALID delay : Bool)

theorem occ_clock (c : Ctl) (r : Reg) :
    (c.clock true iINSTR iINSTR_VALID delay).occ r =
      ((c.occ r || c.canUseReg && c.decodeWrites r) && !c.writebackWrites r) := by
  have hr : r.toNat < 32 := r.isLt
  simp only [occ, clock, Bool.not_true, Bool.false_eq_true, if_false, pendingOccupy,
    BitVec.getLsbD_and, BitVec.getLsbD_or, BitVec.getLsbD_not, insig_getLsbD, outsig_getLsbD,
    decide_eq_true hr, Bool.true_and]

theorem occ_reset (c : Ctl) (r : Reg) : (c.clock false iINSTR iINSTR_VALID delay).occ r = false := by
  simp [occ, clock]

/-! ## What one clock does to each stage -/

theorem held_exec (c : Ctl) (r : Reg) :
    (c.clock true iINSTR iINSTR_VALID true).execWrites r = c.execWrites r := by
  simp [clock, execWrites, dataStallDecode]

theorem held_writeback (c : Ctl) (r : Reg) :
    (c.clock true iINSTR iINSTR_VALID true).writebackWrites r = false := by
  simp [clock, writebackWrites]

theorem held_requests (c : Ctl) (r : Reg) (h : c.dataStallDecode delay = true) :
    (c.clock true iINSTR iINSTR_VALID delay).requests r = c.requests r := by
  simp [clock, requests, h]

theorem held_decode (c : Ctl) (r : Reg) (h : c.dataStallDecode delay = true) :
    (c.clock true iINSTR iINSTR_VALID delay).decodeWrites r = c.decodeWrites r := by
  simp [clock, decodeWrites, validRegd, h]

theorem moved_writeback (c : Ctl) (r : Reg) :
    (c.clock true iINSTR iINSTR_VALID false).writebackWrites r = c.execWrites r := by
  simp [clock, writebackWrites, execWrites]

theorem moved_exec (c : Ctl) (r : Reg) (h : c.canUseReg = true) :
    (c.clock true iINSTR iINSTR_VALID false).execWrites r = c.decodeWrites r := by
  simp [clock, execWrites, decodeWrites, validRegd, dataStallDecode, h]

/-! ## Registers that nobody will release -/

/-- A register that the word in decode waits for is the destination of an older instruction. -/
def Released (c : Ctl) : Prop :=
  ∀ r, c.occ r = true → c.requests r = true → c.execWrites r = true ∨ c.writebackWrites r = true

/-- The instruction in decode claims one of its own sources, and no older instruction writes it. -/
def claimsOwnSource (c : Ctl) : Bool :=
  c.canUseReg && c.validRegd && c.requests (regd c.instrDecode) &&
    !c.execWrites (regd c.instrDecode) && !c.writebackWrites (regd c.instrDecode)

theorem claimsOwnSource_iff (c : Ctl) :
    c.claimsOwnSource = true ↔ ∃ r, c.canUseReg = true ∧ c.decodeWrites r = true ∧
      c.requests r = true ∧ c.execWrites r = false ∧ c.writebackWrites r = false := by
  simp only [claimsOwnSource, decodeWrites, Bool.and_eq_true, Bool.not_eq_true', beq_iff_eq]
  constructor
  · rintro ⟨⟨⟨⟨hc, hd⟩, hr⟩, he⟩, hw⟩
    exact ⟨_, hc, ⟨hd, rfl⟩, hr, he, hw⟩
  · rintro ⟨_, hc, ⟨hd, rfl⟩, hr, he, hw⟩
    exact ⟨⟨⟨⟨hc, hd⟩, hr⟩, he⟩, hw⟩

/-- Every occupied register has an owner. An owner in decode does not read the register. -/
def Owned (c : Ctl) : Prop :=
  ∀ r, c.occ r = true → c.execWrites r = true ∨ c.writebackWrites r = true ∨
    (c.decodeWrites r = true ∧ c.requests r = false)

theorem Owned.released {c : Ctl} (h : c.Owned) : c.Released := by
  intro r ho hr
  rcases h r ho with he | hw | ⟨-, hn⟩
  · exact Or.inl he
  · exact Or.inr hw
  · rw [hr] at hn; cases hn

theorem Released.enabled {c : Ctl} (h : c.Released) (he : c.validExec = false)
    (hw : c.validWriteback = false) : c.canUseReg = true := by
  rw [canUseReg_iff]
  intro r ho
  by_contra hr
  rcases h r ho (by simpa using hr) with h' | h'
  · simp [execWrites, he] at h'
  · simp [writebackWrites, hw] at h'

theorem owned_clock {c : Ctl} (h : c.Owned) (hok : delay = true → ¬ c.claimsOwnSource = true) :
    (c.clock true iINSTR iINSTR_VALID delay).Owned := by
  intro r ho
  rw [occ_clock, Bool.and_eq_true, Bool.or_eq_true, Bool.and_eq_true, Bool.not_eq_true'] at ho
  obtain ⟨hset, hnw⟩ := ho
  cases delay with
  | true =>
    have hst : c.dataStallDecode true = true := by simp [dataStallDecode]
    rw [held_exec, held_writeback, held_decode _ _ _ _ _ hst, held_requests _ _ _ _ _ hst]
    rcases hset with ho | ⟨hc, hd⟩
    · rcases h r ho with he | hw | hd
      · exact Or.inl he
      · rw [hw] at hnw; cases hnw
      · exact Or.inr (Or.inr hd)
    · by_cases he : c.execWrites r = true
      · exact Or.inl he
      -- The instruction is marked while it is held: it must not read the register.
      · refine Or.inr (Or.inr ⟨hd, ?_⟩)
        by_contra hr
        apply hok rfl
        rw [claimsOwnSource_iff]
        exact ⟨r, hc, hd, by simpa using hr, by simpa using he, hnw⟩
  | false =>
    rw [moved_writeback]
    by_cases hc : c.canUseReg = true
    · rw [moved_exec _ _ _ _ hc]
      rcases hset with ho | ⟨-, hd⟩
      · rcases h r ho with he | hw | hd
        · exact Or.inr (Or.inl he)
        · rw [hw] at hnw; cases hnw
        · exact Or.inl hd.1
      · exact Or.inl hd
    · have hst : c.dataStallDecode false = true := by simp [dataStallDecode, hc]
      rw [held_decode _ _ _ _ _ hst, held_requests _ _ _ _ _ hst]
      rcases hset with ho | ⟨hc', -⟩
      · rcases h r ho with he | hw | hd
        · exact Or.inr (Or.inl he)
        · rw [hw] at hnw; cases hnw
        · exact Or.inr (Or.inr hd)
      · exact absurd hc' hc

theorem owned_reset (c : Ctl) : (c.clock false iINSTR iINSTR_VALID delay).Owned := by
  intro r ho
  rw [occ_reset] at ho
  cases ho

theorem not_released_clock {c : Ctl} (h : c.claimsOwnSource = true) :
    ¬ (c.clock true iINSTR iINSTR_VALID true).Released := by
  obtain ⟨r, hc, hd, hr, he, hw⟩ := (claimsOwnSource_iff c).mp h
  intro hrel
  have hst : c.dataStallDecode true = true := by simp [dataStallDecode]
  have := hrel r (by rw [occ_clock, hc, hd, hw]; simp) (by rw [held_requests _ _ _ _ _ hst, hr])
  rw [held_exec, held_writeback, he] at this
  simp at this

end Ctl

/-! ## Runs of the core -/

namespace Core

variable {T : Nat}

theorem AfterReset.owned {s : Core T} (h : s.AfterReset) : s.ctl.Owned := by
  intro r ho
  simp [Ctl.occ, h.occupied] at ho

/-- The clock does not mark an own source of an instruction that the FPU's delay holds. -/
def NoOwnClaim (s : Core T) (i : Inputs) : Prop :=
  i.inRST = true → s.onCalculationDelay = true → ¬ s.ctl.claimsOwnSource = true

theorem owned_clock (F : Fin T → Fpu) (s : Core T) (i : Inputs) (h : s.ctl.Owned)
    (hok : s.NoOwnClaim i) : (s.clock F i).ctl.Owned := by
  unfold clock
  cases hr : i.inRST with
  | true => exact Ctl.owned_clock _ _ _ h (hok hr)
  | false => exact Ctl.owned_reset _ _ _ _

theorem claims_of_not_noOwnClaim (F : Fin T → Fpu) (s : Core T) (i : Inputs) (h : ¬ s.NoOwnClaim i) :
    ¬ (s.clock F i).ctl.Released := by
  simp only [NoOwnClaim, Classical.not_imp, not_not] at h
  obtain ⟨hr, hd, hc⟩ := h
  unfold clock
  rw [hr, hd]
  exact Ctl.not_released_clock _ _ hc

/-- The stall generator blocks decode only on registers that an older instruction will release,
and not at all when exec and write-back are empty. -/
def DecodeReleased (s : Core T) : Prop :=
  s.ctl.Released ∧
    (s.ctl.validExec = false → s.ctl.validWriteback = false → s.ctl.canUseReg = true)

theorem decodeReleased_of_owned (s : Core T) (h : s.ctl.Owned) : s.DecodeReleased :=
  ⟨h.released, h.released.enabled⟩

/-- Exactly the runs in which no held instruction claims its own source keep decode released. -/
theorem decode_released_iff (F : Fin T → Fpu) (s : Core T) (hs : s.AfterReset) (is : List Inputs) :
    Lib.Throughout (clock F) DecodeReleased s is ↔ Lib.Along (clock F) NoOwnClaim s is := by
  constructor
  · intro h
    induction is using List.reverseRecOn with
    | nil => trivial
    | append_singleton is i ih =>
      rw [Lib.along_append]
      refine ⟨ih fun pre hpre => h pre (hpre.trans (List.prefix_append _ _)), ?_, trivial⟩
      by_contra hbad
      apply claims_of_not_noOwnClaim F _ i hbad
      rw [← Lib.run_concat (clock F)]
      exact (h _ List.prefix_rfl).1
  · exact Lib.Along.throughout (I := fun s => s.ctl.Owned) (owned_clock F)
      decodeReleased_of_owned hs.owned

def ownClaimRun : List Inputs :=
  [⟨true, 0x08061002, true, 0⟩, ⟨true, 0x01821002, true, 0⟩, ⟨true, 0, false, 0⟩,
    ⟨true, 0, false, 0⟩]

/-- Decode waits for register 1, which is the destination of no instruction but its own. -/
theorem decode_not_released :
    (blankCore : Core 1).AfterReset ∧
      ¬ Lib.Throughout (clock fun _ => anyFpu) DecodeReleased (blankCore : Core 1) ownClaimRun := by
  refine ⟨blankCore_afterReset, fun h => ?_⟩
  have hrel := (h ownClaimRun List.prefix_rfl).1 1 (by decide) (by decide)
  revert hrel
  decide

theorem decode_released_fmul :
    Lib.Throughout (clock fun _ => anyFpu) DecodeReleased (blankCore : Core 1)
      [⟨true, 0x08061002, true, 0⟩, ⟨true, 0x01861002, true, 0⟩] :=
  (decode_released_iff (fun _ => anyFpu) blankCore blankCore_afterReset _).mpr
    ⟨fun _ => by decide, fun _ => by decide, trivial⟩

end Core

end Gppcu
