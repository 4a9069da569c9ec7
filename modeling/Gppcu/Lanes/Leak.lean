import Gppcu.Lanes.Expand

/-!
# What a lane can learn of the others

The lanes of a thread have registers and memory of their own, but one status
register. Two runs that differ in the memory of other lanes show the same in a
lane for as long as it does not look at flags that another lane has set.
-/

namespace Gppcu

open Instr

/-! ## The copies in the order of the program -/

abbrev LaneCopy := Nat × Word

def laneCopies (ws : List Word) : List LaneCopy :=
  ws.flatMap fun w => if opr w = 0 then [] else (List.range PARALLEL_CNT).map fun l => (l, w)

variable (F : Fpu) (g : BitVec 17 → Word)

def laneExec (m : Machine Reg) (c : LaneCopy) : Machine Reg := Machine.exec F id g m (laneWord c.2 c.1)

theorem run_copies (w : Word) (ls : List Nat) (m : Machine Reg) :
    Machine.run F id g (ls.map (laneWord w)) m = Lib.run (laneExec F g) m (ls.map fun l => (l, w)) := by
  induction ls generalizing m with
  | nil => rfl
  | cons l ls ih => exact ih _

theorem run_laneCopies (ws : List Word) (m : Machine Reg) :
    Machine.run F id g (ws.flatMap expandInstr) m = Lib.run (laneExec F g) m (laneCopies ws) := by
  unfold laneCopies
  induction ws generalizing m with
  | nil => rfl
  | cons w ws ih =>
    rw [List.flatMap_cons, List.flatMap_cons, Machine.run_append, Lib.run_append, ih]
    congr 1
    unfold expandInstr
    by_cases hnop : opr w = 0
    · rw [if_pos hnop, if_pos hnop, run_nops F g (by simp)]
      rfl
    · rw [if_neg hnop, if_neg hnop, List.append_assoc, Machine.run_append,
        run_nops F g (by split_ifs <;> simp [BUBBLES]), run_copies]

theorem laneCopies_host {ws : List Word} (hws : ∀ w ∈ ws, HostWord w) :
    ∀ c ∈ laneCopies ws, c.1 < PARALLEL_CNT ∧ HostWord c.2 := by
  intro c hc
  obtain ⟨w, hw, hc⟩ := List.mem_flatMap.mp hc
  split_ifs at hc with hnop
  · cases hc
  · obtain ⟨l, hl, rfl⟩ := List.mem_map.mp hc
    exact ⟨List.mem_range.mp hl, hws w hw⟩

/-! ## Whose flags they are -/

def constFlags (w : Word) : Bool := (cw w).fpOp || Opr.ofCode (opr w) == some .mvi

/-- Flags that the lane's own registers decide: either the operands are declared, or the fields
of the copy happen to name registers of the lane. -/
def ownOperands (c : LaneCopy) : Bool :=
  (Opr.ofCode (opr c.2)).any Opr.flagsDeclared ||
    ((rega (laneWord c.2 c.1)).toNat / REG_PER_THREAD == c.1 &&
      (regb (laneWord c.2 c.1)).toNat / REG_PER_THREAD == c.1)

/-- Whether the flags behind a copy come from nothing but lane `l`, given whether those before
it did. -/
def keepsOwn (l : Nat) (own : Bool) (c : LaneCopy) : Bool :=
  if sBit c.2 && cond c.2 != 1 then
    (own || cond c.2 == 0) && (constFlags c.2 || (c.1 == l && ownOperands c))
  else own

/-- Lane `l` looks only at flags that come from itself. -/
def OwnFlags (l : Nat) : Bool → List LaneCopy → Prop
  | _, [] => True
  | own, c :: cs => (c.1 = l → own = false → consumes c.2 = false) ∧ OwnFlags l (keepsOwn l own c) cs

instance OwnFlags.decidable (l : Nat) : (own : Bool) → (cs : List LaneCopy) → Decidable (OwnFlags l own cs)
  | _, [] => .isTrue trivial
  | own, c :: cs => @instDecidableAnd _ _ _ (OwnFlags.decidable l (keepsOwn l own c) cs)

/-! ## Two runs -/

/-- Two runs that show lane `l` the same, and the same flags if they are its own. -/
structure Unseen (l : Nat) (R : BitVec 9 → Prop) (own : Bool) (m m' : Machine Reg) : Prop where
  alike : Alike (laneReg l) (laneReg l) R m m'
  flags : own = true → m.sreg = m'.sreg

section TwoRuns

variable {l : Nat} {R : Nat → BitVec 9 → Prop} {own : Bool} {m m' : Machine Reg} {c : LaneCopy}

theorem Unseen.sameFlags (h : Unseen l (R l) own m m') {w : Word}
    (hlook : own = false → consumes w = false) : SameFlags w m.sreg m'.sreg := by
  intro hcons
  apply h.flags
  by_contra hno
  rw [hlook (by simpa using hno)] at hcons
  cases hcons

theorem Unseen.other_alike (h : Unseen l (R l) own m m') (hl : l < PARALLEL_CNT) (hR : Apart R)
    (hc : c.1 < PARALLEL_CNT) (hw : HostWord c.2) (hne : c.1 ≠ l)
    (hacc : Accesses id g (R c.1) m (laneWord c.2 c.1))
    (hacc' : Accesses id g (R c.1) m' (laneWord c.2 c.1)) :
    Alike (laneReg l) (laneReg l) (R l) (laneExec F g m c) (laneExec F g m' c) := by
  have hcopy := copyOf_laneWord hw hc
  have hregs := laneReg_ne hc hl hne
  have hfar := hR l hl c.1 hc (Ne.symm hne)
  exact ((h.alike.frame F hcopy hregs hacc hfar).symm.frame F hcopy hregs hacc' hfar).symm

theorem Unseen.own_alike (h : Unseen l (R l) own m m') (hl : l < PARALLEL_CNT) (hw : HostWord c.2)
    (he : c.1 = l) (hflags : SameFlags c.2 m.sreg m'.sreg)
    (hacc : Accesses id g (R c.1) m (laneWord c.2 c.1)) :
    Alike (laneReg l) (laneReg l) (R l) (laneExec F g m c) (laneExec F g m' c) := by
  subst he
  have hcopy := copyOf_laneWord hw hl
  exact exec_alike F (laneReg_injective hl) (laneReg_injective hl) hcopy hcopy h.alike hflags hacc

/-! ## The flags of the two runs -/

theorem exec_sreg_eq (w : Word) (m : Machine Reg) : (Machine.exec F id g m w).sreg =
    if condOk w m.sreg && sBit w then
      flagsOf (cw w) (Machine.oprA id w m) (Machine.oprB id (g (imm2 w)) w m) m.sreg
    else m.sreg := rfl

theorem flagsOf_const {w : Word} (h : constFlags w = true) (gdata : Word) (m m' : Machine Reg) :
    flagsOf (cw w) (Machine.oprA id w m) (Machine.oprB id gdata w m) m.sreg =
      flagsOf (cw w) (Machine.oprA id w m') (Machine.oprB id gdata w m') m'.sreg := by
  rw [constFlags, Bool.or_eq_true] at h
  rcases h with hfp | hmvi
  · unfold flagsOf
    rw [if_pos hfp, if_pos hfp]
  · have hopr : opr w = Opr.mvi.code := (Opr.code_of_ofCode (by simpa using hmvi)).symm
    unfold Machine.oprB
    rw [cw_of_code hopr]
    change aluSreg _ ((imm2 w).setWidth 32) m.sreg.c 1 = aluSreg _ ((imm2 w).setWidth 32) m'.sreg.c 1
    rw [mov_v, mov_v (Machine.oprA id w m')]
    rfl

theorem laneReg_of_div {r : Reg} {l : Nat} (h : r.toNat / REG_PER_THREAD = l) : ∃ i, r = laneReg l i := by
  refine ⟨⟨r.toNat % REG_PER_THREAD, Nat.mod_lt _ (by decide)⟩, ?_⟩
  apply BitVec.eq_of_toNat_eq
  unfold laneReg
  rw [BitVec.toNat_ofNat, ← h, Nat.div_add_mod', Nat.mod_eq_of_lt r.isLt]

theorem flagsOf_own (hl : l < PARALLEL_CNT) (hw : HostWord c.2) (he : c.1 = l) (ho : ownOperands c = true)
    (h : Alike (laneReg l) (laneReg l) (R l) m m') (hs : SameFlags c.2 m.sreg m'.sreg) (gdata : Word) :
    flagsOf (cw (laneWord c.2 c.1)) (Machine.oprA id (laneWord c.2 c.1) m)
        (Machine.oprB id gdata (laneWord c.2 c.1) m) m.sreg =
      flagsOf (cw (laneWord c.2 c.1)) (Machine.oprA id (laneWord c.2 c.1) m')
        (Machine.oprB id gdata (laneWord c.2 c.1) m') m'.sreg := by
  subst he
  rw [laneWord_cw hw hl, flagsOf_flags hs]
  rw [ownOperands, Bool.or_eq_true] at ho
  rcases ho with hdecl | hfields
  · obtain ⟨o, ho, hf⟩ := (Option.any_eq_true ..).mp hdecl
    have hcopy := copyOf_laneWord hw hl
    have hops := hcopy.sameOps (g := fun _ => gdata) hcopy h
    have hcw : cw c.2 = o.controlWord := cw_of_code (Opr.code_of_ofCode ho).symm
    rw [hcw] at hops ⊢
    exact flagsOf_congr _ hf hops
  · rw [Bool.and_eq_true, beq_iff_eq, beq_iff_eq] at hfields
    obtain ⟨i, hi⟩ := laneReg_of_div hfields.1
    obtain ⟨j, hj⟩ := laneReg_of_div hfields.2
    unfold Machine.oprA Machine.oprB
    rw [hi, hj, id, id, h.regs i, h.regs j]

theorem Unseen.flags_step (h : Unseen l (R l) own m m') (hl : l < PARALLEL_CNT) (hc : c.1 < PARALLEL_CNT)
    (hw : HostWord c.2) (hlook : c.1 = l → own = false → consumes c.2 = false)
    (hk : keepsOwn l own c = true) : (laneExec F g m c).sreg = (laneExec F g m' c).sreg := by
  have hcopy := copyOf_laneWord hw hc
  unfold laneExec
  rw [exec_sreg_eq, exec_sreg_eq, hcopy.condOk, hcopy.condOk, hcopy.status]
  unfold keepsOwn at hk
  by_cases hset : (sBit c.2 && cond c.2 != 1) = true
  · rw [if_pos hset, Bool.and_eq_true, Bool.or_eq_true, Bool.or_eq_true] at hk
    obtain ⟨hdone, hwhose⟩ := hk
    have hcond : condOk c.2 m.sreg = condOk c.2 m'.sreg := by
      rcases hdone with hown | h0
      · rw [h.flags hown]
      · rw [condOk_always (by simpa using h0), condOk_always (by simpa using h0)]
    rw [hcond, (Bool.and_eq_true_iff.mp hset).1, Bool.and_true]
    by_cases hok : condOk c.2 m'.sreg = true
    · rw [if_pos hok, if_pos hok]
      rcases hwhose with hconst | hown
      · apply flagsOf_const
        unfold constFlags
        rwa [hcopy.decoded, laneWord_opr hw hc]
      · rw [Bool.and_eq_true, beq_iff_eq] at hown
        exact flagsOf_own hl hw hown.1 hown.2 h.alike (h.sameFlags (hlook hown.1)) _
    -- Not executed: then the condition looked at flags of the lane.
    · rw [if_neg hok, if_neg hok]
      apply h.flags
      apply hdone.resolve_right
      intro h0
      exact hok (condOk_always (by simpa using h0) _)
  · rw [if_neg hset] at hk
    have hkept : ∀ s, (condOk c.2 s && sBit c.2) = false := by
      intro s
      rw [Bool.and_eq_true, not_and_or] at hset
      rcases hset with hs | h1
      · simp [hs]
      · rw [condOk_never (by simpa using h1), Bool.false_and]
    rw [hkept, hkept]
    exact h.flags hk

/-! ## Runs -/

theorem Unseen.step (h : Unseen l (R l) own m m') (hl : l < PARALLEL_CNT) (hR : Apart R)
    (hc : c.1 < PARALLEL_CNT) (hw : HostWord c.2) (hlook : c.1 = l → own = false → consumes c.2 = false)
    (hacc : Accesses id g (R c.1) m (laneWord c.2 c.1))
    (hacc' : Accesses id g (R c.1) m' (laneWord c.2 c.1)) :
    Unseen l (R l) (keepsOwn l own c) (laneExec F g m c) (laneExec F g m' c) where
  flags := h.flags_step F g hl hc hw hlook
  alike := by
    by_cases he : c.1 = l
    · exact h.own_alike F g hl hw he (h.sameFlags (hlook he)) hacc
    · exact h.other_alike F g hl hR hc hw he hacc hacc'

def Stays (R : Nat → BitVec 9 → Prop) (m : Machine Reg) (c : LaneCopy) : Prop :=
  Accesses id g (R c.1) m (laneWord c.2 c.1)

instance {R : Nat → BitVec 9 → Prop} [∀ l, DecidablePred (R l)] (m : Machine Reg) (c : LaneCopy) :
    Decidable (Stays g R m c) :=
  inferInstanceAs (Decidable (Accesses id g (R c.1) m (laneWord c.2 c.1)))

theorem Unseen.run (hl : l < PARALLEL_CNT) (hR : Apart R) {cs : List LaneCopy}
    (hcs : ∀ c ∈ cs, c.1 < PARALLEL_CNT ∧ HostWord c.2) (hown : OwnFlags l own cs)
    (hacc : Lib.Along (laneExec F g) (Stays g R) m cs)
    (hacc' : Lib.Along (laneExec F g) (Stays g R) m' cs) (h : Unseen l (R l) own m m') :
    Alike (laneReg l) (laneReg l) (R l) (Lib.run (laneExec F g) m cs) (Lib.run (laneExec F g) m' cs) := by
  induction cs generalizing own m m' with
  | nil => exact h.alike
  | cons c cs ih =>
    rw [List.forall_mem_cons] at hcs
    apply ih hcs.2 hown.2 hacc.2 hacc'.2
    exact h.step F g hl hR hcs.1.1 hcs.1.2 hown.1 hacc.1 hacc'.1

end TwoRuns

/-! ## Two local memories -/

def Machine.setLmem (m : Machine Reg) (lmem : BitVec 9 → Word) : Machine Reg := { m with lmem := lmem }

theorem Unseen.setLmem {l : Nat} {R : BitVec 9 → Prop} {m : Machine Reg} {lmem : BitVec 9 → Word}
    (h : ∀ a, R a → m.lmem a = lmem a) : Unseen l R true m (m.setLmem lmem) :=
  ⟨⟨fun _ => rfl, h⟩, fun _ => rfl⟩

theorem exec_setLmem {w : Word} (h : cw w = Opr.adi.controlWord ∨ cw w = Opr.ldci.controlWord)
    (m : Machine Reg) (lmem : BitVec 9 → Word) :
    Machine.exec F id g (m.setLmem lmem) w = (Machine.exec F id g m w).setLmem lmem := by
  unfold Machine.exec Machine.execWith Machine.execOps Machine.oprA Machine.oprB
  rcases h with h | h
  · rw [h]
    rfl
  · rw [h]
    rfl

theorem prologue_setLmem (mtaskmem : Word) (m : Machine Reg) (lmem : BitVec 9 → Word) :
    Machine.run F id g (prologue mtaskmem) (m.setLmem lmem) =
      (Machine.run F id g (prologue mtaskmem) m).setLmem lmem := by
  have hlane := fun l hl => exec_setLmem F g (Or.inl (lanePivotWord_fields mtaskmem (l := l) hl).1)
  rw [run_prologue, run_prologue, exec_setLmem F g (Or.inr pivotWord_fields.1), hlane 0 (by decide),
    hlane 1 (by decide), hlane 2 (by decide)]

/-- Two runs of one program whose local memories agree on the task of lane `l`. -/
structure SameTask (mtaskmem : Word) (ws : List Word) (l : Nat) (m m' : Machine Reg) : Prop where
  regs : m.regs = m'.regs
  sreg : m.sreg = m'.sreg
  lmem : ∀ a, InTask (g 0) mtaskmem l a → m.lmem a = m'.lmem a
  stays : Lib.Along (laneExec F g) (Stays g (InTask (g 0) mtaskmem))
    (Machine.run F id g (prologue mtaskmem) m) (laneCopies ws)
  stays' : Lib.Along (laneExec F g) (Stays g (InTask (g 0) mtaskmem))
    (Machine.run F id g (prologue mtaskmem) m') (laneCopies ws)

/-- What a task leaves in its region depends on that region alone, in a lane that looks only at
flags of its own. -/
theorem lane_depends_on_own {mtaskmem : Word} {ws : List Word} (hws : ∀ w ∈ ws, HostWord w) {l : Nat}
    (hl : l < PARALLEL_CNT) (hown : OwnFlags l true (laneCopies ws)) (hR : Apart (InTask (g 0) mtaskmem))
    {m m' : Machine Reg} (h : SameTask F g mtaskmem ws l m m') (a : BitVec 9)
    (ha : InTask (g 0) mtaskmem l a) :
    (Machine.run F id g (gppcuProgramAutofeedDeviceParallel mtaskmem ws) m).lmem a =
      (Machine.run F id g (gppcuProgramAutofeedDeviceParallel mtaskmem ws) m').lmem a := by
  obtain ⟨hregs, hsreg, hlmem, hstay, hstay'⟩ := h
  have hm : m' = m.setLmem m'.lmem := by
    unfold Machine.setLmem
    rw [hregs, hsreg]
  have hstart : Unseen l (InTask (g 0) mtaskmem l) true (Machine.run F id g (prologue mtaskmem) m)
      (Machine.run F id g (prologue mtaskmem) m') := by
    rw [hm, prologue_setLmem]
    apply Unseen.setLmem
    rw [prologue_lmem]
    exact hlmem
  unfold gppcuProgramAutofeedDeviceParallel
  rw [Machine.run_append, Machine.run_append, run_laneCopies, run_laneCopies]
  exact (hstart.run F g hl hR (laneCopies_host hws) hown hstay hstay').lmem a ha

def oneWord (a : BitVec 9) (x : Word) : Machine Reg :=
  { regs := fun _ => 0
    sreg := ⟨false, false, false, false⟩
    lmem := Function.update (fun _ => 0) a x }

def keepNonzero : List HostInstr := [.ldl 0 0 9 0, .arithB 0 .adi true 1 0 0, .stl 5 1 9 1]

theorem lane_depends_on_own_nonzero :
    (Machine.run anyFpu id (offsetOnly 4)
        (gppcuProgramAutofeedDeviceParallel 2 (keepNonzero.map HostInstr.word)) (oneWord 4 0)).lmem 9 =
      (Machine.run anyFpu id (offsetOnly 4)
        (gppcuProgramAutofeedDeviceParallel 2 (keepNonzero.map HostInstr.word)) (oneWord 4 1)).lmem 9 := by
  have hws : ∀ w ∈ keepNonzero.map HostInstr.word, HostWord w := by
    intro w hw
    obtain ⟨k, hk, rfl⟩ := List.mem_map.mp hw
    have hwf : ∀ k ∈ keepNonzero, k.WellFormed := by
      unfold keepNonzero
      simp only [List.forall_mem_cons]
      exact ⟨by decide, by decide, by decide, by simp⟩
    exact HostInstr.hostWord (hwf k hk)
  have hsame : SameTask anyFpu (offsetOnly 4) 2 (keepNonzero.map HostInstr.word) 2 (oneWord 4 0)
      (oneWord 4 1) := ⟨rfl, rfl, by decide +kernel, by decide +kernel, by decide +kernel⟩
  have hown : OwnFlags 2 true (laneCopies (keepNonzero.map HostInstr.word)) := by decide +kernel
  have hregion : InTask (offsetOnly 4 0) 2 2 9 := by decide
  exact lane_depends_on_own anyFpu (offsetOnly 4) hws (by decide) hown (by decide +kernel) hsame 9 hregion

/-- `LDL r0, [r9]`, `MOV r1, r0` with S, `MVI r2, 1` under Z and `STL r2, [r9 + 1]`. -/
def leakByFlags : List HostInstr :=
  [.ldl 0 0 9 0, .arithS 0 .mov true 1 0 0, .mvi 4 false 2 1, .stl 0 2 9 1]

/-- `LDL r0, [r9 + 50]`, `MOV r1, r9 + 100` and `STL r0, [r1 + 50]`. -/
def leakByWrap : List HostInstr := [.ldl 0 0 9 50, .arithS 0 .mov false 1 9 100, .stl 0 0 1 50]

/-- Lane 0 takes the flags that lane 2 has set. And where three regions do not fit into the local
memory, lane 2 keeps to its own and still writes into the one of lane 0. -/
theorem lanes_leak :
    ((∀ k ∈ leakByFlags, k.WellFormed) ∧ Apart (InTask 4 2) ∧
      SameTask anyFpu (offsetOnly 4) 2 (leakByFlags.map HostInstr.word) 0 (oneWord 8 0) (oneWord 8 1) ∧
      ¬∀ a, InTask 4 2 0 a →
        (Machine.run anyFpu id (offsetOnly 4)
            (gppcuProgramAutofeedDeviceParallel 2 (leakByFlags.map HostInstr.word)) (oneWord 8 0)).lmem a =
          (Machine.run anyFpu id (offsetOnly 4)
            (gppcuProgramAutofeedDeviceParallel 2 (leakByFlags.map HostInstr.word)) (oneWord 8 1)).lmem a) ∧
    (∀ k ∈ leakByWrap, k.WellFormed) ∧
      SameTask anyFpu (offsetOnly 0) 200 (leakByWrap.map HostInstr.word) 0 (oneWord 450 0) (oneWord 450 1) ∧
      ¬∀ a, InTask 0 200 0 a →
        (Machine.run anyFpu id (offsetOnly 0)
            (gppcuProgramAutofeedDeviceParallel 200 (leakByWrap.map HostInstr.word)) (oneWord 450 0)).lmem a =
          (Machine.run anyFpu id (offsetOnly 0)
            (gppcuProgramAutofeedDeviceParallel 200 (leakByWrap.map HostInstr.word))
            (oneWord 450 1)).lmem a := by
  refine ⟨⟨?_, by decide +kernel, ⟨rfl, rfl, ?_, by decide +kernel, by decide +kernel⟩, fun h => ?_⟩, ?_,
    ⟨rfl, rfl, ?_, by decide +kernel, by decide +kernel⟩, fun h => ?_⟩
  · unfold leakByFlags
    simp only [List.forall_mem_cons]
    exact ⟨by decide, by decide, by decide, by decide, by simp⟩
  · decide +kernel
  · have hword := h 5 (by decide)
    revert hword
    decide +kernel
  · unfold leakByWrap
    simp only [List.forall_mem_cons]
    exact ⟨by decide, by decide, by decide, by simp⟩
  · rintro a ⟨i, hi, rfl⟩
    have hfar : ∀ i < 200, taskAddr 0 200 0 i ≠ 450 := by decide +kernel
    have hne := hfar i hi
    unfold oneWord
    simp only [offsetOnly, if_true, Function.update_of_ne hne]
  · have hword := h 38 (by decide +kernel)
    revert hword
    decide +kernel

end Gppcu
