import Gppcu.App.Taken

/-!
# What the shader shows

In lanes 0 and 1 the shader that the device takes does what it was written to do.
Lane 2 loads the half of the screen and stores it: the conversion that should
have overwritten it never comes.
-/

namespace Gppcu.Shader

open HostInstr Instr

/-! ## The lane without conversions -/

section Task

variable (F : Fpu) (g : BitVec 17 → Word) (R : BitVec 9 → Prop) (p : Word) (v : Nat → Word)

/-- The output holds the constants that the columns should have been moved by. -/
structure Halves (n : Nat) (m : Machine HostReg) : Prop extends Input p v m where
  table : ∀ k < 4, m.lmem (taskWord p (8 + k)) = column F g v k
  output : ∀ k < n, m.lmem (taskWord p (4 + k)) = g (BitVec.ofNat 17 (14 + k))

def moveRaw (k : Nat) : List HostInstr :=
  [.ldl 0 (vec k) pivot (ofst (OFST_TABLE + k)),
    .ldci 0 ra (cofst (COFST_WIDTH_HALF + k)),
    .fpArith 0 .fadd rb ra (vec k),
    .stl 0 ra pivot (ofst (OFST_VECI4_VTEX_OUTPUT + k))]

theorem program_lane (l : Nat) : program.filter (gets l) =
    if l = 2 then load ++ (List.range 4).flatMap col ++ (List.range 2).flatMap moveRaw else program := by
  by_cases hl : l = 2
  · subst hl
    rfl
  · rw [if_neg hl, List.filter_eq_self]
    intro k _
    simp [gets, hl]

variable {F g p v} (hR : ∀ i < TASK_SPACE, R (taskWord p i))

include hR

theorem moveRaw_does {k : Nat} (hk : k < 2) :
    Does F g R (Halves F g p v k) (moveRaw k) (Halves F g p v (k + 1)) := by
  intro m hm
  have hword : R (taskWord p (OFST_TABLE + k)) := hR _ (show 8 + k < 12 by omega)
  have hout : OFST_VECI4_VTEX_OUTPUT + k < TASK_SPACE := by
    change 4 + k < 12
    omega
  obtain ⟨hv, -, -, hp⟩ := vec_ne (show k < 4 by omega)
  have hpa : pivot ≠ ra ∧ pivot ≠ rb ∧ ra ≠ rb := by decide
  have hva : vec k ≠ ra := hv
  refine ⟨⟨accesses_ldl g _ _ (by rwa [hm.pivot]), accesses_none g ⟨rfl, rfl⟩,
    accesses_none g ⟨rfl, rfl⟩, accesses_stl g _ _ ?_, trivial⟩, ?_⟩
  · simp [hpa, Ne.symm hp, hm.pivot]
    exact hR _ hout
  simp [moveRaw, hpa, Ne.symm hp, hm.pivot, hva]
  have hstore : Input p v ⟨m.regs, m.sreg,
      Function.update m.lmem (taskWord p (OFST_VECI4_VTEX_OUTPUT + k)) (g (BitVec.ofNat 17 (14 + k)))⟩ :=
    hm.toInput.store rfl hout (Or.inr (by change 4 ≤ 4 + k; omega)) rfl
  refine ⟨⟨?_, hstore.input⟩, fun k' hk' => ?_, fun k' hk' => ?_⟩
  · simp [hpa, Ne.symm hp, hm.pivot]
  · exact (store_other p (show 8 + k' < 12 by omega) hout (by change 8 + k' ≠ 4 + k; omega)).trans
      (hm.table k' hk')
  · by_cases hkk : k' = k
    · subst hkk
      exact Function.update_self ..
    · exact (store_other p (show 4 + k' < 12 by omega) hout (by change 4 + k' ≠ 4 + k; omega)).trans
        (hm.output k' (by omega))

theorem lane_two_does : Does F g R (Input p v)
    (load ++ (List.range 4).flatMap col ++ (List.range 2).flatMap moveRaw) (Halves F g p v 2) := by
  have hcols : Does F g R (Input p v) (load ++ (List.range 4).flatMap col) (Columns F g p v 4) :=
    (load_does R hR).append (Lib.Triple.loop fun c hc => col_does R hR hc)
  have hhalves : ∀ m, Columns F g p v 4 m → Halves F g p v 0 m := fun m hm =>
    ⟨hm.toInput, hm.table, fun k hk => absurd hk (Nat.not_lt_zero k)⟩
  have hscreen : Does F g R (Halves F g p v 0) ((List.range 2).flatMap moveRaw) (Halves F g p v 2) :=
    Lib.Triple.loop fun k hk => moveRaw_does R hR hk
  exact hcols.append (hscreen.weaken hhalves fun _ h => h)

theorem lane_taken_does (l : Nat) : Does F g R (Input p v) (program.filter (gets l)) fun m =>
    Input p v m ∧ ∀ k < 2, m.lmem (taskWord p (4 + k)) =
      if l = 2 then g (BitVec.ofNat 17 (14 + k)) else point F g v k := by
  rw [program_lane]
  split_ifs with hl
  · exact (lane_two_does R hR).weaken (fun _ h => h) fun m hm => ⟨hm.toInput, hm.output⟩
  · exact (program_does R hR).weaken (fun _ h => h) fun m hm => ⟨hm.toInput, hm.output⟩

end Task

/-! ## Passes that shade -/

section Passes

variable {GBW : Nat} (F : Fpu) (cmem : BitVec GBW → Word)

/-- A pass of `ws` gives every task of the pass its output, and leaves all vertices and all other
tasks alone. -/
structure Shades (ws : List Word) (out : Nat → (Nat → Word) → Nat → Word) : Prop where
  output : ∀ m c s, c < 14 → s / PARALLEL_CNT = c → ∀ k < 2,
    (Machine.run F id (constMem cmem (passOfst c)) ws m).lmem (slotWord s (4 + k)) = out s (vertex m s) k
  input : ∀ m c s, c < 14 → s / PARALLEL_CNT = c → ∀ j < 3,
    vertex (Machine.run F id (constMem cmem (passOfst c)) ws m) s j = vertex m s j
  other : ∀ m c s, c < 14 → s < SLOTS → s / PARALLEL_CNT ≠ c → ∀ j < TASK_SPACE,
    (Machine.run F id (constMem cmem (passOfst c)) ws m).lmem (slotWord s j) = m.lmem (slotWord s j)
  congr : ∀ s v v', (∀ j < 3, v j = v' j) → out s v = out s v'

variable {F cmem} {ws : List Word} {out : Nat → (Nat → Word) → Nat → Word}

theorem Shades.vertex (h : Shades F cmem ws out) {c s : Nat} (hc : c < 14) (hs : s < SLOTS) (m : Machine Reg)
    {j : Nat} (hj : j < 3) :
    Shader.vertex (Machine.run F id (constMem cmem (passOfst c)) ws m) s j = Shader.vertex m s j := by
  by_cases hsc : s / PARALLEL_CNT = c
  · exact h.input m c s hc hsc j hj
  · exact h.other m c s hc hs hsc (1 + j) (show 1 + j < 12 by omega)

theorem Shades.cycles (h : Shades F cmem ws out) (n : Nat) {c s : Nat} (hn : c + n ≤ 14) (hs : s < SLOTS)
    (m : Machine Reg) :
    (c ≤ s / PARALLEL_CNT → s / PARALLEL_CNT < c + n → ∀ k < 2,
      (cyclesFrom F cmem 36 ws (passOfst c) n m).lmem (slotWord s (4 + k)) = out s (Shader.vertex m s) k) ∧
      (s / PARALLEL_CNT < c → ∀ j < TASK_SPACE,
        (cyclesFrom F cmem 36 ws (passOfst c) n m).lmem (slotWord s j) = m.lmem (slotWord s j)) ∧
      ∀ j < 3, Shader.vertex (cyclesFrom F cmem 36 ws (passOfst c) n m) s j = Shader.vertex m s j := by
  induction n generalizing c m with
  | zero => exact ⟨fun hle hlt => absurd hlt (by omega), fun _ _ _ => rfl, fun _ _ => rfl⟩
  | succ n ih =>
    have hc : c < 14 := by omega
    obtain ⟨hrest, hdone, hkeep⟩ :=
      ih (by omega : c + 1 + n ≤ 14) (Machine.run F id (constMem cmem (passOfst c)) ws m)
    have hvertex := fun j (hj : j < 3) => h.vertex hc hs m hj
    rw [cyclesFrom, passOfst_succ]
    refine ⟨fun hle hlt k hk => ?_, fun hlt j hj => ?_, fun j hj => ?_⟩
    · by_cases hsc : s / PARALLEL_CNT = c
      · rw [hdone (by omega) _ (show 4 + k < 12 by omega), h.output m c s hc hsc k hk]
      · rw [hrest (by omega) (by omega) k hk, h.congr s _ _ hvertex]
    · rw [hdone (by omega) j hj, h.other m c s hc hs (by omega) j hj]
    · rw [hkeep j hj, hvertex j hj]

end Passes

/-! ## What is taken shades -/

section Taken

variable {GBW : Nat} (F : Fpu) (cmem : BitVec GBW → Word) (m : Machine Reg)

/-- What the device makes of task `s`: every third task of a thread shows the half of the screen. -/
def shown (g : BitVec 17 → Word) (s : Nat) (v : Nat → Word) (k : Nat) : Word :=
  if s % PARALLEL_CNT = 2 then g (BitVec.ofNat 17 (14 + k)) else point F g v k

theorem taken_lane_does (c : Nat) {l : Nat} (hl : l < PARALLEL_CNT) :
    Lib.Along (Machine.exec F hostReg (constMem cmem (passOfst c)))
        (Accesses hostReg (constMem cmem (passOfst c)) (InTask (passOfst c) 12 l))
        (laneStart F (constMem cmem (passOfst c)) 12 m l) (laneOf l taken) ∧
      (∀ k < 2, (Machine.run F hostReg (constMem cmem (passOfst c)) (laneOf l taken)
          (laneStart F (constMem cmem (passOfst c)) 12 m l)).lmem (slotWord (c * PARALLEL_CNT + l) (4 + k)) =
        shown F (consts cmem) (c * PARALLEL_CNT + l) (vertex m (c * PARALLEL_CNT + l)) k) ∧
      ∀ j < 3, (Machine.run F hostReg (constMem cmem (passOfst c)) (laneOf l taken)
          (laneStart F (constMem cmem (passOfst c)) 12 m l)).lmem (slotWord (c * PARALLEL_CNT + l) (1 + j)) =
        vertex m (c * PARALLEL_CNT + l) j := by
  have hR : ∀ i < TASK_SPACE,
      InTask (passOfst c) 12 l (taskWord (passOfst c + BitVec.ofNat 32 (l * 12)) i) := by
    intro i hi
    rw [taskWord_slot c l hi]
    exact slot_inTask c l hi
  obtain ⟨hok, hinput, hout⟩ := lane_taken_does _ hR l _ (lane_input F cmem m c hl)
  rw [← Lib.along_map] at hok
  rw [← Lib.run_map word] at hinput hout
  rw [taken_lane hl]
  refine ⟨hok, fun k hk => ?_, fun j hj => ?_⟩
  · have hmod : (c * PARALLEL_CNT + l) % PARALLEL_CNT = l := by
      rw [Nat.mul_comm, Nat.mul_add_mod, Nat.mod_eq_of_lt hl]
    have hout' := hout k hk
    rw [taskWord_slot c l (show 4 + k < 12 by omega), point_constMem F cmem _ _ hk,
      constMem_consts cmem _ (by omega) (by omega)] at hout'
    rw [shown, hmod]
    exact hout'
  · have hin := hinput.input j hj
    rwa [taskWord_slot c l (show 1 + j < 12 by omega)] at hin

theorem taken_lmem {c : Nat} (hc : c < 14) :
    (∀ l < PARALLEL_CNT, ∀ j < TASK_SPACE,
      (Machine.run F id (constMem cmem (passOfst c)) fedWords m).lmem (slotWord (c * PARALLEL_CNT + l) j) =
        (Machine.run F hostReg (constMem cmem (passOfst c)) (laneOf l taken)
          (laneStart F (constMem cmem (passOfst c)) 12 m l)).lmem (slotWord (c * PARALLEL_CNT + l) j)) ∧
      ∀ a, (∀ l < PARALLEL_CNT, ¬InTask (passOfst c) 12 l a) →
        (Machine.run F id (constMem cmem (passOfst c)) fedWords m).lmem a = m.lmem a := by
  have hstart := lanes_reference (R := InTask (passOfst c) 12)
    (Machine.run F id (constMem cmem (passOfst c)) (prologue 12) m)
  have h := hstart.mixed F _ (slots_apart hc) taken_words fun l hl => (taken_lane_does F cmem m c hl).1
  rw [run_fedWords]
  refine ⟨fun l hl j hj => (h.alike l hl).lmem _ (slot_inTask c l hj), fun a ha => ?_⟩
  rw [h.around a ha, prologue_lmem]

theorem fedWords_shades : Shades F cmem fedWords (shown F (consts cmem)) := by
  have hlane : ∀ {c s : Nat}, s / PARALLEL_CNT = c → ∃ l < PARALLEL_CNT, s = c * PARALLEL_CNT + l := by
    intro c s hsc
    refine ⟨s % PARALLEL_CNT, Nat.mod_lt s (by decide), ?_⟩
    rw [← hsc, Nat.div_add_mod']
  constructor
  case output =>
    intro m c s hc hsc k hk
    obtain ⟨l, hl, rfl⟩ := hlane hsc
    rw [(taken_lmem F cmem m hc).1 l hl _ (show 4 + k < 12 by omega), (taken_lane_does F cmem m c hl).2.1 k hk]
  case input =>
    intro m c s hc hsc j hj
    obtain ⟨l, hl, rfl⟩ := hlane hsc
    rw [vertex, (taken_lmem F cmem m hc).1 l hl _ (show 1 + j < 12 by omega),
      (taken_lane_does F cmem m c hl).2.2 j hj]
  case other =>
    intro m c s hc hs hsc j hj
    apply (taken_lmem F cmem m hc).2
    intro l hl hin
    obtain ⟨j', hj', he⟩ := inTask_slot hin
    have hslot := (slotWord_inj hs (slot_lt hc hl) hj hj' he).1
    unfold PARALLEL_CNT at *
    omega
  case congr =>
    intro s v v' h
    funext k
    unfold shown
    rw [point_congr F _ h]

end Taken

end Gppcu.Shader
