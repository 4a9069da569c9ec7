import Gppcu.Queue.Schedule
import Gppcu.Queue.Supply
import Gppcu.Lib.Stutter

/-!
# The device without time

How long the FPU takes does not matter for which words are taken, only that it
takes some time: the read register catches up with `pmem_head` while an FPU word
is in exec. What is left when the clocks of that delay are left out is a machine
that a program can be followed on by hand.
-/

namespace Gppcu

open Instr

/-! ## Stages that can be checked -/

theorem indep_iff (w x : Word) : Indep w x ↔ ¬((cw x).regWr = true ∧
    ((cw w).useRegA = true ∧ rega w = regd x ∨ (cw w).useRegB = true ∧ regb w = regd x)) := by
  unfold Indep reads writes
  simp only [Bool.or_eq_true, Bool.and_eq_true, beq_iff_eq, Bool.and_eq_false_iff, beq_eq_false_iff_ne, ne_eq]
  constructor
  · rintro h ⟨hw, hr⟩
    rcases h (regd x) hr with hn | hn
    · simp [hw] at hn
    · exact hn rfl
  · intro h r hr
    by_contra hn
    rw [not_or, Bool.not_eq_false, not_not] at hn
    obtain ⟨hw, rfl⟩ := hn
    exact h ⟨hw, hr⟩

instance (w x : Word) : Decidable (Indep w x) := decidable_of_iff' _ (indep_iff w x)

instance (w : Word) : Decidable (OffPivot w) := inferInstanceAs (Decidable (_ → _))

theorem Stages.clear_iff (s : Stages) : s.Clear ↔ Indep s.d s.e ∧ Indep s.d s.b ∧
    (isFp s.e = true → Indep s.d s.d) ∧ sAllowed s.d :=
  ⟨fun ⟨he, hb, hs, ha⟩ => ⟨he, hb, hs, ha⟩, fun ⟨he, hb, hs, ha⟩ => ⟨he, hb, hs, ha⟩⟩

instance (s : Stages) : Decidable s.Clear := decidable_of_iff' _ s.clear_iff

/-! ## One pass -/

namespace Stages

/-- What is taken while `pmem_head` goes over the words, `lag` being in the read register. -/
def fed (s : Stages) (lag : Word) : List Word → List Word
  | [] => []
  | w :: ws => (if isFp s.e then w else lag) :: fed (s.take (if isFp s.e then w else lag)) w ws

/-- The clock that takes `pmem_head` back to 0 offers nothing, and does not wait for the FPU. -/
def wrapped (s : Stages) : Stages := if isFp s.e then s else s.take 0

def through (s : Stages) (lag : Word) : List Word → Stages
  | [] => s
  | w :: ws => through (s.take (if isFp s.e then w else lag)) w ws

def after (s : Stages) (lag : Word) (ws : List Word) : Stages := (s.through lag ws).wrapped

/-- Nothing but the FPU stops the pass, and the words that it leaves in the pipeline do not look
at the task offset. -/
def Passes (s : Stages) (lag : Word) : List Word → Prop
  | [] => s.Clear ∧ OffPivot s.wrapped.d ∧ OffPivot s.wrapped.f
  | w :: ws => s.Clear ∧ Passes (s.take (if isFp s.e then w else lag)) w ws

instance decidablePasses (s : Stages) (lag : Word) : (ws : List Word) → Decidable (s.Passes lag ws)
  | [] => inferInstanceAs (Decidable (s.Clear ∧ OffPivot s.wrapped.d ∧ OffPivot s.wrapped.f))
  | w :: ws => @instDecidableAnd _ _ _ (decidablePasses (s.take (if isFp s.e then w else lag)) w ws)

theorem Passes.clear {s : Stages} {lag : Word} {ws : List Word} (h : s.Passes lag ws) : s.Clear := by
  cases ws <;> exact h.1

/-- Nothing stops the words that are in the pipeline after the last pass. -/
structure Drains (s : Stages) : Prop where
  clear : s.Clear
  next : (s.take 0).Clear

theorem drains_iff (s : Stages) : s.Drains ↔ s.Clear ∧ (s.take 0).Clear :=
  ⟨fun ⟨hc, hn⟩ => ⟨hc, hn⟩, fun ⟨hc, hn⟩ => ⟨hc, hn⟩⟩

instance (s : Stages) : Decidable s.Drains := decidable_of_iff' _ s.drains_iff

theorem Drains.take {s : Stages} (h : s.Drains) : (s.take 0).Drains :=
  ⟨h.next, clear_zero _ rfl⟩

end Stages

/-! ## All passes -/

section Passes

variable {QBW GBW : Nat} (F : Fpu) (q₀ : Queue QBW GBW)

/-- `n` passes and what is taken behind the last one. -/
def fedFrom : Nat → Word → Stages → Word → Machine Reg → Machine Reg
  | 0, ofst, s, lag, m => if isFp s.e then m else Machine.exec F id (constMem q₀.cmem.ram ofst) m lag
  | n + 1, ofst, s, lag, m =>
    fedFrom n (ofst + q₀.szPerTask) (s.after lag q₀.words) (q₀.word q₀.pmemEnd.toNat)
      (Machine.run F id (constMem q₀.cmem.ram ofst) (s.fed lag q₀.words) m)

/-- `n` passes that only the FPU stops. -/
def SafeFrom : Nat → Stages → Word → Prop
  | 0, s, lag => s.Clear ∧ (if isFp s.e then s else s.take lag).Drains
  | n + 1, s, lag =>
    s.Passes lag q₀.words ∧ SafeFrom n (s.after lag q₀.words) (q₀.word q₀.pmemEnd.toNat)

instance decidableSafeFrom : (n : Nat) → (s : Stages) → (lag : Word) → Decidable (SafeFrom q₀ n s lag)
  | 0, s, lag => inferInstanceAs (Decidable (s.Clear ∧ (if isFp s.e then s else s.take lag).Drains))
  | n + 1, s, lag =>
    @instDecidableAnd _ _ _ (decidableSafeFrom n (s.after lag q₀.words) (q₀.word q₀.pmemEnd.toNat))

end Passes

/-! ## The machine -/

/-- Where `pmem_head` is: before the words `left`, with `cycles` passes to come after this one. -/
inductive Place
  | pass (cycles : Nat) (left : List Word)
  | last
  | done (flushed : Nat)

structure Feeder (T : Nat) where
  place : Place
  /-- The read register of the program memory. -/
  lag : Word
  ofst : Word
  /-- The clocks of its delay that the word in exec has behind it. -/
  waited : Nat
  stages : Stages
  machines : Fin T → Machine Reg

namespace Feeder

variable {QBW GBW T : Nat} (F : Fpu) (q₀ : Queue QBW GBW)

def move (u : Word) (x : Feeder T) : Feeder T :=
  { x with
    waited := 0
    stages := x.stages.take u
    machines := fun k => Machine.exec F id (constMem q₀.cmem.ram x.ofst) (x.machines k) x.stages.d }

/-- A clock of the supply logic that does not ask whether the core is ready. -/
def pass (u : Word) (x : Feeder T) : Feeder T :=
  if isFp x.stages.e then { x with waited := x.waited + 1 } else x.move F q₀ u

def nextPass : Nat → Place
  | 0 => .last
  | n + 1 => .pass n q₀.words

def step (x : Feeder T) : Feeder T :=
  match x.place with
  | .pass n (w :: left) =>
    { x.move F q₀ (if isFp x.stages.e then w else x.lag) with place := .pass n left, lag := w }
  | .pass n [] =>
    { x.pass F q₀ 0 with
      place := nextPass q₀ n
      lag := q₀.word q₀.pmemEnd.toNat
      ofst := x.ofst + q₀.szPerTask }
  | .last => { x.pass F q₀ x.lag with place := .done 0 }
  | .done n => { x.move F q₀ 0 with place := .done (n + 1) }

/-! ## What it comes to -/

def pending (x : Feeder T) (k : Fin T) : Machine Reg :=
  Machine.run F id (constMem q₀.cmem.ram x.ofst) [x.stages.d, x.stages.f] (x.machines k)

def total (x : Feeder T) (k : Fin T) : Machine Reg :=
  match x.place with
  | .pass n left => fedFrom F q₀ n (x.ofst + q₀.szPerTask) (x.stages.after x.lag left)
      (q₀.word q₀.pmemEnd.toNat)
      (Machine.run F id (constMem q₀.cmem.ram x.ofst) (x.stages.fed x.lag left) (x.pending F q₀ k))
  | .last => fedFrom F q₀ 0 x.ofst x.stages x.lag (x.pending F q₀ k)
  | .done _ => x.pending F q₀ k

def Safe (x : Feeder T) : Prop :=
  match x.place with
  | .pass n left =>
    x.stages.Passes x.lag left ∧ SafeFrom q₀ n (x.stages.after x.lag left) (q₀.word q₀.pmemEnd.toNat)
  | .last => SafeFrom q₀ 0 x.stages x.lag
  | .done _ => x.stages.Drains

variable {F q₀} {x : Feeder T}

theorem Safe.clear (h : x.Safe q₀) : x.stages.Clear := by
  unfold Safe at h
  split at h
  · exact h.1.clear
  · exact h.1
  · exact h.clear

theorem pending_move (u : Word) (k : Fin T) : (x.move F q₀ u).pending F q₀ k =
    Machine.exec F id (constMem q₀.cmem.ram x.ofst) (x.pending F q₀ k) u := rfl

theorem pass_of_fp (u : Word) (h : isFp x.stages.e = true) :
    x.pass F q₀ u = { x with waited := x.waited + 1 } := if_pos h

theorem pass_of_not_fp (u : Word) (h : isFp x.stages.e = false) : x.pass F q₀ u = x.move F q₀ u :=
  if_neg (by simp [h])

theorem pass_ofst (u : Word) : (x.pass F q₀ u).ofst = x.ofst := by
  unfold pass
  split_ifs <;> rfl

theorem pass_stages (u : Word) : (x.pass F q₀ u).stages = if isFp x.stages.e then x.stages else x.stages.take u := by
  unfold pass
  split_ifs <;> rfl

theorem pending_wrap (place : Place) (lag : Word) (k : Fin T) (hd : OffPivot x.stages.wrapped.d)
    (hf : OffPivot x.stages.wrapped.f) :
    ({ x.pass F q₀ 0 with place := place, lag := lag, ofst := x.ofst + q₀.szPerTask } : Feeder T).pending F q₀ k =
      x.pending F q₀ k := by
  have hst : (x.pass F q₀ 0).stages = x.stages.wrapped := pass_stages 0
  simp only [pending, hst, Machine.run_cons, Machine.run_nil]
  rw [exec_offPivot F q₀.cmem.ram hd _ x.ofst, exec_offPivot F q₀.cmem.ram hf _ x.ofst]
  by_cases hfp : isFp x.stages.e = true
  · rw [pass_of_fp 0 hfp, Stages.wrapped, if_pos hfp]
  · rw [Bool.not_eq_true] at hfp
    rw [pass_of_not_fp 0 hfp, Stages.wrapped, if_neg (by simp [hfp])]
    exact exec_zero F _ _

theorem safe_nextPass {n : Nat} {s : Stages} {lag : Word} (hs : x.stages = s) (hl : x.lag = lag)
    (h : SafeFrom q₀ n s lag) (hp : x.place = nextPass q₀ n) : x.Safe q₀ := by
  subst hs hl
  unfold Safe
  rw [hp]
  cases n <;> exact h

theorem total_nextPass {n : Nat} (hp : x.place = nextPass q₀ n) (k : Fin T) :
    x.total F q₀ k = fedFrom F q₀ n x.ofst x.stages x.lag (x.pending F q₀ k) := by
  unfold total
  rw [hp]
  cases n <;> rfl

theorem step_keeps (h : x.Safe q₀) :
    (x.step F q₀).Safe q₀ ∧ ∀ k, (x.step F q₀).total F q₀ k = x.total F q₀ k := by
  unfold Safe at h
  unfold step
  split
  case h_1 n w left hp =>
    rw [hp] at h
    refine ⟨⟨h.1.2, h.2⟩, fun k => ?_⟩
    unfold total
    rw [hp]
    rfl
  case h_2 n hp =>
    rw [hp] at h
    obtain ⟨⟨-, hd, hf⟩, hnext⟩ := h
    refine ⟨safe_nextPass (pass_stages 0) rfl hnext rfl, fun k => ?_⟩
    rw [total_nextPass rfl, pending_wrap _ _ k hd hf]
    unfold total
    rw [hp]
    change fedFrom F q₀ n _ (x.pass F q₀ 0).stages _ _ = _
    rw [pass_stages]
    rfl
  case h_3 hp =>
    rw [hp] at h
    obtain ⟨-, hdr⟩ := h
    constructor
    · change (x.pass F q₀ x.lag).stages.Drains
      rwa [pass_stages]
    · intro k
      change (x.pass F q₀ x.lag).pending F q₀ k = _
      unfold total
      rw [hp]
      by_cases hfp : isFp x.stages.e = true
      · rw [pass_of_fp _ hfp]
        simp only [fedFrom, hfp, if_true]
        rfl
      · rw [Bool.not_eq_true] at hfp
        rw [pass_of_not_fp _ hfp, pending_move]
        simp [fedFrom, hfp]
  case h_4 n hp =>
    rw [hp] at h
    refine ⟨h.take, fun k => ?_⟩
    change (x.move F q₀ 0).pending F q₀ k = _
    rw [pending_move, exec_zero]
    unfold total
    rw [hp]

/-! ## How many steps -/

/-- The steps that are still to come before the program is done. -/
def stepsLeft (q₀ : Queue QBW GBW) : Place → Nat
  | .pass n left => left.length + 1 + n * (q₀.words.length + 1) + 1
  | .last => 1
  | .done _ => 0

def nextPlace (q₀ : Queue QBW GBW) : Place → Place
  | .pass n (_ :: left) => .pass n left
  | .pass n [] => nextPass q₀ n
  | .last => .done 0
  | .done n => .done (n + 1)

theorem step_place : (x.step F q₀).place = nextPlace q₀ x.place := by
  unfold step
  split
  all_goals
    rename_i hp
    rw [hp]
    rfl

theorem stepsLeft_nextPass (n : Nat) : stepsLeft q₀ (nextPass q₀ n) = n * (q₀.words.length + 1) + 1 := by
  cases n with
  | zero => simp [nextPass, stepsLeft]
  | succ n =>
    simp only [nextPass, stepsLeft, Nat.succ_mul]
    omega

theorem nextPlace_last (place : Place) (h : stepsLeft q₀ place = 1) : nextPlace q₀ place = .done 0 := by
  cases place with
  | pass n left => simp [stepsLeft] at h
  | last => rfl
  | done n => cases h

theorem stepsLeft_next (place : Place) (n : Nat) (h : stepsLeft q₀ place = n + 1) :
    stepsLeft q₀ (nextPlace q₀ place) = n := by
  cases place with
  | pass c left =>
    cases left with
    | nil =>
      rw [nextPlace, stepsLeft_nextPass]
      simp only [stepsLeft, List.length_nil] at h
      omega
    | cons w left =>
      simp only [stepsLeft, nextPlace, List.length_cons] at h ⊢
      omega
  | last => simp only [stepsLeft, nextPlace] at h ⊢; omega
  | done j => cases h

theorem finishes (x : Feeder T) (hx : 0 < stepsLeft q₀ x.place) (j : Nat) :
    ((step F q₀)^[stepsLeft q₀ x.place + j] x).place = .done j := by
  have hdone : ∀ (y : Feeder T) i j, y.place = .done i → ((step F q₀)^[j] y).place = .done (i + j) := by
    intro y i j hy
    induction j generalizing y i with
    | zero => exact hy
    | succ j ih =>
      rw [Function.iterate_succ_apply, ih _ (i + 1) (by rw [step_place, hy]; rfl)]
      congr 1
      omega
  generalize hn : stepsLeft q₀ x.place = n at hx
  induction n generalizing x with
  | zero => omega
  | succ n ih =>
    rw [Nat.add_right_comm, Function.iterate_succ_apply]
    cases n with
    | zero =>
      rw [hdone _ 0 _ (by rw [step_place, nextPlace_last _ hn])]
      congr 1
      omega
    | succ n => exact ih _ (by rw [step_place, stepsLeft_next _ _ hn]) (Nat.succ_pos n)

end Feeder

end Gppcu
