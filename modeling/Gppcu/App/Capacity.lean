import Gppcu.App.Upload

/-!
# The capacity of the instruction memories

`main` gives the driver room for 2048 instructions, and `TOP.v` gives the device
room for 2048 words. `gppcu_put_instr` counts the instructions, after it has
stored them, and the device is sent up to five words for each.
-/

namespace Gppcu

open Build

/-! ## The instruction memory of the driver -/

/-- The fields of `swk_gppcu_t` that hold the program. -/
structure InstrMem where
  marr : Nat → Word
  mcap : Nat
  mnum : Nat

namespace InstrMem

/-- `gppcu_init`; `marr` is what `malloc` returns. -/
def gppcuInit (marr : Nat → Word) (Capacity : Nat) : InstrMem := ⟨marr, Capacity, 0⟩

def gppcuClearInstr (pp : InstrMem) : InstrMem := { pp with mnum := 0 }

def gppcuPutInstr (pp : InstrMem) (instr : Word) : InstrMem :=
  { pp with marr := Function.update pp.marr pp.mnum instr, mnum := pp.mnum + 1 }

def build (pp : InstrMem) (k : Build) : InstrMem := pp.gppcuPutInstr k.word

def instrs (pp : InstrMem) : List Word := (List.range pp.mnum).map pp.marr

/-- What `gppcu_put_instr` asserts when it has stored. A failed assertion prints. -/
def Asserts (pp : InstrMem) (k : Build) : Prop := (pp.build k).mnum < (pp.build k).mcap

def StoresInside (pp : InstrMem) (_k : Build) : Prop := pp.mnum < pp.mcap

theorem build_instrs (pp : InstrMem) (k : Build) : (pp.build k).instrs = pp.instrs ++ [k.word] := by
  unfold instrs build gppcuPutInstr
  rw [List.range_succ, List.map_append, List.map_singleton]
  simp only [Function.update_self]
  congr 1
  apply List.map_congr_left
  intro i hi
  exact Function.update_of_ne (Nat.ne_of_lt (List.mem_range.mp hi)) _ _

theorem run_instrs (pp : InstrMem) (calls : List Build) :
    (Lib.run build pp calls).instrs = pp.instrs ++ calls.map word := by
  induction calls generalizing pp with
  | nil => simp
  | cons k calls ih =>
    rw [Lib.run_cons, ih, build_instrs, List.append_assoc]
    rfl

theorem along_room (spare : Nat) (pp : InstrMem) (calls : List Build) :
    Lib.Along build (fun pp _ => pp.mnum + spare < pp.mcap) pp calls ↔
      calls = [] ∨ pp.mnum + calls.length + spare ≤ pp.mcap := by
  induction calls generalizing pp with
  | nil => simp [Lib.Along]
  | cons k calls ih =>
    rw [Lib.Along, ih]
    simp only [build, gppcuPutInstr, reduceCtorEq, List.length_cons, false_or]
    constructor
    · rintro ⟨h, rfl | h'⟩
      · rw [List.length_nil]
        omega
      · omega
    · intro h
      exact ⟨by omega, Or.inr (by omega)⟩

end InstrMem

/-! ## The program memory of the device -/

def Build.pushes (k : Build) : Nat :=
  if k.opr = .nop then 1 else if isFpOpc k.opr.code then 5 else 4

theorem expandInstr_length (k : Build) : (expandInstr k.word).length = k.pushes := by
  unfold expandInstr Build.pushes
  rw [word_opr]
  have hnop : k.opr.code = 0 ↔ k.opr = .nop := by cases k.opr <;> decide
  simp only [hnop]
  split_ifs <;> simp [PARALLEL_CNT, BUBBLES]

theorem pushed_length (mtaskmem : Word) (calls : List Build) :
    (gppcuProgramAutofeedDeviceParallel mtaskmem (calls.map word)).length =
      14 + (calls.map Build.pushes).sum := by
  have hp : (prologue mtaskmem).length = 14 := rfl
  unfold gppcuProgramAutofeedDeviceParallel
  rw [List.length_append, hp, List.length_flatMap, List.map_map]
  congr 2
  exact List.map_congr_left fun k _ => expandInstr_length k

namespace HostView

variable {QBW GBW T : Nat}

structure Holds (v : HostView QBW GBW T) (ws : List Word) : Prop where
  count : v.pmemEnd.toNat = ws.length
  word : ∀ i x, ws[i]? = some x → v.pmem (BitVec.ofNat QBW i) = x

theorem holds_of_words {v : HostView QBW GBW T} {ws : List Word} (h : v.words = ws) : v.Holds ws := by
  subst h
  constructor
  · simp [words]
  · intro i x hx
    rw [words, List.getElem?_map] at hx
    obtain ⟨j, hj, rfl⟩ := Option.map_eq_some_iff.mp hx
    obtain ⟨-, rfl⟩ := List.getElem?_eq_some_iff.mp hj
    simp

theorem holds_upload (pp : SwkGppcu) (marr : List Word) (v : HostView QBW GBW T)
    (hroom : (gppcuProgramAutofeedDeviceParallel (BitVec.ofNat 32 pp.mtaskmem) marr).length < 2 ^ QBW) :
    (v.serve (pp.upload marr)).Holds
      (gppcuProgramAutofeedDeviceParallel (BitVec.ofNat 32 pp.mtaskmem) marr) :=
  holds_of_words (v.upload_words pp marr hroom)

end HostView

section Upload

variable {QBW GBW T : Nat} (F : Fin T → Fpu)

/-- However the clocks of the core fall between the accesses of the upload, the device then holds
the words that are pushed. -/
def Board.Arrives (b : Board QBW GBW T) (pp : SwkGppcu) (marr : List Word) : Prop :=
  ∀ es, es.filterMap Event.access? = (pp.upload marr).flatMap Call.accesses →
    (Lib.run (Board.step F) b es).device.view.Holds
      (gppcuProgramAutofeedDeviceParallel (BitVec.ofNat 32 pp.mtaskmem) marr)

theorem Board.arrives_iff (b : Board QBW GBW T) (pp : SwkGppcu) (marr : List Word) :
    b.Arrives F pp marr ↔
      (gppcuProgramAutofeedDeviceParallel (BitVec.ofNat 32 pp.mtaskmem) marr).length < 2 ^ QBW := by
  constructor
  · intro h
    rw [← (h _ (Board.serves_direct F b (pp.upload marr)).accesses).count]
    exact BitVec.isLt _
  · intro hroom es hes
    have hqueue := Board.queue_served F (b := b) hes (pp.upload_inRange marr)
    have hserved : (b.device.view.serve (pp.upload marr)).queue.Holds _ :=
      ⟨(b.device.view.holds_upload pp marr hroom).count, (b.device.view.holds_upload pp marr hroom).word⟩
    rw [← hqueue] at hserved
    exact ⟨hserved.count, hserved.word⟩

end Upload

/-! ## Both together -/

/-- The capacity is respected: while no assertion fails, every store is in the array and the whole
program arrives in the device, and whatever fails, no store leaves the array. -/
structure CapacityRespected {QBW GBW T : Nat} (F : Fin T → Fpu) (pp : InstrMem) (task : SwkGppcu)
    (b : Board QBW GBW T) (calls : List Build) : Prop where
  stores : Lib.Along InstrMem.build InstrMem.Asserts pp calls →
    Lib.Along InstrMem.build InstrMem.StoresInside pp calls
  arrives : Lib.Along InstrMem.build InstrMem.Asserts pp calls →
    b.Arrives F task (Lib.run InstrMem.build pp calls).instrs
  inside : Lib.Along InstrMem.build InstrMem.StoresInside pp calls

def mainMem (marr : Nat → Word) : InstrMem := (InstrMem.gppcuInit marr 2048).gppcuClearInstr

section Main

variable (marr : Nat → Word) (calls : List Build)

theorem main_instrs : (Lib.run InstrMem.build (mainMem marr) calls).instrs = calls.map word :=
  InstrMem.run_instrs (mainMem marr) calls

theorem main_asserts :
    Lib.Along InstrMem.build InstrMem.Asserts (mainMem marr) calls ↔ calls.length < 2048 := by
  have h := InstrMem.along_room 1 (mainMem marr) calls
  change _ ↔ calls = [] ∨ 0 + calls.length + 1 ≤ 2048 at h
  rw [Nat.zero_add, or_iff_right_of_imp (by rintro rfl; decide)] at h
  exact h

theorem main_storesInside :
    Lib.Along InstrMem.build InstrMem.StoresInside (mainMem marr) calls ↔ calls.length ≤ 2048 := by
  have h := InstrMem.along_room 0 (mainMem marr) calls
  change _ ↔ calls = [] ∨ 0 + calls.length + 0 ≤ 2048 at h
  rw [Nat.zero_add, or_iff_right_of_imp (by rintro rfl; decide)] at h
  exact h

variable {GBW T : Nat} (F : Fin T → Fpu) (task : SwkGppcu) (b : Board 11 GBW T)

theorem main_arrives : b.Arrives F task (Lib.run InstrMem.build (mainMem marr) calls).instrs ↔
    14 + (calls.map Build.pushes).sum < 2048 := by
  rw [main_instrs, Board.arrives_iff, pushed_length]
  exact Iff.rfl

/-- The capacity is respected exactly when the program has at most 2048 instructions and, unless it has all of
them, less than 2048 words once it is expanded. -/
theorem capacityRespected_iff : CapacityRespected F (mainMem marr) task b calls ↔
    calls.length ≤ 2048 ∧ (calls.length < 2048 → 14 + (calls.map Build.pushes).sum < 2048) := by
  constructor
  · rintro ⟨-, harrives, hinside⟩
    refine ⟨(main_storesInside marr calls).mp hinside, fun hlen => ?_⟩
    exact (main_arrives marr calls F task b).mp (harrives ((main_asserts marr calls).mpr hlen))
  · rintro ⟨hlen, hroom⟩
    have hinside := (main_storesInside marr calls).mpr hlen
    refine ⟨fun _ => hinside, fun hasserts => ?_, hinside⟩
    exact (main_arrives marr calls F task b).mpr (hroom ((main_asserts marr calls).mp hasserts))

end Main

def manyMoves : List Build := List.replicate 509 (.mvi 0 false 1 0)

/-- No assertion fails, and two words of the upload are lost: 14 words and four for each of the 509
instructions make 2050. -/
theorem manyMoves_overflow :
    Lib.Along InstrMem.build InstrMem.Asserts (mainMem fun _ => 0) manyMoves ∧
      ¬CapacityRespected (fun _ => anyFpu) (mainMem fun _ => 0) (gppcuInit ⟨0, 0, 0, 0, 0, 0⟩ 24 512)
        emptyBoard manyMoves := by
  have hlen : manyMoves.length = 509 := List.length_replicate
  have hpushes : (manyMoves.map Build.pushes).sum = 2036 := by
    unfold manyMoves
    rw [List.map_replicate, List.sum_replicate_nat]
    decide
  have hasserts := (main_asserts (fun _ => 0) manyMoves).mpr (by omega)
  refine ⟨hasserts, fun h => ?_⟩
  have hroom := (main_arrives (fun _ => 0) manyMoves (fun _ => anyFpu) _ emptyBoard).mp (h.arrives hasserts)
  omega

end Gppcu
