import Gppcu.Driver.Autofeed
import Gppcu.Driver.Serve
import Gppcu.Lib.Cells
import Mathlib.Data.List.TakeWhile

/-!
# Task data

`gppcu_init_task_parallel`, `gppcu_write` and `gppcu_read`. Tasks are dealt to
the threads in turn, and each round of tasks takes `mtaskmem` more words of
every local memory.
-/

namespace Gppcu

/-- The fields of `swk_gppcu_t` that say where a task is. -/
structure SwkGppcu where
  mnumthr : Nat
  mtaskcycle : Nat
  mtaskmem : Nat
  roTaskmaxcycle : Nat
  roNumtask : Nat
  roMaxWordPerThread : Nat
  deriving DecidableEq

def gppcuInit (pp : SwkGppcu) (numThreads maxWordPerThread : Nat) : SwkGppcu :=
  { pp with
    mnumthr := numThreads
    mtaskcycle := 0
    mtaskmem := 0
    roNumtask := 0
    roMaxWordPerThread := maxWordPerThread }

def SwkGppcu.adjust (pp : SwkGppcu) : List Call :=
  [.deviceCommand LPM_SZPERCYCLE (BitVec.ofNat 16 (pp.mtaskmem * PARALLEL_CNT)),
    .deviceCommand LPM_NUMCYCLE (BitVec.ofNat 16 ((pp.mtaskcycle + PARALLEL_CNT - 1) / PARALLEL_CNT))]

/-- Its assertion only prints. -/
def gppcuInitTaskParallel (pp : SwkGppcu) (WordsPerTask : BitVec 8) (NumTasks : BitVec 16) :
    SwkGppcu × List Call :=
  let pp' : SwkGppcu :=
    { pp with
      roNumtask := NumTasks.toNat
      mtaskcycle := (NumTasks.toNat + pp.mnumthr - 1) / pp.mnumthr
      mtaskmem := WordsPerTask.toNat
      roTaskmaxcycle := pp.roMaxWordPerThread / WordsPerTask.toNat }
  (pp', pp'.adjust)

/-- The loop of `gppcu_write` and `gppcu_read` over the tasks that are left, with `idx_thread`,
`cycle_based_offset` and `head` as they run. -/
def forTasks (pp : SwkGppcu) (ElementSizeInWords : Nat) (stop : Nat → Bool)
    (body : Nat → Nat → Nat → List Call) : Nat → Nat → Nat → Nat → List Call
  | 0, _, _, _ => []
  | left + 1, idxThread, cycleBasedOffset, head =>
    if stop head then []
    else body idxThread cycleBasedOffset head ++
      if idxThread + 1 = pp.mnumthr then
        forTasks pp ElementSizeInWords stop body left 0 (cycleBasedOffset + pp.mtaskmem)
          (head + ElementSizeInWords)
      else
        forTasks pp ElementSizeInWords stop body left (idxThread + 1) cycleBasedOffset
          (head + ElementSizeInWords)

def gppcuWrite (pp : SwkGppcu) (data : List Word) (ElementSizeInWords : BitVec 8) (ofst : Word) : List Call :=
  forTasks pp ElementSizeInWords.toNat (fun _ => false)
    (fun idxThread cycleBasedOffset head => (List.range ElementSizeInWords.toNat).map fun elemIdx =>
      .dataWr (BitVec.ofNat 32 idxThread)
        (BitVec.ofNat 32 cycleBasedOffset + ofst + BitVec.ofNat 32 elemIdx)
        (data.getD (head + elemIdx) 0))
    pp.roNumtask 0 0 0

/-- What the calls return goes to the destination in order. -/
def gppcuRead (pp : SwkGppcu) (Capacity : Word) (ElementSizeInWords : BitVec 8) (ofst : Word) : List Call :=
  forTasks pp ElementSizeInWords.toNat (fun head => Capacity.toNat ≤ head + ElementSizeInWords.toNat)
    (fun idxThread cycleBasedOffset _ => (List.range ElementSizeInWords.toNat).map fun elemIdx =>
      .dataRd (BitVec.ofNat 32 idxThread)
        (BitVec.ofNat 32 cycleBasedOffset + ofst + BitVec.ofNat 32 elemIdx))
    pp.roNumtask 0 0 0

/-! ## Where a task is -/

/-- The thread of task `i`, and the address of its word `k` there. -/
def SwkGppcu.cell (pp : SwkGppcu) (i k : Nat) : Nat × BitVec 9 :=
  (i % pp.mnumthr, BitVec.ofNat 9 (i / pp.mnumthr * pp.mtaskmem + k))

/-- The tasks fit the local memories of a device with `T` threads, as `gppcu_init_task_parallel`
asserts. -/
structure SwkGppcu.Fits (pp : SwkGppcu) (T : Nat) : Prop where
  pos : 0 < pp.mnumthr
  le : pp.mnumthr ≤ 24
  device : pp.mnumthr ≤ T
  room : pp.roNumtask < 512 / pp.mtaskmem * pp.mnumthr

namespace SwkGppcu

variable {pp : SwkGppcu} {T : Nat} (h : pp.Fits T) {i i' k k' : Nat}

include h

theorem Fits.thread_lt (i : Nat) : i % pp.mnumthr < pp.mnumthr := Nat.mod_lt _ h.pos

theorem Fits.word_lt (hi : i < pp.roNumtask) (hk : k < pp.mtaskmem) :
    i / pp.mnumthr * pp.mtaskmem + k < 512 := by
  have hround : i / pp.mnumthr < 512 / pp.mtaskmem := by
    rw [Nat.div_lt_iff_lt_mul h.pos]
    exact Nat.lt_trans hi h.room
  calc i / pp.mnumthr * pp.mtaskmem + k < (i / pp.mnumthr + 1) * pp.mtaskmem := by
        rw [Nat.succ_mul]
        omega
    _ ≤ 512 / pp.mtaskmem * pp.mtaskmem := Nat.mul_le_mul_right _ hround
    _ ≤ 512 := Nat.div_mul_le_self _ _

theorem Fits.cell_injective (hi : i < pp.roNumtask) (hk : k < pp.mtaskmem) (hi' : i' < pp.roNumtask)
    (hk' : k' < pp.mtaskmem) (he : pp.cell i k = pp.cell i' k') : i = i' ∧ k = k' := by
  have hlt := h.word_lt hi hk
  have hlt' := h.word_lt hi' hk'
  obtain ⟨hthread, hword⟩ := Prod.mk.inj he
  have hword' := congrArg BitVec.toNat hword
  rw [BitVec.toNat_ofNat, BitVec.toNat_ofNat, Nat.mod_eq_of_lt hlt, Nat.mod_eq_of_lt hlt',
    Nat.mul_comm, Nat.mul_comm (i' / _)] at hword'
  have hk₂ : k = k' := by
    have hmod := congrArg (· % pp.mtaskmem) hword'
    simpa [Nat.mul_add_mod, Nat.mod_eq_of_lt hk, Nat.mod_eq_of_lt hk'] using hmod
  have hround : i / pp.mnumthr = i' / pp.mnumthr := by
    apply Nat.eq_of_mul_eq_mul_left (show 0 < pp.mtaskmem by omega)
    omega
  refine ⟨?_, hk₂⟩
  calc i = pp.mnumthr * (i / pp.mnumthr) + i % pp.mnumthr := (Nat.div_add_mod ..).symm
    _ = pp.mnumthr * (i' / pp.mnumthr) + i' % pp.mnumthr := by rw [hround, hthread]
    _ = i' := Nat.div_add_mod ..

end SwkGppcu

/-! ## The loop -/

section Loop

variable (pp : SwkGppcu) (e : Nat) (stop : Nat → Bool) (body : Nat → Nat → Nat → List Call)

theorem next_task {n : Nat} (hpos : 0 < n) (i : Nat) :
    if i % n + 1 = n then (i + 1) / n = i / n + 1 ∧ (i + 1) % n = 0
    else (i + 1) / n = i / n ∧ (i + 1) % n = i % n + 1 := by
  have hdm := Nat.div_add_mod i n
  have hlt := Nat.mod_lt i hpos
  split_ifs with hwrap
  · rw [Nat.div_mod_unique hpos, Nat.mul_succ]
    omega
  · rw [Nat.div_mod_unique hpos]
    omega

theorem forTasks_from (hpos : 0 < pp.mnumthr) (left i : Nat) :
    forTasks pp e stop body left (i % pp.mnumthr) (i / pp.mnumthr * pp.mtaskmem) (i * e) =
      ((List.range' i left).takeWhile fun i => !stop (i * e)).flatMap fun i =>
        body (i % pp.mnumthr) (i / pp.mnumthr * pp.mtaskmem) (i * e) := by
  induction left generalizing i with
  | zero => rfl
  | succ left ih =>
    have hnext := ih (i + 1)
    have htask := next_task hpos i
    rw [forTasks, List.range'_succ, List.takeWhile_cons]
    by_cases hs : stop (i * e) = true
    · simp [hs]
    rw [Nat.succ_mul] at hnext
    simp only [hs, Bool.not_false, Bool.false_eq_true, if_true, if_false, List.flatMap_cons, ← hnext]
    split_ifs at htask ⊢ with hwrap
    · rw [htask.1, htask.2, Nat.succ_mul]
    · rw [htask.1, htask.2]

theorem forTasks_all (hpos : 0 < pp.mnumthr) (n : Nat) :
    forTasks pp e stop body n 0 0 0 = ((List.range n).takeWhile fun i => !stop (i * e)).flatMap fun i =>
      body (i % pp.mnumthr) (i / pp.mnumthr * pp.mtaskmem) (i * e) := by
  have h := forTasks_from pp e stop body hpos n 0
  simpa [List.range_eq_range'] using h

theorem mem_forTasks {pp : SwkGppcu} {e n : Nat} {stop : Nat → Bool} {body : Nat → Nat → Nat → List Call}
    (hpos : 0 < pp.mnumthr) {c : Call} (hc : c ∈ forTasks pp e stop body n 0 0 0) :
    ∃ i < n, c ∈ body (i % pp.mnumthr) (i / pp.mnumthr * pp.mtaskmem) (i * e) := by
  rw [forTasks_all _ _ _ _ hpos, List.mem_flatMap] at hc
  obtain ⟨i, hi, hc⟩ := hc
  exact ⟨i, List.mem_range.mp ((List.takeWhile_subset _) hi), hc⟩

end Loop

/-! ## The calls and the cells -/

def Call.stored? : Call → Option ((Nat × BitVec 9) × Word)
  | dataWr ThreadIdx WordIdx Data => some ((ThreadIdx.toNat, WordIdx.setWidth 9), Data)
  | _ => none

def Call.asked? : Call → Option (Nat × BitVec 9)
  | dataRd ThreadIdx WordIdx => some (ThreadIdx.toNat, WordIdx.setWidth 9)
  | _ => none

namespace HostView

variable {QBW GBW T : Nat} (v : HostView QBW GBW T)

def cells : Nat × BitVec 9 → Word := fun p => v.cell p.1 p.2

theorem lmem_cells (k : Fin T) (a : BitVec 9) : v.lmem k a = v.cells (k, a) := by
  simp [cells, cell]

theorem cells_write {t : Nat} (ht : t < T) (a : BitVec 9) (x : Word) :
    (v.write t a x).cells = Function.update v.cells (t, a) x := by
  funext ⟨t', a'⟩
  by_cases ht' : t' = t
  · subst ht'
    by_cases ha : a' = a
    · subst ha
      simp [cells, cell, write, ht]
    · simp [cells, cell, write, ht, ha]
  · simp [cells, cell, write, ht', Ne.symm ht']

theorem cells_apply {c : Call} (hc : ∀ s, c.stored? = some s → s.1.1 < T) :
    (c.apply v).cells = Lib.store v.cells c.stored?.toList := by
  cases c with
  | dataWr t w x => exact cells_write v (hc _ rfl) (w.setWidth 9) x
  | deviceCommand l x =>
    funext p
    unfold cells cell
    simp [Call.apply, setRegister_lmem, answering, Call.stored?]
  | pushInstr | dataRd | constantWr | stat => rfl

theorem cells_serve {cs : List Call} (hcs : ∀ s ∈ cs.filterMap Call.stored?, s.1.1 < T) :
    (v.serve cs).cells = Lib.store v.cells (cs.filterMap Call.stored?) := by
  induction cs generalizing v with
  | nil => rfl
  | cons c cs ih =>
    have hone := v.cells_apply (c := c) fun s hs => hcs s (by simp [hs])
    have hrest := ih (c.apply v) fun s hs => hcs s (by
      rw [List.filterMap_cons]
      split <;> simp [hs])
    rw [hone] at hrest
    rw [serve_cons, List.filterMap_cons]
    cases hs : c.stored? with
    | none => simpa [hs] using hrest
    | some s => simpa [hs] using hrest

theorem replies_reads {cs : List Call} (hcs : cs.filterMap Call.stored? = []) :
    v.replies cs = (cs.filterMap Call.asked?).map v.cells := by
  induction cs generalizing v with
  | nil => rfl
  | cons c cs ih =>
    rw [List.filterMap_eq_nil_iff, List.forall_mem_cons] at hcs
    have hcells : (c.apply v).cells = v.cells := by
      rw [cells_apply v (by simp [hcs.1]), hcs.1]
      rfl
    have hrest := ih (c.apply v) (List.filterMap_eq_nil_iff.mpr hcs.2)
    rw [hcells] at hrest
    rw [replies_cons, hrest, List.filterMap_cons]
    cases c <;> rfl

theorem replies_none {cs : List Call} (hcs : cs.filterMap Call.asked? = []) : v.replies cs = [] := by
  induction cs generalizing v with
  | nil => rfl
  | cons c cs ih =>
    rw [List.filterMap_eq_nil_iff, List.forall_mem_cons] at hcs
    rw [replies_cons, ih (c.apply v) (List.filterMap_eq_nil_iff.mpr hcs.2), List.append_nil]
    cases c with
    | dataRd t w => cases hcs.1
    | _ => rfl

end HostView

/-! ## What the loops do to the cells -/

theorem wordIdx_setWidth (cycleBasedOffset elemIdx : Nat) (ofst : Word) :
    (BitVec.ofNat 32 cycleBasedOffset + ofst + BitVec.ofNat 32 elemIdx).setWidth 9 =
      BitVec.ofNat 9 (cycleBasedOffset + (ofst.toNat + elemIdx)) := by
  apply BitVec.eq_of_toNat_eq
  simp only [BitVec.toNat_setWidth, BitVec.toNat_add, BitVec.toNat_ofNat]
  omega

section Loops

variable {pp : SwkGppcu} {T : Nat} (h : pp.Fits T)

include h

theorem thread_toNat (i : Nat) : (BitVec.ofNat 32 (i % pp.mnumthr)).toNat = i % pp.mnumthr := by
  have hlt := h.thread_lt i
  have hle := h.le
  rw [BitVec.toNat_ofNat, Nat.mod_eq_of_lt (by omega)]

theorem gppcuWrite_stored (data : List Word) (e : BitVec 8) (ofst : Word) :
    (gppcuWrite pp data e ofst).filterMap Call.stored? =
      (List.range pp.roNumtask).flatMap fun i => (List.range e.toNat).map fun j =>
        (pp.cell i (ofst.toNat + j), data.getD (i * e.toNat + j) 0) := by
  have hall : (List.range pp.roNumtask).takeWhile (fun _ => !false) = List.range pp.roNumtask := by
    simp [List.takeWhile_eq_self_iff]
  rw [gppcuWrite, forTasks_all _ _ _ _ h.pos, hall, List.filterMap_flatMap]
  simp [List.filterMap_map, Function.comp_def, Call.stored?, wordIdx_setWidth, thread_toNat h,
    SwkGppcu.cell]

theorem mem_gppcuWrite_stored {data : List Word} {e : BitVec 8} {ofst : Word} {s : (Nat × BitVec 9) × Word} :
    s ∈ (gppcuWrite pp data e ofst).filterMap Call.stored? ↔ ∃ i < pp.roNumtask, ∃ j < e.toNat,
      s = (pp.cell i (ofst.toNat + j), data.getD (i * e.toNat + j) 0) := by
  rw [gppcuWrite_stored h]
  simp only [List.mem_flatMap, List.mem_map, List.mem_range, eq_comm]

theorem gppcuRead_asked (Capacity : Word) (e : BitVec 8) (ofst : Word) :
    (gppcuRead pp Capacity e ofst).filterMap Call.asked? =
      ((List.range pp.roNumtask).takeWhile fun i => i * e.toNat + e.toNat < Capacity.toNat).flatMap fun i =>
        (List.range e.toNat).map fun j => pp.cell i (ofst.toNat + j) := by
  rw [gppcuRead, forTasks_all _ _ _ _ h.pos, List.filterMap_flatMap]
  simp [List.filterMap_map, Function.comp_def, Call.asked?, wordIdx_setWidth, thread_toNat h,
    SwkGppcu.cell, ← decide_not]

theorem mem_gppcuWrite {data : List Word} {e : BitVec 8} {ofst : Word} {c : Call}
    (hc : c ∈ gppcuWrite pp data e ofst) : ∃ i < pp.roNumtask, ∃ j < e.toNat, ∃ x,
      c = .dataWr (BitVec.ofNat 32 (i % pp.mnumthr))
        (BitVec.ofNat 32 (i / pp.mnumthr * pp.mtaskmem) + ofst + BitVec.ofNat 32 j) x := by
  obtain ⟨i, hi, hc⟩ := mem_forTasks h.pos hc
  obtain ⟨j, hj, rfl⟩ := List.mem_map.mp hc
  exact ⟨i, hi, j, List.mem_range.mp hj, _, rfl⟩

theorem mem_gppcuRead {Capacity : Word} {e : BitVec 8} {ofst : Word} {c : Call}
    (hc : c ∈ gppcuRead pp Capacity e ofst) : ∃ i < pp.roNumtask, ∃ j < e.toNat,
      c = .dataRd (BitVec.ofNat 32 (i % pp.mnumthr))
        (BitVec.ofNat 32 (i / pp.mnumthr * pp.mtaskmem) + ofst + BitVec.ofNat 32 j) := by
  obtain ⟨i, hi, hc⟩ := mem_forTasks h.pos hc
  obtain ⟨j, hj, rfl⟩ := List.mem_map.mp hc
  exact ⟨i, hi, j, List.mem_range.mp hj, rfl⟩

theorem gppcuWrite_asked (data : List Word) (e : BitVec 8) (ofst : Word) :
    (gppcuWrite pp data e ofst).filterMap Call.asked? = [] := by
  rw [List.filterMap_eq_nil_iff]
  intro c hc
  obtain ⟨-, -, -, -, -, rfl⟩ := mem_gppcuWrite h hc
  rfl

theorem gppcuRead_stored (Capacity : Word) (e : BitVec 8) (ofst : Word) :
    (gppcuRead pp Capacity e ofst).filterMap Call.stored? = [] := by
  rw [List.filterMap_eq_nil_iff]
  intro c hc
  obtain ⟨-, -, -, -, rfl⟩ := mem_gppcuRead h hc
  rfl

theorem args_inRange {i j : Nat} {ofst : Word} (hi : i < pp.roNumtask) (hj : ofst.toNat + j < pp.mtaskmem) :
    (BitVec.ofNat 32 (i % pp.mnumthr)).toNat < 24 ∧
      (BitVec.ofNat 32 (i / pp.mnumthr * pp.mtaskmem) + ofst + BitVec.ofNat 32 j).toNat < 2 ^ 16 := by
  have hlt := h.word_lt hi hj
  constructor
  · rw [thread_toNat h]
    exact Nat.lt_of_lt_of_le (h.thread_lt i) h.le
  · simp only [BitVec.toNat_add, BitVec.toNat_ofNat]
    omega

theorem gppcuWrite_inRange (data : List Word) {e : BitVec 8} {ofst : Word}
    (ho : ofst.toNat + e.toNat < pp.mtaskmem) : ∀ c ∈ gppcuWrite pp data e ofst, c.InRange := by
  intro c hc
  obtain ⟨i, hi, j, hj, -, rfl⟩ := mem_gppcuWrite h hc
  exact args_inRange h hi (by omega)

theorem gppcuRead_inRange (Capacity : Word) {e : BitVec 8} {ofst : Word}
    (ho : ofst.toNat + e.toNat < pp.mtaskmem) : ∀ c ∈ gppcuRead pp Capacity e ofst, c.InRange := by
  intro c hc
  obtain ⟨i, hi, j, hj, rfl⟩ := mem_gppcuRead h hc
  exact args_inRange h hi (by omega)

end Loops

/-! ## Round trip -/

theorem range_pieces {α : Type} (f : Nat → α) (n e : Nat) :
    ((List.range n).flatMap fun i => (List.range e).map fun j => f (i * e + j)) =
      (List.range (n * e)).map f := by
  induction n with
  | zero => simp
  | succ n ih =>
    rw [List.range_succ, List.flatMap_append, ih, Nat.succ_mul, List.range_add, List.map_append]
    simp

theorem pieces_length {α : Type} (f : Nat → Nat → α) (n e : Nat) :
    ((List.range n).flatMap fun i => (List.range e).map (f i)).length = n * e := by
  induction n with
  | zero => simp
  | succ n ih => simp [List.range_succ, ih, Nat.succ_mul]

theorem range_getD (data : List Word) : (List.range data.length).map (data.getD · 0) = data := by
  apply List.ext_getElem
  · simp
  · intro i hi hi'
    simp [List.getElem?_eq_getElem hi']

theorem adjust_silent (pp : SwkGppcu) : pp.adjust.filterMap Call.stored? = [] ∧
    pp.adjust.filterMap Call.asked? = [] ∧ ∀ c ∈ pp.adjust, c.InRange := by
  refine ⟨rfl, rfl, ?_⟩
  simp [SwkGppcu.adjust, Call.InRange]

section RoundTrip

variable {QBW GBW T : Nat} {pp : SwkGppcu} (h : pp.Fits T) {e : BitVec 8} {o : Word}
  (ho : o.toNat + e.toNat < pp.mtaskmem) (v : HostView QBW GBW T)

include h

theorem cells_gppcuWrite (data : List Word) : (v.serve (gppcuWrite pp data e o)).cells =
    Lib.store v.cells ((gppcuWrite pp data e o).filterMap Call.stored?) := by
  apply v.cells_serve
  intro s hs
  obtain ⟨i, -, j, -, rfl⟩ := (mem_gppcuWrite_stored h).mp hs
  exact Nat.lt_of_lt_of_le (h.thread_lt i) h.device

theorem cells_write_own (ho : o.toNat + e.toNat < pp.mtaskmem) (data : List Word) {i j : Nat}
    (hi : i < pp.roNumtask) (hj : j < e.toNat) :
    (v.serve (gppcuWrite pp data e o)).cells (pp.cell i (o.toNat + j)) =
      data.getD (i * e.toNat + j) 0 := by
  rw [cells_gppcuWrite h]
  apply Lib.store_own
  · exact (mem_gppcuWrite_stored h).mpr ⟨i, hi, j, hj, rfl⟩
  · intro s hs hcell
    obtain ⟨i', hi', j', hj', rfl⟩ := (mem_gppcuWrite_stored h).mp hs
    obtain ⟨rfl, hword⟩ := h.cell_injective hi' (by omega) hi (by omega) hcell
    obtain rfl : j' = j := by omega
    rfl

theorem cells_write_other (data : List Word) {k : Nat × BitVec 9}
    (hk : ∀ i < pp.roNumtask, ∀ j < e.toNat, pp.cell i (o.toNat + j) ≠ k) :
    (v.serve (gppcuWrite pp data e o)).cells k = v.cells k := by
  rw [cells_gppcuWrite h]
  apply Lib.store_other
  intro s hs
  obtain ⟨i, hi, j, hj, rfl⟩ := (mem_gppcuWrite_stored h).mp hs
  exact hk i hi j hj

theorem cells_read (Capacity : Word) : (v.serve (gppcuRead pp Capacity e o)).cells = v.cells := by
  have hnone := gppcuRead_stored h Capacity e o
  rw [v.cells_serve (by simp [hnone]), hnone, Lib.store_nil]

theorem cells_write_apart {e' : BitVec 8} {o' : Word} (ho' : o'.toNat + e'.toNat < pp.mtaskmem)
    (ho : o.toNat + e.toNat < pp.mtaskmem)
    (hapart : o.toNat + e.toNat ≤ o'.toNat ∨ o'.toNat + e'.toNat ≤ o.toNat) (data' : List Word) {i j : Nat}
    (hi : i < pp.roNumtask) (hj : j < e.toNat) :
    (v.serve (gppcuWrite pp data' e' o')).cells (pp.cell i (o.toNat + j)) =
      v.cells (pp.cell i (o.toNat + j)) := by
  apply cells_write_other h
  intro i' hi' j' hj' hcell
  have hword := (h.cell_injective hi' (by omega) hi (by omega) hcell).2
  omega

theorem replies_gppcuRead (Capacity : Word) : v.replies (gppcuRead pp Capacity e o) =
    ((List.range pp.roNumtask).takeWhile fun i => i * e.toNat + e.toNat < Capacity.toNat).flatMap fun i =>
      (List.range e.toNat).map fun j => v.cells (pp.cell i (o.toNat + j)) := by
  rw [v.replies_reads (gppcuRead_stored h Capacity e o), gppcuRead_asked h, List.map_flatMap]
  simp [Function.comp_def]

theorem replies_element {Capacity : Word} {i j : Nat} (hi : i < pp.roNumtask) (hj : j < e.toNat)
    (hroom : i * e.toNat + e.toNat < Capacity.toNat) :
    (v.replies (gppcuRead pp Capacity e o))[i * e.toNat + j]? =
      some (v.cells (pp.cell i (o.toNat + j))) := by
  have hfits : ∀ i' ∈ List.range (i + 1), decide (i' * e.toNat + e.toNat < Capacity.toNat) = true := by
    intro i' hi'
    have hle := Nat.mul_le_mul_right e.toNat (Nat.lt_succ_iff.mp (List.mem_range.mp hi'))
    exact decide_eq_true (by omega)
  obtain ⟨rest, hsplit⟩ : ∃ rest, List.range pp.roNumtask = List.range (i + 1) ++ rest := by
    rw [show pp.roNumtask = i + 1 + (pp.roNumtask - (i + 1)) by omega, List.range_add]
    exact ⟨_, rfl⟩
  rw [replies_gppcuRead h, hsplit, List.takeWhile_append_of_pos hfits, List.range_succ, List.append_assoc,
    List.flatMap_append, List.getElem?_append_right (by rw [pieces_length]; omega), pieces_length,
    Nat.add_sub_cancel_left, List.flatMap_append, List.flatMap_singleton]
  rw [List.getElem?_append_left (by simpa using hj)]
  simp [hj]

theorem replies_gppcuRead_all {Capacity : Word} (hcap : pp.roNumtask * e.toNat < Capacity.toNat)
    {data : List Word} (hdata : data.length = pp.roNumtask * e.toNat)
    (hv : ∀ i < pp.roNumtask, ∀ j < e.toNat,
      v.cells (pp.cell i (o.toNat + j)) = data.getD (i * e.toNat + j) 0) :
    v.replies (gppcuRead pp Capacity e o) = data := by
  have hroom : ∀ i ∈ List.range pp.roNumtask, decide (i * e.toNat + e.toNat < Capacity.toNat) = true := by
    intro i hi
    have hle := Nat.mul_le_mul_right e.toNat (List.mem_range.mp hi)
    rw [Nat.succ_mul] at hle
    exact decide_eq_true (by omega)
  have hpiece : ∀ i ∈ List.range pp.roNumtask,
      (List.range e.toNat).map (fun j => v.cells (pp.cell i (o.toNat + j))) =
        (List.range e.toNat).map fun j => data.getD (i * e.toNat + j) 0 := by
    intro i hi
    apply List.map_congr_left
    intro j hj
    exact hv i (List.mem_range.mp hi) j (List.mem_range.mp hj)
  rw [replies_gppcuRead h, List.takeWhile_eq_self_iff.mpr hroom]
  calc (List.range pp.roNumtask).flatMap (fun i =>
        (List.range e.toNat).map fun j => v.cells (pp.cell i (o.toNat + j)))
      = (List.range pp.roNumtask).flatMap fun i => (List.range e.toNat).map fun j =>
          data.getD (i * e.toNat + j) 0 := by
        rw [List.flatMap_def, List.flatMap_def, List.map_congr_left hpiece]
    _ = (List.range (pp.roNumtask * e.toNat)).map (data.getD · 0) := range_pieces (data.getD · 0) _ _
    _ = data := by rw [← hdata, range_getD]

theorem cells_write_comm {e' : BitVec 8} {o' : Word} (ho' : o'.toNat + e'.toNat < pp.mtaskmem)
    (ho : o.toNat + e.toNat < pp.mtaskmem)
    (hapart : o.toNat + e.toNat ≤ o'.toNat ∨ o'.toNat + e'.toNat ≤ o.toNat) (data data' : List Word) :
    (v.serve (gppcuWrite pp data e o ++ gppcuWrite pp data' e' o')).cells =
      (v.serve (gppcuWrite pp data' e' o' ++ gppcuWrite pp data e o)).cells := by
  rw [v.serve_append, v.serve_append, cells_gppcuWrite h, cells_gppcuWrite h, cells_gppcuWrite h,
    cells_gppcuWrite h]
  apply Lib.store_comm
  intro s hs s' hs' hcell
  obtain ⟨i, hi, j, hj, rfl⟩ := (mem_gppcuWrite_stored h).mp hs
  obtain ⟨i', hi', j', hj', rfl⟩ := (mem_gppcuWrite_stored h).mp hs'
  have hword := (h.cell_injective hi (by omega) hi' (by omega) hcell).2
  omega

end RoundTrip

/-! ## On the board -/

section Board

variable {QBW GBW T : Nat}

def Call.keeps : Call → Bool
  | pushInstr _ | constantWr .. => false
  | _ => true

theorem HostView.serve_keeps {cs : List Call} (hcs : ∀ c ∈ cs, c.keeps = true) (v : HostView QBW GBW T) :
    (v.serve cs).pmem = v.pmem ∧ (v.serve cs).cmem = v.cmem := by
  induction cs generalizing v with
  | nil => exact ⟨rfl, rfl⟩
  | cons c cs ih =>
    rw [List.forall_mem_cons] at hcs
    obtain ⟨hp, hc⟩ := ih hcs.2 (c.apply v)
    rw [serve_cons, hp, hc]
    cases c with
    | deviceCommand l x => exact setRegister_queue l x _
    | pushInstr | constantWr => cases hcs.1
    | dataRd | dataWr | stat => exact ⟨rfl, rfl⟩

theorem HostView.keeps_tasks {pp : SwkGppcu} (h : pp.Fits T) (data : List Word) (Capacity : Word)
    (e : BitVec 8) (o : Word) (v : HostView QBW GBW T) :
    (v.serve (pp.adjust ++ (gppcuWrite pp data e o ++ gppcuRead pp Capacity e o))).pmem = v.pmem ∧
      (v.serve (pp.adjust ++ (gppcuWrite pp data e o ++ gppcuRead pp Capacity e o))).cmem = v.cmem := by
  apply v.serve_keeps
  simp only [List.forall_mem_append]
  refine ⟨by simp [SwkGppcu.adjust, Call.keeps], fun c hc => ?_, fun c hc => ?_⟩
  · obtain ⟨-, -, -, -, -, rfl⟩ := mem_gppcuWrite h hc
    rfl
  · obtain ⟨-, -, -, -, rfl⟩ := mem_gppcuRead h hc
    rfl

theorem adjust_cells (pp : SwkGppcu) (v : HostView QBW GBW T) : (v.serve pp.adjust).cells = v.cells := by
  rw [v.cells_serve (by simp [(adjust_silent pp).1]), (adjust_silent pp).1, Lib.store_nil]

theorem served_adjust (F : Fin T → Fpu) {pp : SwkGppcu} {b : Board QBW GBW T} {cs : List Call}
    {es : List Event} (h : b.Serves F (pp.adjust ++ cs) es) (hcs : ∀ c ∈ cs, c.InRange) :
    (Lib.run (Board.step F) b es).device.view = (b.device.view.serve pp.adjust).serve cs ∧
      b.dataReads F es = (b.device.view.serve pp.adjust).replies cs := by
  obtain ⟨-, hnone, hrange⟩ := adjust_silent pp
  obtain ⟨hview, hreads⟩ := h.served F (List.forall_mem_append.mpr ⟨hrange, hcs⟩)
  rw [HostView.serve_append] at hview
  rw [HostView.replies_append, HostView.replies_none _ hnone, List.nil_append] at hreads
  exact ⟨hview, hreads⟩

theorem gppcuInitTaskParallel_fits {pp₀ pp : SwkGppcu} {init : List Call} {w : BitVec 8} {N : BitVec 16}
    (hinit : gppcuInitTaskParallel pp₀ w N = (pp, init)) (hpos : 0 < pp.mnumthr) (hle : pp.mnumthr ≤ 24)
    (hT : pp.mnumthr ≤ T) (hmax : pp.roMaxWordPerThread = 512)
    (hN : N.toNat < pp.roTaskmaxcycle * pp.mnumthr) :
    init = pp.adjust ∧ pp.roNumtask = N.toNat ∧ pp.Fits T := by
  obtain ⟨rfl, rfl⟩ := Prod.mk.inj hinit
  refine ⟨rfl, rfl, hpos, hle, hT, ?_⟩
  change pp₀.roMaxWordPerThread = 512 at hmax
  rw [← hmax]
  exact hN

/-- Task data makes the round trip through the local memories, and nothing else is touched: what
was written is read back, the other words of the device are those of before, no two words of the
tasks share a cell, and writes to different words of the tasks neither depend on their order nor
disturb each other. -/
theorem task_data_round_trip (F : Fin T → Fpu) {pp₀ pp : SwkGppcu} {init : List Call} {w : BitVec 8}
    {N : BitVec 16} (hinit : gppcuInitTaskParallel pp₀ w N = (pp, init)) (hpos : 0 < pp.mnumthr)
    (hle : pp.mnumthr ≤ 24) (hT : pp.mnumthr ≤ T) (hmax : pp.roMaxWordPerThread = 512)
    (hN : N.toNat < pp.roTaskmaxcycle * pp.mnumthr) {e : BitVec 8} {o : Word}
    (ho : o.toNat + e.toNat < pp.mtaskmem) {data : List Word} (hdata : data.length = N.toNat * e.toNat)
    {Capacity : Word} (hcap : N.toNat * e.toNat < Capacity.toNat) (b : Board QBW GBW T) :
    (∀ es, b.Serves F (init ++ gppcuWrite pp data e o ++ gppcuRead pp Capacity e o) es →
      b.dataReads F es = data ∧
        (Lib.run (Board.step F) b es).device.view.pmem = b.device.view.pmem ∧
        (Lib.run (Board.step F) b es).device.view.cmem = b.device.view.cmem ∧
        ∀ (k : Fin T) (a : BitVec 9),
          (∀ i < N.toNat, ∀ j < e.toNat, pp.cell i (o.toNat + j) ≠ (k.val, a)) →
            (Lib.run (Board.step F) b es).device.view.lmem k a = b.device.view.lmem k a) ∧
      (∀ i < N.toNat, ∀ i' < N.toNat, ∀ k < pp.mtaskmem, ∀ k' < pp.mtaskmem,
        pp.cell i k = pp.cell i' k' → i = i' ∧ k = k') ∧
      ∀ (e' : BitVec 8) (o' : Word) (data' : List Word), o'.toNat + e'.toNat < pp.mtaskmem →
        data'.length = N.toNat * e'.toNat →
        o.toNat + e.toNat ≤ o'.toNat ∨ o'.toNat + e'.toNat ≤ o.toNat →
          (∀ es es', b.Serves F (init ++ gppcuWrite pp data e o ++ gppcuWrite pp data' e' o') es →
            b.Serves F (init ++ gppcuWrite pp data' e' o' ++ gppcuWrite pp data e o) es' →
              (Lib.run (Board.step F) b es).device.view.lmem =
                (Lib.run (Board.step F) b es').device.view.lmem) ∧
          ∀ (Capacity' : Word) (es : List Event), N.toNat * e'.toNat < Capacity'.toNat →
            b.Serves F (init ++ gppcuWrite pp data e o ++ gppcuWrite pp data' e' o' ++
              gppcuRead pp Capacity e o ++ gppcuRead pp Capacity' e' o') es →
                b.dataReads F es = data ++ data' := by
  obtain ⟨rfl, htasks, hfits⟩ := gppcuInitTaskParallel_fits hinit hpos hle hT hmax hN
  rw [← htasks] at hdata hcap ⊢
  have hwrite := fun data => gppcuWrite_inRange hfits data ho
  have hread := gppcuRead_inRange hfits Capacity ho
  have hcells := adjust_cells pp b.device.view
  refine ⟨?_, fun i hi i' hi' k hk k' hk' => hfits.cell_injective hi hk hi' hk', ?_⟩
  · intro es hes
    rw [List.append_assoc] at hes
    obtain ⟨hview, hreads⟩ := served_adjust F hes (List.forall_mem_append.mpr ⟨hwrite data, hread⟩)
    obtain ⟨hpmem, hcmem⟩ := b.device.view.keeps_tasks hfits data Capacity e o
    rw [HostView.serve_append, ← hview] at hpmem hcmem
    refine ⟨?_, hpmem, hcmem, fun k a hk => ?_⟩
    · rw [hreads, HostView.replies_append, HostView.replies_none _ (gppcuWrite_asked hfits data e o),
        List.nil_append]
      exact replies_gppcuRead_all hfits _ hcap hdata fun i hi j hj => cells_write_own hfits _ ho data hi hj
    · rw [HostView.lmem_cells, hview, HostView.serve_append, cells_read hfits,
        cells_write_other hfits _ data hk, hcells, HostView.lmem_cells]
  · intro e' o' data' ho' hdata' hapart
    have hwrite' := gppcuWrite_inRange hfits data' ho'
    constructor
    · intro es es' hes hes'
      rw [List.append_assoc] at hes hes'
      obtain ⟨hview, -⟩ := served_adjust F hes (List.forall_mem_append.mpr ⟨hwrite data, hwrite'⟩)
      obtain ⟨hview', -⟩ := served_adjust F hes' (List.forall_mem_append.mpr ⟨hwrite', hwrite data⟩)
      funext k a
      rw [HostView.lmem_cells, HostView.lmem_cells, hview, hview',
        cells_write_comm hfits _ ho' ho hapart]
    · intro Capacity' es hcap' hes
      have hread' := gppcuRead_inRange hfits Capacity' ho'
      simp only [List.append_assoc] at hes
      obtain ⟨-, hreads⟩ := served_adjust F hes (by
        simp only [List.forall_mem_append]
        exact ⟨hwrite data, hwrite', hread, hread'⟩)
      rw [hreads, HostView.replies_append, HostView.replies_append, HostView.replies_append,
        HostView.replies_none _ (gppcuWrite_asked hfits data e o),
        HostView.replies_none _ (gppcuWrite_asked hfits data' e' o'), List.nil_append, List.nil_append]
      congr 1
      · apply replies_gppcuRead_all hfits _ hcap hdata
        intro i hi j hj
        rw [cells_write_apart hfits _ ho' ho hapart data' hi hj, cells_write_own hfits _ ho data hi hj]
      · apply replies_gppcuRead_all hfits _ hcap' hdata'
        intro i hi j hj
        rw [cells_read hfits, cells_write_own hfits _ ho' data' hi hj]

def threeTasks : SwkGppcu × List Call :=
  gppcuInitTaskParallel (gppcuInit ⟨0, 0, 0, 0, 0, 0⟩ 2 512) 4 3

def roundTripCalls : List Call :=
  threeTasks.2 ++ gppcuWrite threeTasks.1 [5, 6, 7, 8, 9, 10] 2 1 ++ gppcuRead threeTasks.1 7 2 1

theorem task_data_round_trip_three :
    idleBoard.dataReads (fun _ => anyFpu) ((roundTripCalls.flatMap Call.accesses).map .access) =
      [5, 6, 7, 8, 9, 10] := by
  have hinit : gppcuInitTaskParallel (gppcuInit ⟨0, 0, 0, 0, 0, 0⟩ 2 512) 4 3 =
      (threeTasks.1, threeTasks.2) := rfl
  have ho : (1 : Word).toNat + (2 : BitVec 8).toNat < threeTasks.1.mtaskmem := by decide
  have hdata : [5, 6, 7, 8, 9, (10 : Word)].length = (3 : BitVec 16).toNat * (2 : BitVec 8).toNat := rfl
  have hcap : (3 : BitVec 16).toNat * (2 : BitVec 8).toNat < (7 : Word).toNat := by decide
  have h := task_data_round_trip (fun _ => anyFpu) hinit (by decide) (by decide) (by decide) rfl
    (by decide) ho hdata hcap idleBoard
  exact (h.1 _ (Board.serves_direct _ _ _)).1

end Board

end Gppcu
