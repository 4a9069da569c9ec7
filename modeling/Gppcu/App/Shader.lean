import Gppcu.Lanes.Effect
import Gppcu.Lanes.Expand
import Gppcu.Lib.Triple

/-!
# The vertex shader

The program of `app_upload_program`, and what it does to one task: it multiplies
the vertex by the matrix and moves the first two columns to the screen.
-/

namespace Gppcu

open HostInstr

/-! ## The program -/

def COFST_FLOAT_ONE : Nat := 1
def COFST_WIDTH_HALF : Nat := 14
def COFST_HEIGHT_HALF : Nat := 15
def COFST_MAT4_WORLD_VIEW_PROJ : Nat := 16

def OFST_VEC3_VTEX_INPUT : Nat := 1
def OFST_VECI4_VTEX_OUTPUT : Nat := OFST_VEC3_VTEX_INPUT + 3
def OFST_TABLE : Nat := OFST_VECI4_VTEX_OUTPUT + 4

def TASK_SPACE : Nat := 12

namespace Shader

def rx : HostReg := 0
def ry : HostReg := 1
def rz : HostReg := 2
def rw : HostReg := 3
def acc : HostReg := 4
def calcReg : HostReg := 5
def loader : HostReg := 6
def ra : HostReg := acc
def rb : HostReg := 5
def pivot : HostReg := Fin.ofNat 10 REGPIVOT

def vec (row : Nat) : HostReg := Fin.ofNat 10 (rx.val + row)

/-! `gp_ldl` and the other macros pass `COND_ALWAYS`, which is 0. -/

def ofst (i : Nat) : BitVec 8 := BitVec.ofNat 8 i

def cofst (i : Nat) : Word := BitVec.ofNat 32 i

def load : List HostInstr :=
  [.stl 0 pivot pivot 0,
    .ldl 0 rx pivot (ofst (OFST_VEC3_VTEX_INPUT + 0)),
    .ldl 0 ry pivot (ofst (OFST_VEC3_VTEX_INPUT + 1)),
    .ldl 0 rz pivot (ofst (OFST_VEC3_VTEX_INPUT + 2)),
    .ldci 0 rw (cofst COFST_FLOAT_ONE)]

def row (col row : Nat) : List HostInstr :=
  [.ldci 0 loader (cofst (COFST_MAT4_WORLD_VIEW_PROJ + col + row * 4)),
    .fpArith 0 .fmul calcReg (vec row) loader,
    .arithB 0 .adi false loader acc 0,
    .fpArith 0 .fadd acc loader calcReg]

def col (col : Nat) : List HostInstr :=
  [.mvi 0 false acc 0] ++ (List.range 4).flatMap (row col) ++
    [.stl 0 acc pivot (ofst (OFST_TABLE + col))]

def toScreen : List HostInstr :=
  [.ldl 0 rx pivot (ofst (OFST_TABLE + 0)),
    .ldci 0 ra (cofst COFST_WIDTH_HALF),
    .fpArith 0 .fadd rb ra rx,
    .fp0 0 .ftoi ra rb,
    .stl 0 ra pivot (ofst (OFST_VECI4_VTEX_OUTPUT + 0)),
    .ldl 0 ry pivot (ofst (OFST_TABLE + 1)),
    .ldci 0 ra (cofst COFST_HEIGHT_HALF),
    .fpArith 0 .fadd rb ra ry,
    .fp0 0 .ftoi ra rb,
    .stl 0 ra pivot (ofst (OFST_VECI4_VTEX_OUTPUT + 1))]

/-- What `app_upload_program` queues. -/
def program : List HostInstr := load ++ (List.range 4).flatMap col ++ toScreen

@[simp] theorem cofst_setWidth (i : Nat) : (cofst i).setWidth 17 = BitVec.ofNat 17 i :=
  BitVec.setWidth_ofNat_of_le (by omega) i

theorem vec_val {r : Nat} (hr : r < 4) : (vec r).val = r := by
  change (0 + r) % 10 = r
  omega

theorem vec_inj {r r' : Nat} (hr : r < 4) (hr' : r' < 4) (h : r ≠ r') : vec r ≠ vec r' := by
  intro he
  have hv := congrArg Fin.val he
  rw [vec_val hr, vec_val hr'] at hv
  exact h hv

theorem vec_ne {r : Nat} (hr : r < 4) :
    vec r ≠ acc ∧ vec r ≠ calcReg ∧ vec r ≠ loader ∧ vec r ≠ pivot := by
  have hv := vec_val hr
  refine ⟨?_, ?_, ?_, ?_⟩
  all_goals
    intro h
    rw [h] at hv
    revert hv
    change ¬_ = r
    simp [acc, calcReg, loader, pivot, REGPIVOT, REG_PER_THREAD, NUM_REG, PARALLEL_CNT]
    omega

theorem temps_ne : acc ≠ loader ∧ acc ≠ calcReg ∧ calcReg ≠ loader ∧ pivot ≠ acc ∧
    pivot ≠ loader ∧ pivot ≠ calcReg := by decide

/-! ## A task -/

def taskWord (p : Word) (i : Nat) : BitVec 9 := address p (ofst i)

theorem taskWord_eq (p : Word) {i : Nat} (hi : i < TASK_SPACE) :
    taskWord p i = (p + BitVec.ofNat 32 i).setWidth 9 := by
  have hi' : i < 12 := hi
  apply BitVec.eq_of_toNat_eq
  simp only [taskWord, address, ofst, BitVec.toNat_setWidth, BitVec.toNat_add, BitVec.toNat_ofNat]
  omega

theorem taskWord_ne (p : Word) {i j : Nat} (hi : i < TASK_SPACE) (hj : j < TASK_SPACE) (h : i ≠ j) :
    taskWord p i ≠ taskWord p j := by
  have hi' : i < 12 := hi
  have hj' : j < 12 := hj
  rw [taskWord_eq p hi, taskWord_eq p hj]
  intro he
  have hn := congrArg BitVec.toNat he
  simp only [BitVec.toNat_setWidth, BitVec.toNat_add, BitVec.toNat_ofNat] at hn
  omega

section Task

variable (F : Fpu) (g : BitVec 17 → Word) (R : BitVec 9 → Prop) (p : Word) (v : Nat → Word)

def coord (r : Nat) : Word := if r < 3 then v r else g 1

/-- The first `n` rows of a column of the product. -/
def partialDot (c : Nat) : Nat → Word
  | 0 => 0
  | r + 1 => F.fadd (partialDot c r) (F.fmul (coord g v r) (g (BitVec.ofNat 17 (16 + c + r * 4))))

def column (c : Nat) : Word := partialDot F g v c 4

structure Input (m : Machine HostReg) : Prop where
  pivot : m.regs pivot = p
  input : ∀ j < 3, m.lmem (taskWord p (1 + j)) = v j

structure Loaded (n : Nat) (m : Machine HostReg) : Prop extends Input p v m where
  coords : ∀ r < n, m.regs (vec r) = coord g v r

structure Columns (c : Nat) (m : Machine HostReg) : Prop extends Loaded g p v 4 m where
  table : ∀ k < c, m.lmem (taskWord p (8 + k)) = column F g v k

structure Rows (c r : Nat) (m : Machine HostReg) : Prop extends Columns F g p v c m where
  acc : m.regs acc = partialDot F g v c r

def point (k : Nat) : Word := F.ftoi (F.fadd (g (BitVec.ofNat 17 (14 + k))) (column F g v k))

structure Points (n : Nat) (m : Machine HostReg) : Prop extends Input p v m where
  table : ∀ k < 4, m.lmem (taskWord p (8 + k)) = column F g v k
  output : ∀ k < n, m.lmem (taskWord p (4 + k)) = point F g v k

structure Moved (n : Nat) (m : Machine HostReg) : Prop extends Points F g p v n m where
  acc : m.regs ra = point F g v n

abbrev Does (P : Machine HostReg → Prop) (ks : List HostInstr) (Q : Machine HostReg → Prop) : Prop :=
  Lib.Triple (fun m k => Machine.exec F hostReg g m k.word) (fun m k => Accesses hostReg g R m k.word)
    P ks Q

variable (hR : ∀ i < TASK_SPACE, R (taskWord p i))

/-- The temporaries may change, and nothing else does. -/
structure Temps (m m' : Machine HostReg) : Prop where
  regs : ∀ r, r ≠ acc → r ≠ calcReg → r ≠ loader → m'.regs r = m.regs r
  lmem : m'.lmem = m.lmem

variable {F g p v}

theorem Columns.temps {c : Nat} {m m' : Machine HostReg} (h : Columns F g p v c m) (hm : Temps m m') :
    Columns F g p v c m' where
  pivot := by
    obtain ⟨-, -, -, ha, hl, hc⟩ := temps_ne
    rw [hm.regs _ ha hc hl, h.pivot]
  input := by
    intro j hj
    rw [hm.lmem, h.input j hj]
  coords := by
    intro r hr
    obtain ⟨ha, hc, hl, -⟩ := vec_ne hr
    rw [hm.regs _ ha hc hl, h.coords r hr]
  table := by
    intro k hk
    rw [hm.lmem, h.table k hk]

theorem store_other (p : Word) {f : BitVec 9 → Word} {x : Word} {i j : Nat} (hj : j < TASK_SPACE)
    (hi : i < TASK_SPACE) (h : j ≠ i) : Function.update f (taskWord p i) x (taskWord p j) = f (taskWord p j) :=
  Function.update_of_ne (taskWord_ne p hj hi h) ..

theorem Input.store {m m' : Machine HostReg} (h : Input p v m) (hregs : m'.regs Shader.pivot = m.regs Shader.pivot)
    {i : Nat} (hi : i < TASK_SPACE) (hother : i = 0 ∨ 4 ≤ i) {x : Word}
    (hmem : m'.lmem = Function.update m.lmem (taskWord p i) x) : Input p v m' where
  pivot := by rw [hregs, h.pivot]
  input := by
    intro j hj
    rw [hmem, store_other p (show 1 + j < 12 by omega) hi (by omega), h.input j hj]

theorem row_does (c r : Nat) (hr : r < 4) : Does F g R (Rows F g p v c r) (row c r) (Rows F g p v c (r + 1)) := by
  intro m hm
  refine ⟨⟨accesses_none g ⟨rfl, rfl⟩, accesses_none g ⟨rfl, rfl⟩, accesses_none g ⟨rfl, rfl⟩,
    accesses_none g ⟨rfl, rfl⟩, trivial⟩, ?_⟩
  obtain ⟨hacc, hcalc, hloader, -⟩ := vec_ne hr
  obtain ⟨hal, hac, hcl, -⟩ := temps_ne
  simp [row, hloader, hal, hac, hcl, hm.coords r hr, hm.acc]
  refine ⟨hm.temps ⟨?_, rfl⟩, ?_⟩
  · intro r' ha hc hl
    simp [ha, hc, hl]
  · simp [partialDot, COFST_MAT4_WORLD_VIEW_PROJ]

theorem mvi_does (c : Nat) : Does F g R (Columns F g p v c) [.mvi 0 false acc 0] (Rows F g p v c 0) := by
  intro m hm
  refine ⟨⟨accesses_none g ⟨rfl, rfl⟩, trivial⟩, ?_⟩
  simp
  refine ⟨hm.temps ⟨?_, rfl⟩, ?_⟩
  · intro r ha hc hl
    simp [ha]
  · simp [partialDot]

theorem Loaded.next {n : Nat} {m : Machine HostReg} (h : Loaded g p v n m) (hn : n < 4) {x : Word}
    (hx : x = coord g v n) : Loaded g p v (n + 1) { m with regs := Function.update m.regs (vec n) x } where
  pivot := by
    obtain ⟨-, -, -, hp⟩ := vec_ne hn
    exact (Function.update_of_ne (Ne.symm hp) ..).trans h.pivot
  input := h.input
  coords := by
    intro r hr
    by_cases hrn : r = n
    · subst hrn
      exact (Function.update_self ..).trans hx
    · exact (Function.update_of_ne (vec_inj (by omega) hn hrn) ..).trans (h.coords r (by omega))

theorem ldci_does : Does F g R (Loaded g p v 3) [.ldci 0 rw (cofst COFST_FLOAT_ONE)] (Columns F g p v 0) := by
  intro m hm
  refine ⟨⟨accesses_none g ⟨rfl, rfl⟩, trivial⟩, ?_⟩
  rw [Lib.run_cons, Lib.run_nil, exec_ldci]
  exact ⟨hm.next (show 3 < 4 by omega) rfl, fun k hk => absurd hk (Nat.not_lt_zero k)⟩

section Stores

variable (hR : ∀ i < TASK_SPACE, R (taskWord p i))

include hR

theorem stl_does {c : Nat} (hc : c < 4) :
    Does F g R (Rows F g p v c 4) [.stl 0 acc pivot (ofst (OFST_TABLE + c))] (Columns F g p v (c + 1)) := by
  intro m hm
  have hin : OFST_TABLE + c < TASK_SPACE := by
    change 8 + c < 12
    omega
  refine ⟨⟨accesses_stl g _ _ (by rw [hm.pivot]; exact hR _ hin), trivial⟩, ?_⟩
  simp [hm.pivot, hm.acc]
  have hstore : Input p v ⟨m.regs, m.sreg,
      Function.update m.lmem (taskWord p (OFST_TABLE + c)) (partialDot F g v c 4)⟩ :=
    hm.toInput.store rfl hin (Or.inr (by change 4 ≤ 8 + c; omega)) rfl
  refine ⟨⟨hstore, hm.coords⟩, fun k hk => ?_⟩
  by_cases hkc : k = c
  · subst hkc
    exact Function.update_self ..
  · exact (store_other p (show 8 + k < 12 by omega) hin (by change 8 + k ≠ 8 + c; omega)).trans
      (hm.table k (by omega))

theorem col_does {c : Nat} (hc : c < 4) :
    Does F g R (Columns F g p v c) (col c) (Columns F g p v (c + 1)) :=
  ((mvi_does R c).append (Lib.Triple.loop fun r hr => row_does R c r hr)).append (stl_does R hR hc)

theorem pivot_does : Does F g R (Input p v) [.stl 0 pivot pivot 0] (Loaded g p v 0) := by
  intro m hm
  have hword : R (address (m.regs pivot) 0) := by
    rw [hm.pivot]
    exact hR 0 (by decide)
  refine ⟨⟨accesses_stl g _ _ hword, trivial⟩, ?_⟩
  rw [Lib.run_cons, Lib.run_nil, exec_stl]
  refine ⟨hm.store rfl (show 0 < TASK_SPACE by decide) (Or.inl rfl) (by rw [hm.pivot]; rfl), ?_⟩
  exact fun r hr => absurd hr (Nat.not_lt_zero r)

theorem ldl_does {j : Nat} (hj : j < 3) : Does F g R (Loaded g p v j)
    [.ldl 0 (vec j) pivot (ofst (OFST_VEC3_VTEX_INPUT + j))] (Loaded g p v (j + 1)) := by
  intro m hm
  have hword : R (address (m.regs pivot) (ofst (OFST_VEC3_VTEX_INPUT + j))) := by
    rw [hm.pivot]
    exact hR _ (show 1 + j < 12 by omega)
  refine ⟨⟨accesses_ldl g _ _ hword, trivial⟩, ?_⟩
  rw [Lib.run_cons, Lib.run_nil, exec_ldl]
  apply hm.next (by omega)
  rw [hm.pivot, coord, if_pos hj]
  exact hm.input j hj

theorem load_does : Does F g R (Input p v) load (Columns F g p v 0) :=
  ((pivot_does R hR).append (Lib.Triple.loop fun _ hj => ldl_does R hR hj)).append (ldci_does R)

def move (k : Nat) : List HostInstr :=
  [.ldl 0 (vec k) pivot (ofst (OFST_TABLE + k)),
    .ldci 0 ra (cofst (COFST_WIDTH_HALF + k)),
    .fpArith 0 .fadd rb ra (vec k),
    .fp0 0 .ftoi ra rb]

theorem move_does {k : Nat} (hk : k < 2) :
    Does F g R (Points F g p v k) (move k) (Moved F g p v k) := by
  intro m hm
  have hword : R (taskWord p (OFST_TABLE + k)) := hR _ (show 8 + k < 12 by omega)
  have htable : m.lmem (address p (ofst (OFST_TABLE + k))) = column F g v k := hm.table k (by omega)
  refine ⟨⟨accesses_ldl g _ _ (by rwa [hm.pivot]), accesses_none g ⟨rfl, rfl⟩,
    accesses_none g ⟨rfl, rfl⟩, accesses_none g ⟨rfl, rfl⟩, trivial⟩, ?_⟩
  obtain ⟨hv, -, -, hp⟩ := vec_ne (show k < 4 by omega)
  have hpa : pivot ≠ ra ∧ pivot ≠ rb ∧ ra ≠ rb := by decide
  have hva : vec k ≠ ra := hv
  simp [move, hm.pivot, htable, hva]
  refine ⟨⟨⟨?_, hm.input⟩, hm.table, hm.output⟩, ?_⟩
  · simp [hpa, Ne.symm hp, hm.pivot]
  · simp [point, COFST_WIDTH_HALF]

theorem out_does {k : Nat} (hk : k < 2) : Does F g R (Moved F g p v k)
    [.stl 0 ra pivot (ofst (OFST_VECI4_VTEX_OUTPUT + k))] (Points F g p v (k + 1)) := by
  intro m hm
  have hin : OFST_VECI4_VTEX_OUTPUT + k < TASK_SPACE := by
    change 4 + k < 12
    omega
  refine ⟨⟨accesses_stl g _ _ (by rw [hm.pivot]; exact hR _ hin), trivial⟩, ?_⟩
  simp [hm.pivot, hm.acc]
  have hstore : Input p v ⟨m.regs, m.sreg,
      Function.update m.lmem (taskWord p (OFST_VECI4_VTEX_OUTPUT + k)) (point F g v k)⟩ :=
    hm.toInput.store rfl hin (Or.inr (by change 4 ≤ 4 + k; omega)) rfl
  refine ⟨hstore, fun k' hk' => ?_, fun k' hk' => ?_⟩
  · exact (store_other p (show 8 + k' < 12 by omega) hin (by change 8 + k' ≠ 4 + k; omega)).trans
      (hm.table k' hk')
  · by_cases hkk : k' = k
    · subst hkk
      exact Function.update_self ..
    · exact (store_other p (show 4 + k' < 12 by omega) hin (by change 4 + k' ≠ 4 + k; omega)).trans
        (hm.output k' (by omega))

theorem program_does : Does F g R (Input p v) program (Points F g p v 2) := by
  have hcols : Does F g R (Input p v) (load ++ (List.range 4).flatMap col) (Columns F g p v 4) :=
    (load_does R hR).append (Lib.Triple.loop fun c hc => col_does R hR hc)
  have hpoints : ∀ m, Columns F g p v 4 m → Points F g p v 0 m := fun m hm =>
    ⟨hm.toInput, hm.table, fun k hk => absurd hk (Nat.not_lt_zero k)⟩
  have hscreen : Does F g R (Points F g p v 0) ((List.range 2).flatMap fun k =>
      move k ++ [.stl 0 ra pivot (ofst (OFST_VECI4_VTEX_OUTPUT + k))]) (Points F g p v 2) :=
    Lib.Triple.loop fun k hk => (move_does R hR hk).append (out_does R hR hk)
  exact hcols.append (hscreen.weaken hpoints fun _ h => h)

end Stores

end Task

end Shader

end Gppcu
