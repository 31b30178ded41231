import WasmContracts.L1Data.GslMatrix
import Mathlib.Algebra.Order.Field.Basic
import Mathlib.Algebra.EuclideanDomain.Field
import Mathlib.Algebra.Order.Field.Rat
/-!
# The layer functions of `MatrixNNUtils.c`

The activations, their Jacobians, the affine layer and the helpers
`backpropagation` is built from, each a function of `gsl_matrix` values that
returns `none` where the C function returns `NULL` or GSL refuses a call
(an abort, `GslMatrix`). Entries are exact elements of an ordered field,
rounding left out as in `Double`; `fmax(old, 0)` is `max old 0`.

Every function but `reshape` and `dAffineDx` starts with `IS_VECTOR` of
`MatrixNNUtils.h`: a matrix with neither dimension 1 gives `NULL`. `affine`
copies row `i` of `x` into row `i` of a one-column matrix, which GSL accepts
only when `x` has one column, so the network's vectors are columns.

Results:
* `get_reshape`: `reshape` is the row-major re-layout, cell `(a, b)` of the
  result being cell `n / size2, n % size2` of the input for `n = a * cols + b`.
* `get_dReluDx`, `get_dAffineDw`, `get_dAffineDx`: the Jacobians, cell by cell.
* `affine_eq`: `affine x W = W [x; 1]` for a column `x` with one entry fewer
  than `W` has columns.
-/
namespace WasmContracts

namespace Network

open GslMatrix

variable {α : Type}

/-- `IS_VECTOR(m)` of MatrixNNUtils.h:5-7 fails unless a dimension is 1. -/
def isVector (m : GslMatrix α) : Bool := m.size1 == 1 || m.size2 == 1

theorem isVector_of_column {m : GslMatrix α} (h : m.size2 = 1) : isVector m = true := by
  simp [isVector, h]

/-- mirrors MatrixNNUtils.c:24-37 (`gsl_matrix_memcpy` into a fresh matrix) -/
def identity (m : GslMatrix α) : Option (GslMatrix α) :=
  if isVector m then some m else none

theorem identity_of_column {m : GslMatrix α} (h : m.size2 = 1) : identity m = some m :=
  if_pos (isVector_of_column h)

variable [LinearOrderedField α]

/-- mirrors MatrixNNUtils.c:7-22 -/
def relu (m : GslMatrix α) : Option (GslMatrix α) :=
  if isVector m then some (m.map fun old => max old 0) else none

/-- mirrors MatrixNNUtils.c:39-50 -/
def dIdentityDx (x : GslMatrix α) : Option (GslMatrix α) :=
  if isVector x then
    let nbElements := x.size1 * x.size2
    (calloc nbElements nbElements).map setIdentity
  else none

/-- mirrors MatrixNNUtils.c:52-70 -/
def reshape (m : GslMatrix α) (rows cols : Nat) : Option (GslMatrix α) :=
  if rows * cols ≠ m.size1 * m.size2 then none else
  (calloc rows cols).map fun out =>
    (List.range m.size1).foldl (fun out i =>
      (List.range m.size2).foldl (fun out j =>
        let n := i * m.size2 + j
        out.set (n / cols) (n % cols) (m.get i j)) out) out

/-- mirrors MatrixNNUtils.c:72-95: `2 (x - y)`, laid out as one row. -/
def dL2Dx (x y : GslMatrix α) : Option (GslMatrix α) :=
  if isVector x && isVector y then do
    let out ← sub x y
    reshape (out.scale 2) 1 (x.size1 * x.size2)
  else none

/-- The one-column `extendedX` of `affine`: `x` with a 1 appended. -/
def extend (x : GslMatrix α) : GslMatrix α :=
  ofFn (x.size1 * x.size2 + 1) 1 (Nat.succ_pos _) Nat.one_pos fun i _ =>
    if i < x.size1 * x.size2 then x.get i 0 else 1

/-- mirrors MatrixNNUtils.c:97-129: row `i` of `x` goes to row `i` of the
one-column `extendedX` (lines 106-112), which GSL refuses unless `x` has one
column; then `W extendedX` (line 121). -/
def affine (x W : GslMatrix α) : Option (GslMatrix α) :=
  if isVector x && x.size2 == 1 then dgemm W (extend x) else none

/-- The diagonal entry `dReluDx` writes for element `i` of `x`. -/
def reluSlope (x : GslMatrix α) (i : Nat) : α :=
  if (if x.size1 > x.size2 then x.get i 0 else x.get 0 i) > 0 then 1 else 0

/-- mirrors MatrixNNUtils.c:191-210 -/
def dReluDx (x : GslMatrix α) : Option (GslMatrix α) :=
  if isVector x then
    let nbElements := x.size1 * x.size2
    (calloc nbElements nbElements).map fun out =>
      setAll (fun i => (i, i)) (reluSlope x) out (List.range nbElements)
  else none

/-- mirrors MatrixNNUtils.c:212-223: the first `size2 - 1` columns of `W`. -/
def dAffineDx (W : GslMatrix α) : Option (GslMatrix α) :=
  (calloc W.size1 (W.size2 - 1) : Option (GslMatrix α)).map fun out =>
    ofFn out.size1 out.size2 out.size1_pos out.size2_pos fun i j => W.get i j

/-- mirrors MatrixNNUtils.c:225-248 -/
def dAffineDw (x W : GslMatrix α) : Option (GslMatrix α) :=
  if isVector x then
    let nbElements := x.size1 * x.size2
    (calloc W.size1 (W.size1 * (nbElements + 1))).map fun out =>
      (List.range W.size1).foldl (fun out i =>
        let out := (List.range nbElements).foldl (fun out j =>
          let value := if x.size1 > x.size2 then x.get j 0 else x.get 0 j
          out.set i (i * (nbElements + 1) + j) value) out
        out.set i (i * (nbElements + 1) + nbElements) 1) out
  else none

/-! ## `reshape` -/

theorem div_mod_cell {cols a b : Nat} (hb : b < cols) :
    (a * cols + b) / cols = a ∧ (a * cols + b) % cols = b := by
  have hc : 0 < cols := by omega
  constructor
  · rw [Nat.mul_comm, Nat.mul_add_div hc, Nat.div_eq_of_lt hb, Nat.add_zero]
  · rw [Nat.mul_comm, Nat.mul_add_mod, Nat.mod_eq_of_lt hb]

theorem cell_lt {rows cols a b : Nat} (ha : a < rows) (hb : b < cols) : a * cols + b < rows * cols :=
  calc a * cols + b < a * cols + cols := by omega
    _ = (a + 1) * cols := (Nat.succ_mul a cols).symm
    _ ≤ rows * cols := Nat.mul_le_mul_right cols ha

/-- A loop writing `val n` at cell `(n / cols, n % cols)` for every
`n < rows * cols` of a matrix of at least `rows × cols` puts `val (i * cols + j)`
in cell `(i, j)`. -/
theorem get_setAll_rowMajor (val : Nat → α) (init : GslMatrix α) {rows cols : Nat}
    (h1 : rows ≤ init.size1) (h2 : cols ≤ init.size2) {i j : Nat} (hi : i < rows) (hj : j < cols) :
    (setAll (fun n => (n / cols, n % cols)) val init (List.range (rows * cols))).get i j =
      val (i * cols + j) := by
  obtain ⟨e1, e2⟩ := div_mod_cell (a := i) hj
  have key := get_foldl_set (fun n => (n / cols, n % cols)) val init (cell_lt hi hj)
    (fun n _ e => by
      simp only [Prod.mk.injEq, e1, e2] at e
      rw [← Nat.div_add_mod' n cols, e.1, e.2]) (by simp only [e1, e2]; exact ⟨hi.trans_le h1, hj.trans_le h2⟩)
  simpa only [e1, e2] using key

/-- `reshape` succeeds exactly when the sizes agree, and its cell `(a, b)`
is the input's cell at the same row-major position `a * cols + b`. -/
theorem get_reshape (m : GslMatrix α) (rows cols : Nat) (h : rows * cols = m.size1 * m.size2) :
    ∃ out, reshape m rows cols = some out ∧ out.size1 = rows ∧ out.size2 = cols ∧
      ∀ a b, a < rows → b < cols →
        out.get a b = m.get ((a * cols + b) / m.size2) ((a * cols + b) % m.size2) := by
  have hpos : 0 < rows * cols := h ▸ Nat.mul_pos m.size1_pos m.size2_pos
  have hr : 0 < rows := Nat.pos_of_mul_pos_right hpos
  have hc : 0 < cols := Nat.pos_of_mul_pos_left hpos
  have hout : reshape m rows cols = some (setAll (fun n => (n / cols, n % cols))
      (fun n => m.get (n / m.size2) (n % m.size2)) (ofFn rows cols hr hc fun _ _ => 0)
      (List.range (m.size1 * m.size2))) := by
    rw [reshape, if_neg (not_not.2 h), calloc_of_pos hr hc, Option.map_some', setAll, foldl_range_mul]
    simp only [Nat.div_add_mod']
  refine ⟨_, hout, by simp, by simp, fun a b ha hb => ?_⟩
  obtain ⟨e1, e2⟩ := div_mod_cell (a := a) hb
  have key := get_foldl_set (fun n => (n / cols, n % cols)) (fun n => m.get (n / m.size2) (n % m.size2))
    (ofFn rows cols hr hc fun _ _ => (0 : α)) (N := m.size1 * m.size2) (k := a * cols + b)
    (h ▸ cell_lt ha hb) (fun n hn e => ?_) (by simp [e1, e2, ha, hb])
  · simpa only [e1, e2] using key
  · simp only [Prod.mk.injEq, e1, e2] at e
    rw [← Nat.div_add_mod' n cols, e.1, e.2]

/-- `reshape` indexed by the row-major position: output cell `n` is input
cell `n`. -/
theorem reshape_flat (m : GslMatrix α) (rows cols : Nat) (h : rows * cols = m.size1 * m.size2) :
    ∃ out, reshape m rows cols = some out ∧ out.size1 = rows ∧ out.size2 = cols ∧
      ∀ n < rows * cols, out.get (n / cols) (n % cols) = m.get (n / m.size2) (n % m.size2) := by
  obtain ⟨out, hout, h1, h2, hget⟩ := get_reshape m rows cols h
  have hc : 0 < cols := Nat.pos_of_mul_pos_left (h ▸ Nat.mul_pos m.size1_pos m.size2_pos)
  refine ⟨out, hout, h1, h2, fun n hn => ?_⟩
  rw [hget _ _ (Nat.div_lt_of_lt_mul (by rwa [Nat.mul_comm] at hn)) (Nat.mod_lt _ hc), Nat.div_add_mod']

/-- `reshape` is the row-major re-layout: output cell `n` is input cell `n`
for every `n < rows * cols`, each output cell is written by exactly one pass
`(i, j)` of the loop, and reshaping back gives the input. -/
theorem reshape_relayout (m : GslMatrix α) (rows cols : Nat) (h : rows * cols = m.size1 * m.size2) :
    ∃ out, reshape m rows cols = some out ∧ out.size1 = rows ∧ out.size2 = cols ∧
      (∀ n < rows * cols, out.get (n / cols) (n % cols) = m.get (n / m.size2) (n % m.size2)) ∧
      (∀ a < rows, ∀ b < cols, ∃! ij : Nat × Nat, ij.1 < m.size1 ∧ ij.2 < m.size2 ∧
        (ij.1 * m.size2 + ij.2) / cols = a ∧ (ij.1 * m.size2 + ij.2) % cols = b) ∧
      reshape out m.size1 m.size2 = some m := by
  obtain ⟨out, hout, h1, h2, hflat⟩ := reshape_flat m rows cols h
  refine ⟨out, hout, h1, h2, hflat, fun a ha b hb => ?_, ?_⟩
  · -- the pass that writes `(a, b)` is the one at row-major position `a * cols + b`
    obtain ⟨e1, e2⟩ := div_mod_cell (a := a) hb
    have hn : a * cols + b < m.size1 * m.size2 := h ▸ cell_lt ha hb
    refine ⟨((a * cols + b) / m.size2, (a * cols + b) % m.size2),
      ⟨Nat.div_lt_of_lt_mul (by rwa [Nat.mul_comm m.size2]), Nat.mod_lt _ m.size2_pos,
        by rw [Nat.div_add_mod', e1], by rw [Nat.div_add_mod', e2]⟩, ?_⟩
    rintro ⟨i, j⟩ ⟨-, hj, hdi, hmj⟩
    have hpos : i * m.size2 + j = a * cols + b := by rw [← hdi, ← hmj, Nat.div_add_mod']
    obtain ⟨f1, f2⟩ := div_mod_cell (a := i) hj
    rw [← hpos, f1, f2]
  · -- reshaping back reads every input cell at its own position
    obtain ⟨back, hback, hb1, hb2, hbget⟩ := get_reshape out m.size1 m.size2 (by rw [h1, h2, h])
    rw [hback]
    refine congrArg some (ext_get hb1 hb2 fun i j hi hj => ?_)
    rw [hb1] at hi; rw [hb2] at hj
    obtain ⟨f1, f2⟩ := div_mod_cell (a := i) hj
    rw [hbget i j hi hj, h2, hflat _ (h ▸ cell_lt hi hj), f1, f2]

theorem reshape_two_by_three :
    (reshape (ofFn 2 3 (by decide) (by decide) fun i j => ((3 * i + j + 1 : ℕ) : ℚ)) 3 2).map toLists =
        some [[1, 2], [3, 4], [5, 6]] ∧
      ∃ out, reshape (ofFn 2 3 (by decide) (by decide) fun i j => ((3 * i + j + 1 : ℕ) : ℚ)) 3 2 = some out ∧
        reshape out 2 3 = some (ofFn 2 3 (by decide) (by decide) fun i j => ((3 * i + j + 1 : ℕ) : ℚ)) :=
  ⟨by decide, let ⟨out, h, _, _, _, _, hb⟩ := reshape_relayout (ofFn 2 3 (by decide) (by decide)
    fun i j => ((3 * i + j + 1 : ℕ) : ℚ)) 3 2 rfl; ⟨out, h, hb⟩⟩

/-! ## The affine layer and the loss -/

theorem get_extend (x : GslMatrix α) (hx : x.size2 = 1) {j : Nat} (hj : j < x.size1) :
    (extend x).get j 0 = x.get j 0 := by
  simp [extend, hx, hj, Nat.lt_succ_of_lt hj]

/-- `affine` succeeds exactly on a column `x` and weights with one column
more than `x` has entries, and gives the column `W [x; 1]`. -/
theorem affine_eq_some {x W comb : GslMatrix α} (h : affine x W = some comb) :
    x.size2 = 1 ∧ W.size2 = x.size1 + 1 ∧ comb.size1 = W.size1 ∧ comb.size2 = 1 := by
  unfold affine at h
  split at h
  · rename_i hv
    have hx : x.size2 = 1 := by simp only [Bool.and_eq_true, beq_iff_eq] at hv; exact hv.2
    obtain ⟨e, h1, h2⟩ := dgemm_eq_some h
    exact ⟨hx, by rw [e]; simp [extend, hx], h1, h2⟩
  · cases h

theorem affine_of_column {x W : GslMatrix α} (hx : x.size2 = 1) (hW : W.size2 = x.size1 + 1) :
    ∃ comb, affine x W = some comb ∧ comb.size1 = W.size1 ∧ comb.size2 = 1 ∧
      ∀ k < W.size1, comb.get k 0 = ∑ j in Finset.range (x.size1 + 1), W.get k j * (extend x).get j 0 := by
  obtain ⟨comb, hd, h1, h2⟩ := dgemm_of_eq (A := W) (B := extend x) (by simp [extend, hx, hW])
  refine ⟨comb, by rw [affine, if_pos (by simp [isVector_of_column hx, hx])]; exact hd, h1, h2,
    fun k hk => ?_⟩
  rw [get_dgemm hd hk Nat.one_pos, hW]

/-- On two columns of the same size, `dL2Dx` is the row `2 (x - y)`. -/
theorem dL2Dx_of_column {x y : GslMatrix α} (hx : x.size2 = 1) (hy : y.size1 = x.size1 ∧ y.size2 = 1) :
    ∃ J, dL2Dx x y = some J ∧ J.size1 = 1 ∧ J.size2 = x.size1 ∧
      ∀ k < x.size1, J.get 0 k = (x.get k 0 - y.get k 0) * 2 := by
  have hsub : sub x y = some _ := if_pos ⟨hy.1.symm, hx.trans hy.2.symm⟩
  obtain ⟨J, hJ, h1, h2, hget⟩ := get_reshape ((ofFn x.size1 x.size2 x.size1_pos x.size2_pos
    fun i j => x.get i j - y.get i j).scale 2) 1 (x.size1 * x.size2) (Nat.one_mul _)
  refine ⟨J, ?_, h1, by rw [h2, hx, Nat.mul_one], fun k hk => ?_⟩
  · rw [dL2Dx, if_pos (by simp [isVector_of_column hx, isVector_of_column hy.2]), hsub]; exact hJ
  · rw [hget 0 k Nat.one_pos (by rw [hx, Nat.mul_one]; exact hk)]
    simp [scale, get_map, hx, hk, Nat.mod_one]

/-! ## The Jacobians -/

/-- On a column of `d` entries, `dIdentityDx` is the `d × d` identity. -/
theorem dIdentityDx_of_column {z : GslMatrix α} (hz : z.size2 = 1) :
    ∃ M, dIdentityDx z = some M ∧ M.size1 = z.size1 ∧ M.size2 = z.size1 ∧
      ∀ a b, a < z.size1 → b < z.size1 → M.get a b = if a = b then 1 else 0 := by
  refine ⟨setIdentity (ofFn z.size1 z.size1 z.size1_pos z.size1_pos fun _ _ => 0), ?_, rfl, rfl,
    fun a b ha hb => get_setIdentity _ ha hb⟩
  rw [dIdentityDx, if_pos (isVector_of_column hz)]
  dsimp only
  rw [hz, Nat.mul_one, calloc_of_pos z.size1_pos z.size1_pos]
  rfl

theorem reluSlope_of_column {z : GslMatrix α} (hz : z.size2 = 1) {k : Nat} (hk : k < z.size1) :
    reluSlope z k = if z.get k 0 > 0 then 1 else 0 := by
  unfold reluSlope
  by_cases h : z.size1 > z.size2
  · rw [if_pos h]
  · obtain rfl : k = 0 := by omega
    rw [if_neg h]

/-- On a column of `d` entries, `dReluDx` is the `d × d` diagonal of
`[z_k > 0]`. -/
theorem dReluDx_of_column {z : GslMatrix α} (hz : z.size2 = 1) :
    ∃ M, dReluDx z = some M ∧ M.size1 = z.size1 ∧ M.size2 = z.size1 ∧
      ∀ a b, a < z.size1 → b < z.size1 →
        M.get a b = if a = b then (if z.get a 0 > 0 then 1 else 0) else 0 := by
  have hd : dReluDx z = some (setAll (fun i => (i, i)) (reluSlope z)
      (ofFn z.size1 z.size1 z.size1_pos z.size1_pos fun _ _ => 0) (List.range z.size1)) := by
    rw [dReluDx, if_pos (isVector_of_column hz)]
    dsimp only
    rw [hz, Nat.mul_one, calloc_of_pos z.size1_pos z.size1_pos]
    rfl
  refine ⟨_, hd, by simp, by simp, fun a b ha hb => ?_⟩
  by_cases e : a = b
  · subst e
    rw [if_pos rfl, ← reluSlope_of_column hz ha]
    exact get_foldl_set (fun i => (i, i)) (reluSlope z) _ (List.mem_range.1 (List.mem_range.2 ha))
      (fun n _ h => (Prod.mk.inj h).1) (by simp [ha])
  · rw [if_neg e, get_foldl_set_frame _ _ _ _ fun n _ h => e ((Prod.mk.inj h).1.symm.trans (Prod.mk.inj h).2)]
    simp

/-- On a column `x` of `n` entries, row `k` of `dAffineDw x W` holds
`[x; 1]` in columns `k (n + 1)` to `k (n + 1) + n` and zeros elsewhere. -/
theorem dAffineDw_of_column {x : GslMatrix α} (hx : x.size2 = 1) (W : GslMatrix α) :
    ∃ M, dAffineDw x W = some M ∧ M.size1 = W.size1 ∧ M.size2 = W.size1 * (x.size1 + 1) ∧
      ∀ k c, k < W.size1 → c < W.size1 * (x.size1 + 1) →
        M.get k c = if c / (x.size1 + 1) = k then (extend x).get (c % (x.size1 + 1)) 0 else 0 := by
  have hn : 0 < W.size1 * (x.size1 + 1) := Nat.mul_pos W.size1_pos (Nat.succ_pos _)
  have hne : x.size1 * x.size2 = x.size1 := by rw [hx, Nat.mul_one]
  have hval : ∀ j < x.size1,
      (if x.size1 > x.size2 then x.get j 0 else x.get 0 j) = (extend x).get j 0 := by
    intro j hj
    rw [get_extend x hx hj]
    by_cases h : x.size1 > x.size2
    · rw [if_pos h]
    · obtain rfl : j = 0 := by omega
      rw [if_neg h]
  have hlast : (extend x).get x.size1 0 = 1 := by simp [extend, hx]
  have hd : dAffineDw x W = some (setAll (fun c => (c / (x.size1 + 1), c))
      (fun c => (extend x).get (c % (x.size1 + 1)) 0)
      (ofFn W.size1 (W.size1 * (x.size1 + 1)) W.size1_pos hn fun _ _ => 0)
      (List.range (W.size1 * (x.size1 + 1)))) := by
    rw [dAffineDw, if_pos (isVector_of_column hx)]
    dsimp only
    rw [hne, calloc_of_pos W.size1_pos hn, Option.map_some', Option.some_inj, setAll]
    refine (List.foldl_ext _ _ _ fun acc i _ => ?_).trans
      ((foldl_range_mul W.size1 (x.size1 + 1)
        (fun acc i j => acc.set i (i * (x.size1 + 1) + j) ((extend x).get j 0)) _).trans ?_)
    · rw [List.range_succ, List.foldl_append, List.foldl_cons, List.foldl_nil, hlast]
      congr 1
      exact List.foldl_ext _ _ _ fun acc j hj => by rw [hval j (List.mem_range.1 hj)]
    · congr 1; funext acc c; rw [Nat.div_add_mod']
  refine ⟨_, hd, by simp, by simp, fun k c hk hc => ?_⟩
  by_cases e : c / (x.size1 + 1) = k
  · rw [if_pos e]
    have key := get_foldl_set (fun c => (c / (x.size1 + 1), c)) (fun c => (extend x).get (c % (x.size1 + 1)) 0)
      (ofFn W.size1 (W.size1 * (x.size1 + 1)) W.size1_pos hn fun _ _ => (0 : α)) hc
      (fun n _ h => (Prod.mk.inj h).2) (by simp [e, hk, hc])
    simpa only [e] using key
  · rw [if_neg e, get_foldl_set_frame _ _ _ _ fun n _ h => e ?_]
    · simp
    · obtain ⟨h1, rfl⟩ := Prod.mk.inj h
      exact h1

/-- For weights with at least two columns, `dAffineDx W` is `W` without its
last column. -/
theorem dAffineDx_of_wide {W : GslMatrix α} (hW : 1 < W.size2) :
    ∃ M, dAffineDx W = some M ∧ M.size1 = W.size1 ∧ M.size2 = W.size2 - 1 ∧
      ∀ i j, i < W.size1 → j < W.size2 - 1 → M.get i j = W.get i j := by
  refine ⟨ofFn W.size1 (W.size2 - 1) W.size1_pos (Nat.sub_pos_of_lt hW) fun i j => W.get i j,
    by rw [dAffineDx, calloc_of_pos W.size1_pos (Nat.sub_pos_of_lt hW)]; rfl, rfl, rfl,
    fun i j hi hj => ?_⟩
  simp [hi, hj]

end Network

end WasmContracts
