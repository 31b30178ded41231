import WasmContracts.L1Data.GslMatrix
import Mathlib.Algebra.BigOperators.Ring
import Mathlib.Algebra.Order.BigOperators.Group.Finset
import Mathlib.Algebra.Order.Field.Basic
import Mathlib.Algebra.EuclideanDomain.Field
import Mathlib.Data.Real.Sqrt
/-!
# Standardisation of an input matrix: `sum`, `elementPowerTwo`, `normalize`

`normalizeContract` (ClassificationContract.c:86-97) standardises the
training and the test inputs with `normalize` of MatrixNNUtils.c: every entry
loses the mean of all entries and is divided by their population standard
deviation, unless that deviation is zero. The C code gets there through two
whole-matrix loops, `sum` and the in-place square `elementPowerTwo`, run
between two copies of the input (`gsl_matrix_memcpy`), each shifted by
`gsl_matrix_add_constant`. Entries are exact elements of an ordered field, as
in `Network.Layers`.

## Hypotheses

`sqrt` of math.h is a parameter of `normalize`, so that the model stays
executable over any ordered field. Only the conclusion on the squares uses a
property of it: on nonnegative elements it is a square root,
`0 ≤ x → sqrt x * sqrt x = x`, which `Real.sqrt` is.

Results:
* `sum_eq`: the two loops of `sum` add every entry once.
* `normalize_eq`: `normalize` returns `m - μ` scaled by `1 / σ`, or `m - μ`
  when `σ = 0`, for the mean `μ` and standard deviation `σ` of the entries
  (`entryMean`, `entryStd`).
* `normalize_standardises`: cell by cell `(m_ij - μ) / σ` (or `m_ij - μ`), the
  entries sum to 0 and, for a matrix that is not constant, their squares sum
  to the number of entries.
* `normalize_idempotent`: with a nonnegative square root, normalizing twice
  is normalizing once.
-/
namespace WasmContracts

namespace Network

open GslMatrix

variable {α : Type} [LinearOrderedField α]

/-- mirrors MatrixNNUtils.c:396-405 -/
def sum (m : GslMatrix α) : α :=
  (List.range m.size1).foldl
    (fun total i => (List.range m.size2).foldl (fun total j => total + m.get i j) total) 0

/-- mirrors MatrixNNUtils.c:407-414 (each entry squared in place) -/
def elementPowerTwo (m : GslMatrix α) : GslMatrix α := m.map fun old => old * old

/-- mirrors MatrixNNUtils.c:417-459 with math.h's `sqrt` as a parameter. The
first `gsl_matrix_memcpy` overwrites the matrix of `gsl_matrix_calloc`; the
copies, shifts and the scaling are between matrices of the input's
dimensions, which GSL accepts. -/
def normalize (sqrt : α → α) (m : GslMatrix α) : Option (GslMatrix α) :=
  (calloc m.size1 m.size2 : Option (GslMatrix α)).map fun _ =>
    let nbElements : α := (m.size1 * m.size2 : Nat)
    let totalMean := sum m / nbElements
    let totalStd := sqrt (sum (elementPowerTwo (m.addConstant (-totalMean))) / nbElements)
    let out := m.addConstant (-totalMean)
    if totalStd = 0 then out else out.scale (1 / totalStd)

/-- The mean of the entries of `m`. -/
def entryMean (m : GslMatrix α) : α :=
  (∑ i in Finset.range m.size1, ∑ j in Finset.range m.size2, m.get i j) / (m.size1 * m.size2 : Nat)

/-- The population standard deviation of the entries of `m`. -/
def entryStd (sqrt : α → α) (m : GslMatrix α) : α :=
  sqrt ((∑ i in Finset.range m.size1, ∑ j in Finset.range m.size2, (m.get i j - entryMean m) ^ 2) /
    (m.size1 * m.size2 : Nat))

theorem get_elementPowerTwo (m : GslMatrix α) {i j : Nat} (hi : i < m.size1) (hj : j < m.size2) :
    (elementPowerTwo m).get i j = m.get i j * m.get i j :=
  get_map _ m hi hj

theorem foldl_add_range (g : Nat → α) (n : Nat) (total : α) :
    (List.range n).foldl (fun total k => total + g k) total = total + ∑ k in Finset.range n, g k := by
  induction n generalizing total with
  | zero => simp
  | succ n ih =>
    rw [List.range_succ, List.foldl_append, ih, List.foldl_cons, List.foldl_nil,
      Finset.sum_range_succ, add_assoc]

theorem sum_eq (m : GslMatrix α) :
    sum m = ∑ i in Finset.range m.size1, ∑ j in Finset.range m.size2, m.get i j := by
  simp only [sum, foldl_add_range, zero_add]

theorem sum_cells_congr {m : GslMatrix α} {f g : Nat → Nat → α}
    (h : ∀ i < m.size1, ∀ j < m.size2, f i j = g i j) :
    ∑ i in Finset.range m.size1, ∑ j in Finset.range m.size2, f i j =
      ∑ i in Finset.range m.size1, ∑ j in Finset.range m.size2, g i j :=
  Finset.sum_congr rfl fun i hi => Finset.sum_congr rfl fun j hj =>
    h i (Finset.mem_range.1 hi) j (Finset.mem_range.1 hj)

theorem normalize_eq (sqrt : α → α) (m : GslMatrix α) :
    normalize sqrt m = some (if entryStd sqrt m = 0 then m.addConstant (-entryMean m)
      else (m.addConstant (-entryMean m)).scale (1 / entryStd sqrt m)) := by
  have hmean : sum m / ((m.size1 * m.size2 : Nat) : α) = entryMean m := by rw [sum_eq, entryMean]
  have hstd : sqrt (sum (elementPowerTwo (m.addConstant (-entryMean m))) /
      ((m.size1 * m.size2 : Nat) : α)) = entryStd sqrt m := by
    rw [sum_eq, entryStd, sum_cells_congr fun i hi j hj => by
      rw [get_elementPowerTwo (m.addConstant _) hi hj, get_addConstant m _ hi hj, ← sub_eq_add_neg, ← sq]]
    rfl
  simp only [normalize, calloc_of_pos m.size1_pos m.size2_pos, Option.map_some', hmean, hstd]

theorem get_normalize {sqrt : α → α} {m out : GslMatrix α} (h : normalize sqrt m = some out)
    {i j : Nat} (hi : i < m.size1) (hj : j < m.size2) :
    out.get i j = if entryStd sqrt m = 0 then m.get i j - entryMean m
      else (m.get i j - entryMean m) / entryStd sqrt m := by
  rw [normalize_eq, Option.some.injEq] at h
  subst h
  split_ifs
  · rw [get_addConstant _ _ hi hj, sub_eq_add_neg]
  · rw [get_scale (m.addConstant _) _ hi hj, get_addConstant _ _ hi hj, ← sub_eq_add_neg, mul_one_div]

theorem normalize_size {sqrt : α → α} {m out : GslMatrix α} (h : normalize sqrt m = some out) :
    out.size1 = m.size1 ∧ out.size2 = m.size2 := by
  rw [normalize_eq, Option.some.injEq] at h
  subst h
  split_ifs <;> exact ⟨rfl, rfl⟩

/-- The entries minus their mean sum to zero. -/
theorem sum_sub_entryMean (m : GslMatrix α) :
    ∑ i in Finset.range m.size1, ∑ j in Finset.range m.size2, (m.get i j - entryMean m) = 0 := by
  have hN : ((m.size1 * m.size2 : Nat) : α) ≠ 0 :=
    Nat.cast_ne_zero.2 (Nat.mul_ne_zero m.size1_pos.ne' m.size2_pos.ne')
  simp only [Finset.sum_sub_distrib, Finset.sum_const, Finset.card_range, nsmul_eq_mul, ← mul_assoc]
  rw [entryMean, ← Nat.cast_mul, mul_div_cancel₀ _ hN, sub_self]

/-- Two different entries make the squared deviations from any `c` sum to a
positive value. -/
theorem sum_sq_sub_pos {m : GslMatrix α} (c : α)
    (h : ∃ i < m.size1, ∃ j < m.size2, ∃ i' < m.size1, ∃ j' < m.size2, m.get i j ≠ m.get i' j') :
    0 < ∑ i in Finset.range m.size1, ∑ j in Finset.range m.size2, (m.get i j - c) ^ 2 := by
  have cell_le : ∀ a < m.size1, ∀ b < m.size2, (m.get a b - c) ^ 2 ≤
      ∑ i in Finset.range m.size1, ∑ j in Finset.range m.size2, (m.get i j - c) ^ 2 :=
    fun a ha b hb => (Finset.single_le_sum (fun j _ => sq_nonneg (m.get a j - c))
      (Finset.mem_range.2 hb)).trans (Finset.single_le_sum
        (f := fun i => ∑ j in Finset.range m.size2, (m.get i j - c) ^ 2)
        (fun i _ => Finset.sum_nonneg fun j _ => sq_nonneg _) (Finset.mem_range.2 ha))
  obtain ⟨i, hi, j, hj, i', hi', j', hj', hne⟩ := h
  by_cases hc : m.get i j = c
  · exact (sq_pos_of_ne_zero (sub_ne_zero.2 fun h' => hne (hc.trans h'.symm))).trans_le
      (cell_le i' hi' j' hj')
  · exact (sq_pos_of_ne_zero (sub_ne_zero.2 hc)).trans_le (cell_le i hi j hj)

theorem normalize_standardises (sqrt : α → α) (hsqrt : ∀ x, 0 ≤ x → sqrt x * sqrt x = x)
    (m : GslMatrix α) :
    ∃ out, normalize sqrt m = some out ∧ out.size1 = m.size1 ∧ out.size2 = m.size2 ∧
      (∀ i < m.size1, ∀ j < m.size2, out.get i j =
        if entryStd sqrt m = 0 then m.get i j - entryMean m
        else (m.get i j - entryMean m) / entryStd sqrt m) ∧
      ∑ i in Finset.range m.size1, ∑ j in Finset.range m.size2, out.get i j = 0 ∧
      ((∃ i < m.size1, ∃ j < m.size2, ∃ i' < m.size1, ∃ j' < m.size2, m.get i j ≠ m.get i' j') →
        ∑ i in Finset.range m.size1, ∑ j in Finset.range m.size2, out.get i j ^ 2 =
          (m.size1 * m.size2 : Nat)) := by
  obtain ⟨out, hout⟩ : ∃ out, normalize sqrt m = some out := ⟨_, normalize_eq sqrt m⟩
  have hcell := fun i (hi : i < m.size1) j (hj : j < m.size2) => get_normalize hout hi hj
  refine ⟨out, hout, (normalize_size hout).1, (normalize_size hout).2, hcell, ?_, fun hne => ?_⟩
  · rw [sum_cells_congr hcell]
    split_ifs
    · exact sum_sub_entryMean m
    · simp only [← Finset.sum_div, sum_sub_entryMean, zero_div]
  · set Q := ∑ i in Finset.range m.size1, ∑ j in Finset.range m.size2, (m.get i j - entryMean m) ^ 2
    have hQ : 0 < Q := sum_sq_sub_pos _ hne
    have hN : (0 : α) < (m.size1 * m.size2 : Nat) :=
      Nat.cast_pos.2 (Nat.mul_pos m.size1_pos m.size2_pos)
    have hσσ : entryStd sqrt m * entryStd sqrt m = Q / (m.size1 * m.size2 : Nat) :=
      hsqrt _ (div_nonneg hQ.le hN.le)
    have hσ : entryStd sqrt m ≠ 0 := fun h0 => (div_pos hQ hN).ne' (by rw [← hσσ, h0, zero_mul])
    calc ∑ i in Finset.range m.size1, ∑ j in Finset.range m.size2, out.get i j ^ 2
        = ∑ i in Finset.range m.size1, ∑ j in Finset.range m.size2,
            (m.get i j - entryMean m) ^ 2 / (entryStd sqrt m * entryStd sqrt m) :=
          sum_cells_congr fun i hi j hj => by rw [hcell i hi j hj, if_neg hσ, div_pow, sq (entryStd _ _)]
      _ = Q / (Q / (m.size1 * m.size2 : Nat)) := by simp only [← Finset.sum_div, hσσ, Q]
      _ = (m.size1 * m.size2 : Nat) := div_div_cancel₀ hQ.ne'

theorem normalize_row_zero_two :
    ∃ out, normalize Real.sqrt (ofFn 1 2 (by decide) (by decide) fun _ j => (2 * j : ℝ)) = some out ∧
      out.get 0 0 = -1 ∧ out.get 0 1 = 1 ∧
      ∑ i in Finset.range 1, ∑ j in Finset.range 2, out.get i j ^ 2 = 2 := by
  obtain ⟨out, h, -, -, hcell, -, hsq⟩ := normalize_standardises Real.sqrt
    (fun _ hx => Real.mul_self_sqrt hx) (ofFn 1 2 (by decide) (by decide) fun _ j => (2 * j : ℝ))
  have hμ : entryMean (ofFn 1 2 (by decide) (by decide) fun _ j => (2 * j : ℝ)) = 1 := by
    norm_num [entryMean, Finset.sum_range_succ]
  have hσ : entryStd Real.sqrt (ofFn 1 2 (by decide) (by decide) fun _ j => (2 * j : ℝ)) = 1 := by
    norm_num [entryStd, hμ, Finset.sum_range_succ]
  refine ⟨out, h, ?_, ?_, by simpa using hsq ⟨0, one_pos, 0, two_pos, 0, one_pos, 1, one_lt_two, by simp⟩⟩
  · norm_num [hcell 0 one_pos 0 two_pos, hμ, hσ]
  · norm_num [hcell 0 one_pos 1 one_lt_two, hμ, hσ]

/-! ## Normalizing twice -/

/-- The entries `normalize` returns sum to zero. -/
theorem sum_normalize {sqrt : α → α} {m out : GslMatrix α} (h : normalize sqrt m = some out) :
    ∑ i in Finset.range m.size1, ∑ j in Finset.range m.size2, out.get i j = 0 := by
  rw [sum_cells_congr fun i hi j hj => get_normalize h hi hj]
  split_ifs
  · exact sum_sub_entryMean m
  · simp only [← Finset.sum_div, sum_sub_entryMean, zero_div]

/-- Their squares average to 0 where the deviation is 0, and to 1 elsewhere. -/
theorem sum_sq_normalize {sqrt : α → α} (hsqrt : ∀ x, 0 ≤ x → sqrt x * sqrt x = x) {m out : GslMatrix α}
    (h : normalize sqrt m = some out) :
    (∑ i in Finset.range m.size1, ∑ j in Finset.range m.size2, out.get i j ^ 2) / (m.size1 * m.size2 : Nat) =
      if entryStd sqrt m = 0 then 0 else 1 := by
  have hN : (0 : α) < (m.size1 * m.size2 : Nat) := Nat.cast_pos.2 (Nat.mul_pos m.size1_pos m.size2_pos)
  have hσσ : entryStd sqrt m * entryStd sqrt m =
      (∑ i in Finset.range m.size1, ∑ j in Finset.range m.size2, (m.get i j - entryMean m) ^ 2) /
        (m.size1 * m.size2 : Nat) :=
    hsqrt _ (div_nonneg (Finset.sum_nonneg fun i _ => Finset.sum_nonneg fun j _ => sq_nonneg _) hN.le)
  split_ifs with hσ
  · rw [sum_cells_congr fun i hi j hj => by rw [get_normalize h hi hj, if_pos hσ], ← hσσ, hσ, zero_mul]
  · rw [sum_cells_congr fun i hi j hj => by
      rw [get_normalize h hi hj, if_neg hσ, div_pow, sq (entryStd sqrt m)]]
    simp only [← Finset.sum_div]
    rw [div_right_comm, ← hσσ, div_self (mul_self_ne_zero.2 hσ)]

theorem entryMean_normalize {sqrt : α → α} {m out : GslMatrix α} (h : normalize sqrt m = some out) :
    entryMean out = 0 := by
  rw [entryMean, (normalize_size h).1, (normalize_size h).2, sum_normalize h, zero_div]

/-- With a nonnegative square root, the result's deviation is 0 or 1. -/
theorem entryStd_normalize {sqrt : α → α} (hsqrt : ∀ x, 0 ≤ x → 0 ≤ sqrt x ∧ sqrt x * sqrt x = x)
    {m out : GslMatrix α} (h : normalize sqrt m = some out) :
    entryStd sqrt out = if entryStd sqrt m = 0 then 0 else 1 := by
  rw [entryStd, entryMean_normalize h, (normalize_size h).1, (normalize_size h).2]
  simp only [sub_zero]
  rw [sum_sq_normalize (fun x hx => (hsqrt x hx).2) h]
  split_ifs
  · exact mul_self_eq_zero.1 (hsqrt 0 le_rfl).2
  · exact (mul_self_inj (hsqrt 1 zero_le_one).1 zero_le_one).1 (by rw [(hsqrt 1 zero_le_one).2, one_mul])

/-- With a nonnegative square root, `normalize` is idempotent: its result has
mean 0 and deviation 0 or 1, which a second call leaves as they are. -/
theorem normalize_idempotent (sqrt : α → α) (hsqrt : ∀ x, 0 ≤ x → 0 ≤ sqrt x ∧ sqrt x * sqrt x = x)
    (m : GslMatrix α) : (normalize sqrt m).bind (normalize sqrt) = normalize sqrt m := by
  obtain ⟨out, h⟩ : ∃ out, normalize sqrt m = some out := ⟨_, normalize_eq sqrt m⟩
  rw [h, Option.some_bind, normalize_eq, entryMean_normalize h, entryStd_normalize hsqrt h, neg_zero,
    addConstant_zero]
  by_cases hσ : entryStd sqrt m = 0
  · rw [if_pos hσ, if_pos rfl]
  · rw [if_neg hσ, if_neg one_ne_zero, div_one, scale_one]

theorem normalize_row_twice :
    (normalize Real.sqrt (ofFn 1 2 (by decide) (by decide) fun _ j => (2 * j : ℝ))).bind (normalize Real.sqrt) =
      normalize Real.sqrt (ofFn 1 2 (by decide) (by decide) fun _ j => (2 * j : ℝ)) :=
  normalize_idempotent Real.sqrt (fun x hx => ⟨Real.sqrt_nonneg x, Real.mul_self_sqrt hx⟩) _

end Network

end WasmContracts
