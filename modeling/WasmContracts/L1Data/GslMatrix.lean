import Mathlib.Data.Matrix.Mul
import Mathlib.Algebra.BigOperators.Fin
/-!
# GSL matrices (`gsl_matrix`)

`neural_network/MatrixNNUtils.c` keeps every vector and weight matrix in a
`gsl_matrix` and computes with GSL. GSL is not among the sources, so each
operation is modelled from its documented behaviour. GSL allocates only
positive dimensions, and `GslMatrix` carries that as fields. A call GSL
refuses gives `none`: a zero dimension in `gsl_matrix_calloc`, a row out of
range in `gsl_matrix_const_submatrix`, or operands whose dimensions do not
match in `gsl_blas_dgemm` or `gsl_matrix_sub`. GSL then calls its error
handler, and the default one, which src/ never replaces, aborts; where a
caller of the sources sees such a `none`, `Outcome.orStop` makes it the
abort it is.

The C code reads and writes entries by `size_t` indices, and `get`, `set`
take `Nat` indices to match. `get` reads 0 outside the matrix; the sources
read single entries only inside it, and take rows through `row`, which
models GSL's range check.

Results:
* `get_set`: `gsl_matrix_set` changes exactly the cell it names.
* `get_foldl_set`, `get_foldl_set_frame`: after a loop of `gsl_matrix_set`
  at distinct cells, each written cell holds its value and every other cell
  keeps its old one.
* `foldl_range_mul`: two nested loops over `i < a`, `j < b` are one loop over
  `n < a * b` with `i = n / b`, `j = n % b`.
* `get_dgemm`: an entry of a product is the sum over the shared dimension.
-/
namespace WasmContracts

/-- Modelled from GSL: a `gsl_matrix` of `size1` rows and `size2` columns. -/
structure GslMatrix (α : Type) where
  size1 : Nat
  size2 : Nat
  data : Matrix (Fin size1) (Fin size2) α
  size1_pos : 0 < size1
  size2_pos : 0 < size2

namespace GslMatrix

variable {α : Type}

/-- The matrix of `n1 × n2` entries `f i j`. -/
def ofFn (n1 n2 : Nat) (h1 : 0 < n1) (h2 : 0 < n2) (f : Nat → Nat → α) : GslMatrix α :=
  ⟨n1, n2, fun i j => f i j, h1, h2⟩

/-- Modelled from GSL: `gsl_matrix_set(m, i, j, x)`. -/
def set (m : GslMatrix α) (i j : Nat) (x : α) : GslMatrix α :=
  { m with data := fun a b => if a.val = i ∧ b.val = j then x else m.data a b }

/-- Modelled from GSL: an elementwise loop over all cells, such as
`gsl_matrix_scale` or the loop of `relu`. -/
def map (f : α → α) (m : GslMatrix α) : GslMatrix α :=
  { m with data := fun a b => f (m.data a b) }

/-- The rows of `m`, for stating results on concrete matrices. -/
def toLists (m : GslMatrix α) : List (List α) :=
  List.ofFn fun i => List.ofFn fun j => m.data i j

@[simp] theorem ofFn_size1 (n1 n2 : Nat) (h1 : 0 < n1) (h2 : 0 < n2) (f : Nat → Nat → α) :
    (ofFn n1 n2 h1 h2 f).size1 = n1 := rfl
@[simp] theorem ofFn_size2 (n1 n2 : Nat) (h1 : 0 < n1) (h2 : 0 < n2) (f : Nat → Nat → α) :
    (ofFn n1 n2 h1 h2 f).size2 = n2 := rfl
@[simp] theorem set_size1 (m : GslMatrix α) (i j : Nat) (x : α) : (m.set i j x).size1 = m.size1 := rfl
@[simp] theorem set_size2 (m : GslMatrix α) (i j : Nat) (x : α) : (m.set i j x).size2 = m.size2 := rfl
@[simp] theorem map_size1 (f : α → α) (m : GslMatrix α) : (m.map f).size1 = m.size1 := rfl
@[simp] theorem map_size2 (f : α → α) (m : GslMatrix α) : (m.map f).size2 = m.size2 := rfl

section Zero

variable [Zero α]

/-- Modelled from GSL: `gsl_matrix_get(m, i, j)`. -/
def get (m : GslMatrix α) (i j : Nat) : α :=
  if h : i < m.size1 ∧ j < m.size2 then m.data ⟨i, h.1⟩ ⟨j, h.2⟩ else 0

/-- Modelled from GSL: `gsl_matrix_calloc(n1, n2)`, every entry zero; GSL
refuses a zero dimension. -/
def calloc (n1 n2 : Nat) : Option (GslMatrix α) :=
  if h : 0 < n1 ∧ 0 < n2 then some (ofFn n1 n2 h.1 h.2 fun _ _ => 0) else none

theorem get_of_not_lt (m : GslMatrix α) {i j : Nat} (h : ¬ (i < m.size1 ∧ j < m.size2)) :
    m.get i j = 0 := dif_neg h

@[simp] theorem get_ofFn (n1 n2 : Nat) (h1 : 0 < n1) (h2 : 0 < n2) (f : Nat → Nat → α) (i j : Nat) :
    (ofFn n1 n2 h1 h2 f).get i j = if i < n1 ∧ j < n2 then f i j else 0 := by
  unfold get; by_cases h : i < n1 ∧ j < n2 <;> simp [h, ofFn]

theorem get_map (f : α → α) (m : GslMatrix α) {i j : Nat} (hi : i < m.size1) (hj : j < m.size2) :
    (m.map f).get i j = f (m.get i j) := by
  simp [get, map, hi, hj]

theorem get_set (m : GslMatrix α) (i j : Nat) (x : α) (a b : Nat) :
    (m.set i j x).get a b = if a = i ∧ b = j ∧ a < m.size1 ∧ b < m.size2 then x else m.get a b := by
  unfold get set
  dsimp only
  by_cases h : a < m.size1 ∧ b < m.size2
  · rw [dif_pos h, dif_pos h]
    by_cases e : a = i ∧ b = j
    · rw [if_pos e, if_pos ⟨e.1, e.2, h⟩]
    · rw [if_neg e, if_neg fun h' => e ⟨h'.1, h'.2.1⟩]
  · rw [dif_neg h, if_neg fun h' => h h'.2.2, dif_neg h]

/-- Two matrices of the same dimensions with the same entries are equal. -/
theorem ext_get {m n : GslMatrix α} (h1 : m.size1 = n.size1) (h2 : m.size2 = n.size2)
    (h : ∀ i j, i < m.size1 → j < m.size2 → m.get i j = n.get i j) : m = n := by
  obtain ⟨s1, s2, d, p1, p2⟩ := m
  obtain ⟨t1, t2, e, q1, q2⟩ := n
  dsimp only at h1 h2; subst h1 h2
  congr
  funext i j
  simpa [get, i.2, j.2] using h i j i.2 j.2

theorem calloc_of_pos {n1 n2 : Nat} (h1 : 0 < n1) (h2 : 0 < n2) :
    calloc n1 n2 = some (ofFn n1 n2 h1 h2 fun _ _ => (0 : α)) := dif_pos ⟨h1, h2⟩

/-- Modelled from GSL: `gsl_matrix_const_submatrix(m, i, 0, 1, m->size2)`,
row `i` as a `1 × size2` matrix; GSL's range check refuses `i ≥ size1`. -/
def row (m : GslMatrix α) (i : Nat) : Option (GslMatrix α) :=
  if i < m.size1 then some (ofFn 1 m.size2 Nat.one_pos m.size2_pos fun _ j => m.get i j) else none

/-- Modelled from GSL: `gsl_matrix_transpose_memcpy` into a fresh
`size2 × size1` matrix. -/
def transpose (m : GslMatrix α) : GslMatrix α :=
  ofFn m.size2 m.size1 m.size2_pos m.size1_pos fun i j => m.get j i

theorem row_of_lt (m : GslMatrix α) {i : Nat} (hi : i < m.size1) :
    m.row i = some (ofFn 1 m.size2 Nat.one_pos m.size2_pos fun _ j => m.get i j) := if_pos hi

end Zero

/-- Modelled from GSL: `gsl_matrix_sub(a, b)`, `a - b`; GSL refuses
matrices of different dimensions. -/
def sub [Zero α] [Sub α] (a b : GslMatrix α) : Option (GslMatrix α) :=
  if a.size1 = b.size1 ∧ a.size2 = b.size2 then
    some (ofFn a.size1 a.size2 a.size1_pos a.size2_pos fun i j => a.get i j - b.get i j)
  else none

/-- Modelled from GSL: `gsl_matrix_scale(a, x)`. -/
def scale [Mul α] (a : GslMatrix α) (x : α) : GslMatrix α := a.map (· * x)

/-- Modelled from GSL: `gsl_matrix_add_constant(a, x)`. -/
def addConstant [Add α] (a : GslMatrix α) (x : α) : GslMatrix α := a.map (· + x)

/-- Modelled from GSL: `gsl_matrix_set_col(m, j, v)` with `v` of `size1`
entries, entry `i` of `v` being `v i`; GSL refuses a column out of range. -/
def setCol (m : GslMatrix α) (j : Nat) (v : Nat → α) : Option (GslMatrix α) :=
  if j < m.size2 then some { m with data := fun a b => if b.val = j then v a else m.data a b } else none

/-- Modelled from GSL: `gsl_matrix_set_identity(m)`. -/
def setIdentity [Zero α] [One α] (m : GslMatrix α) : GslMatrix α :=
  { m with data := fun i j => if i.val = j.val then 1 else 0 }

@[simp] theorem scale_size1 [Mul α] (a : GslMatrix α) (x : α) : (a.scale x).size1 = a.size1 := rfl
@[simp] theorem scale_size2 [Mul α] (a : GslMatrix α) (x : α) : (a.scale x).size2 = a.size2 := rfl
@[simp] theorem addConstant_size1 [Add α] (a : GslMatrix α) (x : α) :
    (a.addConstant x).size1 = a.size1 := rfl
@[simp] theorem addConstant_size2 [Add α] (a : GslMatrix α) (x : α) :
    (a.addConstant x).size2 = a.size2 := rfl
@[simp] theorem setIdentity_size1 [Zero α] [One α] (m : GslMatrix α) :
    m.setIdentity.size1 = m.size1 := rfl
@[simp] theorem setIdentity_size2 [Zero α] [One α] (m : GslMatrix α) :
    m.setIdentity.size2 = m.size2 := rfl

theorem get_scale [Zero α] [Mul α] (a : GslMatrix α) (x : α) {i j : Nat} (hi : i < a.size1)
    (hj : j < a.size2) : (a.scale x).get i j = a.get i j * x :=
  get_map _ a hi hj

theorem get_addConstant [Zero α] [Add α] (a : GslMatrix α) (x : α) {i j : Nat} (hi : i < a.size1)
    (hj : j < a.size2) : (a.addConstant x).get i j = a.get i j + x :=
  get_map _ a hi hj

theorem setCol_of_lt [Zero α] {m : GslMatrix α} {j : Nat} (hj : j < m.size2) (v : Nat → α) :
    ∃ m', m.setCol j v = some m' ∧ m'.size1 = m.size1 ∧ m'.size2 = m.size2 ∧
      ∀ a < m.size1, ∀ b < m.size2, m'.get a b = if b = j then v a else m.get a b :=
  ⟨_, if_pos hj, rfl, rfl, fun a ha b hb => by rcases eq_or_ne b j with rfl | e <;> simp [get, ha, hb, *]⟩

theorem addConstant_zero [AddZeroClass α] (a : GslMatrix α) : a.addConstant 0 = a := by
  cases a
  simp [addConstant, map]

theorem scale_one [MulOneClass α] (a : GslMatrix α) : a.scale 1 = a := by
  cases a
  simp [scale, map]

theorem get_setIdentity [Zero α] [One α] (m : GslMatrix α) {i j : Nat} (hi : i < m.size1)
    (hj : j < m.size2) : m.setIdentity.get i j = if i = j then 1 else 0 := by
  simp [get, setIdentity, hi, hj]

/-! ## Loops of `gsl_matrix_set` -/

section Loops

variable (pos : Nat → Nat × Nat) (val : Nat → α)

/-- The matrix after writing `val n` at `pos n` for each `n` of `l`, in order. -/
def setAll (init : GslMatrix α) (l : List Nat) : GslMatrix α :=
  l.foldl (fun m n => m.set (pos n).1 (pos n).2 (val n)) init

@[simp] theorem setAll_size1 (init : GslMatrix α) (l : List Nat) :
    (setAll pos val init l).size1 = init.size1 := by
  induction l generalizing init with
  | nil => rfl
  | cons n l ih => exact ih _

@[simp] theorem setAll_size2 (init : GslMatrix α) (l : List Nat) :
    (setAll pos val init l).size2 = init.size2 := by
  induction l generalizing init with
  | nil => rfl
  | cons n l ih => exact ih _

theorem setAll_concat (init : GslMatrix α) (l : List Nat) (n : Nat) :
    setAll pos val init (l ++ [n]) = (setAll pos val init l).set (pos n).1 (pos n).2 (val n) := by
  simp [setAll, List.foldl_append]

variable [Zero α]

/-- A cell no write of the loop names keeps its value. -/
theorem get_foldl_set_frame (init : GslMatrix α) (l : List Nat) {a b : Nat}
    (h : ∀ n ∈ l, pos n ≠ (a, b)) : (setAll pos val init l).get a b = init.get a b := by
  induction l generalizing init with
  | nil => rfl
  | cons n l ih =>
    rw [setAll, List.foldl_cons, ← setAll, ih _ fun k hk => h k (List.mem_cons_of_mem _ hk), get_set,
      if_neg]
    rintro ⟨rfl, rfl, -⟩
    exact h n (List.mem_cons_self _ _) rfl

/-- After the writes for `n < N`, a written cell in range that no other
write names holds its value. -/
theorem get_foldl_set (init : GslMatrix α) {N k : Nat} (hk : k < N)
    (hinj : ∀ n < N, pos n = pos k → n = k)
    (hin : (pos k).1 < init.size1 ∧ (pos k).2 < init.size2) :
    (setAll pos val init (List.range N)).get (pos k).1 (pos k).2 = val k := by
  induction N with
  | zero => exact absurd hk (Nat.not_lt_zero k)
  | succ N ih =>
    rw [List.range_succ, setAll_concat, get_set, setAll_size1, setAll_size2]
    by_cases e : k = N
    · subst e; simp [hin]
    · have hne : pos N ≠ pos k := fun h => e (hinj N (Nat.lt_succ_self N) h).symm
      rw [if_neg fun h => hne (Prod.ext h.1.symm h.2.1.symm)]
      exact ih (by omega) fun n hn => hinj n (by omega)

end Loops

/-- Two nested loops over `i < a`, `j < b` are one loop over `n < a * b`. -/
theorem foldl_range_mul {β : Type} (a b : Nat) (g : β → Nat → Nat → β) (init : β) :
    (List.range a).foldl (fun acc i => (List.range b).foldl (fun acc j => g acc i j) acc) init =
      (List.range (a * b)).foldl (fun acc n => g acc (n / b) (n % b)) init := by
  induction a with
  | zero => simp
  | succ a ih =>
    rw [List.range_succ, List.foldl_append, ih, Nat.succ_mul, List.range_add, List.foldl_append,
      List.foldl_map, List.foldl_cons, List.foldl_nil]
    refine List.foldl_ext _ _ _ fun acc j hj => ?_
    have hj : j < b := List.mem_range.1 hj
    have hb : 0 < b := by omega
    rw [Nat.mul_comm a b, Nat.mul_add_div hb, Nat.div_eq_of_lt hj, Nat.add_zero, Nat.mul_add_mod,
      Nat.mod_eq_of_lt hj]

section Dgemm

variable [Mul α] [AddCommMonoid α]

/-- Modelled from GSL: `gsl_blas_dgemm(CblasNoTrans, CblasNoTrans, 1.0, A, B,
0.0, C)` into a freshly allocated `C` of `A.size1 × B.size2`, that is
`C = A B`; GSL refuses operands whose inner dimensions differ. -/
def dgemm (A B : GslMatrix α) : Option (GslMatrix α) :=
  if h : A.size2 = B.size1 then
    some ⟨A.size1, B.size2, A.data * Matrix.of fun k j => B.data (Fin.cast h k) j, A.size1_pos,
      B.size2_pos⟩
  else none

theorem dgemm_eq_some {A B C : GslMatrix α} (h : dgemm A B = some C) :
    A.size2 = B.size1 ∧ C.size1 = A.size1 ∧ C.size2 = B.size2 := by
  unfold dgemm at h
  split at h
  · cases h; exact ⟨‹_›, rfl, rfl⟩
  · cases h

theorem dgemm_of_eq {A B : GslMatrix α} (h : A.size2 = B.size1) :
    ∃ C, dgemm A B = some C ∧ C.size1 = A.size1 ∧ C.size2 = B.size2 :=
  ⟨_, dif_pos h, rfl, rfl⟩

/-- An entry of a product is the sum over the shared dimension. -/
theorem get_dgemm {A B C : GslMatrix α} (h : dgemm A B = some C) {i k : Nat} (hi : i < A.size1)
    (hk : k < B.size2) : C.get i k = ∑ j in Finset.range A.size2, A.get i j * B.get j k := by
  unfold dgemm at h
  split at h
  · rename_i hAB
    cases h
    simp only [get, dif_pos (And.intro hi hk), Matrix.mul_apply]
    rw [← Fin.sum_univ_eq_sum_range]
    refine Finset.sum_congr rfl fun j _ => ?_
    rw [dif_pos ⟨hi, j.2⟩, dif_pos ⟨hAB ▸ j.2, hk⟩]
    rfl
  · cases h

end Dgemm

end GslMatrix

end WasmContracts
