import WasmContracts.L2Network.Training
import WasmContracts.L2Network.Random
import WasmContracts.L1Data.Outcome
/-!
# Random initial weights: `initMatrix`, `initNetwork`, and `train` whole

`train` (MatrixNNUtils.c:351-394) starts from `initNetwork` (lines 160-181),
which allocates layer `i` as `initMatrix(dimensions[i + 1], dimensions[i])`
(lines 131-158): a `rows × (cols + 1)` matrix whose first `cols` columns are
filled in row-major order with `nextDoubleRange(&r, -l, l)`, `l = sqrt(3 / cols)`,
and whose last column, the biases, is set to zero.

`initMatrix` seeds its generator with `initSeed(0)` on every call. Every layer
therefore draws from the start of one and the same stream: cell `(i, j)` of a
layer with `cols` inputs is draw number `i * cols + j` (`initDraw`), whatever
the layer and its number of rows, and two layers with the same number of
inputs agree on every row both have.

`initMatrix` never returns `NULL`: its `NULL` checks follow GSL calls that
abort on `rows = 0` before they could fail in another way. So `initNetwork`
ends in three ways (`Outcome`): `NULL` for fewer than two dimensions (line
162), an abort for a later dimension of 0, and the layers otherwise. `train`
does not check what `initNetwork` returns. On its `NULL` the loops still run:
every sample's rows are taken, `backpropagation` returns `NULL`, and the
update reads `jacs[j]` for every `j < nbDimensions - 1`, a `size_t` that
wraps when there is no dimension at all; with one dimension nothing is read
and `train` returns `NULL`.

## Hypotheses

`sqrt` of math.h is a parameter, as in `Network.Normalize`. Only the bound on
the weights uses a property of it: on nonnegative elements it is a
nonnegative square root.

Results:
* `initMatrix_eq`: the matrix `initMatrix` returns, cell by cell.
* `initMatrix_uniform`: its weights lie in `[-l, l)` with `l * l = 3 / cols`
  and its biases are zero.
* `initNetwork_draws`: every layer of `initNetwork` restarts the same stream.
* `initNetwork_layers`: `initNetwork` returns `NULL` exactly on fewer than
  two dimensions, aborts exactly on a later dimension of 0, and otherwise
  returns layers of the shapes `dimensions[i + 1] × (dimensions[i] + 1)`,
  which compose.
* `train_of_dimensions`: `train` succeeds on every training set whose widths
  are the first and the last dimension and whose outputs have a row for every
  sample.
-/
namespace WasmContracts

namespace Network

open GslMatrix Random

/-- The generator after one draw of `nextDouble`: two calls of `nextBits`. -/
def drawNext (r : Random) : Random := (nextBits (nextBits r 26).2 27).2

/-- The generator of `initMatrix`, `initSeed(0)`, after `k` draws. -/
def afterDraws (k : Nat) : Random := drawNext^[k] (initSeed 0)

variable {α : Type} [LinearOrderedField α]

/-- Draw number `k` of `initMatrix`'s stream, scaled into `[-l, l)`. -/
def initDraw (l : α) (k : Nat) : α := (nextDoubleRange (afterDraws k) (-l) l).1

/-- mirrors MatrixNNUtils.c:131-158 with math.h's `sqrt` as a parameter;
`none` is the abort of `gsl_matrix_calloc` on `rows = 0`, before
`gsl_vector_calloc(rows)` (line 138) could abort on it too. The `double`
quotient `3.0 / cols` is `+∞` for `cols = 0`, where no draw reads `l`. -/
def initMatrix (sqrt : α → α) (rows cols : Nat) : Option (GslMatrix α) := do
  let out ← calloc rows (cols + 1)
  let l := sqrt (3 / (cols : α))
  let filled := ((List.range rows).foldl (fun acc i =>
    (List.range cols).foldl (fun acc j =>
      let d := nextDoubleRange acc.2 (-l) l
      (acc.1.set i j d.1, d.2)) acc) (out, initSeed 0)).1
  filled.setCol cols fun _ => 0

/-- mirrors MatrixNNUtils.c:160-181: `NULL` for fewer than two dimensions,
else layer `i` is `initMatrix(dimensions[i + 1], dimensions[i])`, whose abort
ends the process. The `calloc` of the array is taken to succeed. -/
def initNetwork (sqrt : α → α) (dimensions : List Nat) : Outcome (List (GslMatrix α)) :=
  if dimensions.length ≤ 1 then .null
  else Outcome.orStop ((dimensions.zip dimensions.tail).mapM fun p => initMatrix sqrt p.2 p.1)

/-- The loops of MatrixNNUtils.c:361-392 on the `NULL` that `initNetwork`
returns; `none` ends the process. Each sample's rows are taken as on
weights, `backpropagation` returns `NULL` at `REQUIRE_NON_NULL(allW)`, and
line 386 reads `jacs[j]` for every `j < nbLayers`, the `size_t`
`nbDimensions - 1`. -/
def trainNull (trainInput trainOutput : GslMatrix α) (nbDimensions numEpoch : Nat) : Option Unit :=
  let nbLayers := (nbDimensions + (2 ^ 64 - 1)) % 2 ^ 64
  (List.range numEpoch).foldlM (fun _ _ =>
    (List.range trainInput.size1).foldlM (fun _ r => do
      let _ ← rowColumn trainInput r
      let _ ← rowColumn trainOutput r
      if nbLayers = 0 then pure () else none) ()) ()

/-- mirrors MatrixNNUtils.c:351-394: `initNetwork`, then the epoch and sample
loops on its layers (`trainLoop`) or on its `NULL` (`trainNull`). -/
def train (sqrt : α → α) (trainInput trainOutput : GslMatrix α) (dimensions : List Nat)
    (numEpoch : Nat) (learningRate : α) : Outcome (List (GslMatrix α)) :=
  match initNetwork sqrt dimensions with
  | .ok allW => Outcome.orStop (trainLoop trainInput trainOutput numEpoch learningRate allW)
  | .null =>
    match trainNull trainInput trainOutput dimensions.length numEpoch with
    | some () => .null
    | none => .stop
  | .stop => .stop

/-! ## One layer -/

theorem nextDoubleRange_snd (r : Random) (low high : α) :
    (nextDoubleRange r low high).2 = drawNext r := rfl

/-- The two loops of `initMatrix` as one loop over `n < rows * cols`: after
`N` cells the matrix holds draws `0`, ..., `N - 1` and the generator has made
`N` draws. -/
theorem initMatrix_loop (l : α) (out : GslMatrix α) (cols : Nat) (N : Nat) :
    (List.range N).foldl (fun acc n =>
      let d := nextDoubleRange acc.2 (-l) l
      (acc.1.set (n / cols) (n % cols) d.1, d.2)) (out, initSeed 0) =
      (setAll (fun n => (n / cols, n % cols)) (initDraw l) out (List.range N), afterDraws N) := by
  induction N with
  | zero => rfl
  | succ N ih =>
    rw [List.range_succ, List.foldl_append, ih, List.foldl_cons, List.foldl_nil, setAll_concat]
    exact Prod.ext rfl (Function.iterate_succ_apply' drawNext N (initSeed 0)).symm

theorem initMatrix_zero (sqrt : α → α) (cols : Nat) : initMatrix sqrt 0 cols = none := rfl

/-- The loops of `initMatrix` write the draws of its stream in row-major order. -/
theorem initMatrix_filled (l : α) (out : GslMatrix α) (rows cols : Nat) :
    ((List.range rows).foldl (fun acc i => (List.range cols).foldl (fun acc j =>
      let d := nextDoubleRange acc.2 (-l) l
      (acc.1.set i j d.1, d.2)) acc) (out, initSeed 0)).1 =
      setAll (fun n => (n / cols, n % cols)) (initDraw l) out (List.range (rows * cols)) := by
  rw [foldl_range_mul, initMatrix_loop]

theorem initMatrix_of_pos (sqrt : α → α) {rows : Nat} (hrows : 0 < rows) (cols : Nat) :
    initMatrix sqrt rows cols =
      (setAll (fun n => (n / cols, n % cols)) (initDraw (sqrt (3 / (cols : α))))
        (ofFn rows (cols + 1) hrows cols.succ_pos fun _ _ => 0) (List.range (rows * cols))).setCol cols
        fun _ => 0 := by
  rw [← initMatrix_filled, initMatrix, calloc_of_pos hrows cols.succ_pos]
  rfl

theorem initMatrix_eq (sqrt : α → α) {rows : Nat} (hrows : 0 < rows) (cols : Nat) :
    initMatrix sqrt rows cols = some (ofFn rows (cols + 1) hrows cols.succ_pos fun i j =>
      if j < cols then initDraw (sqrt (3 / (cols : α))) (i * cols + j) else 0) := by
  set zero : GslMatrix α := ofFn rows (cols + 1) hrows cols.succ_pos fun _ _ => 0
  set filled := setAll (fun n => (n / cols, n % cols)) (initDraw (sqrt (3 / (cols : α)))) zero
    (List.range (rows * cols))
  have hs1 : filled.size1 = rows := by simp [filled, zero]
  have hs2 : filled.size2 = cols + 1 := by simp [filled, zero]
  obtain ⟨m', hm', h1, h2, hget⟩ := setCol_of_lt (m := filled) (j := cols) (by omega) fun _ => 0
  rw [initMatrix_of_pos sqrt hrows cols, hm']
  refine congrArg some (ext_get (h1.trans hs1) (h2.trans hs2) fun i j hi hj => ?_)
  rw [h1, hs1] at hi
  rw [h2, hs2] at hj
  rw [hget i (by omega) j (by omega), get_ofFn, if_pos (show i < rows ∧ j < cols + 1 from ⟨hi, hj⟩)]
  by_cases hjc : j = cols
  · rw [if_pos hjc, if_neg (show ¬ j < cols by omega)]
  · have hlt : j < cols := by omega
    rw [if_neg hjc, if_pos hlt]
    exact get_setAll_rowMajor _ zero (show rows ≤ zero.size1 from le_rfl) (Nat.le_succ cols) hi hlt

theorem initMatrix_some (sqrt : α → α) {rows : Nat} (hrows : 0 < rows) (cols : Nat) :
    ∃ W, initMatrix sqrt rows cols = some W ∧ W.size1 = rows ∧ W.size2 = cols + 1 :=
  ⟨_, initMatrix_eq sqrt hrows cols, rfl, rfl⟩

theorem initMatrix_shape {sqrt : α → α} {rows cols : Nat} {W : GslMatrix α}
    (h : initMatrix sqrt rows cols = some W) : 0 < rows ∧ W.size1 = rows ∧ W.size2 = cols + 1 := by
  rcases Nat.eq_zero_or_pos rows with rfl | hrows
  · cases h
  · rw [initMatrix_eq sqrt hrows cols, Option.some.injEq] at h
    subst h
    exact ⟨hrows, rfl, rfl⟩

/-- With a nonnegative square root, `initMatrix` draws every weight of a
layer with `cols > 0` inputs uniformly from `[-l, l)`, `l * l = 3 / cols`, and
sets every bias to zero. -/
theorem initMatrix_uniform (sqrt : α → α) (hsqrt : ∀ x, 0 ≤ x → 0 ≤ sqrt x ∧ sqrt x * sqrt x = x)
    (rows cols : Nat) (hrows : 0 < rows) (hcols : 0 < cols) :
    ∃ W, initMatrix sqrt rows cols = some W ∧ W.size1 = rows ∧ W.size2 = cols + 1 ∧
      (∀ i < rows, W.get i cols = 0) ∧
      ∃ l : α, 0 < l ∧ l * l = 3 / cols ∧ ∀ i < rows, ∀ j < cols, -l ≤ W.get i j ∧ W.get i j < l := by
  obtain ⟨hl0, hll⟩ := hsqrt (3 / (cols : α)) (div_nonneg zero_le_three (Nat.cast_nonneg cols))
  have hl : 0 < sqrt (3 / (cols : α)) := lt_of_le_of_ne hl0 fun h0 => by
    rw [← h0, zero_mul] at hll
    exact (div_pos zero_lt_three (Nat.cast_pos.2 hcols)).ne hll
  refine ⟨_, initMatrix_eq sqrt hrows cols, rfl, rfl, fun i hi => ?_, _, hl, hll, fun i hi j hj => ?_⟩
  · rw [get_ofFn, if_pos ⟨hi, Nat.lt_succ_self cols⟩, if_neg (Nat.lt_irrefl cols)]
  · rw [get_ofFn, if_pos ⟨hi, Nat.lt_succ_of_lt hj⟩, if_pos hj]
    exact nextDoubleRange_mem _ (neg_lt_self hl)

theorem initMatrix_two_by_three :
    ∃ W, initMatrix Real.sqrt 2 3 = some W ∧ W.size1 = 2 ∧ W.size2 = 3 + 1 ∧
      (∀ i < 2, W.get i 3 = 0) ∧
      ∃ l : ℝ, 0 < l ∧ l * l = 3 / ((3 : ℕ) : ℝ) ∧ ∀ i < 2, ∀ j < 3, -l ≤ W.get i j ∧ W.get i j < l :=
  initMatrix_uniform Real.sqrt (fun x hx => ⟨Real.sqrt_nonneg x, Real.mul_self_sqrt hx⟩) 2 3
    (by decide) (by decide)

/-! ## The network -/

theorem initNetwork_cons (sqrt : α → α) (d : Nat) {ds : List Nat} (hds : ds ≠ []) :
    initNetwork sqrt (d :: ds) = Outcome.orStop (((d :: ds).zip ds).mapM fun p => initMatrix sqrt p.2 p.1) := by
  have hlen : ¬ (d :: ds).length ≤ 1 := by
    cases ds with
    | nil => exact absurd rfl hds
    | cons e rest => simp
  rw [initNetwork, if_neg hlen]
  rfl

/-- Layers from positive dimensions: each `initMatrix` succeeds, and the
layers have the shapes `dimensions[i + 1] × (dimensions[i] + 1)`. -/
theorem mapM_initMatrix (sqrt : α → α) :
    ∀ (d : Nat) (ds : List Nat), (∀ e ∈ ds, 0 < e) →
      ∃ allW, ((d :: ds).zip ds).mapM (fun p => initMatrix sqrt p.2 p.1) = some allW ∧
        allW.map shape = (ds.zip (d :: ds)).map (fun p => (p.1, p.2 + 1)) ∧
        Composable d allW ((d :: ds).getLast (List.cons_ne_nil d ds))
  | d, [], _ => ⟨[], rfl, rfl, rfl⟩
  | d, e :: rest, h => by
    obtain ⟨allW, hm, hs, hc⟩ := mapM_initMatrix sqrt e rest fun x hx => h x (List.mem_cons_of_mem _ hx)
    obtain ⟨W, hW, h1, h2⟩ := initMatrix_some sqrt (h e (List.mem_cons_self _ _)) d
    refine ⟨W :: allW, ?_, by simp [hs, shape, h1, h2], h2, ?_⟩
    · rw [List.zip_cons_cons, List.mapM_cons, hW, hm]
      rfl
    · rw [h1, List.getLast_cons (List.cons_ne_nil e rest)]
      exact hc

theorem mapM_initMatrix_none (sqrt : α → α) :
    ∀ (d : Nat) (ds : List Nat), 0 ∈ ds → ((d :: ds).zip ds).mapM (fun p => initMatrix sqrt p.2 p.1) = none
  | d, e :: rest, h => by
    rw [List.zip_cons_cons, List.mapM_cons]
    rcases List.mem_cons.1 h with rfl | h'
    · rw [initMatrix_zero]; rfl
    · rw [mapM_initMatrix_none sqrt e rest h']
      cases initMatrix sqrt e d <;> rfl

theorem mapM_initMatrix_eq_none (sqrt : α → α) (d : Nat) (ds : List Nat) :
    ((d :: ds).zip ds).mapM (fun p => initMatrix sqrt p.2 p.1) = none ↔ 0 ∈ ds := by
  refine ⟨fun hnone => ?_, mapM_initMatrix_none sqrt d ds⟩
  by_contra hz
  obtain ⟨allW, hm, -⟩ := mapM_initMatrix sqrt d ds fun x hx => Nat.pos_of_ne_zero fun h0 => hz (h0 ▸ hx)
  rw [hm] at hnone
  cases hnone

theorem mem_of_mapM {β γ : Type} {f : β → Option γ} :
    ∀ {l : List β} {l' : List γ}, l.mapM f = some l' → ∀ y ∈ l', ∃ x ∈ l, f x = some y
  | [], l', h, y, hy => by cases h; cases hy
  | x :: l, l', h, y, hy => by
    rw [List.mapM_cons] at h
    obtain ⟨a, ha, h⟩ := Option.bind_eq_some.1 h
    obtain ⟨as, has, h⟩ := Option.bind_eq_some.1 h
    cases h
    rcases List.mem_cons.1 hy with rfl | hy
    · exact ⟨x, List.mem_cons_self _ _, ha⟩
    · obtain ⟨x', hx', e⟩ := mem_of_mapM has y hy
      exact ⟨x', List.mem_cons_of_mem _ hx', e⟩

/-- Every layer `initNetwork` returns restarts the stream of `initSeed(0)`:
weight `(i, j)` of a layer with `cols` inputs is draw `i * cols + j`, so two
layers with the same number of inputs agree on every row both have. -/
theorem initNetwork_draws (sqrt : α → α) (dimensions : List Nat) (allW : List (GslMatrix α))
    (h : initNetwork sqrt dimensions = .ok allW) :
    (∀ W ∈ allW, ∀ i < W.size1, ∀ j < W.size2 - 1,
      W.get i j = initDraw (sqrt (3 / ((W.size2 - 1 : Nat) : α))) (i * (W.size2 - 1) + j)) ∧
    ∀ W ∈ allW, ∀ W' ∈ allW, W.size2 = W'.size2 →
      ∀ i < min W.size1 W'.size1, ∀ j < W.size2, W.get i j = W'.get i j := by
  have hlayer : ∀ W ∈ allW, ∃ rows cols, ∃ hrows : 0 < rows, W = ofFn rows (cols + 1) hrows cols.succ_pos
      fun i j => if j < cols then initDraw (sqrt (3 / (cols : α))) (i * cols + j) else 0 := by
    intro W hW
    unfold initNetwork at h
    split at h
    · cases h
    · obtain ⟨p, -, hp⟩ := mem_of_mapM (Outcome.orStop_eq_ok.1 h) W hW
      obtain ⟨hrows, -⟩ := initMatrix_shape hp
      rw [initMatrix_eq sqrt hrows, Option.some.injEq] at hp
      exact ⟨p.2, p.1, hrows, hp.symm⟩
  refine ⟨?_, ?_⟩
  · intro W hW i hi j hj
    obtain ⟨rows, cols, hrows, rfl⟩ := hlayer W hW
    simp only [ofFn_size1, ofFn_size2, Nat.add_sub_cancel] at hi hj ⊢
    simp only [get_ofFn, if_pos (And.intro hi (Nat.lt_succ_of_lt hj)), if_pos hj]
  · intro W hW W' hW' hs i hi j hj
    obtain ⟨rows, cols, hrows, rfl⟩ := hlayer W hW
    obtain ⟨rows', cols', hrows', rfl⟩ := hlayer W' hW'
    simp only [ofFn_size1, ofFn_size2, Nat.add_right_cancel_iff, lt_min_iff] at hs hi hj
    subst hs
    simp only [get_ofFn, if_pos (And.intro hi.1 hj), if_pos (And.intro hi.2 hj)]

theorem initNetwork_repeated_layers :
    ∃ allW : List (GslMatrix ℝ), initNetwork Real.sqrt [2, 3, 2, 3] = .ok allW ∧
      ∀ W ∈ allW, ∀ W' ∈ allW, W.size2 = W'.size2 →
        ∀ i < min W.size1 W'.size1, ∀ j < W.size2, W.get i j = W'.get i j :=
  let ⟨allW, h, _⟩ := mapM_initMatrix Real.sqrt 2 [3, 2, 3] (by decide)
  have h' : initNetwork Real.sqrt [2, 3, 2, 3] = .ok allW := by
    rw [initNetwork_cons Real.sqrt 2 (List.cons_ne_nil 3 [2, 3]), h, Outcome.orStop_some]
  ⟨allW, h', (initNetwork_draws Real.sqrt _ allW h').2⟩

/-- `initNetwork` returns `NULL` exactly on fewer than two dimensions and
aborts exactly on a later dimension of 0; on positive later dimensions it
returns one layer of `dimensions[i + 1] × (dimensions[i] + 1)` for each pair
of neighbours, and the layers compose from the first dimension to the last. -/
theorem initNetwork_layers (sqrt : α → α) (dimensions : List Nat) :
    (initNetwork sqrt dimensions = .null ↔ dimensions.length ≤ 1) ∧
    (initNetwork sqrt dimensions = .stop ↔ 2 ≤ dimensions.length ∧ 0 ∈ dimensions.tail) ∧
    ∀ (d : Nat) (ds : List Nat), ds ≠ [] → (∀ e ∈ ds, 0 < e) →
      ∃ allW, initNetwork sqrt (d :: ds) = .ok allW ∧
        allW.map shape = (ds.zip (d :: ds)).map (fun p => (p.1, p.2 + 1)) ∧
        Composable d allW ((d :: ds).getLast (List.cons_ne_nil d ds)) := by
  refine ⟨?null, ?stop, fun d ds hds hpos => ?_⟩
  case null =>
    unfold initNetwork
    split_ifs with h
    · exact iff_of_true rfl h
    · exact iff_of_false (Outcome.orStop_ne_null _) h
  case stop =>
    match dimensions with
    | [] => simp [initNetwork]
    | [d] => simp [initNetwork]
    | d :: e :: rest =>
      rw [initNetwork_cons sqrt d (List.cons_ne_nil e rest), Outcome.orStop_eq_stop, List.tail_cons,
        mapM_initMatrix_eq_none, and_iff_right (by simp only [List.length_cons]; omega)]
  · obtain ⟨allW, hm, hs, hc⟩ := mapM_initMatrix sqrt d ds hpos
    exact ⟨allW, by rw [initNetwork_cons sqrt d hds, hm, Outcome.orStop_some], hs, hc⟩

theorem initNetwork_two_three_two :
    initNetwork (α := ℝ) Real.sqrt [2, 0, 2] = .stop ∧
      ∃ allW, initNetwork Real.sqrt [2, 3, 2] = .ok allW ∧ allW.map shape = [(3, 3), (2, 4)] :=
  ⟨(initNetwork_layers Real.sqrt [2, 0, 2]).2.1.2 ⟨by decide, by decide⟩,
    let ⟨allW, h, hs, _⟩ := (initNetwork_layers Real.sqrt [2, 3, 2]).2.2 2 [3, 2] (by decide) (by decide)
    ⟨allW, h, hs.trans rfl⟩⟩

/-! ## `train` -/

/-- `train` succeeds on every training set whose input width is the first
dimension, whose output width is the last and whose outputs have a row for
every sample, when every later dimension is positive, for every number of
epochs and learning rate; its weights have the shapes `initNetwork`
allocates, and so compose. -/
theorem train_of_dimensions (sqrt : α → α) (trainInput trainOutput : GslMatrix α) (d : Nat)
    (ds : List Nat) (hds : ds ≠ []) (hpos : ∀ e ∈ ds, 0 < e) (hin : trainInput.size2 = d)
    (hout : trainOutput.size2 = (d :: ds).getLast (List.cons_ne_nil d ds))
    (hrows : trainInput.size1 ≤ trainOutput.size1) (numEpoch : Nat) (learningRate : α) :
    ∃ allW, train sqrt trainInput trainOutput (d :: ds) numEpoch learningRate = .ok allW ∧
      allW.map shape = (ds.zip (d :: ds)).map (fun p => (p.1, p.2 + 1)) ∧
      Composable d allW ((d :: ds).getLast (List.cons_ne_nil d ds)) := by
  obtain ⟨W₀, hW₀, hs, hc⟩ := mapM_initMatrix sqrt d ds hpos
  have hne : W₀ ≠ [] := by
    rintro rfl
    cases ds with
    | nil => exact hds rfl
    | cons e rest => cases hs
  obtain ⟨allW, hloop, hs'⟩ := trainLoop_keeps_shapes trainInput trainOutput numEpoch learningRate W₀ hne
    (by rw [hin, hout]; exact hc) hrows
  refine ⟨allW, ?_, hs'.trans hs, hc.of_shapes hs'⟩
  rw [train, initNetwork_cons sqrt d hds, hW₀, Outcome.orStop_some]
  simp only [hloop, Outcome.orStop_some]

end Network

end WasmContracts
