import WasmContracts.L2Network.Gradient
import Mathlib.Algebra.Order.Field.Rat
/-!
# The training loop of `train`

`train` (MatrixNNUtils.c:351-394) takes its initial weights from
`initNetwork` and runs `numEpoch` epochs of stochastic gradient descent: for
every sample `r`, row `r` of the inputs and of the outputs, each made a
column, goes through `backpropagation`, and every layer's weights lose
`learningRate` times their gradient. The random initial weights are left out:
`trainLoop` is `train` from the weights `initNetwork` returned.

Two things end the process inside the loops. Row `r` of each matrix is
taken by `gsl_matrix_const_submatrix`, whose range check aborts when
`trainOutput` has fewer rows than `trainInput`. And the loop does not check
what `backpropagation` returns (line 380): a `NULL` is dereferenced at line
386. The `return NULL` branches of lines 378-382 and 384-388 follow GSL calls
that abort before they could return an error. `trainLoop` returns `none` for
either end. Neither comes when `trainOutput` has a row for every sample and
the weights compose from the input's size to the output's (`Composable`, the
shapes `initNetwork` allocates): `backpropagation` then returns a gradient of
each layer's shape, the update keeps every shape, and every sample of every
epoch goes through.

Results:
* `backpropagation_composable`: on composing weights and samples of the
  matching sizes, `backpropagation` succeeds with a gradient of each layer's
  shape.
* `trainLoop_composable`: on such weights and an output row for every
  sample, every run of the loops succeeds and returns weights of the shapes
  it started from.
-/
namespace WasmContracts

namespace Network

open GslMatrix

variable {α : Type}

/-- The rows and columns of a matrix. -/
def shape (m : GslMatrix α) : Nat × Nat := (m.size1, m.size2)

/-- The layers map a column of `d` entries to a column of `e` entries: each
has one column more than the entries of its input, the bias column, as
`initNetwork` (MatrixNNUtils.c:160-181) allocates them. -/
def Composable : Nat → List (GslMatrix α) → Nat → Prop
  | d, [], e => d = e
  | d, W :: allW, e => W.size2 = d + 1 ∧ Composable W.size1 allW e

instance instDecidableComposable : ∀ (d : Nat) (allW : List (GslMatrix α)) (e : Nat),
    Decidable (Composable d allW e)
  | d, [], e => inferInstanceAs (Decidable (d = e))
  | d, W :: allW, e =>
    haveI := instDecidableComposable W.size1 allW e
    inferInstanceAs (Decidable (W.size2 = d + 1 ∧ Composable W.size1 allW e))

theorem Composable.of_shapes {d e : Nat} :
    ∀ {allW allW' : List (GslMatrix α)}, allW'.map shape = allW.map shape →
      Composable d allW e → Composable d allW' e
  | [], [], _, h => h
  | W :: allW, W' :: allW', hs, ⟨hW, h⟩ => by
    simp only [List.map_cons, List.cons.injEq, shape, Prod.mk.injEq] at hs
    exact ⟨hs.1.2.trans hW, hs.1.1 ▸ Composable.of_shapes hs.2 h⟩

variable [LinearOrderedField α]

/-- Row `r` of `m` as a column: `gsl_matrix_const_submatrix(m, r, 0, 1,
m->size2)` copied by `gsl_matrix_transpose_memcpy` into a `size2 × 1` matrix
(MatrixNNUtils.c:369-377); `none` where GSL's range check refuses `r`. -/
def rowColumn (m : GslMatrix α) (r : Nat) : Option (GslMatrix α) := (m.row r).map transpose

/-- The update of MatrixNNUtils.c:383-390: `gsl_matrix_scale(jac,
learningRate)` and `gsl_matrix_sub(allW[j], jac)` for every layer `j`. -/
def updateWeights (learningRate : α) : List (GslMatrix α) → List (GslMatrix α) → Option (List (GslMatrix α))
  | [], _ => some []
  | _ :: _, [] => none
  | W :: allW, jac :: jacs => do
    let W' ← sub W (jac.scale learningRate)
    let rest ← updateWeights learningRate allW jacs
    pure (W' :: rest)

/-- One pass of the inner loop, MatrixNNUtils.c:367-391, at sample `r`;
`none` ends the process. -/
def trainSample (trainInput trainOutput : GslMatrix α) (learningRate : α) (allW : List (GslMatrix α))
    (r : Nat) : Option (List (GslMatrix α)) := do
  let x ← rowColumn trainInput r
  let y ← rowColumn trainOutput r
  let jacs ← backpropagation x y allW
  updateWeights learningRate allW jacs

/-- The loops of MatrixNNUtils.c:361-392 from the weights `allW`: `numEpoch`
epochs over the `trainInput.size1` samples. -/
def trainLoop (trainInput trainOutput : GslMatrix α) (numEpoch : Nat) (learningRate : α)
    (allW : List (GslMatrix α)) : Option (List (GslMatrix α)) :=
  (List.range numEpoch).foldlM (fun allW _ =>
    (List.range trainInput.size1).foldlM (trainSample trainInput trainOutput learningRate) allW) allW

/-! ## Loops that cannot fail -/

/-- A `foldlM` in `Option` whose every step over `l` succeeds from an
accumulator satisfying `P`, and keeps `P`, succeeds. -/
theorem foldlM_invariant {β γ : Type} (P : β → Prop) (f : β → γ → Option β) :
    ∀ (l : List γ), (∀ b, ∀ x ∈ l, P b → ∃ b', f b x = some b' ∧ P b') →
      ∀ b, P b → ∃ b', l.foldlM f b = some b' ∧ P b'
  | [], _, b, hb => ⟨b, rfl, hb⟩
  | x :: l, hf, b, hb => by
    obtain ⟨b', e, hb'⟩ := hf b x (List.mem_cons_self _ _) hb
    simp only [List.foldlM_cons, e, Option.bind_eq_bind, Option.some_bind]
    exact foldlM_invariant P f l (fun b y hy => hf b y (List.mem_cons_of_mem _ hy)) b' hb'

theorem rowColumn_of_lt (m : GslMatrix α) {r : Nat} (hr : r < m.size1) :
    rowColumn m r = some (ofFn m.size2 1 m.size2_pos Nat.one_pos fun i _ => m.get r i) := by
  rw [rowColumn, row_of_lt m hr, Option.map_some']
  refine congrArg some (ext_get rfl rfl fun i j hi hj => ?_)
  have hi' : i < m.size2 := hi
  have hj' : j < 1 := hj
  simp only [transpose, get_ofFn, ofFn_size1, ofFn_size2, hi', hj', and_self, if_true]

/-! ## The forward loop on composing weights -/

theorem forwardPass_composable (nbLayers : Nat) (e : Nat) :
    ∀ (allW : List (GslMatrix α)) (i : Nat) (x : GslMatrix α), x.size2 = 1 → Composable x.size1 allW e →
      ∃ r, forwardPass nbLayers i x allW = some r ∧ r.2.2.size1 = e ∧ r.2.2.size2 = 1 ∧
        r.1.length = allW.length ∧ r.2.1.length = allW.length
  | [], _, x, hx, he => ⟨([], [], x), rfl, he, hx, rfl, rfl⟩
  | W :: allW, i, x, hx, ⟨hW, hc⟩ => by
    obtain ⟨comb, hcomb, h1, h2, -⟩ := affine_of_column hx hW
    have hnext : (if i = nbLayers - 1 then comb else comb.map fun old => max old 0).size2 = 1 ∧
        (if i = nbLayers - 1 then comb else comb.map fun old => max old 0).size1 = W.size1 := by
      split_ifs <;> exact ⟨h2, h1⟩
    obtain ⟨r, hr, hr1, hr2, hl1, hl2⟩ :=
      forwardPass_composable nbLayers e allW (i + 1) _ hnext.1 (hnext.2 ▸ hc)
    refine ⟨(x :: r.1, comb :: r.2.1, r.2.2), ?_, hr1, hr2, by simp [hl1], by simp [hl2]⟩
    rw [forwardPass_cons, hcomb, Option.some_bind, activation_of_column nbLayers i h2, Option.some_bind, hr]
    rfl

/-! ## `backpropagation` on composing weights -/

theorem gradients_shapes (slope : Nat → α → α) :
    ∀ (i : Nat) (g : Nat → α) (layers : List (GslMatrix α × GslMatrix α × GslMatrix α)),
      (gradients slope i g layers).map shape = layers.map fun t => shape t.2.2
  | _, _, [] => rfl
  | i, g, (a, z, W) :: layers => by
    simp only [gradients, List.map_cons, gradients_shapes slope (i - 1) _ layers]
    rfl

/-- On composing weights and a sample of the matching sizes,
`backpropagation` succeeds, with one gradient of each layer's shape. -/
theorem backpropagation_composable (x y : GslMatrix α) (allW : List (GslMatrix α)) (hW : allW ≠ [])
    (hx : x.size2 = 1) (hy : y.size2 = 1) (hc : Composable x.size1 allW y.size1) :
    ∃ jacs, backpropagation x y allW = some jacs ∧ jacs.map shape = allW.map shape := by
  obtain ⟨r, hr, hr1, -, hl1, hl2⟩ := forwardPass_composable allW.length y.size1 allW 0 x hx hc
  rw [backpropagation_eq_lossGradient x y allW hx hW (by rw [forward, hr]; rfl) ⟨hr1.symm, hy⟩,
    lossGradient, hr, Option.map_some']
  refine ⟨_, rfl, ?_⟩
  have hL : (r.1.zip (r.2.1.zip allW)).map (Prod.snd ∘ Prod.snd) = allW := by
    rw [← List.map_map, List.map_snd_zip _ _ (by simp [hl1, hl2]), List.map_snd_zip _ _ (by simp [hl2])]
  rw [List.map_reverse, gradients_shapes, List.map_reverse, List.reverse_reverse,
    show (r.1.zip (r.2.1.zip allW)).map (fun t => shape t.2.2) =
      ((r.1.zip (r.2.1.zip allW)).map (Prod.snd ∘ Prod.snd)).map shape by rw [List.map_map]; rfl, hL]

theorem updateWeights_shapes (learningRate : α) :
    ∀ (allW jacs : List (GslMatrix α)), jacs.map shape = allW.map shape →
      ∃ allW', updateWeights learningRate allW jacs = some allW' ∧ allW'.map shape = allW.map shape
  | [], [], _ => ⟨[], rfl, rfl⟩
  | W :: allW, jac :: jacs, hs => by
    simp only [List.map_cons, List.cons.injEq, shape, Prod.mk.injEq] at hs
    obtain ⟨rest, hrest, hrs⟩ := updateWeights_shapes learningRate allW jacs hs.2
    refine ⟨(ofFn W.size1 W.size2 W.size1_pos W.size2_pos fun i j => W.get i j - (jac.scale learningRate).get i j)
      :: rest, ?_, by rw [List.map_cons, hrs]; rfl⟩
    rw [updateWeights, sub, if_pos ⟨hs.1.1.symm, hs.1.2.symm⟩]
    simp only [Option.bind_eq_bind, Option.some_bind, hrest]
    rfl

theorem trainSample_composable (trainInput trainOutput : GslMatrix α) (learningRate : α)
    (allW : List (GslMatrix α)) (hW : allW ≠ []) (hc : Composable trainInput.size2 allW trainOutput.size2)
    {r : Nat} (hr : r < trainInput.size1) (hr' : r < trainOutput.size1) :
    ∃ allW', trainSample trainInput trainOutput learningRate allW r = some allW' ∧
      allW'.map shape = allW.map shape := by
  obtain ⟨jacs, hj, hs⟩ := backpropagation_composable
    (ofFn trainInput.size2 1 trainInput.size2_pos Nat.one_pos fun i _ => trainInput.get r i)
    (ofFn trainOutput.size2 1 trainOutput.size2_pos Nat.one_pos fun i _ => trainOutput.get r i)
    allW hW rfl rfl hc
  obtain ⟨allW', hu, hs'⟩ := updateWeights_shapes learningRate allW jacs hs
  refine ⟨allW', ?_, hs'⟩
  rw [trainSample, rowColumn_of_lt _ hr, rowColumn_of_lt _ hr']
  simp only [Option.bind_eq_bind, Option.some_bind, hj, hu]

theorem trainLoop_keeps_shapes (trainInput trainOutput : GslMatrix α) (numEpoch : Nat) (learningRate : α)
    (allW : List (GslMatrix α)) (hW : allW ≠ []) (hc : Composable trainInput.size2 allW trainOutput.size2)
    (hrows : trainInput.size1 ≤ trainOutput.size1) :
    ∃ allW', trainLoop trainInput trainOutput numEpoch learningRate allW = some allW' ∧
      allW'.map shape = allW.map shape := by
  have hstep : ∀ (W : List (GslMatrix α)), ∀ r ∈ List.range trainInput.size1, W.map shape = allW.map shape →
      ∃ W', trainSample trainInput trainOutput learningRate W r = some W' ∧ W'.map shape = allW.map shape :=
    fun W r hr hs => by
      have hr := List.mem_range.1 hr
      have hW' : W ≠ [] := fun e => hW (List.map_eq_nil_iff.1 (e ▸ hs).symm)
      obtain ⟨W', h, hs'⟩ := trainSample_composable trainInput trainOutput learningRate W hW'
        (hc.of_shapes hs) hr (hr.trans_le hrows)
      exact ⟨W', h, hs'.trans hs⟩
  exact foldlM_invariant (fun W => W.map shape = allW.map shape) _ _
    (fun W _ _ hs => foldlM_invariant _ _ _ hstep W hs) allW rfl

/-- On weights that compose from the samples' input size to their output
size, and outputs with a row for every sample, every run of the training
loops succeeds, whatever the number of epochs and the learning rate, and
returns weights of the shapes it started from: neither GSL's range check
nor the `NULL` that line 386 would dereference stops it. -/
theorem trainLoop_composable (trainInput trainOutput : GslMatrix α) (numEpoch : Nat) (learningRate : α)
    (allW : List (GslMatrix α)) (hW : allW ≠ []) (hc : Composable trainInput.size2 allW trainOutput.size2)
    (hrows : trainInput.size1 ≤ trainOutput.size1) :
    ∃ allW', trainLoop trainInput trainOutput numEpoch learningRate allW = some allW' ∧
      allW'.map shape = allW.map shape :=
  trainLoop_keeps_shapes trainInput trainOutput numEpoch learningRate allW hW hc hrows

theorem one_layer_trains :
    ∃ allW', trainLoop (ofFn 1 1 Nat.one_pos Nat.one_pos fun _ _ => (1 : ℚ))
        (ofFn 1 1 Nat.one_pos Nat.one_pos fun _ _ => 0) 2 (1 / 2)
        [ofFn 1 2 Nat.one_pos Nat.two_pos fun _ _ => 1] = some allW' ∧
      allW'.map shape = [ofFn 1 2 Nat.one_pos Nat.two_pos fun _ _ => (1 : ℚ)].map shape :=
  trainLoop_composable _ _ 2 (1 / 2) _ (List.cons_ne_nil _ _) (by decide) (by decide)

end Network

end WasmContracts
