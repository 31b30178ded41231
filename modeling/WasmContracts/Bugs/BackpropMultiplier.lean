import WasmContracts.L2Network.Gradient
import Mathlib.Algebra.Order.Field.Rat
/-!
# `backpropagation` picks the activation derivative by the network's depth

Status: open.

Behaviour (MatrixNNUtils.c:291):

    gsl_matrix* multiplier = nbLayers - 1 ? dIdentityDx(comb) : dReluDx(comb);

The condition is `nbLayers - 1`, not `i == nbLayers - 1` as in the forward
loop (line 273). A network of one layer is differentiated as if its linear
output layer were `relu`; a deeper one as if every hidden `relu` layer were
linear (`codeSlope` against `exactSlope`). Wherever a pre-activation the
wrong derivative is taken at is not positive, the result is not the gradient.

Expected behaviour: `train` (lines 351-394) descends along
`backpropagation`'s result, which should be the gradient of the squared error
of the forward loop of lines 269-274 (`lossGradient exactSlope`).

Counterexample: one layer, `W = [0 -1]`, `x = [1]`, `y = [0]`: the output is
`-1`, the gradient is `2 (-1 - 0) [1 1] = [-2 -2]`, and `backpropagation`
returns `[0 0]` (`single_layer_gradient_zeroed`).

Where the defect does not show: `backpropagation` is the chain rule with the
code's multipliers (`Network.backpropagation_eq_lossGradient`), so with every
pre-activation positive it is the gradient (`backpropagation_exact_of_pos`).

Fix: `i == nbLayers - 1 ? dIdentityDx(comb) : dReluDx(comb)`. The fixed
`backpropagation` is then the gradient on every input column, every list of
weights the forward loop runs through and every target of the output's size
(`backpropagationFixed_eq_gradient`).
-/
namespace WasmContracts.Bugs.BackpropMultiplier

open Network GslMatrix

-- The networks below are evaluated by `decide`; Batteries seals the rational operations.
attribute [local semireducible] Rat.add Rat.mul Rat.sub Rat.inv

/-- The input column `[1]`. -/
def input : GslMatrix ℚ := ofFn 1 1 Nat.one_pos Nat.one_pos fun _ _ => 1

/-- The target column `[0]`. -/
def target : GslMatrix ℚ := ofFn 1 1 Nat.one_pos Nat.one_pos fun _ _ => 0

/-- One layer of one unit: weight 0 and bias `-1`. -/
def weights : GslMatrix ℚ := ofFn 1 2 Nat.one_pos (by decide) fun _ j => if j = 0 then 0 else -1

/-- One layer of one unit: weight 1 and bias 1. -/
def positiveWeights : GslMatrix ℚ := ofFn 1 2 Nat.one_pos (by decide) fun _ _ => 1

/-! ## When the defect shows -/

section General

variable {α : Type} [LinearOrderedField α]

/-- With every pre-activation of the forward pass positive, `relu'` is 1
wherever it is taken, the multiplier of line 291 does not matter, and
`backpropagation` is the gradient. -/
theorem backpropagation_exact_of_pos (x y : GslMatrix α) (allW : List (GslMatrix α))
    (hx : x.size2 = 1) (hW : allW ≠ [])
    {r : List (GslMatrix α) × List (GslMatrix α) × GslMatrix α}
    (hr : forwardPass allW.length 0 x allW = some r) (hy : y.size1 = r.2.2.size1 ∧ y.size2 = 1)
    (hpos : ∀ z ∈ r.2.1, ∀ k < z.size1, 0 < z.get k 0) :
    backpropagation x y allW = lossGradient exactSlope x y allW := by
  rw [backpropagation_eq_lossGradient x y allW hx hW (by rw [forward, hr]; rfl) hy, lossGradient,
    lossGradient, hr, Option.map_some', Option.map_some']
  obtain ⟨hs, -⟩ := forwardPass_shaped allW.length allW 0 x r hx hr
  rw [gradients_congr _ (fun t ht i k hk => ?_)]
  have hz := hpos _ (List.of_mem_zip (List.of_mem_zip (List.mem_reverse.1 ht)).2).1 k
    (by rw [hs.rows_eq t ht]; exact hk)
  simp only [codeSlope, exactSlope, if_pos hz, ite_self]

theorem positive_layer_exact :
    backpropagation input target [positiveWeights] =
      lossGradient exactSlope input target [positiveWeights] :=
  backpropagation_exact_of_pos input target [positiveWeights] rfl (List.cons_ne_nil _ _)
    (Option.eq_some_of_isSome (by decide)) (by decide) (by decide)

end General

/-- The gradient is `[-2 -2]`; `backpropagation` multiplies the error by
`relu'(-1) = 0` and returns `[0 0]`. -/
theorem single_layer_gradient_zeroed :
    (lossGradient exactSlope input target [weights]).map (List.map toLists) = some [[[-2, -2]]] ∧
      (backpropagation input target [weights]).map (List.map toLists) = some [[[0, 0]]] := by
  decide

/-! ## Fixed: the multiplier chosen by the layer's index -/

section Fixed

variable {α : Type} [LinearOrderedField α]

/-- The multiplier of MatrixNNUtils.c:291 with the test of line 273. -/
def activationJacobianFixed (nbLayers i : Nat) (comb : GslMatrix α) : Option (GslMatrix α) :=
  if i = nbLayers - 1 then dIdentityDx comb else dReluDx comb

/-- One pass of the backward loop, MatrixNNUtils.c:288-341, at layer `i`
with the fixed multiplier. -/
def backwardStepFixed (nbLayers i : Nat) (currJac input comb W : GslMatrix α) :
    Option (GslMatrix α × GslMatrix α) := do
  let multiplier ← activationJacobianFixed nbLayers i comb
  let currJac ← dgemm currJac multiplier
  weightGradient currJac input W

/-- The backward loop of MatrixNNUtils.c:284-342 from layer `i` down, over
the fixed pass. -/
def backwardPassFixed (nbLayers : Nat) :
    Nat → GslMatrix α → List (GslMatrix α × GslMatrix α × GslMatrix α) → Option (List (GslMatrix α))
  | _, _, [] => some []
  | i, currJac, (input, comb, W) :: layers => do
    let (grad, newJac) ← backwardStepFixed nbLayers i currJac input comb W
    let grads ← backwardPassFixed nbLayers (i - 1) newJac layers
    pure (grad :: grads)

/-- `backpropagation` of MatrixNNUtils.c:250-349 over the fixed loop. -/
def backpropagationFixed (x y : GslMatrix α) (allW : List (GslMatrix α)) : Option (List (GslMatrix α)) :=
  if isVector x && isVector y then do
    let (inputs, combinations, out) ← forwardPass allW.length 0 x allW
    let currJac ← dL2Dx out y
    let grads ← backwardPassFixed allW.length (allW.length - 1) currJac (inputs.zip (combinations.zip allW)).reverse
    pure grads.reverse
  else none

theorem backwardStepFixed_eq (nbLayers i : Nat) {currJac a z W : GslMatrix α} {g : Nat → α}
    (hJ : IsRow currJac W.size1 g) (hz1 : z.size1 = W.size1) (hz2 : z.size2 = 1) (ha : a.size2 = 1)
    (hW : W.size2 = a.size1 + 1) :
    ∃ newJac, backwardStepFixed nbLayers i currJac a z W =
        some (ofFn W.size1 W.size2 W.size1_pos W.size2_pos
          (fun k j => g k * exactSlope nbLayers i (z.get k 0) * (extend a).get j 0), newJac) ∧
      IsRow newJac a.size1
        fun j => ∑ k in Finset.range W.size1, g k * exactSlope nbLayers i (z.get k 0) * W.get k j := by
  obtain ⟨M, hM, hM1, hM2, hMget⟩ := jacobian_of_column (i = nbLayers - 1) hz2
  obtain ⟨J, hJ1, hδ⟩ := hJ.dgemm_diag (s := fun k => exactSlope nbLayers i (z.get k 0)) (hM1.trans hz1)
    (hM2.trans hz1) fun a b ha hb => hMget a b (hz1 ▸ ha) (hz1 ▸ hb)
  obtain ⟨newJac, hN, hrow⟩ := weightGradient_eq hδ ha hW
  exact ⟨newJac, by simp only [backwardStepFixed, activationJacobianFixed, Option.bind_eq_bind, hM,
    Option.some_bind, hJ1, hN], hrow⟩

theorem backwardPassFixed_eq (nbLayers : Nat) (layers : List (GslMatrix α × GslMatrix α × GslMatrix α)) :
    ∀ (i d : Nat) (g : Nat → α) (currJac : GslMatrix α), Shaped d layers → IsRow currJac d g →
      backwardPassFixed nbLayers i currJac layers = some (gradients (exactSlope nbLayers) i g layers) := by
  induction layers with
  | nil => intros; rfl
  | cons l layers ih =>
    obtain ⟨a, z, W⟩ := l
    rintro i d g currJac ⟨hz1, hz2, hW1, ha, hW, hs⟩ hJ
    subst hW1
    obtain ⟨newJac, hstep, hrow⟩ := backwardStepFixed_eq nbLayers i hJ hz1 hz2 ha hW
    simp only [backwardPassFixed, Option.bind_eq_bind, hstep, Option.some_bind,
      ih (i - 1) a.size1 _ newJac hs hrow]
    rfl

/-- **Fix meets spec**: for every input column, every non-empty list of
weights the forward loop runs through and every target column of the
output's size, the fixed `backpropagation` is the gradient of the squared
error of the forward loop. -/
theorem backpropagationFixed_eq_gradient (x y : GslMatrix α) (allW : List (GslMatrix α))
    (hx : x.size2 = 1) (hW : allW ≠ []) {out : GslMatrix α} (hout : forward x allW = some out)
    (hy : y.size1 = out.size1 ∧ y.size2 = 1) :
    backpropagationFixed x y allW = lossGradient exactSlope x y allW := by
  obtain ⟨r, hr, rfl⟩ := Option.map_eq_some'.1 hout
  have hcol := forwardPass_output_column allW.length allW hW 0 x r hr
  obtain ⟨hs, -⟩ := forwardPass_shaped allW.length allW 0 x r hx hr
  obtain ⟨J, hJ, hJ1, hJ2, hJget⟩ := dL2Dx_of_column hcol hy
  have hrow : IsRow J r.2.2.size1 fun k => 2 * (r.2.2.get k 0 - y.get k 0) :=
    ⟨hJ1, hJ2, fun k hk => by rw [hJget k hk, mul_comm]⟩
  rw [backpropagationFixed, if_pos (by simp [isVector_of_column hx, isVector_of_column hy.2]), lossGradient, hr]
  simp only [Option.bind_eq_bind, Option.some_bind, Option.map_some', hJ,
    backwardPassFixed_eq allW.length _ (allW.length - 1) _ _ J hs hrow]
  rfl

end Fixed

theorem fixed_single_layer_gradient :
    backpropagationFixed input target [weights] = lossGradient exactSlope input target [weights] ∧
      (backpropagationFixed input target [weights]).map (List.map toLists) = some [[[-2, -2]]] :=
  ⟨backpropagationFixed_eq_gradient input target [weights] rfl (List.cons_ne_nil _ _)
    (Option.eq_some_of_isSome (by decide)) (by decide), by decide⟩

end WasmContracts.Bugs.BackpropMultiplier
