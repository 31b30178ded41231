import WasmContracts.L2Network.Layers
/-!
# Inference and training passes of `MatrixNNUtils.c`

`nn` is the forward pass `testContract` classifies with; `backpropagation`
is the gradient `train` descends along, built on its own forward loop
`forwardPass`. The weight array `allW` with its length `nbW` (resp.
`nbLayers`) is a list; the functions iterate over it as the C loops iterate
over `i < nbLayers`.

`forwardPass` makes the last layer linear (`identity`, line 273) and the
others `relu`; `nn` applies `relu` after every layer, the last included, and
only then `identity`. So inference is the trained function followed by one
more `relu` (`nn_eq_relu_forward`, `Bugs/InferenceRelu.lean`).

Results:
* `affine_isColumn`: every combination is a column.
* `nn_eq_relu_forward`: for every input column and every non-empty weight
  list, `nn` is `relu` of the output of `forwardPass`.
-/
namespace WasmContracts

namespace Network

open GslMatrix

variable {α : Type} [LinearOrderedField α]

/-- The loop of MatrixNNUtils.c:474-482. -/
def nnLoop : GslMatrix α → List (GslMatrix α) → Option (GslMatrix α)
  | out, [] => some out
  | out, W :: allW => do
    let affined ← affine out W
    let next ← relu affined
    nnLoop next allW

/-- mirrors MatrixNNUtils.c:461-489 -/
def nn (x : GslMatrix α) (allW : List (GslMatrix α)) : Option (GslMatrix α) :=
  if isVector x then (nnLoop x allW).bind identity else none

/-- The activation of layer `i` at MatrixNNUtils.c:273: `identity` for the
last layer, `relu` for the others. -/
def activation (nbLayers i : Nat) (comb : GslMatrix α) : Option (GslMatrix α) :=
  if i = nbLayers - 1 then identity comb else relu comb

/-- The forward loop of MatrixNNUtils.c:268-274 from layer `i` on: the input
and the combination of every layer, and the output. -/
def forwardPass (nbLayers : Nat) :
    Nat → GslMatrix α → List (GslMatrix α) →
      Option (List (GslMatrix α) × List (GslMatrix α) × GslMatrix α)
  | _, x, [] => some ([], [], x)
  | i, x, W :: allW => do
    let comb ← affine x W
    let next ← activation nbLayers i comb
    let (inputs, combinations, out) ← forwardPass nbLayers (i + 1) next allW
    pure (x :: inputs, comb :: combinations, out)

/-- The function `backpropagation` differentiates: the output of its forward
loop. -/
def forward (x : GslMatrix α) (allW : List (GslMatrix α)) : Option (GslMatrix α) :=
  (forwardPass allW.length 0 x allW).map fun r => r.2.2

/-- The Jacobian of layer `comb`'s activation as MatrixNNUtils.c:291 picks
it: by `nbLayers - 1`, not by the layer's index. -/
def activationJacobian (nbLayers : Nat) (comb : GslMatrix α) : Option (GslMatrix α) :=
  if nbLayers - 1 ≠ 0 then dIdentityDx comb else dReluDx comb

/-- The pass of the backward loop after the activation's multiplier,
MatrixNNUtils.c:306-340, from the Jacobian at the combination of a layer with
input `input` and weights `W`: the gradient for `W` (`out[i]`) and the
Jacobian at the layer's input. -/
def weightGradient (currJac input W : GslMatrix α) : Option (GslMatrix α × GslMatrix α) := do
  let Jw ← dgemm currJac (← dAffineDw input W)
  let reshaped ← reshape Jw W.size1 W.size2
  let newJac ← dgemm currJac (← dAffineDx W)
  pure (reshaped, newJac)

/-- One pass of the backward loop, MatrixNNUtils.c:288-341, at a layer with
input `input`, combination `comb` and weights `W`: the gradient for `W`
(`out[i]`) and the next Jacobian. -/
def backwardStep (nbLayers : Nat) (currJac input comb W : GslMatrix α) :
    Option (GslMatrix α × GslMatrix α) := do
  let multiplier ← activationJacobian nbLayers comb
  let currJac ← dgemm currJac multiplier
  weightGradient currJac input W

/-- The backward loop of MatrixNNUtils.c:284-342, over the layers from the
last one down: `(input, combination, weights)` of each. -/
def backwardPass (nbLayers : Nat) :
    GslMatrix α → List (GslMatrix α × GslMatrix α × GslMatrix α) → Option (List (GslMatrix α))
  | _, [] => some []
  | currJac, (input, comb, W) :: layers => do
    let (grad, newJac) ← backwardStep nbLayers currJac input comb W
    let grads ← backwardPass nbLayers newJac layers
    pure (grad :: grads)

/-- mirrors MatrixNNUtils.c:250-349: the gradient of every layer, in layer
order. -/
def backpropagation (x y : GslMatrix α) (allW : List (GslMatrix α)) :
    Option (List (GslMatrix α)) :=
  if isVector x && isVector y then do
    let (inputs, combinations, out) ← forwardPass allW.length 0 x allW
    let currJac ← dL2Dx out y
    let grads ← backwardPass allW.length currJac (inputs.zip (combinations.zip allW)).reverse
    pure grads.reverse
  else none

/-! ## Inference against the trained function -/

theorem affine_isColumn {x W comb : GslMatrix α} (h : affine x W = some comb) : comb.size2 = 1 := by
  unfold affine at h
  split at h
  · exact (dgemm_eq_some h).2.2
  · cases h

theorem relu_of_column {m : GslMatrix α} (h : m.size2 = 1) :
    relu m = some (m.map fun old => max old 0) := if_pos (isVector_of_column h)

theorem identity_of_relu {m m' : GslMatrix α} (h : relu m = some m') : identity m' = some m' := by
  unfold relu at h
  split at h
  · cases h; exact if_pos ‹_›
  · cases h

theorem activation_of_column (nbLayers i : Nat) {comb : GslMatrix α} (h : comb.size2 = 1) :
    activation nbLayers i comb =
      some (if i = nbLayers - 1 then comb else comb.map fun old => max old 0) := by
  unfold activation
  split_ifs
  · exact identity_of_column h
  · exact relu_of_column h

theorem forwardPass_cons (nbLayers i : Nat) (x W : GslMatrix α) (allW : List (GslMatrix α)) :
    forwardPass nbLayers i x (W :: allW) =
      (affine x W).bind fun comb => (activation nbLayers i comb).bind fun next =>
        (forwardPass nbLayers (i + 1) next allW).map fun r => (x :: r.1, comb :: r.2.1, r.2.2) := by
  simp only [forwardPass, Option.bind_eq_bind]
  congr 1; funext comb; congr 1; funext next
  cases forwardPass nbLayers (i + 1) next allW <;> rfl

theorem forwardPass_output_column (nbLayers : Nat) (allW : List (GslMatrix α)) (hW : allW ≠ []) :
    ∀ (i : Nat) (x : GslMatrix α) (r : List (GslMatrix α) × List (GslMatrix α) × GslMatrix α),
      forwardPass nbLayers i x allW = some r → r.2.2.size2 = 1 := by
  induction allW with
  | nil => exact absurd rfl hW
  | cons W allW ih =>
    intro i x r h
    rw [forwardPass_cons] at h
    obtain ⟨comb, hc, h⟩ := Option.bind_eq_some.1 h
    have hcol := affine_isColumn hc
    rw [activation_of_column nbLayers i hcol, Option.some_bind] at h
    obtain ⟨r', hr', rfl⟩ := Option.map_eq_some'.1 h
    cases allW with
    | nil => cases hr'; dsimp only; split_ifs <;> exact hcol
    | cons W' allW => exact ih (List.cons_ne_nil _ _) _ _ r' hr'

theorem nnLoop_eq_relu_forwardPass (nbLayers : Nat) (allW : List (GslMatrix α)) (hW : allW ≠ [])
    (i : Nat) (x : GslMatrix α) (hi : i + allW.length = nbLayers) :
    nnLoop x allW = (forwardPass nbLayers i x allW).bind fun r => relu r.2.2 := by
  induction allW generalizing i x with
  | nil => exact absurd rfl hW
  | cons W allW ih =>
    rw [forwardPass_cons, nnLoop]
    cases hc : affine x W with
    | none => rfl
    | some comb =>
      have hcol := affine_isColumn hc
      simp only [Option.bind_eq_bind, Option.some_bind, activation_of_column nbLayers i hcol,
        relu_of_column hcol]
      cases allW with
      | nil =>
        have hlast : i = nbLayers - 1 := by simp at hi; omega
        simp [hlast, forwardPass, nnLoop, relu_of_column hcol]
      | cons W' allW =>
        have hnot : i ≠ nbLayers - 1 := by simp at hi; omega
        rw [if_neg hnot, ih (List.cons_ne_nil _ _) (i + 1) _ (by simp at hi ⊢; omega)]
        cases forwardPass nbLayers (i + 1) (comb.map fun old => max old 0) (W' :: allW) <;> rfl

/-- `nn` is `relu` of the function `backpropagation` trains, for every input
column and every non-empty list of weights. -/
theorem nn_eq_relu_forward (x : GslMatrix α) (hx : x.size2 = 1) (allW : List (GslMatrix α))
    (hW : allW ≠ []) : nn x allW = (forward x allW).bind relu := by
  rw [nn, if_pos (isVector_of_column hx), nnLoop_eq_relu_forwardPass allW.length allW hW 0 x (by simp),
    forward]
  cases forwardPass allW.length 0 x allW with
  | none => rfl
  | some r =>
    show (relu r.2.2).bind identity = relu r.2.2
    cases hr : relu r.2.2 with
    | none => rfl
    | some m' => exact identity_of_relu hr

end Network

end WasmContracts
