import WasmContracts.L2Network.Network
import Mathlib.Algebra.Order.Field.Rat
/-!
# Inference clips the trained network's output (`nn`)

Status: open.

Behaviour (MatrixNNUtils.c:474-486): `nn` applies `relu` after every layer,
the last one included (line 476), and `identity` after the loop (line 484).
The forward loop that `backpropagation` differentiates and `train` fits
(lines 269-274) makes the last layer linear: `identity` at
`i == nbLayers - 1`. So `testContract` classifies with `relu ∘ f` where the
training fitted `f` (`Network.nn_eq_relu_forward`): the two agree exactly on
the inputs at which no output of `f` is negative (`nn_eq_forward_iff`).

Expected behaviour: `testContract` (ClassificationContract.c:107-141) scores
the network `trainContract` produced, so `nn` should compute the same forward
pass as `backpropagation`.

Counterexample: one layer, `W = [0 -1]`, `x = [1]`: the trained network
outputs `-1`, `nn` outputs `0` (`negative_output_clipped`).

Fix: apply `identity` instead of `relu` for `i == nbW - 1` in the loop of
`nn`, as line 273 does. The fixed `nn` is then the trained function on every
input vector and every list of weights (`nnFixed_eq_forward`).
-/
namespace WasmContracts.Bugs.InferenceRelu

open Network GslMatrix

-- The network below is evaluated by `decide`; Batteries seals the rational operations.
attribute [local semireducible] Rat.add Rat.mul Rat.sub Rat.inv

/-- The input column `[1]`. -/
def input : GslMatrix ℚ := ofFn 1 1 Nat.one_pos Nat.one_pos fun _ _ => 1

/-- One layer of one unit: weight 0 and bias `-1`. -/
def weights : GslMatrix ℚ := ofFn 1 2 Nat.one_pos (by decide) fun _ j => if j = 0 then 0 else -1

section General

variable {α : Type} [LinearOrderedField α]

/-- Where the trained network has an output, `nn` returns that same vector
exactly when none of its entries is negative. -/
theorem nn_eq_forward_iff (x : GslMatrix α) (hx : x.size2 = 1) (allW : List (GslMatrix α))
    (hW : allW ≠ []) {out : GslMatrix α} (hout : forward x allW = some out) :
    nn x allW = some out ↔ ∀ k < out.size1, 0 ≤ out.get k 0 := by
  obtain ⟨r, hr, rfl⟩ := Option.map_eq_some'.1 hout
  have hcol := forwardPass_output_column allW.length allW hW 0 x r hr
  rw [nn_eq_relu_forward x hx allW hW, hout, Option.some_bind, relu_of_column hcol, Option.some_inj]
  constructor
  · intro h k hk
    have e := congrArg (fun m => m.get k 0) h
    simp only [get_map _ _ hk (hcol ▸ Nat.one_pos)] at e
    exact e ▸ le_max_right _ _
  · intro h
    refine ext_get rfl rfl fun i j hi hj => ?_
    obtain rfl : j = 0 := by simp [hcol] at hj; exact hj
    rw [get_map (fun old => max old 0) r.2.2 hi hj, max_eq_left (h i hi)]

theorem single_layer_agreement :
    nn input [weights] = some ((forward input [weights]).get (by decide)) ↔
      ∀ k < ((forward input [weights]).get (by decide)).size1,
        0 ≤ ((forward input [weights]).get (by decide)).get k 0 :=
  nn_eq_forward_iff input rfl [weights] (List.cons_ne_nil _ _) (Option.eq_some_of_isSome _)

end General

/-! ## The counterexample -/

/-- The trained network outputs `-1`; `nn` outputs `relu(-1) = 0`. -/
theorem negative_output_clipped :
    (forward input [weights]).map toLists = some [[-1]] ∧
      (nn input [weights]).map toLists = some [[0]] := by
  decide

/-! ## Fixed: the activation of line 273 in the inference loop -/

section Fixed

variable {α : Type} [LinearOrderedField α]

/-- The loop of MatrixNNUtils.c:474-482 with layer `i` activated as line 273
activates it. -/
def nnLoopFixed (nbW : Nat) : Nat → GslMatrix α → List (GslMatrix α) → Option (GslMatrix α)
  | _, out, [] => some out
  | i, out, W :: allW => do
    let affined ← affine out W
    let next ← activation nbW i affined
    nnLoopFixed nbW (i + 1) next allW

/-- `nn` of MatrixNNUtils.c:461-489 over the fixed loop. -/
def nnFixed (x : GslMatrix α) (allW : List (GslMatrix α)) : Option (GslMatrix α) :=
  if isVector x then (nnLoopFixed allW.length 0 x allW).bind identity else none

theorem nnLoopFixed_eq_forwardPass (nbW : Nat) (allW : List (GslMatrix α)) :
    ∀ (i : Nat) (x : GslMatrix α), nnLoopFixed nbW i x allW = (forwardPass nbW i x allW).map fun r => r.2.2 := by
  induction allW with
  | nil => intro _ _; rfl
  | cons W allW ih =>
    intro i x
    rw [nnLoopFixed, forwardPass_cons]
    cases affine x W with
    | none => rfl
    | some comb =>
      simp only [Option.bind_eq_bind, Option.some_bind]
      cases activation nbW i comb with
      | none => rfl
      | some next =>
        rw [Option.some_bind, Option.some_bind, ih]
        cases forwardPass nbW (i + 1) next allW <;> rfl

/-- The fixed `nn` computes the function `backpropagation` trains, on every
input vector and every list of weights. -/
theorem nnFixed_eq_forward (x : GslMatrix α) (hx : isVector x = true) (allW : List (GslMatrix α)) :
    nnFixed x allW = forward x allW := by
  rw [nnFixed, if_pos hx, nnLoopFixed_eq_forwardPass, forward]
  cases hr : forwardPass allW.length 0 x allW with
  | none => rfl
  | some r =>
    show identity r.2.2 = some r.2.2
    cases allW with
    | nil => cases hr; exact if_pos hx
    | cons W allW => exact identity_of_column (forwardPass_output_column _ _ (List.cons_ne_nil _ _) 0 x r hr)

end Fixed

theorem fixed_keeps_negative_output :
    nnFixed input [weights] = forward input [weights] ∧ (nnFixed input [weights]).map toLists = some [[-1]] :=
  ⟨nnFixed_eq_forward input rfl [weights], by decide⟩

end WasmContracts.Bugs.InferenceRelu
