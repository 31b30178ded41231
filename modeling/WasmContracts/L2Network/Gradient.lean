import WasmContracts.L2Network.Network
/-!
# The gradient `backpropagation` should compute

The chain rule over the forward loop's record, layer by layer from the last
one down: with the error `g` of the layer above (`2 (a_L - y)` at the top),
`δ = g ⊙ act'(z)`, the layer's gradient is `δ [a; 1]ᵀ` in the shape of `W`,
and `(W without its last column)ᵀ δ` is the error passed down.

`slope` says which derivative multiplies the error at layer `i`:
`exactSlope` is the network's own (the last layer linear, the others `relu`
with `relu'(z) = [z > 0]`), `codeSlope` is the choice of
MatrixNNUtils.c:291, which tests `nbLayers - 1` instead of `i == nbLayers - 1`.

Results:
* `jacobian_of_column`, `weightGradient_eq`: the two halves of one pass, the
  activation's multiplier and what follows it, stated once for the code's
  multiplier and for the fixed one of `Bugs/BackpropMultiplier.lean`.
* `backwardStep_eq`, `backwardPass_eq`: one pass of the backward loop is one
  layer of `gradients`, and the whole loop is `gradients` over the record.
* `backpropagation_eq_lossGradient`: for every input column, every non-empty
  list of weights the forward loop runs through and every target column of
  the output's size, `backpropagation` is `lossGradient codeSlope`.
* `gradients_congr`: slopes that agree on the record give the same gradients.
-/
namespace WasmContracts

namespace Network

open GslMatrix

variable {α : Type}

section Spec

variable [LinearOrderedField α]

/-- Backpropagation in closed form over the layers from the last one down,
`(input, combination, weights)` of each, from the error `g` of the layer
above; `i` is the layer's index. -/
def gradients (slope : Nat → α → α) :
    Nat → (Nat → α) → List (GslMatrix α × GslMatrix α × GslMatrix α) → List (GslMatrix α)
  | _, _, [] => []
  | i, g, (a, z, W) :: layers =>
    let δ := fun k => g k * slope i (z.get k 0)
    ofFn W.size1 W.size2 W.size1_pos W.size2_pos (fun k j => δ k * (extend a).get j 0) ::
      gradients slope (i - 1) (fun j => ∑ k in Finset.range W.size1, δ k * W.get k j) layers

/-- The derivative of layer `i`'s activation at `z` in a network of
`nbLayers` layers: the last layer is linear, the others `relu`. -/
def exactSlope (nbLayers i : Nat) (z : α) : α :=
  if i = nbLayers - 1 then 1 else if z > 0 then 1 else 0

/-- The multiplier of MatrixNNUtils.c:291 at every layer: `dIdentityDx` when
`nbLayers - 1` is nonzero, `dReluDx` otherwise. -/
def codeSlope (nbLayers _i : Nat) (z : α) : α :=
  if nbLayers - 1 ≠ 0 then 1 else if z > 0 then 1 else 0

/-- The gradient of `‖f(x) - y‖²` for every layer, in layer order, by the
chain rule with `slope` over the record of `forwardPass`. -/
def lossGradient (slope : Nat → Nat → α → α) (x y : GslMatrix α) (allW : List (GslMatrix α)) :
    Option (List (GslMatrix α)) :=
  (forwardPass allW.length 0 x allW).map fun r =>
    (gradients (slope allW.length) (allW.length - 1) (fun k => 2 * (r.2.2.get k 0 - y.get k 0))
      (r.1.zip (r.2.1.zip allW)).reverse).reverse

end Spec

/-! ## What `backpropagation` computes -/

/-- The shapes the backward loop meets, over the layers from the last one
down, from an error of `d` entries: the combination a column of `d` entries,
weights of `d` rows and one column more than the input column has entries,
and the layer below ending in as many entries as that input. -/
def Shaped : Nat → List (GslMatrix α × GslMatrix α × GslMatrix α) → Prop
  | _, [] => True
  | d, (a, z, W) :: layers =>
    z.size1 = d ∧ z.size2 = 1 ∧ W.size1 = d ∧ a.size2 = 1 ∧ W.size2 = a.size1 + 1 ∧
      Shaped a.size1 layers

/-- The size of the input of the lowest layer, `d` for no layer. -/
def bottom : Nat → List (GslMatrix α × GslMatrix α × GslMatrix α) → Nat
  | d, [] => d
  | _, (a, _, _) :: layers => bottom a.size1 layers

theorem shaped_concat (d : Nat) (layers : List (GslMatrix α × GslMatrix α × GslMatrix α))
    (a z W : GslMatrix α) :
    Shaped d (layers ++ [(a, z, W)]) ↔ Shaped d layers ∧ Shaped (bottom d layers) [(a, z, W)] := by
  induction layers generalizing d with
  | nil => simp [Shaped, bottom]
  | cons l layers ih =>
    obtain ⟨a', z', W'⟩ := l
    rw [List.cons_append]
    show (_ ∧ _ ∧ _ ∧ _ ∧ _ ∧ Shaped a'.size1 (layers ++ [(a, z, W)])) ↔
      (_ ∧ _ ∧ _ ∧ _ ∧ _ ∧ Shaped a'.size1 layers) ∧ Shaped (bottom a'.size1 layers) [(a, z, W)]
    rw [ih]
    simp only [and_assoc]

theorem Shaped.rows_eq {d : Nat} {layers : List (GslMatrix α × GslMatrix α × GslMatrix α)}
    (h : Shaped d layers) : ∀ t ∈ layers, t.2.1.size1 = t.2.2.size1 := by
  induction layers generalizing d with
  | nil => intro t ht; cases ht
  | cons l layers ih =>
    obtain ⟨a, z, W⟩ := l
    obtain ⟨hz, -, hW, -, -, hs⟩ := h
    intro t ht
    rcases List.mem_cons.1 ht with rfl | ht
    · exact hz.trans hW.symm
    · exact ih hs t ht

theorem bottom_concat (d : Nat) (layers : List (GslMatrix α × GslMatrix α × GslMatrix α))
    (a z W : GslMatrix α) : bottom d (layers ++ [(a, z, W)]) = a.size1 := by
  induction layers generalizing d with
  | nil => rfl
  | cons l layers ih => exact ih _

variable [LinearOrderedField α]

/-- `m` is the row vector of the `d` entries `g`. -/
def IsRow (m : GslMatrix α) (d : Nat) (g : Nat → α) : Prop :=
  m.size1 = 1 ∧ m.size2 = d ∧ ∀ k < d, m.get 0 k = g k

/-- A row times a matrix with as many rows is the row of the sums. -/
theorem IsRow.dgemm {A M : GslMatrix α} {d : Nat} {g : Nat → α} (hA : IsRow A d g)
    (hM : M.size1 = d) :
    ∃ C, dgemm A M = some C ∧ IsRow C M.size2 fun k => ∑ j in Finset.range d, g j * M.get j k := by
  obtain ⟨C, hC, h1, h2⟩ := dgemm_of_eq (hA.2.1.trans hM.symm)
  refine ⟨C, hC, h1.trans hA.1, h2, fun k hk => ?_⟩
  rw [get_dgemm hC (hA.1 ▸ Nat.one_pos) hk, hA.2.1]
  exact Finset.sum_congr rfl fun j hj => by rw [hA.2.2 j (Finset.mem_range.1 hj)]

theorem sum_mul_diag (d : Nat) (f s : Nat → α) {k : Nat} (hk : k < d) :
    ∑ j in Finset.range d, f j * (if j = k then s j else 0) = f k * s k := by
  rw [Finset.sum_eq_single_of_mem k (Finset.mem_range.2 hk) fun j _ hj => by rw [if_neg hj, mul_zero],
    if_pos rfl]

theorem sum_mul_single (d : Nat) (f : Nat → α) (v : α) {k : Nat} (hk : k < d) :
    ∑ j in Finset.range d, f j * (if k = j then v else 0) = f k * v := by
  rw [Finset.sum_eq_single_of_mem k (Finset.mem_range.2 hk)
    fun j _ hj => by rw [if_neg (Ne.symm hj), mul_zero], if_pos rfl]

/-- A row times a diagonal matrix is the row scaled entrywise. -/
theorem IsRow.dgemm_diag {A M : GslMatrix α} {d : Nat} {g s : Nat → α} (hA : IsRow A d g)
    (hM1 : M.size1 = d) (hM2 : M.size2 = d) (hM : ∀ a b, a < d → b < d → M.get a b = if a = b then s a else 0) :
    ∃ B, A.dgemm M = some B ∧ IsRow B d fun k => g k * s k := by
  obtain ⟨B, hB, hr⟩ := hA.dgemm hM1
  refine ⟨B, hB, hr.1, hr.2.1.trans hM2, fun k hk => ?_⟩
  rw [hr.2.2 k (by rw [hM2]; exact hk)]
  dsimp only
  rw [Finset.sum_congr rfl fun j hj => by rw [hM j k (Finset.mem_range.1 hj) hk], sum_mul_diag _ _ _ hk]

/-- The multiplier `b ? dIdentityDx(comb) : dReluDx(comb)` on a combination
column: the diagonal of 1 where `b` holds, of `relu'` otherwise. -/
theorem jacobian_of_column (b : Prop) [Decidable b] {z : GslMatrix α} (hz : z.size2 = 1) :
    ∃ M, (if b then dIdentityDx z else dReluDx z) = some M ∧
      M.size1 = z.size1 ∧ M.size2 = z.size1 ∧ ∀ a c, a < z.size1 → c < z.size1 →
        M.get a c = if a = c then (if b then 1 else if z.get a 0 > 0 then 1 else 0) else 0 := by
  by_cases hb : b
  · obtain ⟨M, hM, h1, h2, hget⟩ := dIdentityDx_of_column hz
    exact ⟨M, by rw [if_pos hb, hM], h1, h2, fun a c ha hc => by rw [hget a c ha hc, if_pos hb]⟩
  · obtain ⟨M, hM, h1, h2, hget⟩ := dReluDx_of_column hz
    exact ⟨M, by rw [if_neg hb, hM], h1, h2, fun a c ha hc => by rw [hget a c ha hc, if_neg hb]⟩

/-- The multiplier of MatrixNNUtils.c:291 on a combination column: the
diagonal of `codeSlope`. -/
theorem multiplier_of_column (nbLayers i : Nat) {z : GslMatrix α} (hz : z.size2 = 1) :
    ∃ M, activationJacobian nbLayers z = some M ∧
      M.size1 = z.size1 ∧ M.size2 = z.size1 ∧ ∀ a b, a < z.size1 → b < z.size1 →
        M.get a b = if a = b then codeSlope nbLayers i (z.get a 0) else 0 :=
  jacobian_of_column _ hz

/-- The pass after the multiplier, from the row `δ` at a layer whose input
is a column with one entry fewer than `W` has columns: the gradient
`δ [a; 1]ᵀ` and the row `(W without its last column)ᵀ δ`. -/
theorem weightGradient_eq {J a W : GslMatrix α} {δ : Nat → α} (hδ : IsRow J W.size1 δ) (ha : a.size2 = 1)
    (hW : W.size2 = a.size1 + 1) :
    ∃ newJac, weightGradient J a W =
        some (ofFn W.size1 W.size2 W.size1_pos W.size2_pos (fun k j => δ k * (extend a).get j 0), newJac) ∧
      IsRow newJac a.size1 fun j => ∑ k in Finset.range W.size1, δ k * W.get k j := by
  -- the weight gradient: `δ` times `dAffineDw`, re-laid out as `W`
  obtain ⟨D, hD, hD1, hD2, hDget⟩ := dAffineDw_of_column ha W
  obtain ⟨Jw, hJw, hr2⟩ := hδ.dgemm hD1
  have hJwget : ∀ c < W.size1 * (a.size1 + 1),
      Jw.get 0 c = δ (c / (a.size1 + 1)) * (extend a).get (c % (a.size1 + 1)) 0 := fun c hc => by
    rw [hr2.2.2 c (hD2 ▸ hc)]
    dsimp only
    rw [Finset.sum_congr rfl fun j hj => by rw [hDget j c (Finset.mem_range.1 hj) hc],
      sum_mul_single _ _ _ ((Nat.div_lt_iff_lt_mul (Nat.succ_pos _)).2 hc)]
  obtain ⟨R, hR, hR1, hR2, hRget⟩ := get_reshape Jw W.size1 W.size2
    (by rw [hr2.1, hr2.2.1, hD2, hW, Nat.one_mul])
  have hRspec : R = ofFn W.size1 W.size2 W.size1_pos W.size2_pos fun k j => δ k * (extend a).get j 0 := by
    refine ext_get hR1 hR2 fun k j hk hj => ?_
    rw [hR1] at hk; rw [hR2] at hj
    have hj' : j < a.size1 + 1 := hW ▸ hj
    have hc : k * (a.size1 + 1) + j < W.size1 * (a.size1 + 1) := cell_lt hk hj'
    have hc' : k * W.size2 + j < Jw.size2 := by rw [hr2.2.1, hD2, hW]; exact hc
    obtain ⟨e1, e2⟩ := div_mod_cell (a := k) hj'
    have hcell : k * W.size2 + j = k * (a.size1 + 1) + j := by rw [hW]
    rw [hRget k j hk hj, Nat.div_eq_of_lt hc', Nat.mod_eq_of_lt hc', hcell, hJwget _ hc, e1, e2, get_ofFn,
      if_pos ⟨hk, hj⟩]
  -- the next row: `δ` times `dAffineDx`
  obtain ⟨X, hX, hX1, hX2, hXget⟩ := dAffineDx_of_wide (W := W) (by rw [hW]; have := a.size1_pos; omega)
  obtain ⟨newJac, hN, hr3⟩ := hδ.dgemm hX1
  refine ⟨newJac, ?_, hr3.1, by rw [hr3.2.1, hX2, hW, Nat.add_sub_cancel], fun j hj => ?_⟩
  · simp only [weightGradient, Option.bind_eq_bind, Option.some_bind, hD, hJw, hR, hX, hN, hRspec]
    rfl
  · rw [hr3.2.2 j (by rw [hX2, hW, Nat.add_sub_cancel]; exact hj)]
    dsimp only
    exact Finset.sum_congr rfl fun k hk =>
      by rw [hXget k j (Finset.mem_range.1 hk) (by rw [hW, Nat.add_sub_cancel]; exact hj)]

/-- One pass of the backward loop, from the row `g` at a layer whose
combination is a column of `W.size1` entries and whose input is a column
with one entry fewer than `W` has columns: the gradient `δ [a; 1]ᵀ` and the
row `(W without its last column)ᵀ δ`, for `δ = g ⊙ codeSlope`. -/
theorem backwardStep_eq (nbLayers i : Nat) {currJac a z W : GslMatrix α} {g : Nat → α}
    (hJ : IsRow currJac W.size1 g) (hz1 : z.size1 = W.size1) (hz2 : z.size2 = 1) (ha : a.size2 = 1)
    (hW : W.size2 = a.size1 + 1) :
    ∃ newJac, backwardStep nbLayers currJac a z W =
        some (ofFn W.size1 W.size2 W.size1_pos W.size2_pos
          (fun k j => g k * codeSlope nbLayers i (z.get k 0) * (extend a).get j 0), newJac) ∧
      IsRow newJac a.size1
        fun j => ∑ k in Finset.range W.size1, g k * codeSlope nbLayers i (z.get k 0) * W.get k j := by
  obtain ⟨M, hM, hM1, hM2, hMget⟩ := multiplier_of_column nbLayers i hz2
  obtain ⟨J, hJ1, hδ⟩ := hJ.dgemm_diag (hM1.trans hz1) (hM2.trans hz1) fun a b ha hb => hMget a b (hz1 ▸ ha) (hz1 ▸ hb)
  obtain ⟨newJac, hN, hrow⟩ := weightGradient_eq hδ ha hW
  exact ⟨newJac, by simp only [backwardStep, Option.bind_eq_bind, hM, Option.some_bind, hJ1, hN], hrow⟩

/-- The backward loop over well-shaped layers is the chain rule with
`codeSlope`. -/
theorem backwardPass_eq (nbLayers : Nat) (layers : List (GslMatrix α × GslMatrix α × GslMatrix α)) :
    ∀ (i d : Nat) (g : Nat → α) (currJac : GslMatrix α), Shaped d layers → IsRow currJac d g →
      backwardPass nbLayers currJac layers = some (gradients (codeSlope nbLayers) i g layers) := by
  induction layers with
  | nil => intros; rfl
  | cons l layers ih =>
    obtain ⟨a, z, W⟩ := l
    rintro i d g currJac ⟨hz1, hz2, hW1, ha, hW, hs⟩ hJ
    subst hW1
    obtain ⟨newJac, hstep, hrow⟩ := backwardStep_eq nbLayers i hJ hz1 hz2 ha hW
    simp only [backwardPass, Option.bind_eq_bind, hstep, Option.some_bind,
      ih (i - 1) a.size1 _ newJac hs hrow]
    rfl

/-- The record of a forward loop that runs: its layers, from the last one
down, are well shaped from the output's size down to the input's. -/
theorem forwardPass_shaped (nbLayers : Nat) (allW : List (GslMatrix α)) :
    ∀ (i : Nat) (x : GslMatrix α) (r : List (GslMatrix α) × List (GslMatrix α) × GslMatrix α),
      x.size2 = 1 → forwardPass nbLayers i x allW = some r →
        Shaped r.2.2.size1 (r.1.zip (r.2.1.zip allW)).reverse ∧
          bottom r.2.2.size1 (r.1.zip (r.2.1.zip allW)).reverse = x.size1 := by
  induction allW with
  | nil =>
    rintro i x r - h
    cases h
    exact ⟨trivial, rfl⟩
  | cons W allW ih =>
    intro i x r hx h
    rw [forwardPass_cons] at h
    obtain ⟨comb, hc, h⟩ := Option.bind_eq_some.1 h
    obtain ⟨-, hW, hc1, hc2⟩ := affine_eq_some hc
    rw [activation_of_column nbLayers i hc2, Option.some_bind] at h
    obtain ⟨r', hr', rfl⟩ := Option.map_eq_some'.1 h
    have hnext : (if i = nbLayers - 1 then comb else comb.map fun old => max old 0).size2 = 1 ∧
        (if i = nbLayers - 1 then comb else comb.map fun old => max old 0).size1 = comb.size1 := by
      split_ifs <;> exact ⟨hc2, rfl⟩
    obtain ⟨hs, hb⟩ := ih (i + 1) _ r' hnext.1 hr'
    simp only [List.zip_cons_cons, List.reverse_cons]
    refine ⟨(shaped_concat _ _ _ _ _).2 ⟨hs, ?_⟩, bottom_concat _ _ _ _ _⟩
    rw [hb, hnext.2]
    exact ⟨rfl, hc2, hc1.symm, hx, hW, trivial⟩

/-- For every input column, every non-empty list of weights the forward loop
runs through and every target column of the output's size,
`backpropagation` computes the chain rule with the multipliers of
MatrixNNUtils.c:291 (`codeSlope`). -/
theorem backpropagation_eq_lossGradient (x y : GslMatrix α) (allW : List (GslMatrix α))
    (hx : x.size2 = 1) (hW : allW ≠ []) {out : GslMatrix α} (hout : forward x allW = some out)
    (hy : y.size1 = out.size1 ∧ y.size2 = 1) :
    backpropagation x y allW = lossGradient codeSlope x y allW := by
  obtain ⟨r, hr, rfl⟩ := Option.map_eq_some'.1 hout
  have hcol := forwardPass_output_column allW.length allW hW 0 x r hr
  obtain ⟨hs, -⟩ := forwardPass_shaped allW.length allW 0 x r hx hr
  obtain ⟨J, hJ, hJ1, hJ2, hJget⟩ := dL2Dx_of_column hcol hy
  have hrow : IsRow J r.2.2.size1 fun k => 2 * (r.2.2.get k 0 - y.get k 0) :=
    ⟨hJ1, hJ2, fun k hk => by rw [hJget k hk, mul_comm]⟩
  rw [backpropagation, if_pos (by simp [isVector_of_column hx, isVector_of_column hy.2]), lossGradient, hr]
  simp only [Option.bind_eq_bind, Option.some_bind, Option.map_some', hJ,
    backwardPass_eq allW.length _ (allW.length - 1) _ _ J hs hrow]
  rfl

/-- Two slopes that agree at every entry of every combination of the record
give the same gradients. -/
theorem gradients_congr {s s' : Nat → α → α} (layers : List (GslMatrix α × GslMatrix α × GslMatrix α))
    (h : ∀ t ∈ layers, ∀ i, ∀ k < t.2.2.size1, s i (t.2.1.get k 0) = s' i (t.2.1.get k 0)) :
    ∀ (i : Nat) (g : Nat → α), gradients s i g layers = gradients s' i g layers := by
  induction layers with
  | nil => intros; rfl
  | cons l layers ih =>
    obtain ⟨a, z, W⟩ := l
    intro i g
    have hl : ∀ k < W.size1, s i (z.get k 0) = s' i (z.get k 0) := h _ (List.mem_cons_self _ _) i
    have hg : (fun j => ∑ k in Finset.range W.size1, g k * s i (z.get k 0) * W.get k j) =
        fun j => ∑ k in Finset.range W.size1, g k * s' i (z.get k 0) * W.get k j :=
      funext fun j => Finset.sum_congr rfl fun k hk => by rw [hl k (Finset.mem_range.1 hk)]
    simp only [gradients, hg, ih (fun t ht => h t (List.mem_cons_of_mem _ ht))]
    congr 1
    exact ext_get rfl rfl fun k j hk _ => by simp [hk, ‹j < W.size2›, hl k hk]

end Network

end WasmContracts