import WasmContracts.L2Network.Training
import Mathlib.Algebra.Order.Field.Rat
import WasmContracts.L2Network.Init
import WasmContracts.L2Network.Normalize
/-!
# Scoring the trained network (`testContract`)

`testContract` (ClassificationContract.c:107-141) runs `nn` on every test
sample, made a column, and counts the samples whose predicted class, the
index of the largest output, is the index of the largest entry of the
expected row. It returns the count over the number of samples, or `-1` for an
untrained contract or a `NULL` from `nn`. Row `i` of `testOutput` is taken by
`gsl_matrix_const_submatrix`, whose range check aborts when `testOutput` has
fewer rows than `testInput`; the calls of this module therefore end in an
`Outcome`.

The contract's life is `constructContract` (the four data arrays read
row-major by `fromArray`), `normalizeContract` (both inputs standardised by
`normalize`), `trainContract` (the weights `train` returns, or `NULL`) and
`testContract`.

Results:
* `testContract_range`: the test aborts, or its score is `-1` or lies in
  `[0, 1]`.
* `testContract_trained`: on trained weights that compose from the test
  inputs' size and an expected row for every sample, no call fails, and the
  score is the fraction of samples classified as expected.
* `prediction_of_nonpos`: where the trained network's outputs are all
  nonpositive, `nn` returns the zero column (`Bugs/InferenceRelu.lean`) and
  the predicted class is 0, whichever output the trained network ranks first.
* `fromArray_roundTrip`: a matrix and its row-major flat array determine
  each other, in both directions.
* `contract_lifecycle`: construction aborts exactly on a size of 0 and never
  returns `NULL`; after it, normalizing succeeds, training aborts exactly on a
  hidden layer of 0 and otherwise stores weights of the shapes of
  `dimensions`, and the score is the fraction of test samples classified as
  expected.
-/
namespace WasmContracts

namespace Network

open GslMatrix

variable {α : Type} [LinearOrderedField α]

-- The networks below are evaluated by `decide`; Batteries seals the rational operations.
attribute [local semireducible] Rat.add Rat.mul Rat.sub Rat.inv

/-- Modelled from GSL: `gsl_vector_max_index` over the entries `v 0`, ...,
`v (n - 1)`, the lowest index of a largest entry. -/
def maxIndex (v : Nat → α) (n : Nat) : Nat :=
  (List.range n).foldl (fun imax i => if v i > v imax then i else imax) 0

/-- The class a result of `nn` predicts, ClassificationContract.c:127-128:
its first row if it has one row, else its first column. -/
def prediction (result : GslMatrix α) : Nat :=
  if result.size1 = 1 then maxIndex (fun j => result.get 0 j) result.size2
  else maxIndex (fun i => result.get i 0) result.size1

/-- mirrors ClassificationContract.h: `dimensions` is the `int` array with its
length `nbDimensions`; `allW` is `NULL` until `trainContract`, then
`nbDimensions - 1` matrices. -/
structure ClassificationContract (α : Type) where
  trainInput : GslMatrix α
  testInput : GslMatrix α
  trainOutput : GslMatrix α
  testOutput : GslMatrix α
  dimensions : List Nat
  allW : Option (List (GslMatrix α))

/-- Whether test sample `i` is classified as expected,
ClassificationContract.c:117-135: `null` where `nn` returns `NULL`, `stop`
where GSL refuses row `i` of `testOutput`. The expected class is read from
that row as the predicted one is from `nn`'s result (lines 128, 131). -/
def classifies (contract : ClassificationContract α) (allW : List (GslMatrix α)) (i : Nat) :
    Outcome Bool := do
  let tInRow ← Outcome.orStop (rowColumn contract.testInput i)
  let result ← Outcome.orNull (nn tInRow allW)
  let outRow ← Outcome.orStop (contract.testOutput.row i)
  pure (prediction result == prediction outRow)

/-- The loop of ClassificationContract.c:115-138: the number of samples
classified as expected, up to the first `NULL` or abort. -/
def countSame (contract : ClassificationContract α) (allW : List (GslMatrix α)) : Outcome Nat :=
  (List.range contract.testInput.size1).foldlM (fun nbSame i =>
    (fun same => if same then nbSame + 1 else nbSame) <$> classifies contract allW i) 0

/-- mirrors ClassificationContract.c:107-141 -/
def testContract (contract : ClassificationContract α) : Outcome α :=
  match contract.allW with
  | none => .ok (-1)
  | some allW =>
    match countSame contract allW with
    | .ok nbSame => .ok ((nbSame : α) / contract.testInput.size1)
    | .null => .ok (-1)
    | .stop => .stop

/-- One test sample `[1]` of class 1 of two, and one layer with weights 0
and biases `-2`, `-1`: the trained network outputs `[-2, -1]`. -/
def clippedContract : ClassificationContract ℚ where
  trainInput := ofFn 1 1 Nat.one_pos Nat.one_pos fun _ _ => 1
  testInput := ofFn 1 1 Nat.one_pos Nat.one_pos fun _ _ => 1
  trainOutput := ofFn 1 2 Nat.one_pos Nat.two_pos fun _ j => if j = 1 then 1 else 0
  testOutput := ofFn 1 2 Nat.one_pos Nat.two_pos fun _ j => if j = 1 then 1 else 0
  dimensions := [1, 2]
  allW := some [ofFn 2 2 Nat.two_pos Nat.two_pos fun i j => if j = 0 then 0 else if i = 0 then -2 else -1]

/-! ## The score -/

theorem foldlM_count_le (g : Nat → Outcome Bool) :
    ∀ (l : List Nat) (a n : Nat),
      l.foldlM (fun k i => (fun same => if same then k + 1 else k) <$> g i) a = .ok n → n ≤ a + l.length
  | [], a, n, h => by cases h; exact Nat.le_add_right _ _
  | i :: l, a, n, h => by
    obtain ⟨k, hk, h⟩ := Outcome.bind_eq_ok.1 h
    have := foldlM_count_le g l k n h
    dsimp only at hk
    cases hg : g i with
    | ok b => rw [hg, Outcome.map_ok, Outcome.ok.injEq] at hk; subst hk; cases b <;> simp at this ⊢ <;> omega
    | null => rw [hg] at hk; cases hk
    | stop => rw [hg] at hk; cases hk

theorem foldlM_count_eq (g : Nat → Outcome Bool) :
    ∀ (l : List Nat) (a : Nat), (∀ i ∈ l, ∃ b, g i = .ok b) →
      l.foldlM (fun k i => (fun same => if same then k + 1 else k) <$> g i) a =
        .ok (a + (l.filter fun i => (g i).getD false).length)
  | [], a, _ => rfl
  | i :: l, a, h => by
    obtain ⟨b, hb⟩ := h i (List.mem_cons_self _ _)
    simp only [List.foldlM_cons, hb, Outcome.map_ok, Outcome.ok_bind,
      foldlM_count_eq g l _ fun j hj => h j (List.mem_cons_of_mem _ hj), List.filter_cons, Outcome.getD_ok]
    cases b
    · simp
    · simp; omega

/-- The test of every contract aborts, or returns `-1` or a fraction in
`[0, 1]`. -/
theorem testContract_range (contract : ClassificationContract α) :
    testContract contract = .stop ∨
      ∃ score, testContract contract = .ok score ∧ (score = -1 ∨ (0 ≤ score ∧ score ≤ 1)) := by
  unfold testContract
  split
  · exact .inr ⟨-1, rfl, .inl rfl⟩
  · rename_i allW _
    split
    · rename_i nbSame h
      have hle := foldlM_count_le (classifies contract allW) _ 0 nbSame h
      have hT : (0 : α) < contract.testInput.size1 := Nat.cast_pos.2 contract.testInput.size1_pos
      rw [List.length_range, Nat.zero_add] at hle
      exact .inr ⟨_, rfl, .inr ⟨div_nonneg (Nat.cast_nonneg _) hT.le, (div_le_one hT).2 (Nat.cast_le.2 hle)⟩⟩
    · exact .inr ⟨-1, rfl, .inl rfl⟩
    · exact .inl rfl

theorem nn_composable (x : GslMatrix α) (hx : x.size2 = 1) (allW : List (GslMatrix α)) (hW : allW ≠ [])
    {e : Nat} (hc : Composable x.size1 allW e) :
    ∃ out, nn x allW = some out ∧ out.size1 = e ∧ out.size2 = 1 := by
  obtain ⟨r, hr, hr1, hr2, -⟩ := forwardPass_composable allW.length e allW 0 x hx hc
  refine ⟨r.2.2.map fun old => max old 0, ?_, hr1, hr2⟩
  rw [nn_eq_relu_forward x hx allW hW, forward, hr, Option.map_some', Option.some_bind, relu_of_column hr2]

theorem testContract_eq_count (contract : ClassificationContract α) (allW : List (GslMatrix α))
    (h : contract.allW = some allW) (hW : allW ≠ []) {e : Nat}
    (hc : Composable contract.testInput.size2 allW e) (hrows : contract.testInput.size1 ≤ contract.testOutput.size1) :
    testContract contract =
      .ok ((((List.range contract.testInput.size1).filter fun i =>
          (classifies contract allW i).getD false).length : α) / contract.testInput.size1) := by
  have hsome : ∀ i ∈ List.range contract.testInput.size1, ∃ b, classifies contract allW i = .ok b := by
    intro i hi
    have hi := List.mem_range.1 hi
    obtain ⟨out, hout, -⟩ := nn_composable (ofFn contract.testInput.size2 1 contract.testInput.size2_pos
      Nat.one_pos fun k _ => contract.testInput.get i k) rfl allW hW hc
    rw [classifies, rowColumn_of_lt _ hi, row_of_lt _ (hi.trans_le hrows)]
    simp only [Outcome.orStop_some, Outcome.ok_bind, hout, Outcome.orNull_some, Outcome.pure_eq]
    exact ⟨_, rfl⟩
  have hcount : countSame contract allW = .ok _ :=
    (foldlM_count_eq (classifies contract allW) _ 0 hsome).trans (by rw [Nat.zero_add])
  rw [testContract, h]
  simp only [hcount]

/-- On trained weights that compose from the size of the test inputs, and
expected outputs with a row for every sample, no call of the loop fails and
the score is the fraction of test samples classified as expected. -/
theorem testContract_trained (contract : ClassificationContract α) (allW : List (GslMatrix α))
    (h : contract.allW = some allW) (hW : allW ≠ []) {e : Nat}
    (hc : Composable contract.testInput.size2 allW e) (hrows : contract.testInput.size1 ≤ contract.testOutput.size1) :
    testContract contract =
      .ok ((((List.range contract.testInput.size1).filter fun i =>
          (classifies contract allW i).getD false).length : α) / contract.testInput.size1) :=
  testContract_eq_count contract allW h hW hc hrows

theorem clippedContract_score :
    testContract clippedContract =
      .ok ((((List.range clippedContract.testInput.size1).filter fun i =>
          (classifies clippedContract [ofFn 2 2 Nat.two_pos Nat.two_pos
            fun i j => if j = 0 then 0 else if i = 0 then -2 else -1] i).getD false).length : ℚ) /
        clippedContract.testInput.size1) ∧ testContract clippedContract = .ok 0 :=
  ⟨testContract_trained clippedContract _ rfl (List.cons_ne_nil _ _) (e := 2) (by decide) (by decide),
    by decide⟩

/-! ## Nonpositive outputs -/

theorem maxIndex_const (v : Nat → α) (n : Nat) {c : α} (h : ∀ i < n, v i = c) : maxIndex v n = 0 := by
  unfold maxIndex
  suffices ∀ l : List Nat, (∀ i ∈ l, i < n) → l.foldl (fun imax i => if v i > v imax then i else imax) 0 = 0 from
    this _ fun i hi => List.mem_range.1 hi
  intro l hl
  induction l using List.reverseRecOn with
  | nil => rfl
  | append_singleton l i ih =>
    rw [List.foldl_append, ih fun j hj => hl j (List.mem_append_left _ hj), List.foldl_cons, List.foldl_nil]
    have hi := hl i (List.mem_append_right _ (List.mem_singleton_self _))
    rw [if_neg (by rw [h i hi, h 0 (Nat.lt_of_le_of_lt (Nat.zero_le _) hi)]; exact lt_irrefl c)]

/-- Wherever the trained network's outputs are all nonpositive, `nn`
returns the zero column of their size and predicts class 0, whichever output
the trained network ranks first. -/
theorem prediction_of_nonpos (x : GslMatrix α) (hx : x.size2 = 1) (allW : List (GslMatrix α))
    (hW : allW ≠ []) {out : GslMatrix α} (hout : forward x allW = some out)
    (hneg : ∀ k < out.size1, out.get k 0 ≤ 0) :
    ∃ res, nn x allW = some res ∧ res.size1 = out.size1 ∧ res.size2 = 1 ∧ (∀ k j, res.get k j = 0) ∧
      prediction res = 0 := by
  obtain ⟨r, hr, rfl⟩ := Option.map_eq_some'.1 hout
  have hcol := forwardPass_output_column allW.length allW hW 0 x r hr
  have hzero : ∀ k j, (r.2.2.map fun old => max old 0).get k j = 0 := by
    intro k j
    by_cases hk : k < r.2.2.size1 ∧ j < r.2.2.size2
    · rw [get_map _ _ hk.1 hk.2]
      obtain rfl : j = 0 := by rw [hcol] at hk; exact Nat.lt_one_iff.1 hk.2
      exact max_eq_right (hneg k hk.1)
    · exact get_of_not_lt _ hk
  refine ⟨r.2.2.map fun old => max old 0, ?_, rfl, hcol, hzero, ?_⟩
  · rw [nn_eq_relu_forward x hx allW hW, hout, Option.some_bind, relu_of_column hcol]
  · unfold prediction
    split_ifs
    · exact maxIndex_const _ _ fun j _ => hzero 0 j
    · exact maxIndex_const _ _ fun i _ => hzero i 0

theorem clipped_prediction :
    (∃ res, nn (ofFn 1 1 Nat.one_pos Nat.one_pos fun _ _ => (1 : ℚ))
        [ofFn 2 2 Nat.two_pos Nat.two_pos fun i j => if j = 0 then 0 else if i = 0 then -2 else -1] = some res ∧
        res.size2 = 1 ∧ (∀ k j, res.get k j = 0) ∧ prediction res = 0) ∧
      (forward (ofFn 1 1 Nat.one_pos Nat.one_pos fun _ _ => (1 : ℚ))
        [ofFn 2 2 Nat.two_pos Nat.two_pos fun i j => if j = 0 then 0 else if i = 0 then -2 else -1]).map
        prediction = some 1 :=
  let ⟨res, h, _, h2, h0, hp⟩ :=
    prediction_of_nonpos _ rfl _ (List.cons_ne_nil _ _) (Option.eq_some_of_isSome (by decide)) (by decide)
  ⟨⟨res, h, h2, h0, hp⟩, by decide⟩

/-! ## The contract's life: construct, normalize, train, test -/

/-- mirrors ClassificationContract.c:5-16; `data[k]` is `data k`. `none` is
the abort of `gsl_matrix_calloc` on a zero size; the `NULL` check of line 7
after it is never reached. -/
def fromArray (data : Nat → α) (rows cols : Nat) : Option (GslMatrix α) :=
  (calloc rows cols).map fun matrix =>
    (List.range rows).foldl (fun matrix i =>
      (List.range cols).foldl (fun matrix j => matrix.set i j (data (i * cols + j))) matrix) matrix

/-- mirrors ClassificationContract.c:18-69; `hiddenLayers[i]` is
`hiddenLayers i`. An abort in `fromArray` ends the process before the `NULL`
checks of line 34; the `calloc`s of the record and of `dimensions` are taken
to succeed, so no `NULL` is returned. -/
def constructContract (X Y tX tY : Nat → α) (hiddenLayers : Nat → Nat) (N M C T nbLayers : Nat) :
    Outcome (ClassificationContract α) := do
  let mX ← Outcome.orStop (fromArray X N M)
  let mY ← Outcome.orStop (fromArray Y N C)
  let mtX ← Outcome.orStop (fromArray tX T M)
  let mtY ← Outcome.orStop (fromArray tY T C)
  pure
    { trainInput := mX, testInput := mtX, trainOutput := mY, testOutput := mtY,
      dimensions := M :: (List.range nbLayers).map hiddenLayers ++ [C], allW := none }

/-- mirrors ClassificationContract.c:86-97 with math.h's `sqrt` as a
parameter. `normalize` fails only where its `gsl_matrix_calloc` aborts,
which never happens on a matrix (`normalize_eq`). -/
def normalizeContract (sqrt : α → α) (contract : ClassificationContract α) :
    Outcome (ClassificationContract α) := do
  let normX ← Outcome.orStop (normalize sqrt contract.trainInput)
  let normtX ← Outcome.orStop (normalize sqrt contract.testInput)
  pure { contract with trainInput := normX, testInput := normtX }

/-- mirrors ClassificationContract.c:99-105: `allW` is what `train` returns,
`NULL` included. -/
def trainContract (sqrt : α → α) (contract : ClassificationContract α) (numEpoch : Nat)
    (learningRate : α) : Outcome (ClassificationContract α) :=
  match train sqrt contract.trainInput contract.trainOutput contract.dimensions numEpoch learningRate with
  | .ok allW => .ok { contract with allW := some allW }
  | .null => .ok { contract with allW := none }
  | .stop => .stop

theorem fromArray_of_pos (data : Nat → α) {rows cols : Nat} (h1 : 0 < rows) (h2 : 0 < cols) :
    fromArray data rows cols = some (ofFn rows cols h1 h2 fun i j => data (i * cols + j)) := by
  rw [fromArray, calloc_of_pos h1 h2, Option.map_some', foldl_range_mul]
  simp only [Nat.div_add_mod']
  change some (setAll (fun n => (n / cols, n % cols)) data _ (List.range (rows * cols))) = _
  refine congrArg some (ext_get (setAll_size1 _ _ _ _) (setAll_size2 _ _ _ _) fun i j hi hj => ?_)
  rw [setAll_size1, ofFn_size1] at hi
  rw [setAll_size2, ofFn_size2] at hj
  rw [get_ofFn, if_pos ⟨hi, hj⟩]
  exact get_setAll_rowMajor data _ (show rows ≤ rows from le_rfl) (show cols ≤ cols from le_rfl) hi hj

theorem fromArray_eq_none (data : Nat → α) (rows cols : Nat) :
    fromArray data rows cols = none ↔ rows = 0 ∨ cols = 0 := by
  by_cases h : 0 < rows ∧ 0 < cols
  · rw [fromArray_of_pos data h.1 h.2]
    simp only [reduceCtorEq, false_iff]
    omega
  · rw [fromArray, calloc, dif_neg h]
    simp only [Option.map_none', true_iff]
    omega

/-- The flat arrays the contract is given and its matrices are one format read
two ways: every `rows × cols` matrix is the `fromArray` of its own row-major
flattening, and what `fromArray` builds flattens back to its array, cell `n`
for every `n < rows * cols`. -/
theorem fromArray_roundTrip (rows cols : Nat) :
    (∀ m : GslMatrix α, m.size1 = rows → m.size2 = cols →
      fromArray (fun n => m.get (n / cols) (n % cols)) rows cols = some m) ∧
    ∀ (data : Nat → α) (m : GslMatrix α), fromArray data rows cols = some m →
      m.size1 = rows ∧ m.size2 = cols ∧ ∀ n < rows * cols, m.get (n / cols) (n % cols) = data n := by
  refine ⟨?flatten, ?read⟩
  case flatten =>
    rintro m rfl rfl
    rw [fromArray_of_pos _ m.size1_pos m.size2_pos]
    refine congrArg some (ext_get rfl rfl fun i j hi hj => ?_)
    have hj' : j < m.size2 := hj
    obtain ⟨e1, e2⟩ := div_mod_cell (a := i) hj'
    rw [get_ofFn, if_pos ⟨hi, hj'⟩, e1, e2]
  case read =>
    intro data m h
    have hpos : 0 < rows ∧ 0 < cols := by
      by_contra hz
      rw [(fromArray_eq_none data rows cols).2 (by omega)] at h
      cases h
    rw [fromArray_of_pos data hpos.1 hpos.2, Option.some_inj] at h
    subst h
    refine ⟨rfl, rfl, fun n hn => ?_⟩
    rw [get_ofFn, if_pos ⟨Nat.div_lt_of_lt_mul (Nat.mul_comm rows cols ▸ hn), Nat.mod_lt n hpos.2⟩, Nat.div_add_mod']

theorem fromArray_two_by_three :
    fromArray (fun n => (ofFn 2 3 (by decide) (by decide) fun i j => ((i * 3 + j : Nat) : ℚ)).get
      (n / 3) (n % 3)) 2 3 = some (ofFn 2 3 (by decide) (by decide) fun i j => ((i * 3 + j : Nat) : ℚ)) :=
  (fromArray_roundTrip 2 3).1 _ rfl rfl

theorem constructContract_of_pos (X Y tX tY : Nat → α) (hiddenLayers : Nat → Nat) {N M C T : Nat}
    (nbLayers : Nat) (hN : 0 < N) (hM : 0 < M) (hC : 0 < C) (hT : 0 < T) :
    constructContract X Y tX tY hiddenLayers N M C T nbLayers = .ok
      { trainInput := ofFn N M hN hM fun i j => X (i * M + j),
        testInput := ofFn T M hT hM fun i j => tX (i * M + j),
        trainOutput := ofFn N C hN hC fun i j => Y (i * C + j),
        testOutput := ofFn T C hT hC fun i j => tY (i * C + j),
        dimensions := M :: (List.range nbLayers).map hiddenLayers ++ [C], allW := none } := by
  rw [constructContract, fromArray_of_pos X hN hM, fromArray_of_pos Y hN hC, fromArray_of_pos tX hT hM,
    fromArray_of_pos tY hT hC]
  rfl

theorem constructContract_of_zero (X Y tX tY : Nat → α) (hiddenLayers : Nat → Nat) (N M C T nbLayers : Nat)
    (h : N = 0 ∨ M = 0 ∨ C = 0 ∨ T = 0) :
    constructContract X Y tX tY hiddenLayers N M C T nbLayers = .stop := by
  have hX := fromArray_eq_none X N M
  have hY := fromArray_eq_none Y N C
  have htX := fromArray_eq_none tX T M
  rw [constructContract]
  rcases Nat.eq_zero_or_pos N with hN | hN
  · rw [hX.2 (.inl hN)]; rfl
  rcases Nat.eq_zero_or_pos M with hM | hM
  · rw [hX.2 (.inr hM)]; rfl
  rw [fromArray_of_pos X hN hM]
  rcases Nat.eq_zero_or_pos C with hC | hC
  · rw [hY.2 (.inr hC)]; rfl
  rw [fromArray_of_pos Y hN hC, htX.2 (.inl (by omega))]
  rfl

theorem normalizeContract_eq (sqrt : α → α) (contract : ClassificationContract α) :
    ∃ normX normtX, normalize sqrt contract.trainInput = some normX ∧
      normalize sqrt contract.testInput = some normtX ∧
      normalizeContract sqrt contract = .ok { contract with trainInput := normX, testInput := normtX } :=
  ⟨_, _, normalize_eq sqrt _, normalize_eq sqrt _, by rw [normalizeContract, normalize_eq, normalize_eq]; rfl⟩

theorem trainContract_of_ok {sqrt : α → α} {c : ClassificationContract α} {numEpoch : Nat}
    {learningRate : α} {allW : List (GslMatrix α)}
    (h : train sqrt c.trainInput c.trainOutput c.dimensions numEpoch learningRate = .ok allW) :
    trainContract sqrt c numEpoch learningRate = .ok { c with allW := some allW } := by
  simp only [trainContract, h]

/-- The life of a contract on data of positive sizes never stops:
`constructContract` aborts exactly when a size is 0 and never returns
`NULL`; after it `normalizeContract` succeeds, and `trainContract` aborts
when a hidden layer is 0 and otherwise stores weights of the shapes of
`dimensions` for every number of epochs and learning rate, on which
`testContract` returns the fraction of test samples classified as expected,
never `-1`. -/
theorem contract_lifecycle (sqrt : α → α) (X Y tX tY : Nat → α) (hiddenLayers : Nat → Nat)
    (N M C T nbLayers : Nat) :
    (constructContract X Y tX tY hiddenLayers N M C T nbLayers = .stop ↔ N = 0 ∨ M = 0 ∨ C = 0 ∨ T = 0) ∧
    constructContract X Y tX tY hiddenLayers N M C T nbLayers ≠ .null ∧
    ∀ contract, constructContract X Y tX tY hiddenLayers N M C T nbLayers = .ok contract →
      ∃ normalized, normalizeContract sqrt contract = .ok normalized ∧
        ∀ (numEpoch : Nat) (learningRate : α),
          ((∃ i < nbLayers, hiddenLayers i = 0) → trainContract sqrt normalized numEpoch learningRate = .stop) ∧
          ((∀ i < nbLayers, 0 < hiddenLayers i) → ∃ trained allW,
            trainContract sqrt normalized numEpoch learningRate = .ok trained ∧ trained.allW = some allW ∧
            allW.map shape = (contract.dimensions.tail.zip contract.dimensions).map (fun p => (p.1, p.2 + 1)) ∧
            testContract trained =
              .ok ((((List.range T).filter fun i => (classifies trained allW i).getD false).length : α) / T)) := by
  by_cases hpos : 0 < N ∧ 0 < M ∧ 0 < C ∧ 0 < T
  case neg =>
    have hstop := constructContract_of_zero X Y tX tY hiddenLayers N M C T nbLayers (by omega)
    exact ⟨iff_of_true hstop (by omega), by rw [hstop]; simp, fun contract hc => by rw [hstop] at hc; cases hc⟩
  obtain ⟨hN, hM, hC, hT⟩ := hpos
  have hok := constructContract_of_pos X Y tX tY hiddenLayers nbLayers hN hM hC hT
  refine ⟨iff_of_false (by rw [hok]; simp) (by omega), by rw [hok]; simp, fun contract hc => ?_⟩
  rw [hok, Outcome.ok.injEq] at hc
  subst hc
  obtain ⟨normX, normtX, hX, htX, hnorm⟩ := normalizeContract_eq sqrt _
  refine ⟨_, hnorm, fun numEpoch learningRate => ⟨fun ⟨i, hi, h0⟩ => ?zero, fun hhidden => ?pos⟩⟩
  case zero =>
    have hnone : ((M :: ((List.range nbLayers).map hiddenLayers ++ [C])).zip
        ((List.range nbLayers).map hiddenLayers ++ [C])).mapM (fun p => initMatrix sqrt p.2 p.1) = none :=
      (mapM_initMatrix_eq_none sqrt M _).2 (List.mem_append_left _ (List.mem_map.2 ⟨i, List.mem_range.2 hi, h0⟩))
    have hinit : initNetwork sqrt (M :: ((List.range nbLayers).map hiddenLayers ++ [C])) = .stop := by
      rw [initNetwork_cons sqrt M (by simp), hnone, Outcome.orStop_none]
    simp only [trainContract, train, List.cons_append, hinit]
  case pos =>
    have hds : (List.range nbLayers).map hiddenLayers ++ [C] ≠ [] := by simp
    have hlayers : ∀ e ∈ (List.range nbLayers).map hiddenLayers ++ [C], 0 < e := by
      simp only [List.mem_append, List.mem_map, List.mem_range, List.mem_singleton]
      rintro e (⟨i, hi, rfl⟩ | rfl)
      exacts [hhidden i hi, hC]
    obtain ⟨allW, htrain, hs, hcomp⟩ := train_of_dimensions sqrt normX (ofFn N C hN hC fun i j => Y (i * C + j))
      M _ hds hlayers ((normalize_size hX).2) (by simp) (by rw [(normalize_size hX).1]; rfl) numEpoch learningRate
    have hW : allW ≠ [] := fun h0 => by simp [h0] at hs
    refine ⟨_, allW, trainContract_of_ok htrain, rfl, hs, ?_⟩
    have htest : Composable normtX.size2 allW C := by rw [(normalize_size htX).2]; simpa using hcomp
    rw [testContract_eq_count _ allW rfl hW htest (by simp only [(normalize_size htX).1, ofFn_size1]; rfl)]
    simp only [(normalize_size htX).1, ofFn_size1]

theorem two_class_lifecycle :
    ∃ contract normalized,
      constructContract (α := ℝ) (fun n => n) (fun n => n) (fun n => n) (fun n => n) (fun _ => 2) 2 1 2 1 1 =
        .ok contract ∧
      normalizeContract Real.sqrt contract = .ok normalized ∧
      ∀ (numEpoch : Nat) (learningRate : ℝ), ∃ trained allW,
        trainContract Real.sqrt normalized numEpoch learningRate = .ok trained ∧ trained.allW = some allW ∧
        allW.map shape = [(2, 2), (2, 3)] := by
  have hc := constructContract_of_pos (α := ℝ) (fun n => n) (fun n => n) (fun n => n) (fun n => n) (fun _ => 2) 1
    (by decide : 0 < 2) (by decide : 0 < 1) (by decide : 0 < 2) (by decide : 0 < 1)
  obtain ⟨normalized, hn, htrain⟩ := (contract_lifecycle Real.sqrt (fun n => (n : ℝ)) (fun n => n) (fun n => n)
    (fun n => n) (fun _ => 2) 2 1 2 1 1).2.2 _ hc
  refine ⟨_, normalized, hc, hn, fun numEpoch learningRate => ?_⟩
  obtain ⟨trained, allW, h, ha, hs, -⟩ := (htrain numEpoch learningRate).2 (by decide)
  exact ⟨trained, allW, h, ha, hs.trans rfl⟩

end Network

end WasmContracts
