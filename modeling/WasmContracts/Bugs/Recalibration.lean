import WasmContracts.Bugs.NaiveRevert
/-!
# Phase 2 recalibrates the wrong way round (optimized contract)

Status: open.

Behaviour (Optimized/DistributionContract.c:91-95):

    if(newTotalStake != 0) { contract->incrementPerRevenue = INCR_PER_REV_INIT; }
    else if(oldTotalStake != 0) { contract->incrementPerRevenue *= oldTotalStake / newTotalStake; }

The reset runs whenever the new total is nonzero; the rescaling runs only
when it is zero, and then divides by zero.

* While stake remains, `incrementPerRevenue` is always `INCR_PER_REV_INIT`,
  so an injection raises `index` by `INCR_PER_REV_INIT * amount` whatever the
  total. A holder's settlement divides by the total *at its snapshot*
  (`injection_settles_at_snapshot_total`), where the naive contract divides
  by the total in force at the injection. A holder who staked before others
  joined is paid as if it still held the whole pool.
* Withdrawing the whole stake sets `incrementPerRevenue` to `old / 0 = +∞`
  (`emptying_change_infinite`); the next injection sets `index` to `+∞`, and
  `index` never leaves it (`index_posInf_absorbing`).

Spec clause: §4.3 step 4, Phase 2 "recalibrates relative to the ratio of old
to new total stake when total stake is nonzero, and resets to the initial
constant when total stake is zero"; §8, "Equivalence under settlement": A
stakes 40, B stakes 60, `addRevenue(100)`, then A changes by `+1`; A's
settled revenue must be what the naive contract pays A, 40.

Counterexamples: the §8 scenario settles A at 100 (`settlement_overpays`);
staking 10 and withdrawing it leaves `incrementPerRevenue = +∞`, and
`addRevenue(1)` then makes `index = +∞` (`withdraw_all_infinite_increment`).

Fix: swap the two conditions, so that an empty pool resets the increment and
a nonempty one rescales it by `oldTotalStake / newTotalStake`. Then
`incrementPerRevenue * totalStake` stays what every staked holder
snapshotted, a holder's settlement divides each injection by the total in
force at it, and on every run that injects only while stake is held the
contract is the proportional split (`fixed_owes_proportional`), owes its
holders in all exactly the revenue injected (`fixed_conserves_revenue`), and
owes every holder what the naive contract pays it (`fixed_settles_as_naive`,
spec §8).
With the fix of `Bugs/NaiveRevert.lean` as well, the two contracts owe every
holder the same on every such run, rejected calls included
(`fixes_settle_alike`).
-/
namespace WasmContracts.Bugs.Recalibration

open Optimized Double
open Split (Holding holding part proportional)

/-! ## What the defect does, on every run -/

-- The runs below are evaluated by `decide`; Batteries seals the rational operations.
attribute [local semireducible] Rat.add Rat.mul Rat.sub Rat.inv

/-- An accepted `changeShare` that empties the pool leaves
`incrementPerRevenue = +∞`: Phase 2 has divided by the new total, zero. -/
theorem emptying_change_infinite (calls : List Call) (dest : Option String) (change : ℚ)
    (hacc : (exec (run calls) (.changeShare dest change)).2 = EXIT_SUCCESS)
    (hzero : (exec (run calls) (.changeShare dest change)).1.totalStake = 0) :
    (exec (run calls) (.changeShare dest change)).1.incrementPerRevenue = posInf := by
  have hc := inv_run calls
  cases dest with
  | none => exact absurd (by rw [exec, changeShare_none] at hacc; exact hacc.symm) exit_success_ne_failure
  | some dest =>
    obtain ⟨s, hs, -, -⟩ := hc.loadUser_stake dest
    simp only [exec, changeShare_fin dest change hc.total hs] at hacc hzero ⊢
    split_ifs at hacc hzero ⊢ with h
    · exact absurd hacc.symm exit_success_ne_failure
    · push_neg at h
      rw [commit_totalStake, hc.total, fin_add, zero_eq, fin_inj] at hzero
      have hpos : 0 < stakeSum (run calls) := lt_of_le_of_ne hc.stakeSum_nonneg fun e => h.1 (by linarith)
      rw [commit_eq]
      simp only [hc.total, fin_add, hzero]
      exact recalibrate_to_zero hpos (hc.incr.imp_right And.left)

theorem withdraw_all_emptying :
    (exec (run [.changeShare (some "A") 10]) (.changeShare (some "A") (-10))).1.incrementPerRevenue =
      posInf :=
  emptying_change_infinite [.changeShare (some "A") 10] (some "A") (-10) (by decide) (by decide)

/-- Once `index` is `+∞`, no call brings it back: every later settlement
evaluates `+∞ - lastIndex` or `+∞ - +∞`. -/
theorem index_posInf_absorbing (calls : List Call) (call : Call) (h : (run calls).index = posInf) :
    (run (calls ++ [call])).index = posInf := by
  have hc := inv_run calls
  rw [run, trace_concat, ← run]
  cases call with
  | changeShare dest change =>
    cases dest with
    | none => simp only [exec, changeShare_none, h]
    | some dest =>
      obtain ⟨s, hs, -, -⟩ := hc.loadUser_stake dest
      simp only [exec, changeShare_fin dest change hc.total hs]
      split_ifs <;> simpa
  | addRevenue amount =>
    simp only [exec, addRevenue]
    split_ifs with ha
    · exact h
    · rcases hc.incr with hi | ⟨hi, -⟩ <;> simp [distributeRevenue, h, hi, not_le.1 ha]

theorem restake_keeps_infinite_index :
    (run ([.changeShare (some "A") 10, .changeShare (some "A") (-10), .addRevenue 1] ++
      [.changeShare (some "A") 5])).index = posInf :=
  index_posInf_absorbing _ _ (by decide)

/-- While stake remains, an injection raises a staked holder's pending
settlement by `amount * ownStake / lastTotalStake`: the holder's part of the
injection is taken against the total at its snapshot, where the naive
contract takes it against `totalShare` now. -/
theorem injection_settles_at_snapshot_total (calls : List Call) (dest : String) (amount : ℚ)
    (ha : 0 < amount) (hT : 0 < (run calls).totalStake) (x : ℚ) (hx : (run calls).index = fin x)
    (hs : 0 < (loadUser (run calls) dest).ownStake) :
    ∃ s t, (loadUser (run calls) dest).ownStake = fin s ∧
      (loadUser (run calls) dest).lastTotalStake = fin t ∧
      freshOwn (run (calls ++ [.addRevenue amount])).index
          (loadUser (run (calls ++ [.addRevenue amount])) dest) =
        freshOwn (run calls).index (loadUser (run calls) dest) + fin (amount * s / t) := by
  have hnext : run (calls ++ [.addRevenue amount]) = distributeRevenue (run calls) amount := by
    rw [run, trace_concat, ← run, exec, addRevenue_pos _ ha]
  have hload : loadUser (distributeRevenue (run calls) amount) dest = loadUser (run calls) dest :=
    loadUser_of_get (by rw [distributeRevenue_userStateMap]; exact get_of_loadUser_pos hs)
  rw [hnext, hload]
  exact (inv_run calls).freshOwn_distributeRevenue hx hT amount hs

theorem late_joiner_settlement :
    ∃ s t, (loadUser (run [.changeShare (some "A") 40, .changeShare (some "B") 60]) "A").ownStake = fin s ∧
      (loadUser (run [.changeShare (some "A") 40, .changeShare (some "B") 60]) "A").lastTotalStake = fin t ∧
      freshOwn (run ([.changeShare (some "A") 40, .changeShare (some "B") 60] ++ [.addRevenue 100])).index
          (loadUser (run ([.changeShare (some "A") 40, .changeShare (some "B") 60] ++ [.addRevenue 100])) "A") =
        freshOwn (run [.changeShare (some "A") 40, .changeShare (some "B") 60]).index
          (loadUser (run [.changeShare (some "A") 40, .changeShare (some "B") 60]) "A") + fin (100 * s / t) :=
  injection_settles_at_snapshot_total _ "A" 100 (by norm_num) (by decide) INDEX_INIT (by decide) (by decide)

/-! ## The counterexamples -/

/-- Spec §8: A stakes 40, B stakes 60, revenue 100 is injected, A changes by `+1`. -/
def spec8 : List Call :=
  [.changeShare (some "A") 40, .changeShare (some "B") 60, .addRevenue 100, .changeShare (some "A") 1]

/-- In the §8 scenario every stake change is accepted and the injection is
made while 100 is staked, yet after A's `+1` A's settled revenue is 100,
where the naive contract has paid A `100 * 40 / 100 = 40`. -/
theorem settlement_overpays :
    (∀ n ∈ [0, 1, 3], (exec (run (spec8.take n)) (spec8.getD n (.addRevenue 0))).2 = EXIT_SUCCESS) ∧
    (run (spec8.take 2)).totalStake = fin 100 ∧
    (∀ n ∈ [0, 1, 3],
      (NonOptimized.exec (NonOptimized.run (spec8.take n)) (spec8.getD n (.addRevenue 0))).2 = EXIT_SUCCESS) ∧
    (NonOptimized.run (spec8.take 2)).totalShare = fin 100 ∧
    ((NonOptimized.run spec8).userStateMap.get "A").map (·.revenue) = some (fin 40) ∧
    ((run spec8).userStateMap.get "A").map (·.ownAccumulatedTotal) = some (fin 100) := by
  decide

/-- Staking 10 and withdrawing it is accepted and leaves
`incrementPerRevenue = +∞`; `addRevenue(1)` then makes `index = +∞`. -/
theorem withdraw_all_infinite_increment :
    (exec (run [.changeShare (some "A") 10]) (.changeShare (some "A") (-10))).2 = EXIT_SUCCESS ∧
    (run [.changeShare (some "A") 10, .changeShare (some "A") (-10)]).incrementPerRevenue = posInf ∧
    (run [.changeShare (some "A") 10, .changeShare (some "A") (-10), .addRevenue 1]).index = posInf := by
  decide

/-! ## Fixed: an empty pool resets the increment, a nonempty one rescales it -/

/-- Phase 2 with the two tests of Optimized/DistributionContract.c:91-95 swapped. -/
def recalibrateFixed (incrementPerRevenue oldTotalStake newTotalStake : Double) : Double :=
  if newTotalStake.eq 0 then fin INCR_PER_REV_INIT
  else if oldTotalStake.eq 0 = false then incrementPerRevenue * (oldTotalStake / newTotalStake)
  else incrementPerRevenue

/-- Phases 1-3 of Optimized/DistributionContract.c:86-103 over the fixed Phase 2. -/
def commitFixed (contract : DistributionContract) (dest : String) (change : ℚ) : DistributionContract :=
  let tmp := loadUser contract dest
  let newTotalStake := contract.totalStake + fin change
  -- Phase 1
  let tmp := { tmp with ownAccumulatedTotal := tmp.ownAccumulatedTotal + freshOwn contract.index tmp }
  -- Phase 2
  let contract := { contract with
    incrementPerRevenue := recalibrateFixed contract.incrementPerRevenue contract.totalStake newTotalStake
    totalStake := newTotalStake }
  -- Phase 3
  let tmp := { tmp with
    ownStake := tmp.ownStake + fin change
    lastIndex := contract.index
    lastIncrementPerRevenue := contract.incrementPerRevenue
    lastTotalStake := contract.totalStake }
  { contract with userStateMap := contract.userStateMap.set dest tmp }

/-- `changeShare` of Optimized/DistributionContract.c:69-105 over `commitFixed`. -/
def changeShareFixed (contract : DistributionContract) (dest : Option String) (change : ℚ) :
    DistributionContract × Int :=
  if change = 0 then (contract, EXIT_FAILURE) else
  match dest with
  | none => (contract, EXIT_FAILURE)
  | some dest =>
    let newTotalStake := contract.totalStake + fin change
    if newTotalStake < 0 ∨ newTotalStake.isfinite = false then (contract, EXIT_FAILURE) else
    if (loadUser contract dest).ownStake + fin change < 0 then (contract, EXIT_FAILURE) else
    (commitFixed contract dest change, EXIT_SUCCESS)

/-- One call of the fixed contract. -/
def execFixed (contract : DistributionContract) : Call → DistributionContract × Int
  | .changeShare dest change => changeShareFixed contract dest change
  | .addRevenue amount => addRevenue contract amount

/-- The fixed contract after `calls`, from `constructContract()`. -/
def runFixed (calls : List Call) : DistributionContract := trace execFixed constructContract calls

theorem changeShareFixed_none (contract : DistributionContract) (change : ℚ) :
    changeShareFixed contract none change = (contract, EXIT_FAILURE) := by
  unfold changeShareFixed; split <;> rfl

theorem changeShareFixed_fin {c : DistributionContract} {T s : ℚ} (dest : String) (change : ℚ)
    (hT : c.totalStake = fin T) (hs : (loadUser c dest).ownStake = fin s) :
    changeShareFixed c (some dest) change =
      if change = 0 ∨ T + change < 0 ∨ s + change < 0 then (c, EXIT_FAILURE)
      else (commitFixed c dest change, EXIT_SUCCESS) := by
  by_cases h0 : change = 0
  · simp [changeShareFixed, h0]
  · simp only [changeShareFixed, h0, hT, hs, fin_add, zero_eq, fin_lt, isfinite_fin, Bool.true_eq_false,
      or_false, false_or, if_false]
    by_cases h1 : T + change < 0
    · simp [h1]
    · by_cases h2 : s + change < 0 <;> simp [h1, h2]

theorem commitFixed_eq (c : DistributionContract) (dest : String) (change : ℚ) :
    commitFixed c dest change =
      { userStateMap := c.userStateMap.set dest { snapshotUser c dest change with
          lastIncrementPerRevenue := recalibrateFixed c.incrementPerRevenue c.totalStake (c.totalStake + fin change) }
        totalStake := c.totalStake + fin change
        incrementPerRevenue := recalibrateFixed c.incrementPerRevenue c.totalStake (c.totalStake + fin change)
        index := c.index } := rfl

@[simp] theorem commitFixed_totalStake (c : DistributionContract) (dest : String) (change : ℚ) :
    (commitFixed c dest change).totalStake = c.totalStake + fin change := rfl
@[simp] theorem commitFixed_incrementPerRevenue (c : DistributionContract) (dest : String) (change : ℚ) :
    (commitFixed c dest change).incrementPerRevenue =
      recalibrateFixed c.incrementPerRevenue c.totalStake (c.totalStake + fin change) := rfl
@[simp] theorem commitFixed_index (c : DistributionContract) (dest : String) (change : ℚ) :
    (commitFixed c dest change).index = c.index := rfl

theorem recalibrateFixed_pos {i T T' : ℚ} (hi : 0 < i) (hT : 0 ≤ T) (hT' : 0 ≤ T') :
    ∃ i', recalibrateFixed (fin i) (fin T) (fin T') = fin i' ∧ 0 < i' := by
  by_cases h' : T' = 0
  · exact ⟨INCR_PER_REV_INIT, by simp [recalibrateFixed, h'], by norm_num [INCR_PER_REV_INIT]⟩
  by_cases h : T = 0
  · exact ⟨i, by simp [recalibrateFixed, h, h'], hi⟩
  · exact ⟨i * (T / T'), by simp [recalibrateFixed, h, h'],
      mul_pos hi (div_pos (lt_of_le_of_ne hT (Ne.symm h)) (lt_of_le_of_ne hT' (Ne.symm h')))⟩

theorem recalibrateFixed_mul (i : ℚ) {T T' : ℚ} (hT : T ≠ 0) (hT' : T' ≠ 0) :
    recalibrateFixed (fin i) (fin T) (fin T') * fin T' = fin (i * T) := by
  simp only [recalibrateFixed, zero_eq, eq_fin, hT, hT', decide_False, Bool.false_eq_true, if_false, if_true,
    fin_div _ hT', fin_mul, fin_inj]
  rw [mul_assoc, div_mul_cancel₀ _ hT']

theorem freshOwn_fin {u : UserState} {x s l a t : ℚ} (hs : u.ownStake = fin s) (h0 : s ≠ 0)
    (hl : u.lastIndex = fin l) (ha : u.lastIncrementPerRevenue = fin a) (ht : u.lastTotalStake = fin t)
    (hat : a * t ≠ 0) : freshOwn (fin x) u = fin ((x - l) * s / (a * t)) := by
  simp [freshOwn, hs, hl, ha, ht, h0, hat]

/-- The fixed contract against the proportional split: the split's
invariant, finite globals with a positive increment, every holder agreeing,
and every staked holder's snapshot of `incrementPerRevenue * totalStake`
still the current one. -/
structure RefinesFixed (c : DistributionContract) (S : Split.State) : Prop where
  split : Split.Inv S
  total : c.totalStake = fin S.total
  incr : ∃ i, c.incrementPerRevenue = fin i ∧ 0 < i
  index : ∃ x, c.index = fin x
  holders : ∀ dest, Agrees c dest (holding S dest)
  scale : ∀ dest, (holding S dest).stake ≠ 0 → ∃ a l,
    (loadUser c dest).lastIncrementPerRevenue = fin a ∧ (loadUser c dest).lastIndex = fin l ∧
      c.incrementPerRevenue * c.totalStake = fin (a * (holding S dest).snapshot)

theorem refinesFixed_init : RefinesFixed constructContract Split.init where
  split := Split.inv_init
  total := rfl
  incr := ⟨_, rfl, by norm_num [INCR_PER_REV_INIT]⟩
  index := ⟨_, rfl⟩
  holders := (refines_init).holders
  scale _ h := absurd rfl h

theorem loadUser_commitFixed_self {c : DistributionContract} {dest : String} {change s T i' : ℚ}
    (hs : (loadUser c dest).ownStake = fin s) (hT : c.totalStake = fin T)
    (hrec : recalibrateFixed c.incrementPerRevenue c.totalStake (c.totalStake + fin change) = fin i') :
    loadUser (commitFixed c dest change) dest =
      ⟨fin (s + change), fin (T + change), fin i', owed c dest, c.index⟩ := by
  rw [commitFixed_eq, hrec, loadUser_of_get (HashMap.get_set_self _ _ _)]
  simp [snapshotUser, hs, hT, owed]

theorem RefinesFixed.agrees_commit {c : DistributionContract} {S : Split.State} (hR : RefinesFixed c S)
    {dest : String} {change i' : ℚ} (hi' : 0 < i') (hs : 0 ≤ (holding S dest).stake + change)
    (hrec : recalibrateFixed c.incrementPerRevenue c.totalStake (c.totalStake + fin change) = fin i') :
    Agrees (commitFixed c dest change) dest
      ⟨(holding S dest).stake + change, S.total + change, (holding S dest).owed⟩ := by
  obtain ⟨x, hx⟩ := hR.index
  have hself := loadUser_commitFixed_self (hR.holders dest).stake_eq hR.total hrec
  have hfresh : freshOwn c.index (loadUser (commitFixed c dest change) dest) = 0 := by
    rw [hself, hx]
    by_cases h0 : (holding S dest).stake + change = 0
    · exact freshOwn_of_stake_zero _ (by rw [h0]; rfl)
    have hpos : 0 < S.total + change := by
      linarith [lt_of_le_of_ne hs (Ne.symm h0), hR.split.holding_le dest]
    rw [freshOwn_fin rfl h0 rfl rfl rfl (mul_ne_zero hi'.ne' hpos.ne'), sub_self, zero_mul, zero_div]; rfl
  refine ⟨by rw [hself], fun _ => by rw [hself], ?_⟩
  rw [owed, commitFixed_index, hfresh, hself]
  show owed c dest + 0 = _
  rw [(hR.holders dest).owed_eq]; simp

theorem RefinesFixed.scale_commit_ne {c : DistributionContract} {S : Split.State} (hR : RefinesFixed c S)
    {dest k : String} {change : ℚ} (hkd : k ≠ dest) (hk : (holding S k).stake ≠ 0)
    (hT' : (holding S k).stake ≤ S.total + change) :
    ∃ a l, (loadUser (commitFixed c dest change) k).lastIncrementPerRevenue = fin a ∧
      (loadUser (commitFixed c dest change) k).lastIndex = fin l ∧
      (commitFixed c dest change).incrementPerRevenue * (commitFixed c dest change).totalStake =
        fin (a * (holding S k).snapshot) := by
  obtain ⟨i, hi, -⟩ := hR.incr
  obtain ⟨a, l, ha, hl, he⟩ := hR.scale k hk
  have hload : loadUser (commitFixed c dest change) k = loadUser c k := loadUser_of_get
    (by rw [commitFixed_eq, HashMap.get_set_ne _ _ hkd]; exact (hR.holders k).get_eq hk)
  have hkpos : 0 < (holding S k).stake := lt_of_le_of_ne (hR.split.holding_stake k) (Ne.symm hk)
  refine ⟨a, l, hload ▸ ha, hload ▸ hl, ?_⟩
  rw [← he, commitFixed_incrementPerRevenue, commitFixed_totalStake, hR.total, hi, fin_add,
    recalibrateFixed_mul i (hkpos.trans_le (hR.split.holding_le k)).ne' (hkpos.trans_le hT').ne', fin_mul]

theorem RefinesFixed.commit {c : DistributionContract} {S : Split.State} (hR : RefinesFixed c S)
    {dest : String} {change : ℚ} (hc : ¬ (change = 0 ∨ S.total + change < 0 ∨ (holding S dest).stake + change < 0)) :
    RefinesFixed (commitFixed c dest change) (Split.exec proportional S (.changeShare (some dest) change)).1 := by
  obtain ⟨i, hi, hi0⟩ := hR.incr
  obtain ⟨x, hx⟩ := hR.index
  have hS' : Split.Inv (Split.exec proportional S (.changeShare (some dest) change)).1 := Split.inv_exec hR.split _
  rw [Split.exec_changeShare S dest change hc] at hS' ⊢
  push_neg at hc
  obtain ⟨i', hi', hi'0⟩ :=
    recalibrateFixed_pos hi0 ((hR.split.holding_stake dest).trans (hR.split.holding_le dest)) hc.2.1
  have hrec : recalibrateFixed c.incrementPerRevenue c.totalStake (c.totalStake + fin change) = fin i' := by
    rw [hR.total, hi, fin_add]; exact hi'
  refine ⟨hS', by simp [hR.total], ⟨i', by rw [commitFixed_incrementPerRevenue, hrec], hi'0⟩,
    ⟨x, by rw [commitFixed_index, hx]⟩, fun k => ?_, fun k hk => ?_⟩
  · dsimp only
    by_cases hkd : k = dest
    · subst hkd; rw [Split.holding_set_self]; exact hR.agrees_commit hi'0 hc.2.2 hrec
    · rw [Split.holding_set_ne _ _ _ hkd]
      exact (hR.holders k).of_get_eq (by rw [commitFixed_eq]; exact HashMap.get_set_ne _ _ hkd) (.inl rfl)
  · dsimp only at hk ⊢
    by_cases hkd : k = dest
    · subst hkd
      rw [Split.holding_set_self] at hk ⊢
      have hself := loadUser_commitFixed_self (hR.holders k).stake_eq hR.total hrec
      refine ⟨i', x, by rw [hself], by rw [hself, hx], ?_⟩
      rw [commitFixed_incrementPerRevenue, commitFixed_totalStake, hrec, hR.total, fin_add, fin_mul]
    · rw [Split.holding_set_ne _ _ _ hkd] at hk ⊢
      exact hR.scale_commit_ne hkd hk (by simpa [Split.holding_set_ne _ _ _ hkd] using hS'.holding_le k)

theorem RefinesFixed.owed_distribute {c : DistributionContract} {S : Split.State} (hR : RefinesFixed c S)
    (hT : 0 < S.total) (amount : ℚ) {k : String} (h0 : (holding S k).stake ≠ 0) :
    owed (distributeRevenue c amount) k =
      fin ((holding S k).owed + part proportional S amount (holding S k)) := by
  obtain ⟨i, hi, hi0⟩ := hR.incr
  obtain ⟨x, hx⟩ := hR.index
  have hh := hR.holders k
  obtain ⟨a, l, ha, hl, he⟩ := hR.scale k h0
  rw [hR.total, hi, fin_mul, fin_inj] at he
  have hat : a * (holding S k).snapshot ≠ 0 := by rw [← he]; exact mul_ne_zero hi0.ne' hT.ne'
  have hfresh := fun y => freshOwn_fin (x := y) hh.stake_eq h0 hl ha (hh.snapshot_eq h0) hat
  have hacc := hh.owed_eq
  rw [owed, hx, hfresh] at hacc
  have hload : loadUser (distributeRevenue c amount) k = loadUser c k := loadUser_of_get (hh.get_eq h0)
  rw [owed, hload, distributeRevenue_index, hx, hi, fin_mul, fin_add, hfresh, eq_fin_of_add_fin hacc, fin_add,
    fin_inj, ← he, part, proportional,
    show (x + i * amount - l) * (holding S k).stake =
      (x - l) * (holding S k).stake + i * (amount * (holding S k).stake) by ring,
    add_div, mul_div_mul_left _ _ hi0.ne']
  ring

theorem RefinesFixed.distribute {c : DistributionContract} {S : Split.State} (hR : RefinesFixed c S)
    {amount : ℚ} (ha : 0 < amount) (hT : 0 < c.totalStake) :
    RefinesFixed (distributeRevenue c amount) (Split.exec proportional S (.addRevenue amount)).1 := by
  obtain ⟨i, hi, hi0⟩ := hR.incr
  obtain ⟨x, hx⟩ := hR.index
  have hT0 : 0 < S.total := by simpa [hR.total] using hT
  have hS' : Split.Inv (Split.exec proportional S (.addRevenue amount)).1 := Split.inv_exec hR.split _
  rw [Split.exec_addRevenue S ha] at hS' ⊢
  have hholding : ∀ k, holding ⟨S.holdings.update fun h => { h with owed := h.owed + part proportional S amount h },
      S.total⟩ k = { holding S k with owed := (holding S k).owed + part proportional S amount (holding S k) } :=
    Split.holding_update S _ (by simp [part]) S.total
  refine ⟨hS', hR.total, ⟨i, hi, hi0⟩, ⟨x + i * amount, by simp [hx, hi]⟩, fun k => ?_, fun k hk => ?_⟩
  · dsimp only; rw [hholding]
    have hh := hR.holders k
    by_cases h0 : (holding S k).stake = 0
    · rw [show part proportional S amount (holding S k) = 0 by simp [part, h0], add_zero]
      exact hh.of_get_eq rfl (.inr h0)
    have hload : loadUser (distributeRevenue c amount) k = loadUser c k := loadUser_of_get (hh.get_eq h0)
    exact ⟨hload ▸ hh.stake_eq, fun _ => hload ▸ hh.snapshot_eq h0, hR.owed_distribute hT0 amount h0⟩
  · dsimp only at hk ⊢; rw [hholding] at hk ⊢
    obtain ⟨a, l, ha', hl, he⟩ := hR.scale k hk
    have hload : loadUser (distributeRevenue c amount) k = loadUser c k :=
      loadUser_of_get ((hR.holders k).get_eq hk)
    exact ⟨a, l, hload ▸ ha', hload ▸ hl, he⟩

/-- One call of the fixed contract keeps the refinement, if it is not an
injection into an empty pool. -/
theorem refinesFixed_exec {c : DistributionContract} {S : Split.State} (hR : RefinesFixed c S) (call : Call)
    (hg : StakedInjection DistributionContract.totalStake c call) :
    RefinesFixed (execFixed c call).1 (Split.exec proportional S call).1 := by
  cases call with
  | changeShare dest change =>
    cases dest with
    | none => rw [execFixed, changeShareFixed_none]; exact hR
    | some dest =>
      rw [execFixed, changeShareFixed_fin dest change hR.total (hR.holders dest).stake_eq]
      by_cases hc : change = 0 ∨ S.total + change < 0 ∨ (holding S dest).stake + change < 0
      · simp only [Split.exec, if_pos hc]; exact hR
      · rw [if_neg hc]; exact hR.commit hc
  | addRevenue amount =>
    by_cases ha : 0 < amount
    · rw [execFixed, addRevenue_pos _ ha]; exact hR.distribute ha (hg ha)
    · simp only [execFixed, addRevenue, Split.exec, if_pos (not_lt.1 ha)]; exact hR

theorem refinesFixed_run (calls : List Call)
    (h : Respects execFixed constructContract (StakedInjection DistributionContract.totalStake) calls) :
    RefinesFixed (runFixed calls) (Split.run proportional calls) :=
  trace_simulation execFixed constructContract (Split.exec proportional) Split.init _ RefinesFixed
    refinesFixed_init (fun _ _ call hR hg => refinesFixed_exec hR call hg) calls h

theorem keys_execFixed {c : DistributionContract} {S : Split.State} (hR : RefinesFixed c S)
    (hk : c.userStateMap.items.map Prod.fst = S.holdings.items.map Prod.fst) (call : Call) :
    (execFixed c call).1.userStateMap.items.map Prod.fst =
      (Split.exec proportional S call).1.holdings.items.map Prod.fst := by
  cases call with
  | changeShare dest change =>
    cases dest with
    | none => rw [execFixed, changeShareFixed_none]; exact hk
    | some dest =>
      rw [execFixed, changeShareFixed_fin dest change hR.total (hR.holders dest).stake_eq]
      by_cases hc : change = 0 ∨ S.total + change < 0 ∨ (holding S dest).stake + change < 0
      · simp only [Split.exec, if_pos hc]; exact hk
      · rw [if_neg hc, Split.exec_changeShare S dest change hc]
        simp only [commitFixed_eq, HashMap.set_items, HashMap.keys_setItems, hk]
  | addRevenue amount =>
    by_cases ha : 0 < amount
    · rw [execFixed, addRevenue_pos _ ha, Split.exec_addRevenue S ha]
      simpa [Function.comp_def] using hk
    · simp only [execFixed, addRevenue, Split.exec, if_pos (not_lt.1 ha)]; exact hk

/-- **Fix meets spec**: on every run that injects only while stake is held,
the fixed contract is the proportional split: the total, every holder's
stake, and what the contract owes every holder are those of the split. -/
theorem fixed_owes_proportional (calls : List Call)
    (h : Respects execFixed constructContract (StakedInjection DistributionContract.totalStake) calls) :
    (runFixed calls).totalStake = fin (Split.run proportional calls).total ∧
      ∀ dest, (loadUser (runFixed calls) dest).ownStake = fin (holding (Split.run proportional calls) dest).stake ∧
        owed (runFixed calls) dest = fin (holding (Split.run proportional calls) dest).owed :=
  ⟨(refinesFixed_run calls h).total, fun dest =>
    ⟨((refinesFixed_run calls h).holders dest).stake_eq, ((refinesFixed_run calls h).holders dest).owed_eq⟩⟩

theorem spec8_fixed_owes :
    ((runFixed spec8).totalStake = fin (Split.run proportional spec8).total ∧
      ∀ dest, (loadUser (runFixed spec8) dest).ownStake = fin (holding (Split.run proportional spec8) dest).stake ∧
        owed (runFixed spec8) dest = fin (holding (Split.run proportional spec8) dest).owed) ∧
    owed (runFixed spec8) "A" = fin 40 :=
  ⟨fixed_owes_proportional spec8 (by decide), by decide⟩

/-- **Fix meets spec §8**, "Equivalence under settlement": on every run whose
stake changes the naive contract accepts and whose injections are made while
stake is held, the fixed contract owes every holder exactly what the naive
contract has paid it. -/
theorem fixed_settles_as_naive (calls : List Call)
    (hN : Respects NonOptimized.exec NonOptimized.constructContract
      (fun c call => AcceptedChange NonOptimized.exec c call ∧
        StakedInjection NonOptimized.DistributionContract.totalShare c call) calls) (dest : String) :
    owed (runFixed calls) dest = (NonOptimized.loadUser (NonOptimized.run calls).userStateMap dest).revenue := by
  have hF : Respects execFixed constructContract (StakedInjection DistributionContract.totalStake) calls :=
    respects_of_simulation (Split.exec proportional) Split.init execFixed constructContract _ _
      (fun S c => RefinesFixed c S) refinesFixed_init
      (fun _ _ call hR hg => refinesFixed_exec hR call (hg.of_total_eq hR.total.symm))
      (fun _ _ _ hR hg => hg.of_total_eq hR.total.symm) calls (NonOptimized.split_staked calls hN)
  rw [((refinesFixed_run calls hF).holders dest).owed_eq, (NonOptimized.refines_run calls hN).1,
    NonOptimized.loadUser_map]
  rfl

theorem spec8_fixed_settles :
    owed (runFixed spec8) "A" = (NonOptimized.loadUser (NonOptimized.run spec8).userStateMap "A").revenue :=
  fixed_settles_as_naive spec8 (by decide) "A"

/-- On every run that injects only while stake is held, what the fixed
contract owes its holders, accumulated and pending, sums to exactly the
revenue injected. -/
theorem fixed_conserves_revenue (calls : List Call)
    (h : Respects execFixed constructContract (StakedInjection DistributionContract.totalStake) calls) :
    ((runFixed calls).userStateMap.items.map fun p => owed (runFixed calls) p.1).sum =
      fin (calls.map Split.injected).sum := by
  have hRK : RefinesFixed (runFixed calls) (Split.run proportional calls) ∧
      (runFixed calls).userStateMap.items.map Prod.fst =
        (Split.run proportional calls).holdings.items.map Prod.fst :=
    trace_simulation execFixed constructContract (Split.exec proportional) Split.init _
      (fun c S => RefinesFixed c S ∧ c.userStateMap.items.map Prod.fst = S.holdings.items.map Prod.fst)
      ⟨refinesFixed_init, rfl⟩ (fun _ _ call hR hg => ⟨refinesFixed_exec hR.1 call hg, keys_execFixed hR.1 hR.2 call⟩)
      calls h
  have hS : Respects (Split.exec proportional) Split.init (StakedInjection fun S => fin S.total) calls :=
    respects_of_simulation execFixed constructContract (Split.exec proportional) Split.init _ _ RefinesFixed
      refinesFixed_init (fun _ _ call hR hg => refinesFixed_exec hR call hg)
      (fun _ _ _ hR hg => hg.of_total_eq hR.total) calls h
  calc ((runFixed calls).userStateMap.items.map fun p => owed (runFixed calls) p.1).sum
      = (((runFixed calls).userStateMap.items.map Prod.fst).map
          fun k => fin (holding (Split.run proportional calls) k).owed).sum := by
        rw [List.map_map]
        exact congrArg List.sum (List.map_congr_left fun p _ => (hRK.1.holders p.1).owed_eq)
    _ = ((Split.run proportional calls).holdings.items.map fun p => fin p.2.owed).sum := by
        rw [hRK.2, List.map_map]
        exact congrArg List.sum (List.map_congr_left fun p hp => by simp [holding, HashMap.get_of_mem hp])
    _ = fin (Split.paid (Split.run proportional calls)) := sum_map_fin (fun p : String × Holding => p.2.owed) _
    _ = fin (calls.map Split.injected).sum := by rw [Split.paid_run calls hS]

theorem spec8_fixed_conserves :
    ((runFixed spec8).userStateMap.items.map fun p => owed (runFixed spec8) p.1).sum =
      fin (spec8.map Split.injected).sum ∧ (spec8.map Split.injected).sum = 100 :=
  ⟨fixed_conserves_revenue spec8 (by decide), by decide⟩

/-- **Both fixes meet spec §8**: on every run that injects only while stake
is held, accepted and rejected calls alike, the fixed optimized contract owes
every holder exactly the revenue the fixed naive contract has paid it. -/
theorem fixes_settle_alike (calls : List Call)
    (h : Respects execFixed constructContract (StakedInjection DistributionContract.totalStake) calls)
    (dest : String) :
    owed (runFixed calls) dest =
      (NonOptimized.loadUser (trace NaiveRevert.execFixed NonOptimized.constructContract calls).userStateMap
        dest).revenue := by
  have hS : Respects (Split.exec proportional) Split.init (StakedInjection fun S => fin S.total) calls :=
    respects_of_simulation execFixed constructContract (Split.exec proportional) Split.init _ _ RefinesFixed
      refinesFixed_init (fun _ _ call hR hg => refinesFixed_exec hR call hg)
      (fun _ _ _ hR hg => hg.of_total_eq hR.total) calls h
  have hN : NonOptimized.Refines (trace NaiveRevert.execFixed NonOptimized.constructContract calls)
      (Split.run proportional calls) :=
    trace_simulation (Split.exec proportional) Split.init NaiveRevert.execFixed NonOptimized.constructContract _
      (fun S c => NonOptimized.Refines c S) ⟨rfl, rfl⟩
      (fun _ _ call hR hg => NaiveRevert.refines_execFixed hR call (hg.of_total_eq hR.2.symm)) calls hS
  rw [((refinesFixed_run calls h).holders dest).owed_eq, hN.1, NonOptimized.loadUser_map]
  rfl

theorem overdraw_fixes_settle_alike :
    owed (runFixed (NaiveRevert.staked ++ [NaiveRevert.overdraw, .addRevenue 20])) "A" =
      (NonOptimized.loadUser (trace NaiveRevert.execFixed NonOptimized.constructContract
        (NaiveRevert.staked ++ [NaiveRevert.overdraw, .addRevenue 20])).userStateMap "A").revenue ∧
    owed (runFixed (NaiveRevert.staked ++ [NaiveRevert.overdraw, .addRevenue 20])) "A" = fin 10 ∧
    (NonOptimized.loadUser (NonOptimized.run (NaiveRevert.staked ++ [NaiveRevert.overdraw, .addRevenue 20])).userStateMap
      "A").revenue = fin 40 :=
  ⟨fixes_settle_alike _ (by decide) "A", by decide, by decide⟩

end WasmContracts.Bugs.Recalibration
