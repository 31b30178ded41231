import WasmContracts.L1Data.HashMap
import WasmContracts.L2Ledger.Interface
import Mathlib.Algebra.Order.BigOperators.Group.List
/-!
# The optimized distribution contract

`revenue_distribution/Optimized/DistributionContract.c` never walks the
holders on an injection: `distributeRevenue` adds `incrementPerRevenue *
amount` to one global `index`, and a holder is settled only when its own
stake changes. `changeShare` validates first (lines 71-85) and mutates only
afterwards, in three phases: settle the holder against its snapshot
(`freshOwn`), recalibrate `incrementPerRevenue` (`recalibrate`), and store
the holder with a fresh snapshot of the new globals (`commit`).

Phase 2 resets `incrementPerRevenue` whenever the new total is nonzero and
otherwise multiplies it by `oldTotalStake / newTotalStake`, that is, by
`old / 0`. So once the whole stake is withdrawn `incrementPerRevenue` is `+∞`
(`Bugs/Recalibration.lean`). `Inv` allows for that: it holds in every
reachable state, whatever was accepted or rejected.

Results:
* `changeShare_fin`: `changeShare` on finite values, as rational comparisons.
* `inv_run`: every reachable state satisfies `Inv`: stakes finite and
  nonnegative summing to `totalStake`, `incrementPerRevenue` the initial
  constant (or `+∞` at zero total), `index` never NaN, and every holder with
  stake has a snapshot at most `index`, at the initial increment, with a
  total at least its stake.
* `Inv.divisor_pos`: the divisor of a holder's settlement is positive
  whenever it has stake.
* `run_stake_conserved_snapshot`: on every run the stakes sum to
  `totalStake` and every staked holder's snapshot is consistent.
* `get_exec`: a call changes at most the record of its own holder.
* `exec_failure_eq`: a rejected call leaves the contract exactly as it was.
-/
namespace WasmContracts

namespace Optimized

open Double

/-- mirrors Optimized/DistributionContract.c:8 -/
def INDEX_INIT : ℚ := 1000000
/-- mirrors Optimized/DistributionContract.c:9 -/
def INCR_PER_REV_INIT : ℚ := 10000

/-- Modelled from the spec: `Optimized/DistributionContract.h` is not among
the sources. The scalable HolderRecord of spec §3, in the order in which
the initializer at Optimized/DistributionContract.c:80 fills it; the address
is the map's key. -/
structure UserState where
  ownStake : Double
  lastTotalStake : Double
  lastIncrementPerRevenue : Double
  ownAccumulatedTotal : Double
  lastIndex : Double
  deriving DecidableEq, Repr

/-- Modelled from the spec: `Optimized/DistributionContract.h` is not among
the sources. The fields `DistributionContract.c` reads and writes. -/
structure DistributionContract where
  userStateMap : HashMap UserState
  totalStake : Double
  incrementPerRevenue : Double
  index : Double

/-- mirrors Optimized/DistributionContract.c:32-44 -/
def constructContract : DistributionContract :=
  ⟨HashMap.new, 0, fin INCR_PER_REV_INIT, fin INDEX_INIT⟩

/-- The record `changeShare` starts from: the stored one, or a new one whose
snapshot is the current global state.
mirrors Optimized/DistributionContract.c:76-84 -/
def loadUser (contract : DistributionContract) (dest : String) : UserState :=
  (contract.userStateMap.get dest).getD
    ⟨0, contract.totalStake, contract.incrementPerRevenue, 0, contract.index⟩

/-- Phase 1: what the holder earned under its stored stake since its
snapshot.
mirrors Optimized/DistributionContract.c:87-88 -/
def freshOwn (index : Double) (tmp : UserState) : Double :=
  if tmp.ownStake.eq 0 then 0
  else (index - tmp.lastIndex) * tmp.ownStake / (tmp.lastIncrementPerRevenue * tmp.lastTotalStake)

/-- Phase 2.
mirrors Optimized/DistributionContract.c:91-95 -/
def recalibrate (incrementPerRevenue oldTotalStake newTotalStake : Double) : Double :=
  if newTotalStake.eq 0 = false then fin INCR_PER_REV_INIT
  else if oldTotalStake.eq 0 = false then incrementPerRevenue * (oldTotalStake / newTotalStake)
  else incrementPerRevenue

/-- Phases 1-3 of an accepted call.
mirrors Optimized/DistributionContract.c:86-103 -/
def commit (contract : DistributionContract) (dest : String) (change : ℚ) : DistributionContract :=
  let tmp := loadUser contract dest
  let newTotalStake := contract.totalStake + fin change
  -- Phase 1
  let tmp := { tmp with ownAccumulatedTotal := tmp.ownAccumulatedTotal + freshOwn contract.index tmp }
  -- Phase 2
  let contract := { contract with
    incrementPerRevenue := recalibrate contract.incrementPerRevenue contract.totalStake newTotalStake
    totalStake := newTotalStake }
  -- Phase 3
  let tmp := { tmp with
    ownStake := tmp.ownStake + fin change
    lastIndex := contract.index
    lastIncrementPerRevenue := contract.incrementPerRevenue
    lastTotalStake := contract.totalStake }
  { contract with userStateMap := contract.userStateMap.set dest tmp }

/-- mirrors Optimized/DistributionContract.c:69-105 -/
def changeShare (contract : DistributionContract) (dest : Option String) (change : ℚ) :
    DistributionContract × Int :=
  if change = 0 then (contract, EXIT_FAILURE) else
  match dest with
  | none => (contract, EXIT_FAILURE)
  | some dest =>
    let newTotalStake := contract.totalStake + fin change
    if newTotalStake < 0 ∨ newTotalStake.isfinite = false then (contract, EXIT_FAILURE) else
    if (loadUser contract dest).ownStake + fin change < 0 then (contract, EXIT_FAILURE) else
    (commit contract dest change, EXIT_SUCCESS)

/-- mirrors Optimized/DistributionContract.c:127-130 -/
def distributeRevenue (contract : DistributionContract) (amount : ℚ) : DistributionContract :=
  { contract with index := contract.index + contract.incrementPerRevenue * fin amount }

@[simp] theorem distributeRevenue_userStateMap (contract : DistributionContract) (amount : ℚ) :
    (distributeRevenue contract amount).userStateMap = contract.userStateMap := rfl
@[simp] theorem distributeRevenue_totalStake (contract : DistributionContract) (amount : ℚ) :
    (distributeRevenue contract amount).totalStake = contract.totalStake := rfl
@[simp] theorem distributeRevenue_index (contract : DistributionContract) (amount : ℚ) :
    (distributeRevenue contract amount).index =
      contract.index + contract.incrementPerRevenue * fin amount := rfl

/-- mirrors Optimized/DistributionContract.c:114-119 -/
def addRevenue (contract : DistributionContract) (amount : ℚ) : DistributionContract × Int :=
  if amount ≤ 0 then (contract, EXIT_FAILURE) else (distributeRevenue contract amount, EXIT_SUCCESS)

theorem addRevenue_pos (contract : DistributionContract) {amount : ℚ} (h : 0 < amount) :
    addRevenue contract amount = (distributeRevenue contract amount, EXIT_SUCCESS) :=
  if_neg (not_le.2 h)

/-- One call of the interface. -/
def exec (contract : DistributionContract) : Call → DistributionContract × Int
  | .changeShare dest change => changeShare contract dest change
  | .addRevenue amount => addRevenue contract amount

/-- The contract after `calls`, from `constructContract()`. -/
def run (calls : List Call) : DistributionContract := trace exec constructContract calls

/-! ## Rejected calls -/

/-- Every check precedes the first write, so a rejected `changeShare` leaves
the contract exactly as it was. -/
theorem changeShare_failure_eq (c : DistributionContract) (dest : Option String) (change : ℚ)
    (h : (changeShare c dest change).2 = EXIT_FAILURE) : (changeShare c dest change).1 = c := by
  unfold changeShare at h ⊢
  by_cases h0 : change = 0
  · simp only [h0, if_true]
  rw [if_neg h0] at h ⊢
  cases dest with
  | none => rfl
  | some dest =>
    dsimp only at h ⊢
    split_ifs at h ⊢
    · rfl
    · rfl
    · exact absurd h exit_success_ne_failure

theorem addRevenue_failure_eq (c : DistributionContract) (amount : ℚ)
    (h : (addRevenue c amount).2 = EXIT_FAILURE) : (addRevenue c amount).1 = c := by
  unfold addRevenue at h ⊢
  split_ifs at h ⊢
  · rfl
  · exact absurd h exit_success_ne_failure

/-! ## `changeShare` on finite values -/

theorem changeShare_none (contract : DistributionContract) (change : ℚ) :
    changeShare contract none change = (contract, EXIT_FAILURE) := by
  unfold changeShare; split <;> rfl

theorem changeShare_fin {c : DistributionContract} {T s : ℚ} (dest : String) (change : ℚ)
    (hT : c.totalStake = fin T) (hs : (loadUser c dest).ownStake = fin s) :
    changeShare c (some dest) change =
      if change = 0 ∨ T + change < 0 ∨ s + change < 0 then (c, EXIT_FAILURE)
      else (commit c dest change, EXIT_SUCCESS) := by
  by_cases h0 : change = 0
  · simp [changeShare, h0]
  · simp only [changeShare, h0, hT, hs, fin_add, zero_eq, fin_lt, isfinite_fin, Bool.true_eq_false,
      or_false, false_or, if_false]
    by_cases h1 : T + change < 0
    · simp [h1]
    · by_cases h2 : s + change < 0 <;> simp [h1, h2]

/-- The record an accepted call stores: settled against its old snapshot
(Phase 1) and snapshotted again at the new globals (Phase 3). -/
def snapshotUser (c : DistributionContract) (dest : String) (change : ℚ) : UserState where
  ownStake := (loadUser c dest).ownStake + fin change
  lastTotalStake := c.totalStake + fin change
  lastIncrementPerRevenue := recalibrate c.incrementPerRevenue c.totalStake (c.totalStake + fin change)
  ownAccumulatedTotal := (loadUser c dest).ownAccumulatedTotal + freshOwn c.index (loadUser c dest)
  lastIndex := c.index

/-- The state an accepted call commits, field by field. -/
theorem commit_eq (c : DistributionContract) (dest : String) (change : ℚ) :
    commit c dest change =
      { userStateMap := c.userStateMap.set dest (snapshotUser c dest change)
        totalStake := c.totalStake + fin change
        incrementPerRevenue := recalibrate c.incrementPerRevenue c.totalStake (c.totalStake + fin change)
        index := c.index } := rfl

@[simp] theorem commit_totalStake (c : DistributionContract) (dest : String) (change : ℚ) :
    (commit c dest change).totalStake = c.totalStake + fin change := rfl
@[simp] theorem commit_index (c : DistributionContract) (dest : String) (change : ℚ) :
    (commit c dest change).index = c.index := rfl

theorem recalibrate_of_ne {i : Double} {T N : ℚ} (h : N ≠ 0) :
    recalibrate i (fin T) (fin N) = fin INCR_PER_REV_INIT := by
  simp [recalibrate, h]

/-- Withdrawing the whole stake: Phase 2 multiplies by `old / 0 = +∞`. -/
theorem recalibrate_to_zero {i : Double} {T : ℚ} (hT : 0 < T)
    (hi : i = fin INCR_PER_REV_INIT ∨ i = posInf) : recalibrate i (fin T) (fin 0) = posInf := by
  have hinit : (0 : ℚ) < INCR_PER_REV_INIT := by norm_num [INCR_PER_REV_INIT]
  rcases hi with rfl | rfl <;> simp [recalibrate, hT.ne', hT, hinit]

/-! ## What every reachable state satisfies -/

/-- `Σ ownStake` over all records, as a rational. -/
def stakeSum (c : DistributionContract) : ℚ :=
  (c.userStateMap.items.map fun p => p.2.ownStake.toRat).sum

/-- The accumulator is finite or `+∞`: never NaN and never `-∞`. -/
def IndexOk (x : Double) : Prop := x = posInf ∨ ∃ q, x = fin q

theorem IndexOk.le_self {x : Double} (h : IndexOk x) : x ≤ x := by
  rcases h with rfl | ⟨q, rfl⟩
  · rfl
  · exact (fin_le q q).2 le_rfl

/-- The conservation and snapshot invariant of the optimized contract. -/
structure Inv (c : DistributionContract) : Prop where
  stakes : ∀ p ∈ c.userStateMap.items, ∃ s, p.2.ownStake = fin s ∧ 0 ≤ s
  total : c.totalStake = fin (stakeSum c)
  incr : c.incrementPerRevenue = fin INCR_PER_REV_INIT ∨
    (c.incrementPerRevenue = posInf ∧ c.totalStake = 0)
  index : IndexOk c.index
  lastTotal : ∀ p ∈ c.userStateMap.items, ∃ t, p.2.lastTotalStake = fin t
  lastIndex : ∀ p ∈ c.userStateMap.items, IndexOk p.2.lastIndex
  snapshot : ∀ p ∈ c.userStateMap.items, 0 < p.2.ownStake →
    p.2.ownStake ≤ p.2.lastTotalStake ∧ p.2.lastIncrementPerRevenue = fin INCR_PER_REV_INIT ∧
      p.2.lastIndex ≤ c.index

theorem inv_constructContract : Inv constructContract where
  stakes := by simp [constructContract]
  total := by simp [stakeSum, constructContract]
  incr := .inl rfl
  index := .inr ⟨_, rfl⟩
  lastTotal := by simp [constructContract]
  lastIndex := by simp [constructContract]
  snapshot := by simp [constructContract]

theorem Inv.stakeSum_nonneg {c : DistributionContract} (hc : Inv c) : 0 ≤ stakeSum c :=
  List.sum_nonneg fun _ hx => by
    obtain ⟨p, hp, rfl⟩ := List.mem_map.1 hx
    obtain ⟨s, hs, hs0⟩ := hc.stakes p hp
    simpa [hs] using hs0

/-- The loaded record's stake is finite, nonnegative and at most the total. -/
theorem Inv.loadUser_stake {c : DistributionContract} (hc : Inv c) (dest : String) :
    ∃ s, (loadUser c dest).ownStake = fin s ∧ 0 ≤ s ∧ s ≤ stakeSum c := by
  unfold loadUser
  cases hg : c.userStateMap.get dest with
  | none => exact ⟨0, rfl, le_rfl, hc.stakeSum_nonneg⟩
  | some u =>
    obtain ⟨s, hs, hs0⟩ : ∃ s, u.ownStake = fin s ∧ 0 ≤ s := hc.stakes _ (HashMap.mem_of_get hg)
    refine ⟨s, hs, hs0, ?_⟩
    have hmem : s ∈ c.userStateMap.items.map fun p => p.2.ownStake.toRat :=
      List.mem_map.2 ⟨_, HashMap.mem_of_get hg, by simp [hs]⟩
    refine List.single_le_sum (fun _ hx => ?_) s hmem
    obtain ⟨p, hp, rfl⟩ := List.mem_map.1 hx
    obtain ⟨q, hq, hq0⟩ := hc.stakes p hp
    simpa [hq] using hq0

theorem loadUser_of_get {c : DistributionContract} {dest : String} {u : UserState}
    (h : c.userStateMap.get dest = some u) : loadUser c dest = u := by
  simp [loadUser, h]

/-- A loaded record with stake is the stored one. -/
theorem get_of_loadUser_pos {c : DistributionContract} {dest : String}
    (h : 0 < (loadUser c dest).ownStake) : c.userStateMap.get dest = some (loadUser c dest) := by
  unfold loadUser at h ⊢
  cases hg : c.userStateMap.get dest with
  | none => simp [hg] at h
  | some u => rfl

theorem stakeSum_commit (c : DistributionContract) (dest : String) (change : ℚ) :
    stakeSum (commit c dest change) + (loadUser c dest).ownStake.toRat =
      stakeSum c + ((loadUser c dest).ownStake + fin change).toRat := by
  have e : ((c.userStateMap.get dest).map fun u => u.ownStake.toRat).getD 0 =
      (loadUser c dest).ownStake.toRat := by
    unfold loadUser; cases c.userStateMap.get dest <;> rfl
  rw [← e]
  exact HashMap.sum_set c.userStateMap dest (snapshotUser c dest change) (fun u => u.ownStake.toRat)

theorem inv_commit {c : DistributionContract} (hc : Inv c) {dest : String} {change s : ℚ}
    (hs : (loadUser c dest).ownStake = fin s) (hsT : s ≤ stakeSum c) (h0 : change ≠ 0)
    (hT : 0 ≤ stakeSum c + change) (hs0 : 0 ≤ s + change) : Inv (commit c dest change) := by
  have hsum := stakeSum_commit c dest change
  simp only [hs, fin_add, toRat_fin] at hsum
  have hrec : stakeSum c + change ≠ 0 →
      recalibrate c.incrementPerRevenue c.totalStake (c.totalStake + fin change) =
        fin INCR_PER_REV_INIT := by
    rw [hc.total, fin_add]; exact recalibrate_of_ne
  refine ⟨?_, ?_, ?_, hc.index, ?_, ?_, ?_⟩
  · intro p hp
    rcases HashMap.mem_setItems hp with hp | rfl
    · exact hc.stakes p hp
    · exact ⟨s + change, by simp [snapshotUser, hs], hs0⟩
  · simp only [commit_totalStake, hc.total, fin_add, fin_inj]
    linarith
  · by_cases hN : stakeSum c + change = 0
    · have hpos : 0 < stakeSum c := lt_of_le_of_ne hc.stakeSum_nonneg fun h => h0 (by linarith)
      right
      rw [commit_eq]
      simp only [hc.total, fin_add, hN]
      exact ⟨recalibrate_to_zero hpos (hc.incr.imp_right And.left), rfl⟩
    · exact .inl (hrec hN)
  · intro p hp
    rcases HashMap.mem_setItems hp with hp | rfl
    · exact hc.lastTotal p hp
    · exact ⟨stakeSum c + change, by simp [hc.total, fin_add]⟩
  · intro p hp
    rcases HashMap.mem_setItems hp with hp | rfl
    · exact hc.lastIndex p hp
    · exact hc.index
  · intro p hp hpos
    rcases HashMap.mem_setItems hp with hp | rfl
    · exact hc.snapshot p hp hpos
    · simp only [snapshotUser, hs, fin_add, zero_eq, fin_lt] at hpos ⊢
      refine ⟨?_, hrec (by linarith), hc.index.le_self⟩
      rw [hc.total, fin_add, fin_le]; linarith

theorem inv_changeShare {c : DistributionContract} (hc : Inv c) (dest : Option String) (change : ℚ) :
    Inv (changeShare c dest change).1 := by
  cases dest with
  | none => rwa [changeShare_none]
  | some dest =>
    obtain ⟨s, hs, -, hsT⟩ := hc.loadUser_stake dest
    rw [changeShare_fin dest change hc.total hs]
    split_ifs with h
    · exact hc
    · push_neg at h
      exact inv_commit hc hs hsT h.1 h.2.1 h.2.2

/-- One injection moves a finite or infinite `index` up, never to NaN. -/
theorem indexOk_step {x i : Double} {amount : ℚ} (hx : IndexOk x)
    (hi : i = fin INCR_PER_REV_INIT ∨ i = posInf) (ha : 0 < amount) :
    x ≤ x + i * fin amount ∧ IndexOk (x + i * fin amount) := by
  have hinit : (0 : ℚ) < INCR_PER_REV_INIT := by norm_num [INCR_PER_REV_INIT]
  rcases hi with rfl | rfl
  · rcases hx with rfl | ⟨q, rfl⟩
    · exact ⟨by rfl, .inl rfl⟩
    · refine ⟨?_, .inr ⟨_, rfl⟩⟩
      simp only [fin_mul, fin_add, fin_le]
      nlinarith
  · have hx' : x ≠ nan ∧ x ≠ negInf := by rcases hx with rfl | ⟨q, rfl⟩ <;> simp
    rw [posInf_mul_fin ha, add_posInf x hx'.1 hx'.2]
    exact ⟨le_posInf x hx'.1, .inl rfl⟩

theorem inv_addRevenue {c : DistributionContract} (hc : Inv c) (amount : ℚ) :
    Inv (addRevenue c amount).1 := by
  unfold addRevenue
  split
  · exact hc
  · rename_i ha
    obtain ⟨hle, hok⟩ := indexOk_step hc.index (hc.incr.imp_right And.left) (not_le.1 ha)
    exact ⟨hc.stakes, hc.total, hc.incr, hok, hc.lastTotal, hc.lastIndex, fun p hp hpos =>
      (hc.snapshot p hp hpos).imp_right (And.imp_right (le_of_le_of_le · hle))⟩

theorem inv_exec {c : DistributionContract} (hc : Inv c) : ∀ call, Inv (exec c call).1
  | .changeShare dest change => inv_changeShare hc dest change
  | .addRevenue amount => inv_addRevenue hc amount

/-- Every reachable state, whatever calls were accepted or rejected. -/
theorem inv_run (calls : List Call) : Inv (run calls) :=
  trace_induction exec constructContract Inv inv_constructContract (fun _ call hc => inv_exec hc call)
    calls

/-- While stake remains, `incrementPerRevenue` is the initial constant. -/
theorem Inv.incr_of_pos {c : DistributionContract} (hc : Inv c) (h : 0 < c.totalStake) :
    c.incrementPerRevenue = fin INCR_PER_REV_INIT :=
  hc.incr.resolve_right fun ⟨_, h0⟩ => by simp [h0] at h

/-- The snapshot of a staked holder. -/
theorem Inv.snapshot_pos {c : DistributionContract} (hc : Inv c) {dest : String}
    (h : 0 < (loadUser c dest).ownStake) :
    ∃ s t, (loadUser c dest).ownStake = fin s ∧ (loadUser c dest).lastTotalStake = fin t ∧
      (loadUser c dest).lastIncrementPerRevenue = fin INCR_PER_REV_INIT ∧ 0 < s ∧ s ≤ t ∧
      (loadUser c dest).lastIndex ≤ c.index ∧ IndexOk (loadUser c dest).lastIndex := by
  have hmem := HashMap.mem_of_get (get_of_loadUser_pos h)
  obtain ⟨s, hs, -⟩ := hc.stakes _ hmem
  obtain ⟨t, ht⟩ := hc.lastTotal _ hmem
  obtain ⟨hst, hi, hl⟩ := hc.snapshot _ hmem h
  dsimp only at hs ht hst hi
  rw [hs, ht, fin_le] at hst
  rw [hs, zero_eq, fin_lt] at h
  exact ⟨s, t, hs, ht, hi, h, hst, hl, hc.lastIndex _ hmem⟩

/-- The snapshot of a staked holder, in a state whose `index` is finite. -/
theorem Inv.snapshot_fin {c : DistributionContract} (hc : Inv c) {x : ℚ} (hx : c.index = fin x)
    {dest : String} (h : 0 < (loadUser c dest).ownStake) :
    ∃ s t l, (loadUser c dest).ownStake = fin s ∧ (loadUser c dest).lastTotalStake = fin t ∧
      (loadUser c dest).lastIndex = fin l ∧
      (loadUser c dest).lastIncrementPerRevenue = fin INCR_PER_REV_INIT ∧ 0 < s ∧ s ≤ t ∧ l ≤ x := by
  obtain ⟨s, t, hs, ht, hi, hs0, hst, hl, hok⟩ := hc.snapshot_pos h
  rcases hok with hl' | ⟨l, hl'⟩
  · simp [hl', hx] at hl
  · rw [hl', hx, fin_le] at hl
    exact ⟨s, t, l, hs, ht, hl', hi, hs0, hst, hl⟩

/-- While stake is held, an injection raises a staked holder's Phase 1
settlement by `amount * ownStake / lastTotalStake`: the constant increment
cancels against the one in the snapshot. -/
theorem Inv.freshOwn_distributeRevenue {c : DistributionContract} (hc : Inv c) {x : ℚ}
    (hx : c.index = fin x) (hT : 0 < c.totalStake) (amount : ℚ) {dest : String}
    (h : 0 < (loadUser c dest).ownStake) :
    ∃ s t, (loadUser c dest).ownStake = fin s ∧ (loadUser c dest).lastTotalStake = fin t ∧
      freshOwn (distributeRevenue c amount).index (loadUser c dest) =
        freshOwn c.index (loadUser c dest) + fin (amount * s / t) := by
  obtain ⟨s, t, l, hs, ht, hl, hi, hs0, hst, -⟩ := hc.snapshot_fin hx h
  have hI : INCR_PER_REV_INIT ≠ 0 := by norm_num [INCR_PER_REV_INIT]
  have hIt : INCR_PER_REV_INIT * t ≠ 0 := mul_ne_zero hI (hs0.trans_le hst).ne'
  refine ⟨s, t, hs, ht, ?_⟩
  rw [distributeRevenue_index, hc.incr_of_pos hT, hx]
  simp only [freshOwn, hs, ht, hl, hi, zero_eq, eq_fin, hs0.ne', decide_False, Bool.false_eq_true, if_false,
    fin_mul, fin_add, fin_sub, fin_div _ hIt, fin_inj]
  rw [show (x + INCR_PER_REV_INIT * amount - l) * s = (x - l) * s + INCR_PER_REV_INIT * (amount * s) by ring,
    add_div, mul_div_mul_left _ _ hI]

/-- Phase 1 divides only by a positive number: whenever the loaded record
has stake, `lastIncrementPerRevenue * lastTotalStake` is a positive rational. -/
theorem Inv.divisor_pos {c : DistributionContract} (hc : Inv c) (dest : String)
    (h : (loadUser c dest).ownStake.eq 0 = false) :
    ∃ d, (loadUser c dest).lastIncrementPerRevenue * (loadUser c dest).lastTotalStake = fin d ∧
      0 < d := by
  obtain ⟨s, hs, hs0, -⟩ := hc.loadUser_stake dest
  have hpos : 0 < (loadUser c dest).ownStake := by
    rw [hs, zero_eq, eq_fin, decide_eq_false_iff_not] at h
    rw [hs, zero_eq, fin_lt]
    exact lt_of_le_of_ne hs0 (Ne.symm h)
  obtain ⟨_, t, -, ht, hi, hs0, hst, -⟩ := hc.snapshot_pos hpos
  exact ⟨INCR_PER_REV_INIT * t, by rw [hi, ht, fin_mul],
    mul_pos (by norm_num [INCR_PER_REV_INIT]) (hs0.trans_le hst)⟩

/-- In a state satisfying `Inv`, `totalStake` is the sum of the stakes in
the code's own arithmetic. -/
theorem Inv.totalStake_eq_sum {c : DistributionContract} (hc : Inv c) :
    c.totalStake = (c.userStateMap.items.map fun p => p.2.ownStake).sum := by
  have e : (c.userStateMap.items.map fun p => p.2.ownStake) =
      c.userStateMap.items.map fun p => fin p.2.ownStake.toRat :=
    List.map_congr_left fun p hp => by obtain ⟨s, hs, -⟩ := hc.stakes p hp; simp [hs]
  rw [e, sum_map_fin, hc.total, stakeSum]

/-- Stake conservation and the snapshot invariant hold after every sequence of
calls from `constructContract()`, accepted or rejected. -/
theorem run_stake_conserved_snapshot (calls : List Call) :
    (run calls).totalStake = ((run calls).userStateMap.items.map fun p => p.2.ownStake).sum ∧
    0 ≤ (run calls).totalStake ∧
    (∀ p ∈ (run calls).userStateMap.items, 0 ≤ p.2.ownStake) ∧
    ∀ p ∈ (run calls).userStateMap.items, 0 < p.2.ownStake →
      p.2.ownStake ≤ p.2.lastTotalStake ∧
        p.2.lastIncrementPerRevenue = fin INCR_PER_REV_INIT ∧ p.2.lastIndex ≤ (run calls).index := by
  have hc := inv_run calls
  refine ⟨hc.totalStake_eq_sum, ?_, fun p hp => ?_, hc.snapshot⟩
  · rw [hc.total, zero_eq, fin_le]; exact hc.stakeSum_nonneg
  · obtain ⟨s, hs, hs0⟩ := hc.stakes p hp
    rw [hs, zero_eq, fin_le]; exact hs0

/-! ## Records -/

theorem get_exec (c : DistributionContract) (call : Call) (k : String) :
    (exec c call).1.userStateMap.get k = c.userStateMap.get k ∨
      ∃ change, (exec c call).1.userStateMap.get k = some (snapshotUser c k change) := by
  cases call with
  | changeShare dest change =>
    simp only [exec]
    unfold changeShare
    split_ifs
    · exact .inl rfl
    cases dest with
    | none => exact .inl rfl
    | some dest =>
      dsimp only
      split_ifs
      · exact .inl rfl
      · exact .inl rfl
      · rw [commit_eq]
        by_cases hk : k = dest
        · subst hk; exact .inr ⟨change, HashMap.get_set_self _ _ _⟩
        · exact .inl (HashMap.get_set_ne _ _ hk)
  | addRevenue amount =>
    simp only [exec, addRevenue]
    split_ifs
    · exact .inl rfl
    · exact .inl rfl

theorem get_exec_isSome (c : DistributionContract) (call : Call) {k : String} {u : UserState}
    (h : c.userStateMap.get k = some u) : ((exec c call).1.userStateMap.get k).isSome := by
  rcases get_exec c call k with e | ⟨_, e⟩ <;> simp [e, h]

/-- A call that returns `EXIT_FAILURE` leaves the whole contract as it was:
`totalStake`, `incrementPerRevenue`, `index` and every record. -/
theorem exec_failure_eq (c : DistributionContract) (call : Call)
    (h : (exec c call).2 = EXIT_FAILURE) : (exec c call).1 = c := by
  cases call with
  | changeShare dest change => exact changeShare_failure_eq c dest change h
  | addRevenue amount => exact addRevenue_failure_eq c amount h

-- The run below is evaluated by `decide`; Batteries seals the rational operations.
attribute [local semireducible] Rat.add Rat.mul Rat.sub Rat.inv

theorem overdraw_rejected_unchanged :
    (exec (run [.changeShare (some "A") 10, .changeShare (some "B") 10])
        (.changeShare (some "A") (-15))).2 = EXIT_FAILURE ∧
      (exec (run [.changeShare (some "A") 10, .changeShare (some "B") 10])
        (.changeShare (some "A") (-15))).1 = run [.changeShare (some "A") 10, .changeShare (some "B") 10] :=
  ⟨by decide, exec_failure_eq _ _ (by decide)⟩

end Optimized

end WasmContracts
