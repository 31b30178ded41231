import WasmContracts.L1Data.HashMap
import WasmContracts.L2Ledger.Interface
import Mathlib.Algebra.BigOperators.Ring.List
/-!
# The non-optimized distribution contract

`revenue_distribution/NonOptimized/DistributionContract.c` walks the whole
holder map on every injection. `run calls` is the contract after a sequence
of calls from `constructContract()`.

`changeShare` checks the new total (line 69), writes it (line 71), and only
then checks the holder's own share (line 84). A call rejected for a holder
underflow therefore still lowers `totalShare` (`changeShare_failure`;
`Bugs/NaiveRevert.lean` shows what that breaks). What every reachable state
does satisfy is `Inv`: every share is finite and nonnegative, and
`0 ≤ totalShare ≤ Σ share`.

Results:
* `changeShare_fin`: `changeShare` on finite values, as rational comparisons.
* `inv_run`: `Inv` holds after every sequence of calls, accepted or rejected.
* `changeShare_failure`: a rejected `changeShare` leaves the contract as it
  was, or changes `totalShare` alone.
* `conserved_exec_accepted`: `totalShare = Σ share` survives every call that
  is accepted whenever it changes a stake.
-/
namespace WasmContracts

namespace NonOptimized

open Double

/-- An entry of the hashmap; its `address` is the map's key.
mirrors NonOptimized/DistributionContract.h:131-135 -/
structure UserState where
  share : Double
  revenue : Double
  deriving DecidableEq, Repr

/-- mirrors NonOptimized/DistributionContract.h:125-128 -/
structure DistributionContract where
  userStateMap : HashMap UserState
  totalShare : Double

/-- `calloc` leaves `totalShare` zero.
mirrors NonOptimized/DistributionContract.c:30-39 -/
def constructContract : DistributionContract := ⟨HashMap.new, 0⟩

/-- The record `changeShare` starts from: the stored one, or `{ dest, 0, 0 }`.
mirrors NonOptimized/DistributionContract.c:73-81 -/
def loadUser (m : HashMap UserState) (dest : String) : UserState :=
  (m.get dest).getD ⟨0, 0⟩

/-- mirrors NonOptimized/DistributionContract.c:64-88 -/
def changeShare (contract : DistributionContract) (dest : Option String) (change : ℚ) :
    DistributionContract × Int :=
  if change = 0 then (contract, EXIT_FAILURE) else
  match dest with
  | none => (contract, EXIT_FAILURE)
  | some dest =>
    let newTotalShare := contract.totalShare + fin change
    if newTotalShare < 0 ∨ newTotalShare.isfinite = false then (contract, EXIT_FAILURE) else
    let contract := { contract with totalShare := newTotalShare }
    let tmp := loadUser contract.userStateMap dest
    let newUserShare := tmp.share + fin change
    if newUserShare < 0 then (contract, EXIT_FAILURE) else
    ({ contract with
        userStateMap := contract.userStateMap.set dest { tmp with share := newUserShare } },
      EXIT_SUCCESS)

/-- The naive loop: every item gets `revenue += (share / totalShare) * amount`.
mirrors NonOptimized/DistributionContract.c:110-119 -/
def distributeRevenue (contract : DistributionContract) (amount : ℚ) : DistributionContract :=
  { contract with
    userStateMap := contract.userStateMap.update fun u =>
      { u with revenue := u.revenue + u.share / contract.totalShare * fin amount } }

/-- mirrors NonOptimized/DistributionContract.c:97-102 -/
def addRevenue (contract : DistributionContract) (amount : ℚ) : DistributionContract × Int :=
  if amount ≤ 0 then (contract, EXIT_FAILURE) else (distributeRevenue contract amount, EXIT_SUCCESS)

/-- One call of the interface. -/
def exec (contract : DistributionContract) : Call → DistributionContract × Int
  | .changeShare dest change => changeShare contract dest change
  | .addRevenue amount => addRevenue contract amount

/-- The contract after `calls`, from `constructContract()`. -/
def run (calls : List Call) : DistributionContract := trace exec constructContract calls

/-! ## `changeShare` on finite values -/

theorem changeShare_none (contract : DistributionContract) (change : ℚ) :
    changeShare contract none change = (contract, EXIT_FAILURE) := by
  unfold changeShare; split <;> rfl

theorem changeShare_fin {contract : DistributionContract} {T s : ℚ} (dest : String) (change : ℚ)
    (hT : contract.totalShare = fin T) (hs : (loadUser contract.userStateMap dest).share = fin s) :
    changeShare contract (some dest) change =
      if change = 0 ∨ T + change < 0 then (contract, EXIT_FAILURE)
      else if s + change < 0 then ({ contract with totalShare := fin (T + change) }, EXIT_FAILURE)
      else ({ userStateMap := contract.userStateMap.set dest
                { loadUser contract.userStateMap dest with share := fin (s + change) },
              totalShare := fin (T + change) }, EXIT_SUCCESS) := by
  by_cases h0 : change = 0
  · simp [changeShare, h0]
  · simp only [changeShare, h0, hT, hs, fin_add, zero_eq, fin_lt, isfinite_fin, Bool.true_eq_false,
      or_false, false_or, if_false]

theorem loadUser_field {m : HashMap UserState} (f : UserState → Double) (hf : f ⟨0, 0⟩ = 0)
    (h : ∀ p ∈ m.items, ∃ q, f p.2 = fin q ∧ 0 ≤ q) (dest : String) :
    ∃ q, f (loadUser m dest) = fin q ∧ 0 ≤ q := by
  unfold loadUser
  cases hg : m.get dest with
  | none => exact ⟨0, hf, le_rfl⟩
  | some u => exact h _ (HashMap.mem_of_get hg)

theorem loadUser_share {m : HashMap UserState}
    (h : ∀ p ∈ m.items, ∃ q, p.2.share = fin q ∧ 0 ≤ q) (dest : String) :
    ∃ s, (loadUser m dest).share = fin s ∧ 0 ≤ s :=
  loadUser_field UserState.share rfl h dest

theorem loadUser_of_get {m : HashMap UserState} {dest : String} {u : UserState}
    (h : m.get dest = some u) : loadUser m dest = u := by
  simp [loadUser, h]

theorem get_getD_eq_loadUser (m : HashMap UserState) (dest : String) (g : UserState → ℚ)
    (hg : g ⟨0, 0⟩ = 0) : ((m.get dest).map g).getD 0 = g (loadUser m dest) := by
  unfold loadUser
  cases m.get dest with
  | none => exact hg.symm
  | some u => rfl

/-! ## What every reachable state satisfies -/

/-- `Σ share` over all records, as a rational. -/
def shareSum (c : DistributionContract) : ℚ :=
  (c.userStateMap.items.map fun p => p.2.share.toRat).sum

/-- Every share is finite and nonnegative, and `0 ≤ totalShare ≤ Σ share`. -/
structure Inv (c : DistributionContract) : Prop where
  shares : ∀ p ∈ c.userStateMap.items, ∃ q, p.2.share = fin q ∧ 0 ≤ q
  total : ∃ T, c.totalShare = fin T ∧ 0 ≤ T ∧ T ≤ shareSum c

theorem inv_constructContract : Inv constructContract :=
  ⟨by simp [constructContract], ⟨0, rfl, le_rfl, by simp [shareSum, constructContract]⟩⟩

theorem shareSum_set (m : HashMap UserState) (t : Double) (dest : String) (u : UserState) :
    shareSum ⟨m.set dest u, t⟩ + (loadUser m dest).share.toRat = shareSum ⟨m, t⟩ + u.share.toRat := by
  unfold shareSum
  rw [← get_getD_eq_loadUser m dest (fun u => u.share.toRat) rfl]
  exact HashMap.sum_set m dest u (fun u => u.share.toRat)

theorem inv_changeShare {c : DistributionContract} (hc : Inv c) (dest : Option String) (change : ℚ) :
    Inv (changeShare c dest change).1 := by
  cases dest with
  | none => rwa [changeShare_none]
  | some dest =>
    obtain ⟨T, hT, hT0, hTS⟩ := hc.total
    obtain ⟨s, hs, hs0⟩ := loadUser_share hc.shares dest
    rw [changeShare_fin dest change hT hs]
    split_ifs with h1 h2
    · exact hc
    · exact ⟨hc.shares, T + change, rfl, by push_neg at h1; linarith, by
        simp only [shareSum] at hTS ⊢; linarith⟩
    · push_neg at h1 h2
      refine ⟨fun p hp => ?_, T + change, rfl, by linarith, ?_⟩
      · rcases HashMap.mem_setItems hp with hp | rfl
        · exact hc.shares p hp
        · exact ⟨s + change, rfl, h2⟩
      · have := shareSum_set c.userStateMap c.totalShare dest
          { loadUser c.userStateMap dest with share := fin (s + change) }
        simp only [hs, toRat_fin] at this
        simp only [shareSum] at hTS this ⊢
        linarith

theorem shareSum_distributeRevenue (c : DistributionContract) (amount : ℚ) :
    shareSum (distributeRevenue c amount) = shareSum c := by
  simp [shareSum, distributeRevenue, Function.comp_def]

theorem inv_addRevenue {c : DistributionContract} (hc : Inv c) (amount : ℚ) :
    Inv (addRevenue c amount).1 := by
  unfold addRevenue
  split
  · exact hc
  · refine ⟨?_, by simpa [shareSum_distributeRevenue] using hc.total⟩
    simp only [distributeRevenue, HashMap.update_items, List.mem_map]
    rintro _ ⟨p, hp, rfl⟩
    exact hc.shares p hp

theorem inv_exec {c : DistributionContract} (hc : Inv c) : ∀ call, Inv (exec c call).1
  | .changeShare dest change => inv_changeShare hc dest change
  | .addRevenue amount => inv_addRevenue hc amount

/-- Every reachable state, whatever calls were accepted or rejected. -/
theorem inv_run (calls : List Call) : Inv (run calls) :=
  trace_induction exec constructContract Inv inv_constructContract (fun _ call hc => inv_exec hc call)
    calls

/-! ## Failures and conservation -/

/-- A rejected `changeShare` leaves the contract as it was, or has already
written the new total (the holder-underflow rejection at line 84). -/
theorem changeShare_failure (c : DistributionContract) (dest : Option String) (change : ℚ)
    (h : (changeShare c dest change).2 = EXIT_FAILURE) :
    (changeShare c dest change).1 = c ∨
      (changeShare c dest change).1 = { c with totalShare := c.totalShare + fin change } := by
  unfold changeShare at h ⊢
  split_ifs at h ⊢ with h0
  · exact .inl rfl
  cases dest with
  | none => exact .inl rfl
  | some dest =>
    simp only at h ⊢
    split_ifs at h ⊢
    · exact .inl rfl
    · exact .inr rfl
    · exact absurd h exit_success_ne_failure

/-- `totalShare` is exactly `Σ share`. -/
def Conserved (c : DistributionContract) : Prop := c.totalShare = fin (shareSum c)

instance (c : DistributionContract) : Decidable (Conserved c) :=
  inferInstanceAs (Decidable (c.totalShare = fin (shareSum c)))

theorem conserved_changeShare {c : DistributionContract} (hc : Inv c) (hcons : Conserved c)
    (dest : Option String) (change : ℚ)
    (h : (changeShare c dest change).2 = EXIT_SUCCESS ∨ (changeShare c dest change).1 = c) :
    Conserved (changeShare c dest change).1 := by
  rcases h with h | h
  · cases dest with
    | none => rw [changeShare_none] at h; exact absurd h.symm exit_success_ne_failure
    | some dest =>
      obtain ⟨s, hs, -⟩ := loadUser_share hc.shares dest
      have hT : c.totalShare = fin (shareSum c) := hcons
      rw [changeShare_fin dest change hT hs] at h ⊢
      split_ifs at h ⊢
      · exact absurd h.symm exit_success_ne_failure
      · exact absurd h.symm exit_success_ne_failure
      · have := shareSum_set c.userStateMap c.totalShare dest
          { loadUser c.userStateMap dest with share := fin (s + change) }
        simp only [hs, toRat_fin] at this
        show fin _ = fin _
        simp only [fin_inj]
        unfold shareSum at this ⊢
        linarith
  · rwa [h]

theorem conserved_addRevenue {c : DistributionContract} (hcons : Conserved c) (amount : ℚ) :
    Conserved (addRevenue c amount).1 := by
  unfold addRevenue
  split
  · exact hcons
  · show c.totalShare = _
    rw [shareSum_distributeRevenue]; exact hcons

theorem addRevenue_success_or_eq (c : DistributionContract) (amount : ℚ) :
    (addRevenue c amount).2 = EXIT_SUCCESS ∨ (addRevenue c amount).1 = c := by
  unfold addRevenue; split
  · exact .inr rfl
  · exact .inl rfl

/-- A call that is accepted whenever it changes a stake keeps
`totalShare = Σ share`. -/
theorem conserved_exec_accepted {c : DistributionContract} (hc : Inv c) (hcons : Conserved c) :
    ∀ call, AcceptedChange exec c call → Conserved (exec c call).1
  | .changeShare dest change, h => conserved_changeShare hc hcons dest change (.inl h)
  | .addRevenue amount, _ => conserved_addRevenue hcons amount

/-! ## One injection -/

/-- `Σ revenue` over all records, as a rational. -/
def revenueSum (c : DistributionContract) : ℚ :=
  (c.userStateMap.items.map fun p => p.2.revenue.toRat).sum

theorem get_distributeRevenue (c : DistributionContract) (amount : ℚ) (k : String) :
    (distributeRevenue c amount).userStateMap.get k =
      (c.userStateMap.get k).map fun u =>
        { u with revenue := u.revenue + u.share / c.totalShare * fin amount } :=
  HashMap.get_update _ _ k

/-- With every share and revenue finite and a positive total, an injection
raises `Σ revenue` by `amount * Σ share / totalShare`. -/
theorem revenueSum_distributeRevenue {c : DistributionContract} {T : ℚ} (hc : Inv c)
    (hr : ∀ p ∈ c.userStateMap.items, ∃ r, p.2.revenue = fin r) (hT : c.totalShare = fin T)
    (hT0 : 0 < T) (amount : ℚ) :
    revenueSum (distributeRevenue c amount) = revenueSum c + amount * shareSum c / T := by
  have key : ∀ p ∈ c.userStateMap.items,
      (p.2.revenue + p.2.share / c.totalShare * fin amount).toRat =
        p.2.revenue.toRat + p.2.share.toRat * (amount / T) := by
    intro p hp
    obtain ⟨q, hq, -⟩ := hc.shares p hp
    obtain ⟨r, hr⟩ := hr p hp
    rw [hq, hr, hT, fin_div q hT0.ne']
    simp only [fin_mul, fin_add, toRat_fin]
    ring
  simp only [revenueSum, shareSum, distributeRevenue, HashMap.update_items, List.map_map,
    Function.comp_def]
  rw [List.map_congr_left key, List.sum_map_add, List.sum_map_mul_right]
  ring

/-! ## Realized revenue -/

/-- After `changeShare`, a record is the one before, or the record the call
loaded with its share changed. -/
theorem get_changeShare (c : DistributionContract) (dest : Option String) (change : ℚ) (k : String) :
    (changeShare c dest change).1.userStateMap.get k = c.userStateMap.get k ∨
      (changeShare c dest change).1.userStateMap.get k =
        some { loadUser c.userStateMap k with share := (loadUser c.userStateMap k).share + fin change } := by
  unfold changeShare
  split_ifs
  · exact .inl rfl
  cases dest with
  | none => exact .inl rfl
  | some dest =>
    dsimp only
    split_ifs
    · exact .inl rfl
    · exact .inl rfl
    · by_cases hk : k = dest
      · subst hk; exact .inr (HashMap.get_set_self _ _ _)
      · exact .inl (HashMap.get_set_ne _ _ hk)

theorem get_exec_isSome (c : DistributionContract) (call : Call) {k : String} {u : UserState}
    (h : c.userStateMap.get k = some u) : ((exec c call).1.userStateMap.get k).isSome := by
  cases call with
  | changeShare dest change =>
    rcases get_changeShare c dest change k with e | e <;> simp [exec, e, h]
  | addRevenue amount =>
    show ((addRevenue c amount).1.userStateMap.get k).isSome
    unfold addRevenue; split
    · simp [h]
    · simp [get_distributeRevenue, h]

/-- Every revenue is finite and nonnegative. -/
def RevenueOk (c : DistributionContract) : Prop :=
  ∀ p ∈ c.userStateMap.items, ∃ r, p.2.revenue = fin r ∧ 0 ≤ r

theorem revenueOk_changeShare {c : DistributionContract} (hc : Inv c) (hr : RevenueOk c)
    (dest : Option String) (change : ℚ) : RevenueOk (changeShare c dest change).1 := by
  cases dest with
  | none => rwa [changeShare_none]
  | some dest =>
    obtain ⟨T, hT, -⟩ := hc.total
    obtain ⟨s, hs, -⟩ := loadUser_share hc.shares dest
    rw [changeShare_fin dest change hT hs]
    split_ifs
    · exact hr
    · exact hr
    · intro p hp
      rcases HashMap.mem_setItems hp with hp | rfl
      · exact hr p hp
      · exact loadUser_field UserState.revenue rfl hr dest

theorem revenueOk_addRevenue {c : DistributionContract} (hc : Inv c) (hr : RevenueOk c)
    (amount : ℚ) (hpos : 0 < amount → 0 < c.totalShare) : RevenueOk (addRevenue c amount).1 := by
  unfold addRevenue
  split
  · exact hr
  · rename_i ha
    have ha : 0 < amount := not_le.1 ha
    obtain ⟨T, hT, -⟩ := hc.total
    have hT0 : 0 < T := by simpa [hT] using hpos ha
    simp only [RevenueOk, distributeRevenue, HashMap.update_items, List.mem_map]
    rintro _ ⟨p, hp, rfl⟩
    obtain ⟨r, hr', hr0⟩ := hr p hp
    obtain ⟨q, hq, hq0⟩ := hc.shares p hp
    refine ⟨r + q / T * amount, by simp [hr', hq, hT, fin_div q hT0.ne'], ?_⟩
    exact add_nonneg hr0 (mul_nonneg (div_nonneg hq0 hT0.le) ha.le)

/-- One call keeps `RevenueOk` when an injection is made only while
`totalShare > 0`. -/
theorem revenueOk_exec {c : DistributionContract} (hc : Inv c) (hr : RevenueOk c) :
    ∀ call, StakedInjection DistributionContract.totalShare c call → RevenueOk (exec c call).1
  | .changeShare dest change, _ => revenueOk_changeShare hc hr dest change
  | .addRevenue amount, hg => revenueOk_addRevenue hc hr amount hg

/-- From one call to the next, in a contract whose revenues are finite and
nonnegative and with an injection made only while `totalShare > 0`, no record
disappears and no revenue decreases. -/
theorem revenue_mono_exec {c : DistributionContract} (hc : Inv c) (hr : RevenueOk c) (call : Call)
    (hg : StakedInjection DistributionContract.totalShare c call)
    {k : String} {u : UserState} (h : c.userStateMap.get k = some u) :
    ∃ u', (exec c call).1.userStateMap.get k = some u' ∧ u.revenue ≤ u'.revenue := by
  obtain ⟨r, hr', -⟩ : ∃ r, u.revenue = fin r ∧ 0 ≤ r := hr _ (HashMap.mem_of_get h)
  have hle : u.revenue ≤ u.revenue := by rw [hr']; exact (fin_le r r).2 le_rfl
  cases call with
  | changeShare dest change =>
    rcases get_changeShare c dest change k with e | e
    · exact ⟨u, by simp [exec, e, h], hle⟩
    · exact ⟨_, e, by rwa [loadUser_of_get h]⟩
  | addRevenue amount =>
    show ∃ u', (addRevenue c amount).1.userStateMap.get k = some u' ∧ _
    unfold addRevenue
    split
    · exact ⟨u, h, hle⟩
    · rename_i ha
      have ha : 0 < amount := not_le.1 ha
      obtain ⟨T, hT, -⟩ := hc.total
      have hT0 : 0 < T := by simpa [hT] using hg ha
      obtain ⟨q, hq, hq0⟩ : ∃ q, u.share = fin q ∧ 0 ≤ q := hc.shares _ (HashMap.mem_of_get h)
      refine ⟨_, by rw [get_distributeRevenue, h]; rfl, ?_⟩
      simp only [hr', hq, hT, fin_div q hT0.ne', fin_mul, fin_add, fin_le]
      exact le_add_of_nonneg_right (mul_nonneg (div_nonneg hq0 hT0.le) ha.le)

end NonOptimized

end WasmContracts
