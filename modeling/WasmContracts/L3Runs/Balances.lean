import WasmContracts.L2Ledger.NonOptimized
import WasmContracts.L2Ledger.Optimized
/-!
# Realized revenue in both contracts

A holder's realized revenue is `revenue` in the non-optimized contract and
`ownAccumulatedTotal` in the optimized one. Neither contract ever removes a
record (`NonOptimized.get_exec_isSome`, `Optimized.get_exec_isSome`), and in
every reachable optimized state Phase 1 divides only by a positive number
(`Optimized.Inv.divisor_pos`).

That realized revenue is nonnegative and never decreases holds for the runs
that keep the caller's obligation of spec §4.2, no injection while the total
stake is zero (`StakedInjection`). An injection into an empty pool makes the
non-optimized contract compute `0 / 0` for every holder and store NaN
(`zero_total_injection_nan`); in the optimized one it moves `index` to `+∞`
(`Bugs/Recalibration.lean`).

Results:
* `Optimized.revenueOk_run`, `NonOptimized.revenueOk_run`: under the
  obligation every realized revenue is finite and nonnegative, and the
  optimized `index` stays finite.
* `Optimized.acc_mono_exec`: no call lowers an accumulated total.
* `realized_revenue_persistent_monotone`: both contracts together, from one
  call to the next.
-/
namespace WasmContracts

open Double

namespace Optimized

/-- Every accumulated total is finite and nonnegative, and `index` is finite. -/
structure RevenueOk (c : DistributionContract) : Prop where
  index : ∃ x, c.index = fin x
  acc : ∀ p ∈ c.userStateMap.items, ∃ a, p.2.ownAccumulatedTotal = fin a ∧ 0 ≤ a

theorem revenueOk_constructContract : RevenueOk constructContract :=
  ⟨⟨_, rfl⟩, by simp [constructContract]⟩

/-- With a finite `index`, Phase 1's settlement is a nonnegative rational. -/
theorem Inv.freshOwn_nonneg {c : DistributionContract} (hc : Inv c) {x : ℚ} (hx : c.index = fin x)
    (dest : String) : ∃ f, freshOwn c.index (loadUser c dest) = fin f ∧ 0 ≤ f := by
  obtain ⟨s, hs, hs0, -⟩ := hc.loadUser_stake dest
  rcases hs0.eq_or_lt with rfl | hpos
  · exact ⟨0, by simp [freshOwn, hs], le_rfl⟩
  · obtain ⟨s, t, l, hs, ht, hl, hi, hs0, hst, hlx⟩ :=
      hc.snapshot_fin hx (by rwa [hs, zero_eq, fin_lt])
    have hd : 0 < INCR_PER_REV_INIT * t :=
      mul_pos (by norm_num [INCR_PER_REV_INIT]) (hs0.trans_le hst)
    refine ⟨(x - l) * s / (INCR_PER_REV_INIT * t), ?_,
      div_nonneg (mul_nonneg (by linarith) hs0.le) hd.le⟩
    simp [freshOwn, hs, ht, hl, hi, hx, hs0.ne', fin_div _ hd.ne']

theorem RevenueOk.loadUser_acc {c : DistributionContract} (hr : RevenueOk c) (dest : String) :
    ∃ a, (loadUser c dest).ownAccumulatedTotal = fin a ∧ 0 ≤ a := by
  unfold loadUser
  cases hg : c.userStateMap.get dest with
  | none => exact ⟨0, rfl, le_rfl⟩
  | some u => exact hr.acc _ (HashMap.mem_of_get hg)

/-- The record an accepted call stores has a finite, nonnegative accumulated
total, at least the loaded one. -/
theorem snapshotUser_acc {c : DistributionContract} (hc : Inv c) (hr : RevenueOk c) (dest : String)
    (change : ℚ) : ∃ a f, (loadUser c dest).ownAccumulatedTotal = fin a ∧
      (snapshotUser c dest change).ownAccumulatedTotal = fin (a + f) ∧ 0 ≤ a ∧ 0 ≤ f := by
  obtain ⟨x, hx⟩ := hr.index
  obtain ⟨a, ha, ha0⟩ := hr.loadUser_acc dest
  obtain ⟨f, hf, hf0⟩ := hc.freshOwn_nonneg hx dest
  exact ⟨a, f, ha, by simp [snapshotUser, ha, hf], ha0, hf0⟩

theorem revenueOk_changeShare {c : DistributionContract} (hc : Inv c) (hr : RevenueOk c)
    (dest : Option String) (change : ℚ) : RevenueOk (changeShare c dest change).1 := by
  cases dest with
  | none => rwa [changeShare_none]
  | some dest =>
    obtain ⟨s, hs, -, -⟩ := hc.loadUser_stake dest
    rw [changeShare_fin dest change hc.total hs]
    split_ifs
    · exact hr
    · refine ⟨hr.index, fun p hp => ?_⟩
      rw [commit_eq] at hp
      rcases HashMap.mem_setItems hp with hp | rfl
      · exact hr.acc p hp
      · obtain ⟨a, f, -, e, ha, hf⟩ := snapshotUser_acc hc hr dest change
        exact ⟨a + f, e, add_nonneg ha hf⟩

theorem revenueOk_addRevenue {c : DistributionContract} (hc : Inv c) (hr : RevenueOk c)
    (amount : ℚ) (hpos : 0 < amount → 0 < c.totalStake) : RevenueOk (addRevenue c amount).1 := by
  by_cases ha : 0 < amount
  · obtain ⟨x, hx⟩ := hr.index
    rw [addRevenue_pos _ ha]
    exact ⟨⟨x + INCR_PER_REV_INIT * amount, by simp [hx, hc.incr_of_pos (hpos ha)]⟩, hr.acc⟩
  · rwa [addRevenue, if_pos (not_lt.1 ha)]

/-- One call keeps `RevenueOk` when an injection is made only while
`totalStake > 0`. -/
theorem revenueOk_exec {c : DistributionContract} (hc : Inv c) (hr : RevenueOk c) :
    ∀ call, StakedInjection DistributionContract.totalStake c call → RevenueOk (exec c call).1
  | .changeShare dest change, _ => revenueOk_changeShare hc hr dest change
  | .addRevenue amount, hg => revenueOk_addRevenue hc hr amount hg

/-- From one call to the next no accumulated total decreases; the call
need not keep the obligation, only the runs before it. -/
theorem acc_mono_exec {c : DistributionContract} (hc : Inv c) (hr : RevenueOk c) (call : Call)
    {k : String} {u : UserState} (h : c.userStateMap.get k = some u) :
    ∃ u', (exec c call).1.userStateMap.get k = some u' ∧
      u.ownAccumulatedTotal ≤ u'.ownAccumulatedTotal := by
  rcases get_exec c call k with e | ⟨change, e⟩
  · obtain ⟨a, ha, -⟩ := hr.acc _ (HashMap.mem_of_get h)
    exact ⟨u, e.trans h, by rw [ha, fin_le]⟩
  · obtain ⟨a, f, ha, e', -, hf⟩ := snapshotUser_acc hc hr k change
    rw [loadUser_of_get h] at ha
    refine ⟨_, e, ?_⟩
    rw [ha, e', fin_le]
    linarith

/-- Under the obligation every reachable state satisfies `RevenueOk`. -/
theorem revenueOk_run (calls : List Call)
    (h : Respects exec constructContract (StakedInjection DistributionContract.totalStake) calls) :
    RevenueOk (run calls) :=
  (trace_induction_respects exec constructContract _ (fun c => Inv c ∧ RevenueOk c)
    ⟨inv_constructContract, revenueOk_constructContract⟩
    (fun _ call hc hg => ⟨inv_exec hc.1 call, revenueOk_exec hc.1 hc.2 call hg⟩) calls h).2

end Optimized

namespace NonOptimized

/-- Under the obligation every reachable state satisfies `RevenueOk`. -/
theorem revenueOk_run (calls : List Call)
    (h : Respects exec constructContract (StakedInjection DistributionContract.totalShare) calls) :
    RevenueOk (run calls) :=
  (trace_induction_respects exec constructContract _ (fun c => Inv c ∧ RevenueOk c)
    ⟨inv_constructContract, by simp [RevenueOk, constructContract]⟩
    (fun _ call hc hg => ⟨inv_exec hc.1 call, revenueOk_exec hc.1 hc.2 call hg⟩) calls h).2

end NonOptimized

namespace Balances

/-- Both contracts, from one call to the next: no record is removed and
Phase 1 divides only by a positive number, whatever the calls; on runs that
keep the caller's obligation, every realized revenue is nonnegative and does
not decrease, and the settlement term is nonnegative. -/
theorem realized_revenue_persistent_monotone (calls : List Call) (call : Call) :
    (∀ k u, (NonOptimized.run calls).userStateMap.get k = some u →
      ((NonOptimized.run (calls ++ [call])).userStateMap.get k).isSome) ∧
    (∀ k u, (Optimized.run calls).userStateMap.get k = some u →
      ((Optimized.run (calls ++ [call])).userStateMap.get k).isSome) ∧
    (∀ dest, (Optimized.loadUser (Optimized.run calls) dest).ownStake.eq 0 = false →
      ∃ d, (Optimized.loadUser (Optimized.run calls) dest).lastIncrementPerRevenue *
        (Optimized.loadUser (Optimized.run calls) dest).lastTotalStake = fin d ∧ 0 < d) ∧
    (Respects NonOptimized.exec NonOptimized.constructContract
        (StakedInjection NonOptimized.DistributionContract.totalShare) (calls ++ [call]) →
      ∀ k u, (NonOptimized.run calls).userStateMap.get k = some u → 0 ≤ u.revenue ∧
        ∃ u', (NonOptimized.run (calls ++ [call])).userStateMap.get k = some u' ∧
          u.revenue ≤ u'.revenue) ∧
    (Respects Optimized.exec Optimized.constructContract
        (StakedInjection Optimized.DistributionContract.totalStake) (calls ++ [call]) →
      (∀ k u, (Optimized.run calls).userStateMap.get k = some u → 0 ≤ u.ownAccumulatedTotal ∧
        ∃ u', (Optimized.run (calls ++ [call])).userStateMap.get k = some u' ∧
          u.ownAccumulatedTotal ≤ u'.ownAccumulatedTotal) ∧
      ∀ dest, 0 ≤ Optimized.freshOwn (Optimized.run calls).index
        (Optimized.loadUser (Optimized.run calls) dest)) := by
  have hn := NonOptimized.inv_run calls
  have ho := Optimized.inv_run calls
  refine ⟨fun k u h => ?_, fun k u h => ?_, ho.divisor_pos, fun hg k u h => ?_, fun hg => ?_⟩
  · rw [NonOptimized.run, trace_concat]; exact NonOptimized.get_exec_isSome _ call h
  · rw [Optimized.run, trace_concat]; exact Optimized.get_exec_isSome _ call h
  · obtain ⟨hg, hcall⟩ := respects_concat _ _ hg
    have hr := NonOptimized.revenueOk_run calls hg
    obtain ⟨r, hr', hr0⟩ := hr _ (HashMap.mem_of_get h)
    refine ⟨by rw [hr', zero_eq, fin_le]; exact hr0, ?_⟩
    rw [NonOptimized.run, trace_concat]
    exact NonOptimized.revenue_mono_exec hn hr call hcall h
  · have hr := Optimized.revenueOk_run calls (respects_concat _ _ hg).1
    obtain ⟨x, hx⟩ := hr.index
    refine ⟨fun k u h => ⟨?_, ?_⟩, fun dest => ?_⟩
    · obtain ⟨a, ha, ha0⟩ := hr.acc _ (HashMap.mem_of_get h)
      rw [ha, zero_eq, fin_le]; exact ha0
    · rw [Optimized.run, trace_concat]; exact Optimized.acc_mono_exec ho hr call h
    · obtain ⟨f, hf, hf0⟩ := ho.freshOwn_nonneg hx dest
      rw [hf, zero_eq, fin_le]; exact hf0

/-! ## The obligation is needed -/

-- The runs below are evaluated by `decide`; Batteries seals the rational operations.
attribute [local semireducible] Rat.add Rat.mul Rat.sub Rat.inv

/-- A stakes 10 and withdraws it; `addRevenue(1)` is then accepted with
`totalShare = 0`, and the non-optimized contract stores `0 / 0 = NaN` as
A's revenue, which is not `≥ 0`. -/
theorem zero_total_injection_nan :
    (NonOptimized.run [.changeShare (some "A") 10, .changeShare (some "A") (-10)]).totalShare = 0 ∧
    ((NonOptimized.run [.changeShare (some "A") 10, .changeShare (some "A") (-10), .addRevenue 1]
      ).userStateMap.get "A").map (·.revenue) = some nan ∧ ¬ (0 : Double) ≤ nan := by
  decide

end Balances

end WasmContracts
