import WasmContracts.L2Ledger.Split
import WasmContracts.L3Runs.Balances
/-!
# Both contracts refine a split by stake

`L2Ledger/Split.lean` states what a distribution contract is for: a stake and
the revenue owed per address, every injection divided among the stakes. Here
each contract of `revenue_distribution/` is shown to compute such a split, on
the runs where its own defects stay silent, and which divisor it uses.

* The non-optimized contract, on every run whose stake changes are all
  accepted (a rejected one writes `totalShare` anyway, `Bugs/NaiveRevert.lean`)
  and whose injections are made while stake is held, is the proportional
  split: its hashmap is the split's map read as `UserState`s.
* The optimized contract, on every run whose injections are made while stake
  is held, is the split at snapshots: what it owes a holder, the accumulated
  total plus the settlement the holder's next stake change would add, is
  what that split owes. Its Phase 2 resets `incrementPerRevenue` while stake
  remains, so the settlement divides by the total at the holder's last change
  (`Bugs/Recalibration.lean`).

Results:
* `NonOptimized.run_refines_proportional` and `NonOptimized.revenueSum_run`:
  the first refinement, and that its revenues sum to the revenue injected.
* `Optimized.run_refines_atSnapshot`: the second refinement.
* `owed_eq_revenue`: where the two splits agree, on runs whose injections are
  made while every staked holder's last change left the total as it is, the
  optimized contract owes every holder what the non-optimized one has paid
  it (spec §8, "Equivalence under settlement").
-/
namespace WasmContracts

-- The runs below are evaluated by `decide`; Batteries seals the rational operations.
attribute [local semireducible] Rat.add Rat.mul Rat.sub Rat.inv

open Double
open Split (Holding holding part proportional atSnapshot injected)

namespace NonOptimized

/-- A holding read as an entry of the non-optimized hashmap. -/
def toUserState (h : Holding) : UserState := ⟨fin h.stake, fin h.owed⟩

/-- The contract is the split read through `toUserState`. -/
def Refines (c : DistributionContract) (S : Split.State) : Prop :=
  c.userStateMap = S.holdings.map toUserState ∧ c.totalShare = fin S.total

theorem loadUser_map (S : Split.State) (dest : String) :
    loadUser (S.holdings.map toUserState) dest = toUserState (holding S dest) := by
  simp only [loadUser, HashMap.get_map, holding]
  cases S.holdings.get dest <;> rfl

/-- One call keeps the refinement and returns what the split returns, if it
is an accepted stake change or an injection while stake is held. -/
theorem refines_exec {c : DistributionContract} {S : Split.State} (h : Refines c S) (call : Call)
    (hg : AcceptedChange exec c call ∧ StakedInjection DistributionContract.totalShare c call) :
    Refines (exec c call).1 (Split.exec proportional S call).1 ∧
      (exec c call).2 = (Split.exec proportional S call).2 := by
  obtain ⟨hm, hT⟩ := h
  cases call with
  | changeShare dest change =>
    have hacc : (changeShare c dest change).2 = EXIT_SUCCESS := hg.1
    cases dest with
    | none => rw [changeShare_none] at hacc; exact absurd hacc.symm exit_success_ne_failure
    | some dest =>
      have hs : (loadUser c.userStateMap dest).share = fin (holding S dest).stake := by
        rw [hm, loadUser_map]; rfl
      rw [changeShare_fin dest change hT hs] at hacc
      split_ifs at hacc with h1 h2
      · exact absurd hacc.symm exit_success_ne_failure
      · exact absurd hacc.symm exit_success_ne_failure
      have hn : ¬ (change = 0 ∨ S.total + change < 0 ∨ (holding S dest).stake + change < 0) := by
        rw [← or_assoc]; exact not_or.2 ⟨h1, h2⟩
      simp only [exec]
      rw [changeShare_fin dest change hT hs, if_neg h1, if_neg h2, Split.exec_changeShare S dest change hn]
      refine ⟨⟨?_, rfl⟩, rfl⟩
      rw [hm, loadUser_map, HashMap.map_set]; rfl
  | addRevenue amount =>
    by_cases ha : 0 < amount
    · have hT0 : 0 < S.total := by simpa [hT] using hg.2 ha
      simp only [exec]
      rw [addRevenue, if_neg (not_le.2 ha), Split.exec_addRevenue S ha]
      refine ⟨⟨?_, hT⟩, rfl⟩
      dsimp only [distributeRevenue]
      rw [hm, hT, HashMap.update_map]
      intro p _
      simp only [toUserState, part, proportional, fin_div _ hT0.ne', fin_mul, fin_add, UserState.mk.injEq,
        true_and, fin_inj]
      ring
    · simp only [exec, addRevenue, Split.exec, if_pos (not_lt.1 ha), and_true]
      exact ⟨hm, hT⟩

theorem refines_run (calls : List Call)
    (h : Respects exec constructContract
      (fun c call => AcceptedChange exec c call ∧ StakedInjection DistributionContract.totalShare c call)
      calls) :
    Refines (run calls) (Split.run proportional calls) :=
  trace_simulation exec constructContract (Split.exec proportional) Split.init _ Refines ⟨rfl, rfl⟩
    (fun _ _ call hR hg => (refines_exec hR call hg).1) calls h

/-- The proportional split of such a run injects only while stake is held. -/
theorem split_staked (calls : List Call)
    (h : Respects exec constructContract
      (fun c call => AcceptedChange exec c call ∧ StakedInjection DistributionContract.totalShare c call)
      calls) :
    Respects (Split.exec proportional) Split.init (StakedInjection fun S => fin S.total) calls :=
  respects_of_simulation exec constructContract (Split.exec proportional) Split.init _ _ Refines
    ⟨rfl, rfl⟩ (fun _ _ call hR hg => (refines_exec hR call hg).1)
    (fun _ _ _ hR hg => hg.2.of_total_eq hR.2) calls h

/-- On every run whose stake changes are all accepted and whose injections are
made while stake is held, the non-optimized contract is the proportional
split: each holder's share and revenue are its stake and what it is owed. -/
theorem run_refines_proportional (calls : List Call)
    (h : Respects exec constructContract
      (fun c call => AcceptedChange exec c call ∧ StakedInjection DistributionContract.totalShare c call)
      calls) :
    (run calls).userStateMap = (Split.run proportional calls).holdings.map toUserState ∧
      (run calls).totalShare = fin (Split.run proportional calls).total :=
  refines_run calls h

theorem staked_run_proportional :
    (run [.changeShare (some "A") 10, .changeShare (some "B") 30, .addRevenue 8]).userStateMap =
        (Split.run proportional
          [.changeShare (some "A") 10, .changeShare (some "B") 30, .addRevenue 8]).holdings.map toUserState ∧
      (run [.changeShare (some "A") 10, .changeShare (some "B") 30, .addRevenue 8]).totalShare =
        fin (Split.run proportional [.changeShare (some "A") 10, .changeShare (some "B") 30, .addRevenue 8]).total :=
  run_refines_proportional _ (by decide)

/-- On the same runs the revenues sum to exactly the revenue injected. -/
theorem revenueSum_run (calls : List Call)
    (h : Respects exec constructContract
      (fun c call => AcceptedChange exec c call ∧ StakedInjection DistributionContract.totalShare c call)
      calls) :
    revenueSum (run calls) = (calls.map injected).sum := by
  rw [← Split.paid_run calls (split_staked calls h), revenueSum, (refines_run calls h).1]
  simp [Split.paid, toUserState, Function.comp_def]

theorem staked_run_revenueSum :
    revenueSum (run [.changeShare (some "A") 10, .changeShare (some "B") 30, .addRevenue 8,
        .changeShare (some "A") 10, .addRevenue 6]) =
      ([.changeShare (some "A") 10, .changeShare (some "B") 30, .addRevenue 8,
        .changeShare (some "A") 10, .addRevenue 6].map injected).sum :=
  revenueSum_run _ (by decide)

end NonOptimized

namespace Optimized

/-- What the contract owes `dest`: its accumulated total and the settlement
its next stake change would add (Phase 1). -/
def owed (c : DistributionContract) (dest : String) : Double :=
  (loadUser c dest).ownAccumulatedTotal + freshOwn c.index (loadUser c dest)

/-- The contract's record of `dest` agrees with a holding. -/
structure Agrees (c : DistributionContract) (dest : String) (h : Holding) : Prop where
  stake_eq : (loadUser c dest).ownStake = fin h.stake
  snapshot_eq : h.stake ≠ 0 → (loadUser c dest).lastTotalStake = fin h.snapshot
  owed_eq : owed c dest = fin h.owed

/-- The contract agrees with the split on the total and on every address. -/
structure Refines (c : DistributionContract) (S : Split.State) : Prop where
  inv : Inv c
  revenue : RevenueOk c
  total : c.totalStake = fin S.total
  holders : ∀ dest, Agrees c dest (holding S dest)

theorem freshOwn_of_stake_zero (x : Double) {u : UserState} (h : u.ownStake = 0) : freshOwn x u = 0 := by
  simp [freshOwn, h]

theorem Agrees.of_get_eq {c c' : DistributionContract} {dest : String} {h : Holding}
    (hh : Agrees c dest h) (hget : c'.userStateMap.get dest = c.userStateMap.get dest)
    (hidx : c'.index = c.index ∨ h.stake = 0) : Agrees c' dest h := by
  cases hg : c.userStateMap.get dest with
  | some u =>
    have e : loadUser c' dest = loadUser c dest := by
      rw [loadUser_of_get (hget.trans hg), loadUser_of_get hg]
    refine ⟨e ▸ hh.stake_eq, e ▸ hh.snapshot_eq, ?_⟩
    rcases hidx with hidx | h0
    · rw [owed, e, hidx]; exact hh.owed_eq
    · have hu : (loadUser c dest).ownStake = 0 := by rw [hh.stake_eq, h0]; rfl
      rw [← hh.owed_eq, owed, owed, e, freshOwn_of_stake_zero _ hu, freshOwn_of_stake_zero _ hu]
  | none =>
    have hl : loadUser c dest = ⟨0, c.totalStake, c.incrementPerRevenue, 0, c.index⟩ := by
      simp [loadUser, hg]
    have hl' : loadUser c' dest = ⟨0, c'.totalStake, c'.incrementPerRevenue, 0, c'.index⟩ := by
      simp [loadUser, hget, hg]
    have hs : h.stake = 0 := by simpa [hl] using hh.stake_eq.symm
    refine ⟨by rw [hl', hs]; rfl, fun h0 => absurd hs h0, ?_⟩
    rw [← hh.owed_eq]
    simp [owed, hl, hl', freshOwn]

theorem Agrees.get_eq {c : DistributionContract} {dest : String} {h : Holding} (hh : Agrees c dest h)
    (h0 : h.stake ≠ 0) : c.userStateMap.get dest = some (loadUser c dest) := by
  cases hg : c.userStateMap.get dest with
  | none => exact absurd (by simpa [loadUser, hg] using hh.stake_eq.symm) h0
  | some u => rw [loadUser_of_get hg]

/-- An agreeing stake is at most the total. -/
theorem Refines.stake_le {c : DistributionContract} {S : Split.State} (hR : Refines c S) (dest : String) :
    (holding S dest).stake ≤ S.total := by
  obtain ⟨s, hs, -, hsT⟩ := hR.inv.loadUser_stake dest
  rw [(hR.holders dest).stake_eq, fin_inj] at hs
  have ht := hR.inv.total.symm.trans hR.total
  rw [fin_inj] at ht
  rw [hs, ← ht]; exact hsT

/-- The record an accepted change stores has nothing pending: its snapshot is
the current `index`, and while it holds stake `incrementPerRevenue` has been
reset. -/
theorem Refines.freshOwn_snapshotUser {c : DistributionContract} {S : Split.State} (hR : Refines c S)
    {dest : String} {change : ℚ} (hs : 0 ≤ (holding S dest).stake + change) :
    freshOwn c.index (snapshotUser c dest change) = 0 := by
  obtain ⟨x, hx⟩ := hR.revenue.index
  have hstake : (snapshotUser c dest change).ownStake = fin ((holding S dest).stake + change) := by
    simp [snapshotUser, (hR.holders dest).stake_eq]
  by_cases h0 : (holding S dest).stake + change = 0
  · exact freshOwn_of_stake_zero _ (by rw [hstake, h0]; rfl)
  have hpos : S.total + change ≠ 0 := by
    have := hR.stake_le dest
    exact (lt_of_lt_of_le (lt_of_le_of_ne hs (Ne.symm h0)) (by linarith)).ne'
  have hI : INCR_PER_REV_INIT ≠ 0 := by norm_num [INCR_PER_REV_INIT]
  simp only [freshOwn, snapshotUser, (hR.holders dest).stake_eq, hR.total, hx, fin_add, recalibrate_of_ne hpos,
    zero_eq, eq_fin,
    h0, decide_False, Bool.false_eq_true, if_false, fin_sub, sub_self, fin_mul, zero_mul,
    fin_div _ (mul_ne_zero hI hpos), zero_div]

/-- The holder an accepted change stores agrees with the moved holding. -/
theorem Refines.agrees_commit {c : DistributionContract} {S : Split.State} (hR : Refines c S)
    {dest : String} {change : ℚ} (hs : 0 ≤ (holding S dest).stake + change) :
    Agrees (commit c dest change) dest
      ⟨(holding S dest).stake + change, S.total + change, (holding S dest).owed⟩ := by
  have e : loadUser (commit c dest change) dest = snapshotUser c dest change := by
    rw [commit_eq]; exact loadUser_of_get (HashMap.get_set_self _ _ _)
  refine ⟨?_, fun _ => ?_, ?_⟩
  · rw [e]; simp [snapshotUser, (hR.holders dest).stake_eq]
  · rw [e]; simp [snapshotUser, hR.total]
  · rw [owed, e, commit_index, hR.freshOwn_snapshotUser hs]
    show (loadUser c dest).ownAccumulatedTotal + freshOwn c.index (loadUser c dest) + 0 = _
    rw [← owed, (hR.holders dest).owed_eq]; simp

/-- An injection while stake is held raises what the contract owes every
holder by its part taken against its snapshot. -/
theorem Refines.agrees_distributeRevenue {c : DistributionContract} {S : Split.State} (hR : Refines c S)
    {amount : ℚ} (hT : 0 < c.totalStake) (dest : String) :
    Agrees (distributeRevenue c amount) dest
      { holding S dest with owed := (holding S dest).owed + part atSnapshot S amount (holding S dest) } := by
  have hh := hR.holders dest
  by_cases h0 : (holding S dest).stake = 0
  · have e : part atSnapshot S amount (holding S dest) = 0 := by simp [part, h0]
    rw [e, add_zero]
    exact hh.of_get_eq rfl (.inr h0)
  have hpos : 0 < (loadUser c dest).ownStake := by
    obtain ⟨s, hs, hs0, -⟩ := hR.inv.loadUser_stake dest
    rw [hh.stake_eq, fin_inj] at hs
    rw [hh.stake_eq, zero_eq, fin_lt, hs]
    exact lt_of_le_of_ne hs0 (by rw [← hs]; exact Ne.symm h0)
  obtain ⟨x, hx⟩ := hR.revenue.index
  obtain ⟨s, t, hs, ht, hfresh⟩ := hR.inv.freshOwn_distributeRevenue hx hT amount hpos
  obtain ⟨a, ha, -⟩ := hR.revenue.loadUser_acc dest
  obtain ⟨f, hf, -⟩ := hR.inv.freshOwn_nonneg hx dest
  have e : loadUser (distributeRevenue c amount) dest = loadUser c dest :=
    loadUser_of_get (by rw [distributeRevenue_userStateMap]; exact get_of_loadUser_pos hpos)
  have hs' : s = (holding S dest).stake := by rw [hh.stake_eq, fin_inj] at hs; exact hs.symm
  have ht' : t = (holding S dest).snapshot := by rw [hh.snapshot_eq h0, fin_inj] at ht; exact ht.symm
  have ho := hh.owed_eq
  rw [owed, ha, hf, fin_add, fin_inj] at ho
  refine ⟨e ▸ hh.stake_eq, fun _ => e ▸ hh.snapshot_eq h0, ?_⟩
  rw [owed, e, hfresh, ha, hf, fin_add, fin_add, fin_inj, ← ho, hs', ht']
  simp only [part, atSnapshot]
  ring

/-- One call keeps the refinement and returns what the split returns, if it is
not an injection into an empty pool. -/
theorem refines_exec {c : DistributionContract} {S : Split.State} (hR : Refines c S) (call : Call)
    (hg : StakedInjection DistributionContract.totalStake c call) :
    Refines (exec c call).1 (Split.exec atSnapshot S call).1 ∧
      (exec c call).2 = (Split.exec atSnapshot S call).2 := by
  have hinv := inv_exec hR.inv call
  cases call with
  | changeShare dest change =>
    cases dest with
    | none =>
      rw [show exec c (.changeShare none change) = (c, EXIT_FAILURE) from changeShare_none c change]
      exact ⟨hR, rfl⟩
    | some dest =>
      have hrev := revenueOk_changeShare hR.inv hR.revenue (some dest) change
      simp only [exec] at hinv hrev ⊢
      rw [changeShare_fin dest change hR.total (hR.holders dest).stake_eq] at hinv hrev ⊢
      by_cases hc : change = 0 ∨ S.total + change < 0 ∨ (holding S dest).stake + change < 0
      · simp only [Split.exec, if_pos hc, and_true]; exact hR
      rw [if_neg hc] at hinv hrev ⊢
      rw [Split.exec_changeShare S dest change hc]
      push_neg at hc
      refine ⟨⟨hinv, hrev, by simp [hR.total], fun k => ?_⟩, rfl⟩
      by_cases hk : k = dest
      · subst hk; dsimp only; rw [Split.holding_set_self]; exact hR.agrees_commit hc.2.2
      · dsimp only; rw [Split.holding_set_ne _ _ _ hk]
        exact (hR.holders k).of_get_eq (by rw [commit_eq]; exact HashMap.get_set_ne _ _ hk) (.inl rfl)
  | addRevenue amount =>
    by_cases ha : 0 < amount
    · have hT := hg ha
      have hrev := revenueOk_addRevenue hR.inv hR.revenue amount hg
      simp only [exec, addRevenue_pos _ ha] at hinv hrev ⊢
      rw [Split.exec_addRevenue S ha]
      refine ⟨⟨hinv, hrev, hR.total, fun k => ?_⟩, rfl⟩
      dsimp only; rw [Split.holding_update S _ (by simp [part]) S.total k]
      exact hR.agrees_distributeRevenue hT k
    · simp only [exec, addRevenue, Split.exec, if_pos (not_lt.1 ha), and_true]
      exact hR

theorem refines_init : Refines constructContract Split.init where
  inv := inv_constructContract
  revenue := revenueOk_constructContract
  total := rfl
  holders _ := ⟨rfl, fun h => absurd rfl h, by simp [owed, loadUser, constructContract, freshOwn, holding,
    Split.init]⟩

theorem refines_run (calls : List Call)
    (h : Respects exec constructContract (StakedInjection DistributionContract.totalStake) calls) :
    Refines (run calls) (Split.run atSnapshot calls) :=
  trace_simulation exec constructContract (Split.exec atSnapshot) Split.init _ Refines refines_init
    (fun _ _ call hR hg => (refines_exec hR call hg).1) calls h

/-- On every run whose injections are made while stake is held, the
optimized contract is the split at snapshots: every holder's stake, and what
the contract owes it, are those of that split. -/
theorem run_refines_atSnapshot (calls : List Call)
    (h : Respects exec constructContract (StakedInjection DistributionContract.totalStake) calls) :
    (run calls).totalStake = fin (Split.run atSnapshot calls).total ∧
      ∀ dest, (loadUser (run calls) dest).ownStake = fin (holding (Split.run atSnapshot calls) dest).stake ∧
        owed (run calls) dest = fin (holding (Split.run atSnapshot calls) dest).owed :=
  ⟨(refines_run calls h).total, fun dest =>
    ⟨((refines_run calls h).holders dest).stake_eq, ((refines_run calls h).holders dest).owed_eq⟩⟩

theorem spec8_refines_atSnapshot :
    (run [.changeShare (some "A") 40, .changeShare (some "B") 60, .addRevenue 100,
        .changeShare (some "A") 1]).totalStake =
      fin (Split.run atSnapshot [.changeShare (some "A") 40, .changeShare (some "B") 60, .addRevenue 100,
        .changeShare (some "A") 1]).total ∧
    ∀ dest, (loadUser (run [.changeShare (some "A") 40, .changeShare (some "B") 60, .addRevenue 100,
        .changeShare (some "A") 1]) dest).ownStake =
      fin (holding (Split.run atSnapshot [.changeShare (some "A") 40, .changeShare (some "B") 60,
        .addRevenue 100, .changeShare (some "A") 1]) dest).stake ∧
      owed (run [.changeShare (some "A") 40, .changeShare (some "B") 60, .addRevenue 100,
        .changeShare (some "A") 1]) dest =
      fin (holding (Split.run atSnapshot [.changeShare (some "A") 40, .changeShare (some "B") 60,
        .addRevenue 100, .changeShare (some "A") 1]) dest).owed :=
  run_refines_atSnapshot _ (by decide)

end Optimized

namespace Settlement

/-- Where the two splits agree, on every run whose stake changes are all
accepted and whose injections are made while every staked holder's last
change left the total as it is, the optimized contract owes every holder
exactly what the non-optimized contract has paid it. -/
theorem owed_eq_revenue (calls : List Call)
    (hN : Respects NonOptimized.exec NonOptimized.constructContract
      (fun c call => AcceptedChange NonOptimized.exec c call ∧
        StakedInjection NonOptimized.DistributionContract.totalShare c call) calls)
    (hC : Respects (Split.exec proportional) Split.init Split.Current calls) (dest : String) :
    Optimized.owed (Optimized.run calls) dest =
      (NonOptimized.loadUser (NonOptimized.run calls).userStateMap dest).revenue := by
  have hS : Respects (Split.exec atSnapshot) Split.init (StakedInjection fun S => fin S.total) calls :=
    respects_of_simulation (Split.exec proportional) Split.init (Split.exec atSnapshot) Split.init _ _
      (fun S S' => S' = S) rfl
      (fun S _ call hS hg => by rw [hS, Split.exec_atSnapshot_eq S call hg.1])
      (fun _ _ _ hS hg => hS ▸ hg.2) calls
      (Respects.and _ _ hC (NonOptimized.split_staked calls hN))
  have hO : Respects Optimized.exec Optimized.constructContract
      (StakedInjection Optimized.DistributionContract.totalStake) calls :=
    respects_of_simulation (Split.exec atSnapshot) Split.init Optimized.exec Optimized.constructContract _ _
      (fun S c => Optimized.Refines c S) Optimized.refines_init
      (fun _ _ call hR hg => (Optimized.refines_exec hR call (hg.of_total_eq hR.total.symm)).1)
      (fun _ _ _ hR hg => hg.of_total_eq hR.total.symm) calls hS
  rw [((Optimized.refines_run calls hO).holders dest).owed_eq, Split.run_atSnapshot_eq calls hC,
    (NonOptimized.refines_run calls hN).1, NonOptimized.loadUser_map]
  rfl

theorem sole_holder_settles :
    Optimized.owed (Optimized.run [.changeShare (some "A") 10, .changeShare (some "B") 10,
        .changeShare (some "B") (-10), .addRevenue 6, .changeShare (some "A") 5, .addRevenue 3]) "A" =
      (NonOptimized.loadUser (NonOptimized.run [.changeShare (some "A") 10, .changeShare (some "B") 10,
        .changeShare (some "B") (-10), .addRevenue 6, .changeShare (some "A") 5,
        .addRevenue 3]).userStateMap "A").revenue :=
  owed_eq_revenue _ (by decide) (by decide) "A"

end Settlement

end WasmContracts
