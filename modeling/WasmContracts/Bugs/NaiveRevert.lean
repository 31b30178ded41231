import WasmContracts.L3Runs.Refinement
/-!
# A rejected withdrawal still lowers `totalShare` (non-optimized contract)

Status: open.

Behaviour (NonOptimized/DistributionContract.c:64-88): `changeShare` checks
the new total (line 69), stores it (line 71), and checks the holder's own
share only then (line 84), returning `EXIT_FAILURE` with the new total
already written (`NonOptimized.changeShare_failure`).

Spec clause: §4.2 "on failure, **no state is mutated** (the operation is
all-or-nothing)"; §7 "all validation failures are local and non-mutating".
The optimized contract checks the holder before its first write
(Optimized/DistributionContract.c:85).

Counterexample: A and B stake 10 each, then A withdraws 15. The total check
passes (`20 - 15 ≥ 0`) and the total becomes 5; A's own check fails and the
call returns `EXIT_FAILURE`. Now `totalShare = 5` while the shares sum to
20, and an injection of 20 pays A and B 40 each, 80 in all.

What the code does keep: `NonOptimized.Inv` on every run, and
`totalShare_run_lost`: on every run `totalShare` is `Σ share` less what the
rejected calls took out of it, so it is conserved exactly while no rejected
call has moved it. On runs whose stake changes are all accepted,
`totalShare = Σ share` (`conserved_of_accepted`) and every injection
distributes exactly its amount (`revenueSum_of_accepted`), in the model's
unrounded arithmetic.

Fix: check `tmp.share + change` before writing `totalShare`. With that
order every rejected call leaves the contract as it was (`execFixed_failure`), and the contract is
the proportional split of `L2Ledger/Split.lean` on every run that injects
only while stake is held, its revenues summing to what was injected
(`fixed_refines_proportional`).
-/
namespace WasmContracts.Bugs.NaiveRevert

open NonOptimized Double

/-! ## What the defect does, in general -/

-- The runs below are evaluated by `decide`; Batteries seals the rational operations.
attribute [local semireducible] Rat.add Rat.mul Rat.sub Rat.inv

/-- A and B stake 10 each. -/
def staked : List Call := [.changeShare (some "A") 10, .changeShare (some "B") 10]

/-- A then asks to withdraw 15. -/
def overdraw : Call := .changeShare (some "A") (-15)

/-- What a rejected call takes out of `totalShare`; an accepted call takes
nothing. -/
def lost (c : DistributionContract) (call : Call) : ℚ :=
  if (exec c call).2 = EXIT_FAILURE then c.totalShare.toRat - (exec c call).1.totalShare.toRat else 0

/-- What the rejected calls of a run from `constructContract()` take out of
`totalShare`, each in the state it is made in. -/
def lostRun (calls : List Call) : ℚ :=
  (calls.foldl (fun acc call => ((exec acc.1 call).1, acc.2 + lost acc.1 call)) (constructContract, 0)).2

theorem foldl_lost_fst : ∀ (calls : List Call) (c : DistributionContract) (a : ℚ),
    (calls.foldl (fun acc call => ((exec acc.1 call).1, acc.2 + lost acc.1 call)) (c, a)).1 =
      trace exec c calls
  | [], _, _ => rfl
  | _ :: calls, _, _ => foldl_lost_fst calls _ _

theorem lostRun_concat (calls : List Call) (call : Call) :
    lostRun (calls ++ [call]) = lostRun calls + lost (run calls) call := by
  simp only [lostRun, List.foldl_append, List.foldl_cons, List.foldl_nil]
  rw [foldl_lost_fst]
  rfl

/-- One call moves `totalShare` with `Σ share` unless it is rejected, and a
rejected call can only lower it. -/
theorem lost_exec {c : DistributionContract} (hc : Inv c) {d : ℚ} (hd : c.totalShare = fin (shareSum c - d))
    (call : Call) :
    (exec c call).1.totalShare = fin (shareSum (exec c call).1 - (d + lost c call)) ∧ 0 ≤ lost c call := by
  cases call with
  | addRevenue amount =>
    have hf : (addRevenue c amount).1.totalShare = c.totalShare ∧
        shareSum (addRevenue c amount).1 = shareSum c := by
      unfold addRevenue
      split
      · exact ⟨rfl, rfl⟩
      · exact ⟨rfl, shareSum_distributeRevenue c amount⟩
    have hl : lost c (.addRevenue amount) = 0 := by
      unfold lost
      split_ifs
      · exact sub_eq_zero.2 (congrArg Double.toRat hf.1.symm)
      · rfl
    rw [hl, add_zero]
    exact ⟨hf.1.trans (hd.trans (congrArg (fun S => fin (S - d)) hf.2.symm)), le_rfl⟩
  | changeShare dest change =>
    cases dest with
    | none =>
      have hx : exec c (.changeShare none change) = (c, EXIT_FAILURE) := changeShare_none c change
      simp only [lost, hx, if_true, sub_self, add_zero, le_rfl, and_true]
      exact hd
    | some dest =>
      obtain ⟨s, hs, hs0⟩ := loadUser_share hc.shares dest
      have hx : exec c (.changeShare (some dest) change) = changeShare c (some dest) change := rfl
      unfold lost
      rw [hx, changeShare_fin dest change hd hs]
      by_cases h1 : change = 0 ∨ shareSum c - d + change < 0
      · simp only [if_pos h1, if_true, hd, toRat_fin, sub_self, add_zero, le_rfl, and_true]
      by_cases h2 : s + change < 0
      · simp only [if_neg h1, if_pos h2, if_true, toRat_fin, hd]
        refine ⟨?_, by linarith⟩
        show fin _ = fin _
        rw [fin_inj]
        show shareSum c - d + change = shareSum c - (d + (shareSum c - d - (shareSum c - d + change)))
        ring
      · simp only [if_neg h1, if_neg h2, if_neg exit_success_ne_failure, add_zero, le_rfl, and_true]
        have := shareSum_set c.userStateMap c.totalShare dest
          { loadUser c.userStateMap dest with share := fin (s + change) }
        simp only [hs, toRat_fin] at this
        show fin _ = fin _
        rw [fin_inj]
        unfold shareSum at this ⊢
        linarith

example : lostRun (staked ++ [overdraw]) = 15 := by decide

/-- On a run whose every `changeShare` is accepted, `totalShare = Σ share`. -/
theorem conserved_of_accepted (calls : List Call)
    (h : Respects exec constructContract (AcceptedChange exec) calls) :
    Inv (run calls) ∧ Conserved (run calls) :=
  trace_induction_respects exec constructContract (AcceptedChange exec) (fun c => Inv c ∧ Conserved c)
    ⟨inv_constructContract, by simp [Conserved, constructContract, shareSum]⟩
    (fun _ call hc hgood => ⟨inv_exec hc.1 call, conserved_exec_accepted hc.1 hc.2 call hgood⟩) calls h

theorem staked_conserved : Inv (run staked) ∧ Conserved (run staked) :=
  conserved_of_accepted staked (by decide)

/-- On a run whose stake changes are all accepted and whose injections are
made while `totalShare > 0`, the next injection raises `Σ revenue` by
exactly its amount. -/
theorem revenueSum_of_accepted (calls : List Call) (amount : ℚ)
    (h : Respects exec constructContract
      (fun c call => AcceptedChange exec c call ∧ StakedInjection DistributionContract.totalShare c call)
      calls)
    (ha : 0 < amount) (hT : 0 < (run calls).totalShare) :
    revenueSum (run (calls ++ [.addRevenue amount])) = revenueSum (run calls) + amount := by
  obtain ⟨hi, hcons, hr⟩ : Inv (run calls) ∧ Conserved (run calls) ∧ RevenueOk (run calls) :=
    trace_induction_respects exec constructContract _ (fun c => Inv c ∧ Conserved c ∧ RevenueOk c)
      ⟨inv_constructContract, by simp [Conserved, constructContract, shareSum],
        by simp [RevenueOk, constructContract]⟩
      (fun _ call ⟨hi, hcons, hr⟩ hgood => ⟨inv_exec hi call, conserved_exec_accepted hi hcons call hgood.1,
        revenueOk_exec hi hr call hgood.2⟩)
      calls h
  have hT' : (run calls).totalShare = fin (shareSum (run calls)) := hcons
  have hS : 0 < shareSum (run calls) := by simpa [hT'] using hT
  rw [run, trace_concat, ← run]
  show revenueSum (addRevenue (run calls) amount).1 = _
  rw [addRevenue, if_neg (not_le.2 ha),
    revenueSum_distributeRevenue hi (fun p hp => (hr p hp).imp fun _ => And.left) hT' hS,
    mul_div_assoc, div_self hS.ne', mul_one]

theorem staked_injection_distributes :
    revenueSum (run (staked ++ [.addRevenue 20])) = revenueSum (run staked) + 20 :=
  revenueSum_of_accepted staked 20 (by decide) (by norm_num) (by decide)

/-! ## The counterexample -/

/-- The withdrawal is rejected, yet `totalShare` has gone from 20 to 5. -/
theorem rejected_withdrawal_mutates :
    (exec (run staked) overdraw).2 = EXIT_FAILURE ∧ (run staked).totalShare = fin 20 ∧
      (exec (run staked) overdraw).1.totalShare = fin 5 := by
  decide

/-- After the rejected withdrawal `totalShare` is 5 and the shares sum to 20. -/
theorem rejected_withdrawal_breaks_conservation :
    (run (staked ++ [overdraw])).totalShare = fin 5 ∧
      ((run (staked ++ [overdraw])).userStateMap.items.map fun p => p.2.share).sum = fin 20 := by
  decide

/-- From there, with shares summing to 20, an injection of 20 raises A's
revenue by 40 instead of `20 * 10 / 20 = 10`, and the holders' total
revenue by 80 instead of 20. -/
theorem injection_after_rejection_overpays :
    shareSum (run (staked ++ [overdraw])) = 20 ∧
      ((run (staked ++ [overdraw])).userStateMap.get "A").map (·.revenue) = some (fin 0) ∧
      ((run (staked ++ [overdraw, .addRevenue 20])).userStateMap.get "A").map (·.revenue) =
        some (fin 40) ∧
      revenueSum (run (staked ++ [overdraw, .addRevenue 20])) =
        revenueSum (run (staked ++ [overdraw])) + 80 := by
  decide

/-! ## Fixed: the holder check before the first write -/

/-- `changeShare` of NonOptimized/DistributionContract.c:64-88 with the holder
check of line 84 moved before the write of line 71. -/
def changeShareFixed (contract : DistributionContract) (dest : Option String) (change : ℚ) :
    DistributionContract × Int :=
  if change = 0 then (contract, EXIT_FAILURE) else
  match dest with
  | none => (contract, EXIT_FAILURE)
  | some dest =>
    let newTotalShare := contract.totalShare + fin change
    if newTotalShare < 0 ∨ newTotalShare.isfinite = false then (contract, EXIT_FAILURE) else
    let tmp := loadUser contract.userStateMap dest
    let newUserShare := tmp.share + fin change
    if newUserShare < 0 then (contract, EXIT_FAILURE) else
    ({ userStateMap := contract.userStateMap.set dest { tmp with share := newUserShare },
       totalShare := newTotalShare }, EXIT_SUCCESS)

/-- One call of the fixed contract. -/
def execFixed (contract : DistributionContract) : Call → DistributionContract × Int
  | .changeShare dest change => changeShareFixed contract dest change
  | .addRevenue amount => addRevenue contract amount

theorem changeShareFixed_eq (c : DistributionContract) (dest : Option String) (change : ℚ) :
    changeShareFixed c dest change =
      if (changeShare c dest change).2 = EXIT_SUCCESS then changeShare c dest change else (c, EXIT_FAILURE) := by
  by_cases h0 : change = 0
  · simp [changeShareFixed, changeShare, h0, EXIT_SUCCESS, EXIT_FAILURE]
  cases dest with
  | none => simp [changeShareFixed, changeShare, h0, EXIT_SUCCESS, EXIT_FAILURE]
  | some dest =>
    simp only [changeShareFixed, changeShare, h0, if_false]
    split_ifs <;> first | rfl | exact absurd ‹_› exit_success_ne_failure.symm | contradiction

theorem execFixed_failure (c : DistributionContract) :
    ∀ call, (execFixed c call).2 = EXIT_FAILURE → (execFixed c call).1 = c
  | .changeShare dest change, h => by
    rw [execFixed, changeShareFixed_eq] at h ⊢
    split_ifs at h ⊢ with hacc
    · exact absurd (hacc.symm.trans h) exit_success_ne_failure
    · rfl
  | .addRevenue amount, h =>
    (addRevenue_success_or_eq c amount).resolve_left fun hs => exit_success_ne_failure (hs.symm.trans h)

theorem refines_execFixed {c : DistributionContract} {S : Split.State} (hR : Refines c S) (call : Call)
    (hg : StakedInjection DistributionContract.totalShare c call) :
    Refines (execFixed c call).1 (Split.exec Split.proportional S call).1 := by
  cases call with
  | addRevenue amount => exact (refines_exec hR (.addRevenue amount) ⟨trivial, hg⟩).1
  | changeShare dest change =>
    rw [execFixed, changeShareFixed_eq]
    split_ifs with hacc
    · exact (refines_exec hR (.changeShare dest change) ⟨hacc, trivial⟩).1
    cases dest with
    | none => exact hR
    | some dest =>
      have hs : (loadUser c.userStateMap dest).share = fin (Split.holding S dest).stake := by
        rw [hR.1, loadUser_map]; rfl
      rw [changeShare_fin dest change hR.2 hs] at hacc
      have hc : change = 0 ∨ S.total + change < 0 ∨ (Split.holding S dest).stake + change < 0 := by
        split_ifs at hacc with h1 h2
        · exact or_assoc.1 (.inl h1)
        · exact .inr (.inr h2)
        · exact absurd rfl hacc
      simp only [Split.exec, if_pos hc]
      exact hR

/-- In the fixed contract every rejected call leaves the contract as it was;
on every run that injects only while stake is held, accepted and rejected
calls alike, the contract is the proportional split, and its revenues sum to
exactly the revenue injected. -/
theorem fixed_refines_proportional (calls : List Call)
    (h : Respects execFixed constructContract (StakedInjection DistributionContract.totalShare) calls) :
    (∀ (c : DistributionContract) (call : Call), (execFixed c call).2 = EXIT_FAILURE → (execFixed c call).1 = c) ∧
    (trace execFixed constructContract calls).userStateMap =
        (Split.run Split.proportional calls).holdings.map toUserState ∧
      (trace execFixed constructContract calls).totalShare = fin (Split.run Split.proportional calls).total ∧
      revenueSum (trace execFixed constructContract calls) = (calls.map Split.injected).sum := by
  have hR : Refines (trace execFixed constructContract calls) (Split.run Split.proportional calls) :=
    trace_simulation execFixed constructContract (Split.exec Split.proportional) Split.init _ Refines ⟨rfl, rfl⟩
      (fun _ _ call hR hg => refines_execFixed hR call hg) calls h
  have hS : Respects (Split.exec Split.proportional) Split.init (StakedInjection fun S => fin S.total) calls :=
    respects_of_simulation execFixed constructContract (Split.exec Split.proportional) Split.init _ _ Refines
      ⟨rfl, rfl⟩ (fun _ _ call hR hg => refines_execFixed hR call hg) (fun _ _ _ hR hg => hg.of_total_eq hR.2)
      calls h
  refine ⟨execFixed_failure, hR.1, hR.2, ?_⟩
  rw [← Split.paid_run calls hS, revenueSum, hR.1]
  simp [Split.paid, toUserState, Function.comp_def]

theorem fixed_overdraw_distributes :
    (trace execFixed constructContract (staked ++ [overdraw, .addRevenue 20])).userStateMap =
        (Split.run Split.proportional (staked ++ [overdraw, .addRevenue 20])).holdings.map toUserState ∧
      (trace execFixed constructContract (staked ++ [overdraw, .addRevenue 20])).totalShare =
        fin (Split.run Split.proportional (staked ++ [overdraw, .addRevenue 20])).total ∧
      revenueSum (trace execFixed constructContract (staked ++ [overdraw, .addRevenue 20])) =
        ((staked ++ [overdraw, .addRevenue 20]).map Split.injected).sum :=
  (fixed_refines_proportional _ (by decide)).2

end WasmContracts.Bugs.NaiveRevert
