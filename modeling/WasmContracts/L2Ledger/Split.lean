import WasmContracts.L1Data.HashMap
import WasmContracts.L2Ledger.Interface
import Mathlib.Algebra.BigOperators.Ring.List
import Mathlib.Algebra.Order.BigOperators.Group.List
/-!
# What the distribution contracts are for: splitting revenue by stake

Both contracts of `revenue_distribution/` keep, per address, a stake and the
revenue owed to the address, and split every injection among the stakes
(spec §1, §4.2). This module states that purpose as a contract of its own, on
exact rationals and behind the interface of `DistributionContract.h`: the
same calls, the same checks, the same return codes. It leaves open one
thing, the divisor of a holder's part of an injection:

* `proportional`: the total stake in force at the injection, the split of
  spec §4.2;
* `atSnapshot`: the total stake right after the holder's own last stake
  change.

`L3Runs/Refinement.lean` shows that the non-optimized contract computes the
first and the optimized contract the second.

Results:
* `inv_run`: on every run the stakes are nonnegative and sum to the total.
* `paid_run`: split proportionally, on every run that injects only while
  stake is held, all holders together are owed exactly the revenue injected.
* `run_atSnapshot_eq`: the two splits agree on every run whose injections
  are made while every staked holder's snapshot is the current total.
-/
namespace WasmContracts

namespace Split

/-- A holder's position: its stake, the total stake right after its last
stake change, and the revenue owed to it. -/
structure Holding where
  stake : ℚ
  snapshot : ℚ
  owed : ℚ
  deriving DecidableEq, Repr

/-- The holders by address, and the total stake. -/
structure State where
  holdings : HashMap Holding
  total : ℚ

/-- No holder and nothing staked. -/
def init : State := ⟨HashMap.new, 0⟩

/-- The holding of an address; an address never seen holds nothing. -/
def holding (S : State) (dest : String) : Holding := (S.holdings.get dest).getD ⟨0, 0, 0⟩

/-- A holder's part of an injection is taken against the total stake now. -/
def proportional (S : State) (_ : Holding) : ℚ := S.total

/-- A holder's part of an injection is taken against the total stake right
after its own last change. -/
def atSnapshot (_ : State) (h : Holding) : ℚ := h.snapshot

/-- A holder's part of an injection of `amount`. -/
def part (divisor : State → Holding → ℚ) (S : State) (amount : ℚ) (h : Holding) : ℚ :=
  amount * h.stake / divisor S h

/-- One call. A stake change is rejected when it is zero, names no address,
or would make the total or the holder's stake negative; otherwise it moves
the stake and snapshots the new total. An injection of a positive amount adds
every holder's part to what the holder is owed. -/
def exec (divisor : State → Holding → ℚ) (S : State) : Call → State × Int
  | .changeShare none _ => (S, EXIT_FAILURE)
  | .changeShare (some dest) change =>
    if change = 0 ∨ S.total + change < 0 ∨ (holding S dest).stake + change < 0 then (S, EXIT_FAILURE)
    else ({ holdings := S.holdings.set dest
              ⟨(holding S dest).stake + change, S.total + change, (holding S dest).owed⟩
            total := S.total + change }, EXIT_SUCCESS)
  | .addRevenue amount =>
    if amount ≤ 0 then (S, EXIT_FAILURE)
    else ({ S with holdings := S.holdings.update fun h => { h with owed := h.owed + part divisor S amount h } },
      EXIT_SUCCESS)

/-- The split after `calls`, from no holder. -/
def run (divisor : State → Holding → ℚ) (calls : List Call) : State := trace (exec divisor) init calls

@[simp] theorem holding_set_self (S : State) (dest : String) (v : Holding) (T : ℚ) :
    holding ⟨S.holdings.set dest v, T⟩ dest = v := by
  simp [holding]

@[simp] theorem holding_set_ne (S : State) {dest k : String} (v : Holding) (T : ℚ) (h : k ≠ dest) :
    holding ⟨S.holdings.set dest v, T⟩ k = holding S k := by
  simp [holding, h]

theorem holding_update (S : State) (f : Holding → Holding) (hf : f ⟨0, 0, 0⟩ = ⟨0, 0, 0⟩) (T : ℚ)
    (dest : String) : holding ⟨S.holdings.update f, T⟩ dest = f (holding S dest) := by
  simp only [holding, HashMap.get_update]
  cases S.holdings.get dest
  · exact hf.symm
  · rfl

theorem exec_changeShare {divisor : State → Holding → ℚ} (S : State) (dest : String) (change : ℚ)
    (h : ¬ (change = 0 ∨ S.total + change < 0 ∨ (holding S dest).stake + change < 0)) :
    exec divisor S (.changeShare (some dest) change) =
      ({ holdings := S.holdings.set dest
          ⟨(holding S dest).stake + change, S.total + change, (holding S dest).owed⟩
         total := S.total + change }, EXIT_SUCCESS) :=
  if_neg h

theorem exec_addRevenue {divisor : State → Holding → ℚ} (S : State) {amount : ℚ} (h : 0 < amount) :
    exec divisor S (.addRevenue amount) =
      ({ S with holdings := S.holdings.update fun h => { h with owed := h.owed + part divisor S amount h } },
        EXIT_SUCCESS) :=
  if_neg (not_le.2 h)

/-! ## Stakes -/

/-- `Σ stake` over all holders. -/
def stakeSum (S : State) : ℚ := (S.holdings.items.map fun p => p.2.stake).sum

/-- `Σ owed` over all holders: what the split has paid out so far. -/
def paid (S : State) : ℚ := (S.holdings.items.map fun p => p.2.owed).sum

/-- Every stake is nonnegative and the total is their sum. -/
structure Inv (S : State) : Prop where
  stakes : ∀ p ∈ S.holdings.items, 0 ≤ p.2.stake
  total : S.total = stakeSum S

theorem inv_init : Inv init := ⟨by simp [init], by simp [init, stakeSum]⟩

theorem getD_map_holding (S : State) (dest : String) (g : Holding → ℚ) (hg : g ⟨0, 0, 0⟩ = 0) :
    ((S.holdings.get dest).map g).getD 0 = g (holding S dest) := by
  unfold holding
  cases S.holdings.get dest with
  | none => exact hg.symm
  | some h => rfl

theorem Inv.holding_stake {S : State} (hS : Inv S) (dest : String) : 0 ≤ (holding S dest).stake := by
  unfold holding
  cases hg : S.holdings.get dest with
  | none => exact le_rfl
  | some h => exact hS.stakes (dest, h) (HashMap.mem_of_get hg)

theorem Inv.holding_le {S : State} (hS : Inv S) (dest : String) : (holding S dest).stake ≤ S.total := by
  have hnonneg : ∀ x ∈ S.holdings.items.map fun p => p.2.stake, 0 ≤ x := by
    intro _ hx
    obtain ⟨p, hp, rfl⟩ := List.mem_map.1 hx
    exact hS.stakes p hp
  rw [hS.total, stakeSum, holding]
  cases hg : S.holdings.get dest with
  | none => exact List.sum_nonneg hnonneg
  | some h => exact List.single_le_sum hnonneg _ (List.mem_map.2 ⟨_, HashMap.mem_of_get hg, rfl⟩)

theorem inv_exec {divisor : State → Holding → ℚ} {S : State} (hS : Inv S) :
    ∀ call, Inv (exec divisor S call).1
  | .changeShare none _ => hS
  | .changeShare (some dest) change => by
    by_cases h : change = 0 ∨ S.total + change < 0 ∨ (holding S dest).stake + change < 0
    · rwa [exec, if_pos h]
    rw [exec_changeShare S dest change h]
    push_neg at h
    have hsum := HashMap.sum_set S.holdings dest
      ⟨(holding S dest).stake + change, S.total + change, (holding S dest).owed⟩ Holding.stake
    rw [getD_map_holding S dest _ rfl] at hsum
    refine ⟨fun p hp => ?_, ?_⟩
    · rcases HashMap.mem_setItems hp with hp | rfl
      · exact hS.stakes p hp
      · exact h.2.2
    · simp only [stakeSum, hS.total] at hsum ⊢
      linarith
  | .addRevenue amount => by
    by_cases ha : 0 < amount
    · rw [exec_addRevenue S ha]
      refine ⟨?_, by simpa [stakeSum, Function.comp_def] using hS.total⟩
      simp only [HashMap.update_items, List.mem_map]
      rintro _ ⟨p, hp, rfl⟩
      exact hS.stakes p hp
    · rwa [exec, if_pos (not_lt.1 ha)]

/-- Every run, whatever the divisor and whatever was accepted or rejected. -/
theorem inv_run (divisor : State → Holding → ℚ) (calls : List Call) : Inv (run divisor calls) :=
  trace_induction (exec divisor) init Inv inv_init (fun _ call hS => inv_exec hS call) calls

/-! ## The proportional split pays out what is injected -/

/-- The revenue a call injects. -/
def injected : Call → ℚ
  | .changeShare _ _ => 0
  | .addRevenue amount => max amount 0

/-- A stake change leaves what is owed as it was. -/
theorem paid_changeShare {divisor : State → Holding → ℚ} (S : State) (dest : Option String)
    (change : ℚ) : paid (exec divisor S (.changeShare dest change)).1 = paid S := by
  cases dest with
  | none => rfl
  | some dest =>
    by_cases h : change = 0 ∨ S.total + change < 0 ∨ (holding S dest).stake + change < 0
    · rw [exec, if_pos h]
    rw [exec_changeShare S dest change h]
    have hsum := HashMap.sum_set S.holdings dest
      ⟨(holding S dest).stake + change, S.total + change, (holding S dest).owed⟩ Holding.owed
    rw [getD_map_holding S dest _ rfl] at hsum
    simp only [paid] at hsum ⊢
    linarith

/-- Split proportionally while stake is held, an injection adds exactly its
amount to what all holders together are owed. -/
theorem paid_exec_proportional {S : State} (hS : Inv S) (call : Call)
    (hg : StakedInjection (fun S => Double.fin S.total) S call) :
    paid (exec proportional S call).1 = paid S + injected call := by
  cases call with
  | changeShare dest change => rw [paid_changeShare, injected, add_zero]
  | addRevenue amount =>
    by_cases ha : 0 < amount
    · have hT : 0 < S.total := by simpa using hg ha
      rw [exec_addRevenue S ha, injected, max_eq_left ha.le]
      have htotal := hS.total
      unfold stakeSum at htotal
      simp only [paid, HashMap.update_items, List.map_map, Function.comp_def, part, proportional,
        List.sum_map_add, mul_div_right_comm amount, List.sum_map_mul_left, ← htotal,
        div_mul_cancel₀ _ hT.ne']
    · rw [exec, if_pos (not_lt.1 ha), injected, max_eq_right (not_lt.1 ha), add_zero]

/-- Split proportionally, on every run that injects only while stake is
held, all holders together are owed exactly the revenue injected. -/
theorem paid_run (calls : List Call)
    (h : Respects (exec proportional) init (StakedInjection fun S => Double.fin S.total) calls) :
    paid (run proportional calls) = (calls.map injected).sum := by
  induction calls using List.reverseRecOn with
  | nil => rfl
  | append_singleton calls call ih =>
    obtain ⟨hg, hcall⟩ := respects_concat _ _ h
    rw [run, trace_concat, ← run, paid_exec_proportional (inv_run _ calls) call hcall, ih hg,
      List.map_append, List.sum_append, List.map_singleton, List.sum_singleton]

/-! ## When the two splits agree -/

/-- An injection is made while every staked holder's snapshot is the total
in force. -/
def Current (S : State) : Call → Prop
  | .changeShare _ _ => True
  | .addRevenue _ => ∀ p ∈ S.holdings.items, p.2.stake ≠ 0 → p.2.snapshot = S.total

instance (S : State) : ∀ call, Decidable (Current S call)
  | .changeShare _ _ => inferInstanceAs (Decidable True)
  | .addRevenue _ =>
    inferInstanceAs (Decidable (∀ p ∈ S.holdings.items, p.2.stake ≠ 0 → p.2.snapshot = S.total))

theorem exec_atSnapshot_eq (S : State) (call : Call) (h : Current S call) :
    exec atSnapshot S call = exec proportional S call := by
  cases call with
  | changeShare dest change => cases dest <;> rfl
  | addRevenue amount =>
    by_cases ha : 0 < amount
    · rw [exec_addRevenue S ha, exec_addRevenue S ha, HashMap.update_congr S.holdings fun p hp => ?_]
      by_cases hs : p.2.stake = 0
      · simp [part, hs]
      · simp [part, atSnapshot, proportional, h p hp hs]
    · simp only [exec, if_pos (not_lt.1 ha)]

/-- On every run whose injections are made while every staked holder's
snapshot is the total in force, the split at snapshots is the proportional
split. -/
theorem run_atSnapshot_eq (calls : List Call) (h : Respects (exec proportional) init Current calls) :
    run atSnapshot calls = run proportional calls :=
  (trace_simulation (exec proportional) init (exec atSnapshot) init Current (fun S S' => S' = S) rfl
    (fun S _ call hS hc => by rw [hS, exec_atSnapshot_eq S call hc]) calls h)

end Split

end WasmContracts
