import WasmContracts.L1Data.Double
/-!
# The contract interface (`DistributionContract.h`)

Both contracts export `constructContract`, `changeShare` and `addRevenue`
with the same signatures and return `EXIT_SUCCESS` or `EXIT_FAILURE`. A
client drives a contract through a sequence of such calls; `trace` is the
contract after them, for either implementation.

Results:
* `trace_induction`: a property of the initial contract that every call
  preserves holds after every sequence of calls, accepted or rejected.
* `trace_induction_respects`: the same for sequences whose every call meets
  a condition in the state it is made in (`Respects`): injections only while
  the total stake is positive (`StakedInjection`), or only accepted stake
  changes (`AcceptedChange`).
-/
namespace WasmContracts

/-- `EXIT_SUCCESS` of `<stdlib.h>`. -/
def EXIT_SUCCESS : Int := 0
/-- `EXIT_FAILURE` of `<stdlib.h>`. -/
def EXIT_FAILURE : Int := 1

theorem exit_success_ne_failure : EXIT_SUCCESS ≠ EXIT_FAILURE := by decide

/-- One call of `DistributionContract.h`; `dest = none` is a NULL `dest`. The
amounts are exact rationals, as `Double` takes every finite value to be. -/
inductive Call where
  | changeShare (dest : Option String) (change : ℚ)
  | addRevenue (amount : ℚ)
  deriving DecidableEq, Repr

section Trace

variable {σ : Type} (exec : σ → Call → σ × Int) (init : σ)

/-- The contract after `calls`, each applied with `exec`, from `init`. -/
def trace (calls : List Call) : σ := calls.foldl (fun c call => (exec c call).1) init

@[simp] theorem trace_nil : trace exec init [] = init := rfl

theorem trace_concat (calls : List Call) (call : Call) :
    trace exec init (calls ++ [call]) = (exec (trace exec init calls) call).1 := by
  simp [trace, List.foldl_append]

theorem trace_induction (P : σ → Prop) (h0 : P init) (hstep : ∀ c call, P c → P (exec c call).1)
    (calls : List Call) : P (trace exec init calls) := by
  induction calls using List.reverseRecOn with
  | nil => exact h0
  | append_singleton calls call ih => rw [trace_concat]; exact hstep _ _ ih

/-- Every call of the sequence meets `good` in the state it is made in. -/
def Respects (good : σ → Call → Prop) (calls : List Call) : Prop :=
  ∀ pre call, pre ++ [call] <+: calls → good (trace exec init pre) call

theorem Respects.of_prefix {good : σ → Call → Prop} {l calls : List Call}
    (h : Respects exec init good calls) (hl : l <+: calls) : Respects exec init good l :=
  fun pre c hp => h pre c (hp.trans hl)

theorem Respects.and {good good' : σ → Call → Prop} {calls : List Call}
    (h : Respects exec init good calls) (h' : Respects exec init good' calls) :
    Respects exec init (fun c call => good c call ∧ good' c call) calls :=
  fun pre call hp => ⟨h pre call hp, h' pre call hp⟩

theorem respects_concat {good : σ → Call → Prop} {calls : List Call} {call : Call}
    (h : Respects exec init good (calls ++ [call])) :
    Respects exec init good calls ∧ good (trace exec init calls) call :=
  ⟨Respects.of_prefix exec init h (List.prefix_append _ _), h calls call (List.prefix_refl _)⟩

/-- Two interfaces driven by the same calls stay related when the relation
holds initially and every call meeting `good` preserves it. -/
theorem trace_simulation {τ : Type} (exec' : τ → Call → τ × Int) (init' : τ) (good : σ → Call → Prop)
    (R : σ → τ → Prop) (h0 : R init init')
    (hstep : ∀ c c' call, R c c' → good c call → R (exec c call).1 (exec' c' call).1)
    (calls : List Call) (hg : Respects exec init good calls) :
    R (trace exec init calls) (trace exec' init' calls) := by
  induction calls using List.reverseRecOn with
  | nil => exact h0
  | append_singleton calls call ih =>
    obtain ⟨hg, hcall⟩ := respects_concat exec init hg
    rw [trace_concat, trace_concat]; exact hstep _ _ _ (ih hg) hcall

theorem trace_induction_respects (good : σ → Call → Prop) (P : σ → Prop) (h0 : P init)
    (hstep : ∀ c call, P c → good c call → P (exec c call).1)
    (calls : List Call) (hg : Respects exec init good calls) : P (trace exec init calls) :=
  trace_simulation exec init exec init good (fun c _ => P c) h0 (fun c _ call hc hg => hstep c call hc hg)
    calls hg

/-- The calls of a sequence, each with the prefix before it. -/
theorem respects_iff (good : σ → Call → Prop) (calls : List Call) :
    Respects exec init good calls ↔
      ∀ n (h : n < calls.length), good (trace exec init (calls.take n)) (calls.get ⟨n, h⟩) := by
  constructor
  · intro hg n h
    refine hg _ _ ⟨calls.drop (n + 1), ?_⟩
    rw [List.append_assoc, List.singleton_append, List.get_eq_getElem, List.getElem_cons_drop,
      List.take_append_drop]
  · rintro hg pre call ⟨rest, rfl⟩
    have hn : pre.length < (pre ++ [call] ++ rest).length := by simp
    have := hg pre.length hn
    simp only [List.append_assoc, List.take_left, List.singleton_append] at this
    simpa [List.getElem_append_right] using this

/-- A condition the calls meet in one interface they meet in a related one,
when the relation carries it over. -/
theorem respects_of_simulation {τ : Type} (exec' : τ → Call → τ × Int) (init' : τ)
    (good : σ → Call → Prop) (good' : τ → Call → Prop) (R : σ → τ → Prop) (h0 : R init init')
    (hstep : ∀ c c' call, R c c' → good c call → R (exec c call).1 (exec' c' call).1)
    (hgood : ∀ c c' call, R c c' → good c call → good' c' call)
    (calls : List Call) (hg : Respects exec init good calls) : Respects exec' init' good' calls := by
  rw [respects_iff]
  exact fun n hn => hgood _ _ _ (trace_simulation exec init exec' init' good R h0 hstep _
    (Respects.of_prefix exec init hg (List.take_prefix n calls))) ((respects_iff exec init good calls).1 hg n hn)

instance (good : σ → Call → Prop) [∀ c call, Decidable (good c call)] (calls : List Call) :
    Decidable (Respects exec init good calls) :=
  decidable_of_iff _ (respects_iff exec init good calls).symm

/-- An injection of a positive amount is made only while `total` is positive:
the caller's obligation of spec §4.2, which §7 calls `DegenerateDistribution`. -/
def StakedInjection (total : σ → Double) (c : σ) : Call → Prop
  | .changeShare _ _ => True
  | .addRevenue amount => 0 < amount → 0 < total c

instance (total : σ → Double) (c : σ) : ∀ call, Decidable (StakedInjection total c call)
  | .changeShare _ _ => inferInstanceAs (Decidable True)
  | .addRevenue amount => inferInstanceAs (Decidable (0 < amount → 0 < total c))

/-- The obligation carries over between states with the same total. -/
theorem StakedInjection.of_total_eq {τ : Type} {total : σ → Double} {total' : τ → Double} {c : σ} {c' : τ}
    {call : Call} (hg : StakedInjection total c call) (h : total c = total' c') :
    StakedInjection total' c' call := by
  cases call with
  | changeShare => trivial
  | addRevenue amount => exact fun ha => h ▸ hg ha

/-- A `changeShare` call is accepted. -/
def AcceptedChange (c : σ) : Call → Prop
  | .changeShare dest change => (exec c (.changeShare dest change)).2 = EXIT_SUCCESS
  | .addRevenue _ => True

instance (c : σ) : ∀ call, Decidable (AcceptedChange exec c call)
  | .changeShare dest change =>
    inferInstanceAs (Decidable ((exec c (.changeShare dest change)).2 = EXIT_SUCCESS))
  | .addRevenue _ => inferInstanceAs (Decidable True)

end Trace

end WasmContracts
