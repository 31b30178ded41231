import Mathlib.Data.List.Basic
/-!
# How a call of the C code ends

Besides returning, a call of `neural_network/` can end the process. GSL
reports every call it refuses (a zero dimension to `gsl_matrix_calloc`, a row
out of range to `gsl_matrix_const_submatrix`, operands that do not match) to
its error handler, and the default handler, which src/ never replaces,
aborts; and `train` reads through a gradient array it has not checked. A
function that returns a pointer can also return `NULL`, which its caller may
check.

`Outcome` keeps the three apart. The GSL layer (`GslMatrix`) returns
`Option`, `none` for a refused call; `orStop` lifts such a result to its
caller, where `none` is the abort, and `orNull` lifts a function of the
sources whose `none` is the `NULL` it returns. In the monad, `null` and
`stop` end the rest of the computation as an early `return NULL` and an
abort do.
-/
namespace WasmContracts

/-- How a call of the sources ends. -/
inductive Outcome (α : Type) where
  /-- The call returns `a`. -/
  | ok (a : α)
  /-- The call returns `NULL`. -/
  | null
  /-- The process ends inside the call: GSL's error handler aborts, or a
  `NULL` pointer is dereferenced. -/
  | stop
deriving DecidableEq, Repr

namespace Outcome

variable {α β : Type}

def bind : Outcome α → (α → Outcome β) → Outcome β
  | ok a, f => f a
  | null, _ => null
  | stop, _ => stop

instance : Monad Outcome where
  pure := ok
  bind := bind

/-- A GSL call seen by its caller: a refusal aborts. -/
def orStop : Option α → Outcome α
  | some a => ok a
  | none => stop

/-- A function of the sources whose `none` is the `NULL` it returns. -/
def orNull : Option α → Outcome α
  | some a => ok a
  | none => null

/-- The value returned, or `d`. -/
def getD : Outcome α → α → α
  | ok a, _ => a
  | _, d => d

@[simp] theorem pure_eq (a : α) : (pure a : Outcome α) = ok a := rfl
@[simp] theorem ok_bind (a : α) (f : α → Outcome β) : (ok a >>= f) = f a := rfl
@[simp] theorem null_bind (f : α → Outcome β) : (null >>= f) = null := rfl
@[simp] theorem stop_bind (f : α → Outcome β) : (stop >>= f) = stop := rfl
@[simp] theorem map_ok (f : α → β) (a : α) : f <$> ok a = ok (f a) := rfl
@[simp] theorem map_null (f : α → β) : f <$> (null : Outcome α) = null := rfl
@[simp] theorem map_stop (f : α → β) : f <$> (stop : Outcome α) = stop := rfl
@[simp] theorem orStop_some (a : α) : orStop (some a) = ok a := rfl
@[simp] theorem orStop_none : orStop (none : Option α) = stop := rfl
@[simp] theorem orNull_some (a : α) : orNull (some a) = ok a := rfl
@[simp] theorem orNull_none : orNull (none : Option α) = null := rfl
@[simp] theorem getD_ok (a d : α) : (ok a).getD d = a := rfl

theorem bind_eq_ok {x : Outcome α} {f : α → Outcome β} {b : β} :
    x >>= f = ok b ↔ ∃ a, x = ok a ∧ f a = ok b := by
  cases x <;> simp

theorem orStop_eq_stop {x : Option α} : orStop x = stop ↔ x = none := by
  cases x <;> simp

theorem orStop_eq_ok {x : Option α} {a : α} : orStop x = ok a ↔ x = some a := by
  cases x <;> simp

theorem orStop_ne_null (x : Option α) : orStop x ≠ null := by
  cases x <;> simp

end Outcome

end WasmContracts
