import Valuation.Error

/-!
# Checks and writes in turn

A call of a shared object makes checks and writes, one after the other, and what it has written by the time a check
refuses it stays written (`Stepwise`). A call as a function into `Except` leaves no object at all when it is refused.
It tells the same of a call just if no check that may refuse comes after a write (`settled`).
-/
namespace Valuation

/-- Checks and writes of an object, one after the other. -/
abbrev Stepwise (σ α : Type) := ExceptT EngineError (StateM σ) α

/-- The object after a call that, where it is refused, has written nothing. -/
def settled {σ : Type} (s : σ) : Except EngineError σ → Except EngineError Unit × σ
  | .ok s' => (.ok (), s')
  | .error e => (.error e, s)

namespace Stepwise

variable {σ α β : Type}

/-- What checks and writes come to, and the object that they leave. -/
def outcome (x : Stepwise σ α) (s : σ) : Except EngineError α × σ := Id.run (x.run.run s)

@[simp] theorem outcome_pure (a : α) (s : σ) : (pure a : Stepwise σ α).outcome s = (.ok a, s) := rfl

@[simp] theorem outcome_throw (e : EngineError) (s : σ) : (throw e : Stepwise σ α).outcome s = (.error e, s) := rfl

@[simp] theorem outcome_get (s : σ) : (get : Stepwise σ σ).outcome s = (.ok s, s) := rfl

@[simp] theorem outcome_modify (f : σ → σ) (s : σ) : (modify f : Stepwise σ PUnit).outcome s = (.ok (), f s) := rfl

@[simp] theorem outcome_bind (x : Stepwise σ α) (f : α → Stepwise σ β) (s : σ) : (x >>= f).outcome s =
    match x.outcome s with
    | (.ok a, s') => (f a).outcome s'
    | (.error e, s') => (.error e, s') := by
  unfold outcome ExceptT.run StateT.run Id.run
  simp only [bind, ExceptT.bind, ExceptT.mk, StateT.bind, ExceptT.bindCont]
  cases x s with
  | mk result s' => cases result <;> rfl

end Stepwise
end Valuation
