/-!
# Fallible computations over an explicit state

An `async fn` that returns a `Result` is an `ExceptT ε m` computation: `?` is its
bind, and an error leaves the effects that came before it in place. `attempt` is
the call without `?`, whose caller inspects the result, and `withLocal` runs a
computation inside another one that also owns a mutable local state.

`exec` runs such a computation from a state, `execLocal` one with a local state.
Their equations are the simp set with which straight-line code is evaluated.
-/

namespace Fallible

universe u

variable {m : Type u → Type u} {ε α β S σ : Type u}

/-- Run a computation and hand its result, error or not, to the caller. -/
def attempt [Monad m] (x : ExceptT ε m α) : ExceptT ε m (Except ε α) :=
  ExceptT.mk (x.run >>= fun r => pure (.ok r))

/-- Run an effect that cannot fail by itself. -/
def perform [Monad m] (x : m α) : ExceptT ε m α :=
  ExceptT.mk (x >>= fun a => pure (.ok a))

/-- Use a computation where a local state is in scope, without touching it. -/
def withLocal [Monad m] (x : ExceptT ε m α) : ExceptT ε (StateT S m) α :=
  ExceptT.mk (fun l => x.run >>= fun r => pure (r, l))

/-- The same as `perform`, where a local state is in scope. -/
def performLocal [Monad m] (x : m α) : ExceptT ε (StateT S m) α :=
  ExceptT.mk (fun l => x >>= fun a => pure (.ok a, l))

/-- The local state, read and replaced. -/
def getLocal [Monad m] : ExceptT ε (StateT S m) S :=
  ExceptT.mk (fun l => pure (.ok l, l))

def setLocal [Monad m] (l : S) : ExceptT ε (StateT S m) PUnit :=
  ExceptT.mk (fun _ => pure (.ok ⟨⟩, l))

/-- Introduce a local state, and return its last value with the result. -/
def scopeLocal [Monad m] (l : S) (x : ExceptT ε (StateT S m) α) : ExceptT ε m (α × S) :=
  ExceptT.mk (x.run l >>= fun r => pure (r.1.map fun a => (a, r.2)))

/-- The state of a computation that runs alone. -/
def getState : ExceptT ε (StateM σ) σ :=
  ExceptT.mk (fun s => pure (.ok s, s))

def setState (s : σ) : ExceptT ε (StateM σ) PUnit :=
  ExceptT.mk (fun _ => pure (.ok ⟨⟩, s))

/-- Run from a state: the result and the state it leaves, also when it fails. -/
def exec (x : ExceptT ε (StateM σ) α) (s : σ) : Except ε α × σ := x.run s

/-- Run with a local state `l` from a state `s`. -/
def execLocal (x : ExceptT ε (StateT S (StateM σ)) α) (l : S) (s : σ) :
    (Except ε α × S) × σ := x.run l s

/-- What runs the same from every state is the same. -/
theorem exec_ext {x y : ExceptT ε (StateM σ) α} (h : ∀ s, exec x s = exec y s) : x = y :=
  funext h

theorem execLocal_ext {x y : ExceptT ε (StateT S (StateM σ)) α}
    (h : ∀ l s, execLocal x l s = execLocal y l s) : x = y :=
  funext fun l => funext (h l)

section Exec

variable (s : σ)

@[simp] theorem exec_pure (a : α) :
    exec (pure a : ExceptT ε (StateM σ) α) s = (.ok a, s) := rfl

@[simp] theorem exec_throw (e : ε) :
    exec (throw e : ExceptT ε (StateM σ) α) s = (.error e, s) := rfl

theorem exec_bind (x : ExceptT ε (StateM σ) α) (f : α → ExceptT ε (StateM σ) β) :
    exec (x >>= f) s =
      match exec x s with
      | (.ok a, t) => exec (f a) t
      | (.error e, t) => (.error e, t) := by
  change (ExceptT.bindCont f (x.run s).1) (x.run s).2 = _
  unfold exec
  cases x.run s with
  | mk r t => cases r <;> rfl

theorem exec_bind_ok {x : ExceptT ε (StateM σ) α} {f : α → ExceptT ε (StateM σ) β}
    {s t : σ} {a : α} (h : exec x s = (.ok a, t)) : exec (x >>= f) s = exec (f a) t := by
  rw [exec_bind, h]

theorem exec_bind_error {x : ExceptT ε (StateM σ) α} {f : α → ExceptT ε (StateM σ) β}
    {s t : σ} {e : ε} (h : exec x s = (.error e, t)) : exec (x >>= f) s = (.error e, t) := by
  rw [exec_bind, h]

/-- A sequence succeeds when both of its parts do. -/
theorem exec_bind_eq_ok {x : ExceptT ε (StateM σ) α} {f : α → ExceptT ε (StateM σ) β}
    {s t : σ} {b : β} :
    exec (x >>= f) s = (.ok b, t) ↔
      ∃ a u, exec x s = (.ok a, u) ∧ exec (f a) u = (.ok b, t) := by
  rw [exec_bind]
  constructor
  · intro h
    cases hx : exec x s with
    | mk r u =>
        cases r with
        | ok a =>
            rw [hx] at h
            exact ⟨a, u, rfl, h⟩
        | error e =>
            rw [hx] at h
            cases h
  · rintro ⟨a, u, hx, hf⟩
    rw [hx]
    exact hf

/-- A sequence fails in its first part or, that part done, in its second. -/
theorem exec_bind_eq_error {x : ExceptT ε (StateM σ) α} {f : α → ExceptT ε (StateM σ) β}
    {s t : σ} {e : ε} :
    exec (x >>= f) s = (.error e, t) ↔
      exec x s = (.error e, t) ∨
        ∃ a u, exec x s = (.ok a, u) ∧ exec (f a) u = (.error e, t) := by
  rw [exec_bind]
  constructor
  · intro h
    cases hx : exec x s with
    | mk r u =>
        cases r with
        | ok a =>
            rw [hx] at h
            exact .inr ⟨a, u, rfl, h⟩
        | error e' =>
            rw [hx] at h
            cases h
            exact .inl rfl
  · rintro (hx | ⟨a, u, hx, hf⟩)
    · rw [hx]
    · rw [hx]
      exact hf

@[simp] theorem exec_getState :
    exec (getState : ExceptT ε (StateM σ) σ) s = (.ok s, s) := rfl

@[simp] theorem exec_setState (t : σ) :
    exec (setState t : ExceptT ε (StateM σ) PUnit) s = (.ok ⟨⟩, t) := rfl

@[simp] theorem exec_attempt (x : ExceptT ε (StateM σ) α) :
    exec (attempt x) s = (.ok (exec x s).1, (exec x s).2) := rfl

@[simp] theorem exec_perform (x : StateM σ α) :
    exec (perform x : ExceptT ε (StateM σ) α) s = (.ok (x s).1, (x s).2) := rfl

theorem exec_scopeLocal (l : S) (x : ExceptT ε (StateT S (StateM σ)) α) :
    exec (scopeLocal l x) s =
      ((execLocal x l s).1.1.map fun a => (a, (execLocal x l s).1.2), (execLocal x l s).2) :=
  rfl

end Exec

/-- Every error that `x` can end in satisfies `P`. -/
def FailsOnlyWith (P : ε → Prop) (x : ExceptT ε (StateM σ) α) : Prop :=
  ∀ (s t : σ) (e : ε), exec x s = (.error e, t) → P e

namespace FailsOnlyWith

variable {P : ε → Prop}

theorem pure (a : α) : FailsOnlyWith P (Pure.pure a : ExceptT ε (StateM σ) α) := by
  intro s t e h
  cases h

theorem throw {e : ε} (h : P e) :
    FailsOnlyWith P (MonadExcept.throw e : ExceptT ε (StateM σ) α) := by
  intro s t e' hexec
  cases hexec
  exact h

theorem perform (x : StateM σ α) :
    FailsOnlyWith P (Fallible.perform x : ExceptT ε (StateM σ) α) := by
  intro s t e h
  cases h

theorem attempt (x : ExceptT ε (StateM σ) α) : FailsOnlyWith P (Fallible.attempt x) := by
  intro s t e h
  cases h

theorem getState : FailsOnlyWith P (Fallible.getState : ExceptT ε (StateM σ) σ) := by
  intro s t e h
  cases h

theorem setState (u : σ) :
    FailsOnlyWith P (Fallible.setState u : ExceptT ε (StateM σ) PUnit) := by
  intro s t e h
  cases h

theorem bind {x : ExceptT ε (StateM σ) α} {f : α → ExceptT ε (StateM σ) β}
    (hx : FailsOnlyWith P x) (hf : ∀ a, FailsOnlyWith P (f a)) : FailsOnlyWith P (x >>= f) := by
  intro s t e h
  obtain hfirst | ⟨a, u, _, hrest⟩ := exec_bind_eq_error.mp h
  · exact hx s t e hfirst
  · exact hf a u t e hrest

end FailsOnlyWith

section ExecLocal

variable (l : S) (s : σ)

@[simp] theorem execLocal_pure (a : α) :
    execLocal (pure a : ExceptT ε (StateT S (StateM σ)) α) l s = ((.ok a, l), s) := rfl

@[simp] theorem execLocal_throw (e : ε) :
    execLocal (throw e : ExceptT ε (StateT S (StateM σ)) α) l s = ((.error e, l), s) := rfl

theorem execLocal_bind (x : ExceptT ε (StateT S (StateM σ)) α)
    (f : α → ExceptT ε (StateT S (StateM σ)) β) :
    execLocal (x >>= f) l s =
      match execLocal x l s with
      | ((.ok a, k), t) => execLocal (f a) k t
      | ((.error e, k), t) => ((.error e, k), t) := by
  change (ExceptT.bindCont f (x.run l s).1.1) (x.run l s).1.2 (x.run l s).2 = _
  unfold execLocal
  cases x.run l s with
  | mk rl t =>
      cases rl with
      | mk r k => cases r <;> rfl

@[simp] theorem execLocal_withLocal (x : ExceptT ε (StateM σ) α) :
    execLocal (withLocal x) l s = (((exec x s).1, l), (exec x s).2) := rfl

theorem execLocal_getState_bind (f : σ → ExceptT ε (StateT S (StateM σ)) α) :
    execLocal (withLocal getState >>= f) l s = execLocal (f s) l s := rfl

theorem execLocal_performLocal_bind (x : StateM σ α)
    (f : α → ExceptT ε (StateT S (StateM σ)) β) :
    execLocal (performLocal x >>= f) l s = execLocal (f (x s).1) l (x s).2 := rfl

@[simp] theorem execLocal_performLocal (x : StateM σ α) :
    execLocal (performLocal x : ExceptT ε (StateT S (StateM σ)) α) l s =
      ((.ok (x s).1, l), (x s).2) := rfl

@[simp] theorem execLocal_getLocal :
    execLocal (getLocal : ExceptT ε (StateT S (StateM σ)) S) l s = ((.ok l, l), s) := rfl

@[simp] theorem execLocal_setLocal (k : S) :
    execLocal (setLocal k : ExceptT ε (StateT S (StateM σ)) PUnit) l s =
      ((.ok ⟨⟩, k), s) := rfl

end ExecLocal

end Fallible
