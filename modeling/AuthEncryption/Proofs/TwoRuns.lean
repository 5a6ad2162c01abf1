import AuthEncryption.Proofs.Effects

/-!
# Two runs side by side

Two operations are alike if, from states that one relation relates and with the same reports so
far, they end in the same way: with values that another relation relates or with the same failure,
in related states, and with the same reports. The rules follow the parts of an operation, so that
two runs are compared line by line and neither is computed.
-/
namespace AuthEncryption

/-- Two ends of operations that nobody can tell apart who sees of the states only what `R` fixes,
and of the values only what `Q` does. -/
inductive Outcome.Alike {σ τ α β : Type} (R : σ → τ → Prop) (Q : α → β → Prop) :
    Outcome σ α → Outcome τ β → Prop
  | ok {a : α} {b : β} {s : σ} {t : τ} (log : Log) (values : Q a b) (states : R s t) :
      Alike R Q { result := .ok a, state := s, log } { result := .ok b, state := t, log }
  | error {s : σ} {t : τ} (f : Failure) (log : Log) (states : R s t) :
      Alike R Q { result := .error f, state := s, log } { result := .error f, state := t, log }

theorem Outcome.Alike.log_eq {σ τ α β : Type} {R : σ → τ → Prop} {Q : α → β → Prop}
    {outcome : Outcome σ α} {outcome' : Outcome τ β} (h : outcome.Alike R Q outcome') :
    outcome.log = outcome'.log := by
  cases h <;> rfl

namespace Session

variable {σ τ σ' τ' α β γ δ : Type} {R : σ → τ → Prop} {Q : α → β → Prop} {P : γ → δ → Prop}

/-- Two operations that go alike from any related states. -/
def Alike (R : σ → τ → Prop) (Q : α → β → Prop) (op : Session σ α) (op' : Session τ β) : Prop :=
  ∀ s t log, R s t → (op.runFrom s log).Alike R Q (op'.runFrom t log)

theorem alike_pure {a : α} {b : β} (h : Q a b) :
    Alike R Q (pure a : Session σ α) (pure b : Session τ β) :=
  fun _ _ log hstates => .ok log h hstates

theorem alike_get : Alike R R (get : Session σ σ) (get : Session τ τ) :=
  fun _ _ log hstates => .ok log hstates hstates

theorem alike_set {s : σ} {t : τ} (h : R s t) :
    Alike R Eq (set s : Session σ PUnit) (set t : Session τ PUnit) :=
  fun _ _ log _ => .ok log rfl h

theorem alike_modify {f : σ → σ} {g : τ → τ} (h : ∀ s t, R s t → R (f s) (g t)) :
    Alike R Eq (modify f : Session σ PUnit) (modify g : Session τ PUnit) :=
  fun s t log hstates => .ok log rfl (h s t hstates)

theorem alike_throw (f : Failure) :
    Alike R Q (throw f : Session σ α) (throw f : Session τ β) :=
  fun _ _ log hstates => .error f log hstates

/-- A report, or a part that only reports. -/
theorem alike_logged {op : Logged α} {op' : Logged β}
    (h : ∀ log, Q (op.run log).1 (op'.run log).1 ∧ (op.run log).2 = (op'.run log).2) :
    Alike R Q (liftM op : Session σ α) (liftM op' : Session τ β) := by
  intro s t log hstates
  obtain ⟨hvalues, hlog⟩ := h log
  have hrun : (liftM op : Session σ α).runFrom s log =
      { result := .ok (op.run log).1, state := s, log := (op.run log).2 } := rfl
  have hrun' : (liftM op' : Session τ β).runFrom t log =
      { result := .ok (op'.run log).1, state := t, log := (op'.run log).2 } := rfl
  rw [hrun, hrun', ← hlog]
  exact .ok _ hvalues hstates

theorem alike_emit (record : Record) :
    Alike R Eq (liftM (emit record) : Session σ Unit) (liftM (emit record) : Session τ Unit) :=
  alike_logged fun _ => ⟨rfl, rfl⟩

/-- A check that both make of the same things. -/
theorem alike_liftError (result : Except Error α) :
    Alike R Eq (liftM result : Session σ α) (liftM result : Session τ α) := by
  intro s t log hstates
  rw [runFrom_liftError, runFrom_liftError]
  cases result with
  | ok a => exact .ok log rfl hstates
  | error e => exact .error _ log hstates

theorem alike_liftFault (result : Except Fault α) :
    Alike R Eq (liftM result : Session σ α) (liftM result : Session τ α) := by
  intro s t log hstates
  rw [runFrom_liftFault, runFrom_liftFault]
  cases result with
  | ok a => exact .ok log rfl hstates
  | error e => exact .error _ log hstates

/-- An operation goes as it goes. -/
theorem alike_refl (op : Session σ α) : Alike Eq Eq op op := by
  rintro s t log rfl
  rcases op.runFrom s log with ⟨result, after, log₁⟩
  cases result with
  | ok a => exact .ok log₁ rfl rfl
  | error f => exact .error f log₁ rfl

namespace Alike

/-- What one run did, the other one did too. -/
theorem exists_ok {op : Session σ α} {op' : Session τ β} (h : Alike R Q op op') {s s' : σ} {t : τ}
    {a : α} {log log' : Log} (hstates : R s t)
    (hrun : op.runFrom s log = { result := .ok a, state := s', log := log' }) :
    ∃ b t', op'.runFrom t log = { result := .ok b, state := t', log := log' } ∧
      Q a b ∧ R s' t' := by
  have hop := h s t log hstates
  rw [hrun] at hop
  generalize op'.runFrom t log = outcome' at hop
  cases hop with
  | ok _ hvalues hafter => exact ⟨_, _, rfl, hvalues, hafter⟩

theorem exists_error {op : Session σ α} {op' : Session τ β} (h : Alike R Q op op') {s s' : σ}
    {t : τ} {f : Failure} {log log' : Log} (hstates : R s t)
    (hrun : op.runFrom s log = { result := .error f, state := s', log := log' }) :
    ∃ t', op'.runFrom t log = { result := .error f, state := t', log := log' } ∧ R s' t' := by
  have hop := h s t log hstates
  rw [hrun] at hop
  generalize op'.runFrom t log = outcome' at hop
  cases hop with
  | error _ _ hafter => exact ⟨_, rfl, hafter⟩

/-- The sequence rule: what follows may look at values that are related. -/
theorem bind {op : Session σ α} {op' : Session τ β} {next : α → Session σ γ}
    {next' : β → Session τ δ} (h : Alike R Q op op')
    (hnext : ∀ a b, Q a b → Alike R P (next a) (next' b)) :
    Alike R P (op >>= next) (op' >>= next') := by
  intro s t log hstates
  have hop := h s t log hstates
  rw [runFrom_bind, runFrom_bind]
  generalize op.runFrom s log = outcome at hop
  generalize op'.runFrom t log = outcome' at hop
  cases hop with
  | ok log₁ hvalues hstates₁ => exact hnext _ _ hvalues _ _ log₁ hstates₁
  | error f log₁ hstates₁ => exact .error f log₁ hstates₁

/-- The sequence rule where nothing is passed on. -/
theorem next {op : Session σ α} {op' : Session τ β} {after : Session σ γ} {after' : Session τ δ}
    (h : Alike R Q op op') (hnext : Alike R P after after') :
    Alike R P (do let _ ← op; after) (do let _ ← op'; after') :=
  h.bind fun _ _ _ => hnext

/-- Operations of parts that go alike, where the parts of related wholes are related, and wholes
with related parts put back. -/
theorem focus {R' : σ' → τ' → Prop} {op : Session σ α} {op' : Session τ β} (h : Alike R Q op op')
    {part : σ' → σ} {part' : τ' → τ} {replace : σ' → σ → σ'} {replace' : τ' → τ → τ'}
    (hpart : ∀ s t, R' s t → R (part s) (part' t))
    (hreplace : ∀ s t p q, R' s t → R p q → R' (replace s p) (replace' t q)) :
    Alike R' Q (op.focus part replace) (op'.focus part' replace') := by
  intro s t log hstates
  have hop := h (part s) (part' t) log (hpart s t hstates)
  rw [runFrom_focus, runFrom_focus]
  generalize op.runFrom (part s) log = outcome at hop
  generalize op'.runFrom (part' t) log = outcome' at hop
  cases hop with
  | ok log₁ hvalues hparts => exact .ok log₁ hvalues (hreplace _ _ _ _ hstates hparts)
  | error f log₁ hparts => exact .error f log₁ (hreplace _ _ _ _ hstates hparts)

end Alike

end Session

end AuthEncryption
