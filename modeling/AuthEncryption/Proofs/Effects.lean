import AuthEncryption.Cipher.Keystream
import AuthEncryption.Session

/-!
# Running operations

An operation on a buffer, a step of a cipher and a session operation are run on a
state. The laws here say how a run goes through a sequence, a lifted check and the
accesses to the state, so that later proofs follow an operation line by line and
unfold no monad.
-/
namespace AuthEncryption

/-! ## Results -/

namespace Failure

variable {α β ε : Type}

@[simp] theorem ok_bind (a : α) (next : α → Except ε β) : (Except.ok a >>= next) = next a := rfl

@[simp] theorem error_bind (e : ε) (next : α → Except ε β) :
    (Except.error e >>= next) = Except.error e := rfl

@[simp] theorem liftM_ofError (result : Except Error α) :
    (liftM result : Except Failure α) = result.mapError .error := rfl

@[simp] theorem liftM_ofFault (result : Except Fault α) :
    (liftM result : Except Failure α) = result.mapError .fault := rfl

@[simp] theorem mapError_ok (f : ε → β) (a : α) :
    (Except.ok a).mapError f = (.ok a : Except β α) := rfl

@[simp] theorem mapError_error (f : ε → β) (e : ε) :
    (Except.error e : Except ε α).mapError f = .error (f e) := rfl

@[simp] theorem map_ok (f : α → β) (a : α) : (Except.ok a : Except ε α).map f = .ok (f a) := rfl

@[simp] theorem map_error (f : α → β) (e : ε) :
    (Except.error e : Except ε α).map f = .error e := rfl

end Failure

/-! ## Steps of a cipher -/

namespace Cipher.Step

variable {α β : Type} (c : Cipher)

@[simp] theorem runOn_pure (a : α) : (pure a : Step α).runOn c = (.ok a, c) := rfl

@[simp] theorem runOn_bind (step : Step α) (next : α → Step β) :
    (step >>= next).runOn c =
      match step.runOn c with
      | (.ok a, c) => (next a).runOn c
      | (.error f, c) => (.error f, c) := by
  simp only [runOn, bind, ExceptT.bind, ExceptT.mk, ExceptT.run, StateT.run, StateT.bind]
  rcases step c with ⟨result, after⟩
  cases result <;> rfl

@[simp] theorem runOn_get : (get : Step Cipher).runOn c = (.ok c, c) := rfl

@[simp] theorem runOn_set (d : Cipher) : (set d : Step PUnit).runOn c = (.ok ⟨⟩, d) := rfl

@[simp] theorem runOn_throw (f : Fault) : (throw f : Step α).runOn c = (.error f, c) := rfl

@[simp] theorem runOn_lift (result : Except Fault α) :
    (liftM result : Step α).runOn c = (result, c) := by
  cases result <;> rfl

end Cipher.Step

/-! ## Operations on a buffer -/

namespace OnBuffer

variable {α β : Type} (buffer : Bytes)

@[simp] theorem runOn_pure (a : α) : (pure a : OnBuffer α).runOn buffer = (.ok a, buffer) := rfl

@[simp] theorem runOn_bind (op : OnBuffer α) (next : α → OnBuffer β) :
    (op >>= next).runOn buffer =
      match op.runOn buffer with
      | (.ok a, buffer) => (next a).runOn buffer
      | (.error f, buffer) => (.error f, buffer) := by
  simp only [runOn, bind, ExceptT.bind, ExceptT.mk, ExceptT.run, StateT.run, StateT.bind]
  rcases op buffer with ⟨result, after⟩
  cases result <;> rfl

@[simp] theorem runOn_get : (get : OnBuffer Bytes).runOn buffer = (.ok buffer, buffer) := rfl

@[simp] theorem runOn_set (after : Bytes) :
    (set after : OnBuffer PUnit).runOn buffer = (.ok ⟨⟩, after) := rfl

@[simp] theorem runOn_modify (f : Bytes → Bytes) :
    (modify f : OnBuffer PUnit).runOn buffer = (.ok ⟨⟩, f buffer) := rfl

@[simp] theorem runOn_throw (f : Failure) : (throw f : OnBuffer α).runOn buffer = (.error f, buffer) :=
  rfl

@[simp] theorem runOn_liftExcept (result : Except Failure α) :
    (liftExcept result : OnBuffer α).runOn buffer = (result, buffer) := by
  cases result <;> rfl

@[simp] theorem runOn_liftFailure (result : Except Failure α) :
    (liftM result : OnBuffer α).runOn buffer = (result, buffer) := by
  cases result <;> rfl

@[simp] theorem runOn_liftError (result : Except Error α) :
    (liftM result : OnBuffer α).runOn buffer = (result.mapError .error, buffer) := by
  cases result <;> rfl

@[simp] theorem runOn_liftFault (result : Except Fault α) :
    (liftM result : OnBuffer α).runOn buffer = (result.mapError .fault, buffer) := by
  cases result <;> rfl

@[simp] theorem runOn_length : OnBuffer.length.runOn buffer = (.ok buffer.length, buffer) := rfl

@[simp] theorem runOn_map (op : OnBuffer α) (f : α → β) :
    (f <$> op).runOn buffer = ((op.runOn buffer).1.map f, (op.runOn buffer).2) := by
  rw [map_eq_pure_bind, runOn_bind]
  rcases op.runOn buffer with ⟨result, after⟩
  cases result <;> rfl

variable {buffer}

theorem runOn_put_zero (a b : UInt8) : (put 0 b).runOn (a :: buffer) = (.ok (), b :: buffer) := by
  simp [put]

theorem runOn_copy {source : Bytes} (h : source.length = buffer.length) :
    (copy source).runOn buffer = (.ok (), source) := by
  simp [copy, h]

theorem runOn_copy_then (next : OnBuffer α) {source : Bytes} (h : source.length = buffer.length) :
    (do copy source; next).runOn buffer = next.runOn source := by
  rw [runOn_bind, runOn_copy h]

variable {len : Nat} {front back : Bytes}

/-- An operation on the front of a buffer does not see what stands behind it. -/
theorem runOn_onFront (op : OnBuffer α) (hlen : len = front.length) :
    (onFront len op).runOn (front ++ back) = ((op.runOn front).1, (op.runOn front).2 ++ back) := by
  subst hlen
  simp [onFront]

theorem runOn_onFront_take (op : OnBuffer α) (h : len ≤ buffer.length) :
    (onFront len op).runOn buffer =
      ((op.runOn (buffer.take len)).1, (op.runOn (buffer.take len)).2 ++ buffer.drop len) := by
  simp [onFront, h]

/-- A copy to the front of a buffer, and an operation on it. -/
theorem runOn_onFront_copy (next : OnBuffer α) {source : Bytes} (hlen : len = source.length)
    (hroom : len ≤ buffer.length) :
    (onFront len (do copy source; next)).runOn buffer =
      ((next.runOn source).1, (next.runOn source).2 ++ buffer.drop len) := by
  have hsame : source.length = (buffer.take len).length := by
    rw [List.length_take_of_le hroom, hlen]
  rw [runOn_onFront_take _ hroom, runOn_copy_then _ hsame]

/-- An operation behind the front of a buffer does not see the front. -/
theorem runOn_onBack (op : OnBuffer α) (hlen : len = front.length) :
    (onBack len op).runOn (front ++ back) = ((op.runOn back).1, front ++ (op.runOn back).2) := by
  subst hlen
  simp [onBack]

end OnBuffer

/-! ## Session operations -/

namespace Session

variable {σ τ α β : Type} (state : σ) (log : Log)

attribute [simp] runFrom_pure runFrom_bind

@[simp] theorem runFrom_map (op : Session σ α) (f : α → β) :
    (f <$> op).runFrom state log =
      { result := (op.runFrom state log).result.map f
        state := (op.runFrom state log).state
        log := (op.runFrom state log).log } := by
  rw [map_eq_pure_bind, runFrom_bind]
  rcases op.runFrom state log with ⟨result, after, reports⟩
  cases result <;> rfl

@[simp] theorem runFrom_get :
    (get : Session σ σ).runFrom state log = { result := .ok state, state, log } := rfl

@[simp] theorem runFrom_set (after : σ) :
    (set after : Session σ PUnit).runFrom state log =
      { result := .ok ⟨⟩, state := after, log } := rfl

@[simp] theorem runFrom_modify (f : σ → σ) :
    (modify f : Session σ PUnit).runFrom state log =
      { result := .ok ⟨⟩, state := f state, log } := rfl

@[simp] theorem runFrom_throw (f : Failure) :
    (throw f : Session σ α).runFrom state log = { result := .error f, state, log } := rfl

@[simp] theorem runFrom_emit (record : Record) :
    (liftM (emit record) : Session σ Unit).runFrom state log =
      { result := .ok (), state, log := record :: log } := rfl

@[simp] theorem runFrom_liftFailure (result : Except Failure α) :
    (liftM result : Session σ α).runFrom state log = { result, state, log } := by
  cases result <;> rfl

@[simp] theorem runFrom_liftError (result : Except Error α) :
    (liftM result : Session σ α).runFrom state log =
      { result := result.mapError .error, state, log } := by
  cases result <;> rfl

@[simp] theorem runFrom_liftFault (result : Except Fault α) :
    (liftM result : Session σ α).runFrom state log =
      { result := result.mapError .fault, state, log } := by
  cases result <;> rfl

/-- Runs an operation and gives how it ended, whatever that is. -/
def attempt (op : Session σ α) : Session σ (Except Failure α) :=
  ofRun fun state log =>
    let outcome := op.runFrom state log
    { result := .ok outcome.result, state := outcome.state, log := outcome.log }

@[simp] theorem runFrom_attempt (op : Session σ α) :
    op.attempt.runFrom state log =
      { result := .ok (op.runFrom state log).result
        state := (op.runFrom state log).state
        log := (op.runFrom state log).log } := rfl

end Session

namespace WithBuffer

variable {σ α β : Type} (log : Log)

@[simp] theorem runFrom_onState (op : Session σ α) (whole : WithBuffer σ) :
    (onState op).runFrom whole log =
      { result := (op.runFrom whole.state log).result
        state := { whole with state := (op.runFrom whole.state log).state }
        log := (op.runFrom whole.state log).log } := rfl

@[simp] theorem runFrom_onBuffer (op : OnBuffer α) (whole : WithBuffer σ) :
    (onBuffer op).runFrom whole log =
      { result := (op.runOn whole.buffer).1
        state := { whole with buffer := (op.runOn whole.buffer).2 }
        log } := rfl

@[simp] theorem runFrom_fresh (n : Nat) (op : Session (WithBuffer σ) β) (state : σ) :
    (fresh n op).runFrom state log =
      { result := (op.runFrom { state, buffer := Bytes.zeros n } log).result.map
          fun b => (b, (op.runFrom { state, buffer := Bytes.zeros n } log).state.buffer)
        state := (op.runFrom { state, buffer := Bytes.zeros n } log).state.state
        log := (op.runFrom { state, buffer := Bytes.zeros n } log).log } := rfl

end WithBuffer

end AuthEncryption
