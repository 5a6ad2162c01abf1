import AuthEncryption.Buffer
import AuthEncryption.Log

/-!
# Operations with a state and a log

A session operation works on a state, may fail, and reports on the way. State
and log are kept as they were when it failed. `focus` runs an operation of a
part on the whole.
-/
namespace AuthEncryption

/-- An operation on a state of type `σ`. -/
abbrev Session (σ α : Type) := ExceptT Failure (StateT σ Logged) α

/-- What an operation leaves behind. -/
structure Outcome (σ α : Type) where
  result : Except Failure α
  state : σ
  log : Log

namespace Session

variable {σ τ α β : Type}

/-- Runs an operation on a state, with the reports so far. -/
def runFrom (op : Session σ α) (state : σ) (log : Log) : Outcome σ α :=
  let ((result, state), log) := (op.run.run state).run log
  { result, state, log }

def runOn (op : Session σ α) (state : σ) : Outcome σ α := op.runFrom state []

/-- The operation that ends in a given way. -/
def ofRun (run : σ → Log → Outcome σ α) : Session σ α :=
  ExceptT.mk fun state log =>
    let outcome := run state log
    ((outcome.result, outcome.state), outcome.log)

@[simp] theorem runFrom_ofRun (run : σ → Log → Outcome σ α) (state : σ) (log : Log) :
    (ofRun run).runFrom state log = run state log := rfl

/-- Runs an operation of a part on the whole. -/
def focus (part : σ → τ) (replace : σ → τ → σ) (op : Session τ α) : Session σ α :=
  ofRun fun state log =>
    let outcome := op.runFrom (part state) log
    { outcome with state := replace state outcome.state }

@[simp] theorem runFrom_focus (part : σ → τ) (replace : σ → τ → σ) (op : Session τ α)
    (state : σ) (log : Log) :
    (op.focus part replace).runFrom state log =
      { result := (op.runFrom (part state) log).result
        state := replace state (op.runFrom (part state) log).state
        log := (op.runFrom (part state) log).log } := rfl

theorem runFrom_pure (a : α) (state : σ) (log : Log) :
    (pure a : Session σ α).runFrom state log = { result := .ok a, state, log } := rfl

theorem runFrom_bind (op : Session σ α) (next : α → Session σ β) (state : σ) (log : Log) :
    (op >>= next).runFrom state log =
      match op.runFrom state log with
      | { result := .ok a, state, log } => (next a).runFrom state log
      | { result := .error f, state, log } => { result := .error f, state, log } := by
  simp only [runFrom, bind, ExceptT.bind, ExceptT.mk, ExceptT.run, StateT.run, StateT.bind]
  rcases op state log with ⟨⟨r, s⟩, l⟩
  cases r <;> rfl

end Session

/-- A state together with a caller's buffer. -/
structure WithBuffer (σ : Type) where
  state : σ
  buffer : Bytes

namespace WithBuffer

variable {σ α : Type}

def onState (op : Session σ α) : Session (WithBuffer σ) α :=
  op.focus WithBuffer.state fun whole state => { whole with state }

/-- Runs an operation of the buffer, which reports nothing. -/
def onBuffer (op : OnBuffer α) : Session (WithBuffer σ) α :=
  Session.ofRun fun whole log =>
    let (result, buffer) := op.runOn whole.buffer
    { result, state := { whole with buffer }, log }

/-- Runs an operation on a fresh buffer of `n` zero bytes and gives the buffer
as well. -/
def fresh {β : Type} (n : Nat) (op : Session (WithBuffer σ) β) : Session σ (β × Bytes) :=
  Session.ofRun fun state log =>
    let outcome := op.runFrom { state, buffer := Bytes.zeros n } log
    { result := outcome.result.map fun b => (b, outcome.state.buffer)
      state := outcome.state.state
      log := outcome.log }

end WithBuffer

end AuthEncryption
