import Mathlib.Order.Basic

/-!
# Connections

`db.py`: a connection that is opened again on its next use after it has broken.
-/

namespace DurableQueue

/-- `RECONNECT_MIN_DELAY` and `RECONNECT_MAX_DELAY`, in microseconds. -/
def RECONNECT_MIN_DELAY : Int := 1000000

def RECONNECT_MAX_DELAY : Int := 30000000

theorem minDelay_le_maxDelay : RECONNECT_MIN_DELAY ≤ RECONNECT_MAX_DELAY := by decide

/-- `ReconnectingConnection`: the session it has, and whether psycopg knows that one to be
closed. -/
structure ReconnectingConnection (σ : Type*) where
  conn : Option (σ × Bool)

namespace ReconnectingConnection

variable {σ : Type*} (c : ReconnectingConnection σ)

/-- The session that a `get()` would not replace. -/
def current : Option σ :=
  match c.conn with
  | some (session, false) => some session
  | _ => none

/-- `get()`.  `opened` is what connecting and `setup` come to where they are needed; a session whose
`setup` raises is closed at once. -/
def get (opened : Option σ) : ReconnectingConnection σ × Option σ :=
  match c.current with
  | some session => (c, some session)
  | none =>
      match opened with
      | some session => (⟨some (session, false)⟩, some session)
      | none => (c, none)

/-- `close()`. -/
def close (_ : ReconnectingConnection σ) : ReconnectingConnection σ := ⟨none⟩

end ReconnectingConnection

end DurableQueue
