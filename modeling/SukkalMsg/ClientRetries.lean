import SukkalMsg.PublishHandler

/-!
# Requests of the command line client

`client_perform_ex` performs a request until the broker answers it, as long as what went
wrong is worth another try: a request that never arrived always is, one that may have
arrived only when repeating it is harmless.
-/

namespace SukkalMsg

/-- What libcurl says of an attempt, as far as the client tells codes apart. -/
inductive CurlCode where
  | ok
  | couldntConnect
  | couldntResolveHost
  | couldntResolveProxy
  | sendError
  | recvError
  | gotNothing
  | partialFile
  | operationTimedout
  | other
  deriving DecidableEq

def CurlCode.neverArrived : CurlCode → Bool
  | .couldntConnect | .couldntResolveHost | .couldntResolveProxy => true
  | _ => false

def CurlCode.brokeMidway : CurlCode → Bool
  | .sendError | .recvError | .gotNothing | .partialFile | .operationTimedout => true
  | _ => false

/-- One attempt: what the client sees of it, and whether and when the broker has run its
handler. -/
structure Attempt where
  code : CurlCode
  served : Bool
  now : ℕ

structure Attempt.Possible (t : Attempt) : Prop where
  answered : t.code = .ok → t.served = true
  refused : t.code.neverArrived = true → t.served = false

variable {σ : Type}

def Attempt.leaves (serve : ℕ → σ → ℕ × σ) (t : Attempt) (st : σ) : σ :=
  if t.served then (serve t.now st).2 else st

/-- The loop over the attempts, which end with the last one before an interrupt: the status, none
when the request has failed for good, and the broker's state. -/
def clientPerformEx (retryMs : ℕ) (idempotent : Bool) (serve : ℕ → σ → ℕ × σ) :
    List Attempt → σ → Option ℕ × σ
  | [], st => (none, st)
  | t :: ts, st =>
    if t.code = .ok then (some (serve t.now st).1, t.leaves serve st)
    else if (t.code.neverArrived || idempotent && t.code.brokeMidway) && 0 < retryMs then
      clientPerformEx retryMs idempotent serve ts (t.leaves serve st)
    else (none, t.leaves serve st)

def clientPerform (retryMs : ℕ) (serve : ℕ → σ → ℕ × σ) (attempts : List Attempt) (st : σ) :
    Option ℕ × σ :=
  clientPerformEx retryMs true serve attempts st

end SukkalMsg
