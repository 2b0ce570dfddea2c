/-! # Status sinks

A sink follows a digest run: it is told each path before the path is digested, and is then asked
whether the run goes on.

* `StatusSink`: a sink, given by what it does to a state.
* `StatusSink.recording`: a sink together with the calls it received.
* `StatusSink.silent`, `StatusSink.ofFlag`, `StatusSink.stopping`: sinks.
-/

set_option autoImplicit false

namespace DirDigest

/-- A sink with states in `σ`. `check` answers whether the run goes on. -/
structure StatusSink (σ : Type) where
  report : String → σ → σ
  check : σ → Bool × σ

/-- A call that a sink received. -/
inductive SinkCall
  | report (path : String)
  | check
  deriving DecidableEq, Repr

namespace StatusSink

/-- A sink that also keeps the calls it received, in order. -/
def recording {σ : Type} (sink : StatusSink σ) : StatusSink (σ × List SinkCall) where
  report path s := (sink.report path s.1, s.2 ++ [.report path])
  check s :=
    let (goesOn, state) := sink.check s.1
    (goesOn, state, s.2 ++ [.check])

/-- The sink that lets every run go on. -/
def silent : StatusSink Unit where
  report _ s := s
  check s := (true, s)

/-- The sink that stops a run when the flag of its token is up. -/
def ofFlag (cancelled : Bool) : StatusSink Unit where
  report _ s := s
  check s := (!cancelled, s)

/-- The sink that counts the paths it is told. -/
def counting : StatusSink Nat where
  report _ n := n + 1
  check n := (true, n)

/-- What a stopping sink has seen: the checks made, and whether its path was reported. -/
structure Progress where
  checks : Nat := 0
  seen : Bool := false
  deriving DecidableEq, Repr

/-- The sink that stops a run at the first check after `limit` checks, and at every check once a
given path was reported. -/
def stopping (limit : Option Nat) (path : Option String) : StatusSink Progress where
  report reported s := { s with seen := s.seen || path == some reported }
  check s :=
    let checks := s.checks + 1
    let spent := match limit with
      | some n => decide (n < checks)
      | none => false
    (!(spent || s.seen), { s with checks := checks })

end StatusSink

end DirDigest
