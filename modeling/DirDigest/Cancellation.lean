import DirDigest.DigestError
import DirDigest.StatusSink

/-! # Cancellation

A token carries a flag that it shares with its copies; raising the flag of one raises it for all of
them, for good. `Tokens` holds tokens by name.

* `Tokens.step`: one operation on named tokens.
* `Tokens.isCancelled?`, `Tokens.live`: the flags that can be seen.
* `Tokens.check?`, `Tokens.sink?`: what a check of a token answers, and the sink that asks it.
-/

set_option autoImplicit false

namespace DirDigest

/-- Named tokens: the flag of each name (the first entry of a name counts), the flags that have
been raised, and the next unused flag. -/
structure Tokens where
  owners : List (String × Nat) := []
  raised : List Nat := []
  next : Nat := 0
  deriving Repr

namespace Tokens

/-- The flag of a token. -/
def flag? (t : Tokens) (name : String) : Option Nat := t.owners.lookup name

/-- Whether a flag has been raised. -/
def isRaised (t : Tokens) (flag : Nat) : Bool := t.raised.contains flag

/-- Whether a token is cancelled. -/
def isCancelled? (t : Tokens) (name : String) : Option Bool := (t.flag? name).map t.isRaised

/-- What a check of a token answers: it fails once the token is cancelled. -/
def check? (t : Tokens) (name : String) : Option (Except DigestError Unit) :=
  (t.isCancelled? name).map fun cancelled => if cancelled then .error .cancelled else .ok ()

/-- The sink that stops a run once the token is cancelled. -/
def sink? (t : Tokens) (name : String) : Option (StatusSink Unit) :=
  (t.isCancelled? name).map StatusSink.ofFlag

/-- The tokens other than one. -/
def forget (t : Tokens) (name : String) : List (String × Nat) :=
  t.owners.filter fun e => e.1 != name

/-- The live tokens with their flags. -/
def live (t : Tokens) : List (String × Bool) := t.owners.map fun e => (e.1, t.isRaised e.2)

end Tokens

/-- An operation on named tokens. -/
inductive TokenStep
  | create (name : String)
  | copy (name source : String)
  | drop (name : String)
  | cancel (name : String)
  | report (name path : String)
  | check (name : String)

/-- Performs one operation; without the token that it needs, there is nothing to do. -/
def Tokens.step (t : Tokens) : TokenStep → Option Tokens
  | .create name =>
    some { t with owners := (name, t.next) :: t.forget name, next := t.next + 1 }
  | .copy name source =>
    (t.flag? source).map fun flag => { t with owners := (name, flag) :: t.forget name }
  | .drop name => (t.flag? name).map fun _ => { t with owners := t.forget name }
  | .cancel name => (t.flag? name).map fun flag => { t with raised := flag :: t.raised }
  | .report name _ | .check name => (t.flag? name).map fun _ => t

end DirDigest
