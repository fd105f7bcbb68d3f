import Egdod.Proto
import Mathlib.Algebra.Group.Nat.Defs

/-! `recv_exec_output`, on the frames of a stream that ended cleanly, with
sinks that take everything. -/
namespace Egdod.Exec

open Text Posix

inductive OutputError where
  | overCeiling (max : Nat)
  | failed (error : Str)
  | noStatus
  deriving DecidableEq

/-- The receiver's variables, its two sinks among them. -/
structure Output where
  code : Option Int32
  truncated : Bool
  got : Nat
  out : Bytes
  err : Bytes

def Output.empty : Output := ⟨none, false, 0, [], []⟩

/-- Charges a payload to the ceiling before it is written. -/
def Output.charge (s : Output) (max : Nat) (bs : Bytes) : Except OutputError Output :=
  let got := (s.got + bs.length) % 2 ^ 64
  if got ≤ max then .ok { s with got := got } else .error (.overCeiling max)

def Output.frame (max : Nat) (s : Output) : ExecFrame → Except OutputError Output
  | .stdout bs => (s.charge max bs).map fun s => { s with out := s.out ++ bs }
  | .stderr bs => (s.charge max bs).map fun s => { s with err := s.err ++ bs }
  | .exit code => .ok { s with code := some code }
  | .failed e => .error (.failed e)
  | .truncated => .ok { s with truncated := true }

/-- The exit status and what the sinks hold. A stream without a status is an
error however much output it brought. -/
def recvExecOutput (max : Nat) (frames : List ExecFrame) :
    Except OutputError (Int32 × Bytes × Bytes) := do
  let s ← frames.foldlM (Output.frame max) .empty
  match s.code with
  | some code => .ok (code, s.out, s.err)
  | none => .error .noStatus

end Egdod.Exec
