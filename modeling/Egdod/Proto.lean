import Egdod.Lib.Files
import Egdod.Lib.Memory
import Egdod.Lib.Text

/-! The messages that travel between the parties, as values. Framing and
postcard are below this level. -/
namespace Egdod

open Text Posix

/-- A SHA-256 digest. -/
abbrev Digest := Memory.Block UInt8 32

/-- First controller-to-agent message: the decision on a connection. -/
inductive Admission where
  | pending
  | approved
  deriving DecidableEq, Repr

/-- One request per stream. -/
inductive Request where
  | exec (argv : List Str)
  | push (path : Str) (mode : UInt32) (len : UInt64) (sha256 : Digest)
  | pull (path : Str)
  | forward (addr : Str)
  deriving DecidableEq

/-- What the agent sends back while a command runs. -/
inductive ExecFrame where
  | stdout (bs : Bytes)
  | stderr (bs : Bytes)
  | exit (code : Int32)
  | failed (error : Str)
  | truncated
  deriving DecidableEq

inductive Ack where
  | ok
  | err (error : Str)
  deriving DecidableEq

/-- The head of the answer to a pull. -/
inductive PullStart where
  | ok (mode : UInt32) (len : UInt64) (sha256 : Digest)
  | missing
  | err (error : Str)
  deriving DecidableEq

/-- How the packets of a session travel. -/
inductive PathKind where
  | directLocal
  | directLan
  | directWan
  | relayed
  | unknown
  deriving DecidableEq, Repr

/-- The path a connection transmits on: its kind and the remote address. -/
abbrev Path := PathKind × Str

/-- Which agent a stream on the controller's local socket is for. -/
structure Route where
  agent : Str
  deriving DecidableEq

inductive RouteReply where
  | ok (agent : Str) (path : PathKind) (remote : Str)
  | err (error : Str)
  deriving DecidableEq

/-- `session_path_report`: no selected path is reported, not guessed at. -/
def sessionPathReport (path : Option Path) : Path :=
  path.getD (.unknown, "no open path".toList)

end Egdod
