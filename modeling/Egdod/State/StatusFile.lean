import Egdod.Lib.Files
import Egdod.Lib.Text
import Egdod.Net

/-! `status.json`: what `serve` publishes about itself, as it is written and
as `status` reads it. The text is serde_json's; the program relies on reading
back what it wrote. -/
namespace Egdod.State

open Text Posix Net

structure SessionInfo where
  agent : Str
  path : PathKind
  remote : Str
  sinceUnix : UInt64
  deriving DecidableEq

/-- What `serve` publishes about itself. -/
structure Status where
  nodeId : Str
  pid : UInt32
  updatedUnix : UInt64
  directAddrs : List Str
  /-- `none` until the first probe completes. -/
  dialable : Option Bool
  probeMode : ProbeMode
  lastProbeOkUnix : Option UInt64
  lastProbePath : Option PathKind
  lastProbeError : Option Str
  consecutiveProbeFailures : UInt32
  endpointRestarts : UInt32
  sessions : List SessionInfo
  deriving DecidableEq

/-- What the code uses of serde_json for `status.json`. -/
structure StatusCodec where
  toStringPretty : Status → Str
  fromSlice : Bytes → Option Status
  roundTrip : ∀ s, fromSlice (encode (toStringPretty s)) = some s

/-- `to_vec_pretty`: the same text as bytes. -/
def StatusCodec.toVecPretty (codec : StatusCodec) (s : Status) : Bytes :=
  encode (codec.toStringPretty s)

inductive StatusError where
  | reading
  | parsing
  deriving DecidableEq, Repr

/-- `read_status` of the file, `none` where it cannot be read. -/
def readStatus (codec : StatusCodec) (file : Option Bytes) : Except StatusError Status :=
  match file with
  | none => .error .reading
  | some body =>
    match codec.fromSlice body with
    | none => .error .parsing
    | some s => .ok s

theorem readStatus_toVecPretty (codec : StatusCodec) (s : Status) :
    readStatus codec (some (codec.toVecPretty s)) = .ok s := by
  simp only [readStatus, StatusCodec.toVecPretty, codec.roundTrip]

/-- A kind of path as it is displayed, and as serde renames it. -/
def pathName : PathKind → Str
  | .directLocal => "direct-local".toList
  | .directLan => "direct-lan".toList
  | .directWan => "direct-wan".toList
  | .relayed => "relayed".toList
  | .unknown => "unknown".toList

end Egdod.State
