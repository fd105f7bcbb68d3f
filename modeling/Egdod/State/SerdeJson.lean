import Egdod.Lib.JsonForm
import Egdod.State.Pending
import Egdod.State.StatusFile

/-! The files kept as JSON, in the layout of serde_json's pretty printer. The
rest of the development takes the two codecs as parameters; these show that
the parameters can be met. -/
open Json

namespace Egdod.State

open Text Posix Net

/-! ## `pending.json` -/

def agentRecord : Record (Str × UInt64 × UInt64 × UInt64 × Unit) :=
  .field "pubkey".toList .string
    (.field "first_seen_unix".toList .u64
      (.field "last_seen_unix".toList .u64
        (.field "attempts".toList .u64 .nil (by decide)) (by decide)) (by decide)) (by decide)

def agentForm : Form PendingAgent :=
  (Form.record agentRecord).via
    (fun p => (p.pubkey, p.firstSeenUnix, p.lastSeenUnix, p.attempts, ()))
    (fun (pubkey, firstSeenUnix, lastSeenUnix, attempts, ()) =>
      ⟨pubkey, firstSeenUnix, lastSeenUnix, attempts⟩)
    fun _ => rfl

def pendingForm : Form (List PendingAgent) := .list agentForm

def serdeJson : PendingCodec where
  toVecPretty list := encode (pendingForm.print list)
  fromSlice bytes := (decode bytes).bind pendingForm.read
  roundTrip list := by
    rw [decode_encode, Option.bind_some, pendingForm.read_print (by decide)]

/-! ## `status.json` -/

def probeName : ProbeMode → Str
  | .discovery => "discovery".toList
  | .direct => "direct".toList

def pathForm : Form PathKind :=
  .choice [.directLocal, .directLan, .directWan, .relayed, .unknown] pathName
    fun a => by cases a <;> decide

def probeForm : Form ProbeMode :=
  .choice [.discovery, .direct] probeName fun a => by cases a <;> decide

def sessionRecord : Record (Str × PathKind × Str × UInt64 × Unit) :=
  .field "agent".toList .string
    (.field "path".toList pathForm
      (.field "remote".toList .string
        (.field "since_unix".toList .u64 .nil (by decide)) (by decide)) (by decide)) (by decide)

def sessionForm : Form SessionInfo :=
  (Form.record sessionRecord).via
    (fun s => (s.agent, s.path, s.remote, s.sinceUnix, ()))
    (fun (agent, path, remote, sinceUnix, ()) => ⟨agent, path, remote, sinceUnix⟩)
    fun _ => rfl

/-- The fields of a status, in the order of the source. -/
abbrev StatusFields : Type :=
  Str × UInt32 × UInt64 × List Str × Option Bool × ProbeMode × Option UInt64 × Option PathKind ×
    Option Str × UInt32 × UInt32 × List SessionInfo × Unit

def statusRecord : Record StatusFields :=
  .field "node_id".toList .string
    (.field "pid".toList .u32
      (.field "updated_unix".toList .u64
        (.field "direct_addrs".toList (.list .string)
          (.field "dialable".toList (.option .bool (by simp [Form.bool]))
            (.field "probe_mode".toList probeForm
              (.field "last_probe_ok_unix".toList
                (.option .u64 (by simp [Form.u64, Form.via, Form.below]))
                (.field "last_probe_path".toList
                  (.option pathForm (by simp [pathForm, Form.choice]))
                  (.field "last_probe_error".toList (.option .string (by simp [Form.string]))
                    (.field "consecutive_probe_failures".toList .u32
                      (.field "endpoint_restarts".toList .u32
                        (.field "sessions".toList (.list sessionForm) .nil
                          (by decide)) (by decide)) (by decide)) (by decide)) (by decide))
                  (by decide)) (by decide)) (by decide)) (by decide)) (by decide)) (by decide))
    (by decide)

def Status.fields (s : Status) : StatusFields :=
  (s.nodeId, s.pid, s.updatedUnix, s.directAddrs, s.dialable, s.probeMode, s.lastProbeOkUnix,
    s.lastProbePath, s.lastProbeError, s.consecutiveProbeFailures, s.endpointRestarts, s.sessions,
    ())

def Status.ofFields : StatusFields → Status
  | (nodeId, pid, updatedUnix, directAddrs, dialable, probeMode, lastProbeOkUnix, lastProbePath,
      lastProbeError, consecutiveProbeFailures, endpointRestarts, sessions, ()) =>
    ⟨nodeId, pid, updatedUnix, directAddrs, dialable, probeMode, lastProbeOkUnix, lastProbePath,
      lastProbeError, consecutiveProbeFailures, endpointRestarts, sessions⟩

def statusForm : Form Status :=
  (Form.record statusRecord).via Status.fields Status.ofFields fun _ => rfl

def serdeStatus : StatusCodec where
  toStringPretty s := statusForm.print s
  fromSlice bytes := (decode bytes).bind statusForm.read
  roundTrip s := by
    rw [decode_encode, Option.bind_some, statusForm.read_print (by decide)]

end Egdod.State
