import Egdod.Lib.Run
import Egdod.Lib.Files
import Egdod.Lib.Symbolic
import Egdod.Key
import Egdod.State.Approve
import Egdod.State.Gate
import Egdod.Controller.Admission
import Egdod.Controller.Reachable
import Egdod.Controller.Status
import Egdod.Ssh.Recipe
import Egdod.Copy.Landing
import Egdod.Exec.Agent
import Egdod.Ble.Agreement
import Egdod.Boot.Agents
import Egdod.Boot.Networks
import Egdod.Boot.Supervise
import Egdod.Controller.Takeover
import Egdod.State.IdentityRetry
import Egdod.Copy.Cut
import Egdod.Copy.Session
import Egdod.Ssh.Install
import Egdod.Frames
import Egdod.Exec.Sinks
import Egdod.Boot.Supplicant
import Egdod.State.ApproveFaults
import Egdod.State.Serial
import Egdod.Copy.Admission
import Egdod.Ble.Serve
import Egdod.Ssh.Merge
import Egdod.State.Knock
import Egdod.Pipe
import Egdod.Boot.Relay
import Egdod.Boot.AccessPoint
import Egdod.Forward.Complete
import Egdod.Controller.Canary
import Egdod.Ssh.KnownHosts
import Egdod.Exec.Remote
import Egdod.Ble.Provisioning
import Egdod.Ble.Helper
import Egdod.Copy.Snapshot
import Egdod.Agent.Dial
