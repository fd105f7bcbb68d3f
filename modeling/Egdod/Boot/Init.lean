import Egdod.Lib.Prog
import Egdod.Lib.Text
import Mathlib.Logic.Function.Iterate

/-! `boot/init.c` from its first `bring_up` on: the links it tries, the
children it keeps, and the loop that supervises them. What the kernel and the
file system say is an answer of the outside; the table of children that have
not been reaped is kept here, so that an answer can be checked against it. -/
namespace Egdod.Boot

open Text Asking

/-! ## Words of the command line and of small files -/

/-- The text from the first word `key=…` on, after the equals sign. -/
def argFrom (key : Str) : Nat → Str → Option Str
  | 0, _ => none
  | fuel + 1, text =>
    let word := text.dropWhile (· = ' ')
    if word.take key.length = key ∧ (word.drop key.length).head? = some '=' then
      some (word.drop (key.length + 1))
    else
      match word.dropWhile (· ≠ ' ') with
      | [] => none
      | _ :: rest => argFrom key fuel rest

def arg (cmdline : Str) (key : String) : Option Str :=
  argFrom key.toList (cmdline.length + 1) cmdline

def flagFrom (key : Str) : Nat → Str → Bool
  | 0, _ => false
  | fuel + 1, text =>
    let word := text.dropWhile (· = ' ')
    if word.take key.length = key ∧
        (word.drop key.length).head? ∈ [none, some ' ', some '\n'] then true
    else
      match word.dropWhile (· ≠ ' ') with
      | [] => false
      | _ :: rest => flagFrom key fuel rest

def flag (cmdline : Str) (key : String) : Bool :=
  flagFrom key.toList (cmdline.length + 1) cmdline

def dupWord (s : Str) : Str := s.takeWhile fun c => c ≠ ' ' ∧ c ≠ '\n'

/-- The value of the first line `key=…`, unless it does not fit in `cap` bytes with its NUL. -/
def fieldFrom (key : Str) (cap : Nat) : Nat → Str → Option Str
  | 0, _ => none
  | fuel + 1, text =>
    if text.take key.length = key ∧ (text.drop key.length).head? = some '=' then
      let value := (text.drop (key.length + 1)).takeWhile (· ≠ '\n')
      if cap ≤ (encode value).length then none else some value
    else
      match text.dropWhile (· ≠ '\n') with
      | [] => none
      | _ :: rest => fieldFrom key cap fuel rest

def field (text : Str) (key : String) (cap : Nat) : Option Str :=
  fieldFrom key.toList cap (text.length + 1) text

/-- Drops leading spaces and one word. -/
def dropWord (s : Str) : Str := (s.dropWhile (· = ' ')).dropWhile (· ≠ ' ')

def wordAt (s : Str) (idx : Nat) : Str :=
  ((Nat.iterate dropWord idx s).dropWhile (· = ' ')).takeWhile fun c => c ≠ ' ' ∧ c ≠ '\n'

/-! ## State -/

/-- What a child was started as. -/
inductive Program
  | agent
  | link
  | ble
  | udhcpc
  | wpaSupplicant
  | hostapd
  | dbus
  | bluetoothd
  | relay
  | other
  deriving DecidableEq, Repr

/-- The program of an argument vector. -/
def Program.of (av : List String) : Program :=
  match av.head?, av.tail.head? with
  | some "/egdod", some "agent" => .agent
  | some "/egdod", some "link" => .link
  | some "/egdod", some "ble" => .ble
  | some "/bin/busybox", some "udhcpc" => .udhcpc
  | some "/bin/wpa_supplicant", _ => .wpaSupplicant
  | some "/bin/hostapd", _ => .hostapd
  | some "/bin/dbus-daemon", _ => .dbus
  | some "/bin/bluetoothd", _ => .bluetoothd
  | _, _ => .other

/-- The children of init that it has not reaped, dead or alive. -/
structure Children where
  program : Int → Option Program
  positive : ∀ p, program p ≠ none → 0 < p

def Children.add (c : Children) (p : Int) (g : Program) (h : 0 < p) : Children where
  program := Function.update c.program p (some g)
  positive := by
    intro q hq
    by_cases hqp : q = p
    · exact hqp ▸ h
    · exact c.positive q (by simpa [hqp] using hq)

def Children.reap (c : Children) (p : Int) : Children where
  program := Function.update c.program p none
  positive := by
    intro q hq
    by_cases hqp : q = p
    · simp [hqp] at hq
    · exact c.positive q (by simpa [hqp] using hq)

inductive Kind
  | none
  | wired
  | station
  | ap
  | ble
  deriving DecidableEq, Repr

/-- What `networks_changed` compares of a `struct stat`. -/
structure Stamp where
  ino : Nat
  sec : Nat
  nsec : Nat
  deriving DecidableEq, Repr

def Stamp.zero : Stamp := ⟨0, 0, 0⟩

structure Link where
  kind : Kind
  dev : Str
  dial : Str
  daemon : Int
  dhcp : Int
  dbus : Int
  bluetoothd : Int
  networks : Stamp

/-- Who looks at a pid. `recheck` is the `waitpid` of `stop` after its loop, which asks again
about the child that the loop may just have reaped. -/
inductive Reader
  | stop
  | kill
  | wait
  | recheck (reaped : Bool)
  deriving DecidableEq, Repr

structure Use where
  reader : Reader
  pid : Int
  unreaped : Bool
  deriving DecidableEq, Repr

/-- What is written down of a run. -/
inductive Event
  | use (u : Use)
  /-- The supervision loop reaped the current `bluetoothd` or `dbus-daemon`. -/
  | bluetoothReaped
  /-- `switch_root` failed half-way and started an agent. -/
  | relaunched (kind : Kind)
  /-- `switch_root` came back, in an iteration that still owes a `relink` or not. -/
  | switchReturned (owed : Bool)
  /-- An iteration of the supervision loop ended. -/
  | ended (owed : Bool)
  deriving DecidableEq, Repr

/-- The variables of init. `helper` is the local of `promote_from_ble`; `owed` says that this
iteration has reaped a current link process and not run `relink` since. -/
structure State where
  children : Children
  relayIn : Bool
  relayPid : Int
  agent : Int
  up : Link
  helper : Int
  wireless : Str
  av : List String
  retryAt : Int
  owed : Bool
  trace : List Event

structure Interface where
  name : Str
  wireless : Bool
  carrier : Bool
  deriving DecidableEq, Repr

inductive Answer
  /-- `fork`: the pid of the child, or a failure. -/
  | forked (pid : Option Int)
  /-- `waitpid` of one child with `WNOHANG`: whether it was dead. -/
  | waited (dead : Bool)
  /-- `waitpid` of one child: its status. -/
  | exited (status : Nat)
  /-- `waitpid(-1, …, WNOHANG)`: a dead child and its status, or none. -/
  | child (dead : Option (Int × Nat))
  /-- `access`, a carrier, an address, and every call that works or does not. -/
  | yes (b : Bool)
  /-- The contents of a file, or the output of a command. -/
  | text (t : Option Str)
  | stat (st : Option Stamp)
  | now (t : Int)
  | slept
  /-- The entries of `/sys/class/net`, if it opens. -/
  | interfaces (l : Option (List Interface))
  /-- The module aliases that the buses report. -/
  | aliases (l : List String)
  deriving Repr

abbrev Init := Prog State Answer

/-! ## Calls -/

def askYes : Init Bool := Prog.ask fun s a =>
  match a with
  | .yes b => some (b, s)
  | _ => none

def askText : Init (Option Str) := Prog.ask fun s a =>
  match a with
  | .text t => some (t, s)
  | _ => none

def askStat : Init (Option Stamp) := Prog.ask fun s a =>
  match a with
  | .stat st => some (st, s)
  | _ => none

def askNow : Init Int := Prog.ask fun s a =>
  match a with
  | .now t => some (t, s)
  | _ => none

def askInterfaces : Init (Option (List Interface)) := Prog.ask fun s a =>
  match a with
  | .interfaces l => some (l, s)
  | _ => none

def askAliases : Init (List String) := Prog.ask fun s a =>
  match a with
  | .aliases l => some (l, s)
  | _ => none

def sleep : Init Unit := Prog.ask fun s a =>
  match a with
  | .slept => some ((), s)
  | _ => none

def State.log (s : State) (e : Event) : State := { s with trace := s.trace ++ [e] }

def log (e : Event) : Init Unit := Prog.update (·.log e)

def State.reap (s : State) (p : Int) : State := { s with children := s.children.reap p }

def State.born (s : State) (p : Int) (g : Program) (h : 0 < p) : State :=
  { s with children := s.children.add p g h }

/-- A child is born under a pid that no unreaped child has. -/
def forkAs (g : Program) : Init Int := Prog.ask fun s a =>
  match a with
  | .forked none => some (-1, s)
  | .forked (some p) =>
    if h : 0 < p ∧ s.children.program p = none then
      some (p, s.born p g h.1)
    else none
  | _ => none

def spawn (av : List String) : Init Int := forkAs (Program.of av)

def State.use (s : State) (reader : Reader) (p : Int) : State :=
  s.log (.use ⟨reader, p, (s.children.program p).isSome⟩)

/-- `kill(p, …)`. -/
def kill (p : Int) : Init Unit := Prog.update (·.use .kill p)

/-- `waitpid(p, NULL, WNOHANG)`: the pid, 0 while the child lives, -1 without such a child. -/
def poll (p : Int) : Init Int := do
  let child ← Prog.read fun s => s.children.program p
  if child = none then pure (-1)
  else Prog.ask fun s a =>
    match a with
    | .waited true => some (p, s.reap p)
    | .waited false => some (0, s)
    | _ => none

/-- `waitpid(p, &st, 0)`. -/
def await (p : Int) : Init Nat := do
  let child ← Prog.read fun s => s.children.program p
  if child = none then pure 0
  else Prog.ask fun s a =>
    match a with
    | .exited st => some (st, s.reap p)
    | _ => none

/-- `run`: the status of the command, or -1 when it could not be started. -/
def run (av : List String) : Init Int := do
  let p ← spawn av
  if p < 0 then pure (-1)
  else do
    let st ← await p
    pure st

/-- `capture`: the output of a command that succeeds. -/
def capture (av : List String) : Init (Option Str) := do
  let piped ← askYes
  if !piped then pure none
  else do
    let p ← spawn av
    if p < 0 then pure none
    else do
      let out ← askText
      let st ← await p
      pure (if st = 0 then some (out.getD []) else none)

/-! ## Variables that hold a pid -/

inductive Slot
  | relay
  | agent
  | daemon
  | dhcp
  | dbus
  | bluetoothd
  | helper
  deriving DecidableEq, Repr

def State.get (s : State) : Slot → Int
  | .relay => s.relayPid
  | .agent => s.agent
  | .daemon => s.up.daemon
  | .dhcp => s.up.dhcp
  | .dbus => s.up.dbus
  | .bluetoothd => s.up.bluetoothd
  | .helper => s.helper

def State.set (s : State) (x : Slot) (p : Int) : State :=
  match x with
  | .relay => { s with relayPid := p }
  | .agent => { s with agent := p }
  | .daemon => { s with up := { s.up with daemon := p } }
  | .dhcp => { s with up := { s.up with dhcp := p } }
  | .dbus => { s with up := { s.up with dbus := p } }
  | .bluetoothd => { s with up := { s.up with bluetoothd := p } }
  | .helper => { s with helper := p }

/-- `x = spawn(av)`, in one step: no answer is asked for in between. -/
def assignSpawn (x : Slot) (av : List String) : Init Unit := do
  let p ← spawn av
  Prog.update (·.set x p)

/-- The `for` of `stop`: up to `n` polls, a pause after each that finds the child alive. Whether
it has reaped the child is only for the record. -/
def stopPolls (p : Int) : Nat → Init Bool
  | 0 => pure false
  | n + 1 => do
    Prog.update (·.use .wait p)
    let r ← poll p
    if r = 0 then do
      sleep
      stopPolls p n
    else pure (decide (r = p))

def stop (x : Slot) : Init Unit := do
  let p ← Prog.read (·.get x)
  Prog.update (·.use .stop p)
  if p ≤ 0 then pure ()
  else do
    kill p
    let reaped ← stopPolls p 20
    Prog.update (·.use (.recheck reaped) p)
    let r ← poll p
    if r = 0 then do
      kill p
      Prog.update (·.use .wait p)
      let _ ← await p
      Prog.update (·.set x (-1))
    else Prog.update (·.set x (-1))

/-! ## Links -/

def setUp (f : Link → Link) : Init Unit := Prog.update fun s => { s with up := f s.up }

def networksPath : String := "/wpa_supplicant.conf"

/-- `modprobe_all` of the aliases the buses report. -/
def coldplug : Init Unit := do
  let aliases ← askAliases
  if aliases = [] then pure ()
  else do
    let _ ← run (["/bin/busybox", "modprobe", "-qa"] ++ aliases)
    pure ()

/-- `x > 0 && waitpid(x, NULL, WNOHANG) == x`, with `x = -1` when it holds. -/
def reapIfDead (x : Slot) : Init Bool := do
  let p ← Prog.read (·.get x)
  if p ≤ 0 then pure false
  else do
    Prog.update (·.use .wait p)
    let r ← poll p
    if r = p then do
      Prog.update (·.set x (-1))
      pure true
    else pure false

/-- The `for` of `dhcp`, with `t` seconds left. -/
def dhcpWait : Nat → Init Unit
  | 0 => pure ()
  | t + 1 => do
    let p ← Prog.read (·.up.dhcp)
    if p ≤ 0 then pure ()
    else do
      let addressed ← askYes
      if addressed then pure ()
      else do
        let dead ← reapIfDead .dhcp
        if dead then pure ()
        else do
          sleep
          dhcpWait t

def dhcp : Init Unit := do
  let dev ← Prog.read (·.up.dev)
  assignSpawn .dhcp ["/bin/busybox", "udhcpc", "-f", "-i", .ofList dev, "-s", "/bin/udhcpc.script"]
  dhcpWait 20

/-- One pass over `/sys/class/net`: the first wired device with a carrier, how many wired
devices came before it, and the wireless device to use. -/
def scanWired : List Interface → Nat → Str → Option Str × Nat × Str
  | [], wired, wireless => (none, wired, wireless)
  | i :: rest, wired, wireless =>
    if i.name.head? = some '.' ∨ i.name = "lo".toList then scanWired rest wired wireless
    else if i.wireless then scanWired rest wired (if wireless = [] then i.name else wireless)
    else if i.carrier then (some i.name, wired + 1, wireless)
    else scanWired rest (wired + 1) wireless

/-- The `for` of `wait_wired`, with `n` rounds left, the first of them round `t`. -/
def waitWiredFrom : Nat → Nat → Init Bool
  | 0, _ => pure false
  | n + 1, t => do
    let entries ← askInterfaces
    match entries with
    | none => pure false
    | some entries => do
      let wireless ← Prog.read (·.wireless)
      let found := scanWired entries 0 wireless
      Prog.update fun s => { s with wireless := found.2.2 }
      match found.1 with
      | some name => do
        setUp fun up => { up with dev := name }
        pure true
      | none =>
        if found.2.1 = 0 ∧ found.2.2 ≠ [] ∧ 2 ≤ t then pure false
        else do
          sleep
          coldplug
          waitWiredFrom n (t + 1)

def waitWired : Init Bool := waitWiredFrom 11 0

def waitCarrier : Nat → Init Bool
  | 0 => pure false
  | secs + 1 => do
    let carrier ← askYes
    if carrier then pure true
    else do
      let dead ← reapIfDead .daemon
      if dead then pure false
      else do
        sleep
        waitCarrier secs

def station : Init Bool := do
  let wireless ← Prog.read (·.wireless)
  if wireless = [] then pure false
  else do
    let readable ← askYes
    if !readable then pure false
    else do
      setUp fun up => { up with dev := wireless }
      assignSpawn .daemon ["/bin/wpa_supplicant", "-i", .ofList wireless, "-c", networksPath]
      let joined ← waitCarrier 30
      if joined then pure true
      else do
        stop .daemon
        pure false

/-- Remembers the credential file as it is. -/
def noteNetworks : Init Unit := do
  let st ← askStat
  setUp fun up => { up with networks := st.getD .zero }

/-- The derivation that `egdod link` prints, as far as init reads it. -/
def derivation (text : Str) : Option (Str × Str) := do
  let _ ← field text "ssid" 64
  let _ ← field text "target" 32
  let controller ← field text "controller" 32
  let port ← field text "port" 8
  let _ ← field text "prefix" 4
  some (controller, port)

def hostapd (dial : Str) : Init Bool := do
  setUp fun up => { up with dial := dial }
  assignSpawn .daemon ["/bin/hostapd", "/hostapd.conf"]
  let raised ← waitCarrier 15
  if raised then do
    noteNetworks
    pure true
  else do
    stop .daemon
    pure false

section
variable (cmdline : Str)

def accessPoint : Init Bool := do
  let wireless ← Prog.read (·.wireless)
  match arg cmdline "egdod.controller" with
  | none => pure false
  | some id =>
    if wireless = [] then pure false
    else do
      setUp fun up => { up with dev := wireless }
      let id := String.ofList (dupWord id)
      let text ← capture ["/egdod", "link", id]
      match text with
      | none => pure false
      | some text => do
        let conf ← capture ["/egdod", "link", id, "--hostapd", .ofList wireless]
        match conf, derivation text with
        | some _, some (controller, port) => do
          let wrote ← askYes
          if wrote then hostapd (controller ++ [':'] ++ port) else pure false
        | _, _ => pure false

def bluetooth : Init Bool :=
  match arg cmdline "egdod.controller" with
  | none => pure false
  | some id => do
    -- an adapter, and both daemons in the image
    let present ← askYes
    if !present then pure false
    else do
      setUp fun up => { up with dev := [] }
      assignSpawn .dbus ["/bin/dbus-daemon", "--config-file=/etc/dbus-1/system.conf", "--nofork"]
      sleep
      assignSpawn .bluetoothd
        ["/bin/bluetoothd", "--nodetach", "--noplugin=*", "-f", "/etc/bluetooth/main.conf"]
      assignSpawn .daemon
        ["/egdod", "ble", "--controller", .ofList (dupWord id), "--key-file", "/agent.key",
          "--output", networksPath]
      noteNetworks
      pure true

def networksChangedFrom (before : Stamp) : Init Bool := do
  let st ← askStat
  match st with
  | none => pure false
  | some st => pure (decide (st ≠ before))

def networksChanged : Init Bool := do
  let before ← Prog.read (·.up.networks)
  networksChangedFrom before

def Link.down : Link := ⟨.none, [], [], -1, -1, -1, -1, .zero⟩

def bringDown : Init Unit := do
  stop .daemon
  stop .bluetoothd
  stop .dbus
  let p ← Prog.read (·.up.dhcp)
  if p ≤ 0 then setUp fun _ => .down
  else do
    -- the lease client is signalled, and left for the supervision loop to reap
    kill p
    setUp fun _ => .down

def wired : Init Unit := do
  setUp fun up => { up with kind := .wired }
  match arg cmdline "egdod.ip" with
  | none => dhcp
  | some _ => pure ()

def stopBluetooth : Init Unit := do
  stop .helper
  stop .bluetoothd
  stop .dbus

def ipLink : Init Bool := do
  let plugged ← waitWired
  if plugged then do
    wired cmdline
    pure true
  else do
    let joined ← station
    if joined then do
      setUp fun up => { up with kind := .station }
      dhcp
      pure true
    else do
      let raised ← accessPoint cmdline
      if raised then do
        setUp fun up => { up with kind := .ap }
        pure true
      else pure false

/-- How `promote_from_ble` ended: 0, 1 or 2 in the source. -/
inductive Promotion
  | failed
  | promoted
  | credentials
  deriving DecidableEq, Repr

def promoteFromBle : Init Promotion := do
  Prog.update fun s => (s.set .helper s.up.daemon).set .daemon (-1)
  let before ← Prog.read (·.up.networks)
  coldplug
  let linked ← ipLink cmdline
  if linked then do
    stopBluetooth
    let kind ← Prog.read (·.up.kind)
    if kind = .ap then do
      let changed ← networksChangedFrom before
      pure (if changed then .credentials else .promoted)
    else pure .promoted
  else do
    setUp fun up => { up with dev := [] }
    Prog.update fun s => (s.set .daemon s.helper).set .helper (-1)
    pure .failed

/-- `bring_up` after its `bring_down`. -/
def linkUp : Init Unit := do
  coldplug
  let linked ← ipLink cmdline
  if linked then pure ()
  else do
    let ble ← bluetooth cmdline
    if ble then setUp fun up => { up with kind := .ble } else pure ()

def bringUp : Init Unit := do
  bringDown
  linkUp cmdline

def agentArgv (up : Link) : List String :=
  let word := fun s : Str => String.ofList (dupWord s)
  let optional := fun (option key : String) =>
    match arg cmdline key with
    | some v => [option, word v]
    | none => []
  ["/egdod", "agent", "--controller", ((arg cmdline "egdod.controller").map word).getD "",
    "--key-file", "/agent.key"] ++
  if up.kind = .ap then ["--no-relay", "--direct", .ofList up.dial]
  else
    (if flag cmdline "egdod.norelay" then ["--no-relay"] else []) ++
      optional "--relay" "egdod.relay" ++ optional "--direct" "egdod.direct"

/-- Kills the agent, if there is one, and waits for its death. -/
def reapAgent : Init Unit := do
  let p ← Prog.read (·.agent)
  if p ≤ 0 then pure ()
  else do
    kill p
    Prog.update (·.use .wait p)
    let _ ← await p
    pure ()

/-- `if (*agent > 0) { kill; waitpid; *agent = -1; }`. -/
def dropAgent : Init Unit := do
  let p ← Prog.read (·.agent)
  reapAgent
  if 0 < p then Prog.update (·.set .agent (-1)) else pure ()

/-- Writes down that an agent was started by a failed `switch_root`. -/
def noteRelaunch : Init Unit := do
  let s ← Prog.read id
  if 0 < s.agent then log (.relaunched s.up.kind) else pure ()

/-- What `switch_root` does once its request is found executable. -/
def switchInto : Init Unit := do
  dropAgent
  -- `chdir`, the move of the mount and `chroot`
  let moved ← askYes
  if moved then do
    let executed ← askYes
    if executed then Prog.halt else Prog.hang
  else do
    let av ← Prog.read (·.av)
    assignSpawn .agent av
    noteRelaunch

/-- The path that `switch_root` probes for a request. -/
def probePath (req : Str) : Str :=
  let newroot := wordAt req 0
  let initpath := wordAt req 1
  (if newroot = [] then "/newroot".toList else newroot) ++
    (if initpath = [] then "/sbin/init".toList else initpath)

def switchRoot : Init Unit := do
  let req ← askText
  match req with
  | none => pure ()
  | some req => do
    let executable ← accessible (probePath req)
    if executable then switchInto else pure ()
where
  accessible (_path : Str) : Init Bool := askYes

/-- `av = agent_argv()`. -/
def setArgv : Init Unit := Prog.update fun s => { s with av := agentArgv cmdline s.up }

/-- `agent = up.kind == BLE ? -1 : spawn(av)`. -/
def launchAgent : Init Unit := do
  let s ← Prog.read id
  if s.up.kind = .ble then Prog.update (·.set .agent (-1)) else assignSpawn .agent s.av

def relink : Init Unit := do
  reapAgent
  bringUp cmdline
  setArgv cmdline
  launchAgent
  Prog.update fun s => { s with owed := false }

/-! ## The supervision loop -/

/-- The flags of one iteration. -/
structure Flags where
  lostLink : Bool
  provisioned : Bool
  deriving DecidableEq, Repr

/-- Whether the reaped child is a process of the link that is up. -/
def State.linkProcess (s : State) (w : Int) (g : Program) : Bool :=
  (w = s.up.daemon && (g = .wpaSupplicant || g = .hostapd || g = .ble)) ||
    (w = s.up.bluetoothd && g = .bluetoothd) || (w = s.up.dbus && g = .dbus)

/-- `waitpid(-1, &st, WNOHANG)`, with what the reaped child was. -/
def reapAny : Init (Option (Int × Nat)) := Prog.ask fun s a =>
  match a with
  | .child none => some (none, s)
  | .child (some (w, st)) =>
    match s.children.program w with
    | none => none
    | some g => some (some (w, st), { s.reap w with owed := s.owed || s.linkProcess w g })
  | _ => none

/-- What the loop does about one reaped child. A status of 0 is a clean exit with code 0. -/
def onReaped (flags : Flags) (w : Int) (st : Nat) : Init Flags := do
  let s ← Prog.read id
  if w = s.relayPid then do
    Prog.update (·.set .relay (-1))
    pure flags
  else if w = s.agent then do
    assignSpawn .agent s.av
    pure flags
  else if w = s.up.daemon then do
    Prog.update (·.set .daemon (-1))
    if s.up.kind = .ble then
      if st = 0 then pure { flags with provisioned := true }
      else do
        let changed ← networksChanged
        if changed then pure { flags with provisioned := true }
        else pure { flags with lostLink := true }
    else pure { flags with lostLink := true }
  else if w = s.up.dhcp then do
    Prog.update (·.set .dhcp (-1))
    pure flags
  else if w = s.up.bluetoothd ∨ w = s.up.dbus then do
    -- the source leaves both variables as they are
    log .bluetoothReaped
    pure { flags with lostLink := true }
  else pure flags

def reapRound (flags : Flags) : Init (Flags ⊕ Flags) := do
  let w ← reapAny
  match w with
  | none => pure (.inr flags)
  | some (w, st) => do
    let flags ← onReaped flags w st
    pure (.inl flags)

def reapLoop : Init Flags := Prog.loop reapRound ⟨false, false⟩

def startRelay : Init Unit := do
  let p ← forkAs .relay
  Prog.update (·.set .relay p)

/-- `time(NULL) >= retry_at`. -/
def retryDue : Init Bool := do
  let now ← askNow
  let retryAt ← Prog.read (·.retryAt)
  pure (decide (retryAt ≤ now))

def setRetry : Init Unit := do
  let now ← askNow
  Prog.update fun s => { s with retryAt := now + 30 }

/-- The arm that tries to leave Bluetooth. -/
def retryBle : Init Unit := do
  setRetry
  let outcome ← promoteFromBle cmdline
  match outcome with
  | .credentials => relink cmdline
  | .promoted => do
    setArgv cmdline
    let av ← Prog.read (·.av)
    assignSpawn .agent av
  | .failed => pure ()

/-- `up.kind == NONE || (up.dev[0] && !carrier(up.dev))`. -/
def linkLost : Init Bool := do
  let up ← Prog.read (·.up)
  if up.kind = .none then pure true
  else if up.dev = [] then pure false
  else do
    let carrier ← askYes
    pure (!carrier)

/-- The arm that tries a dead link again. -/
def retryLink : Init Unit := do
  let lost ← linkLost
  if lost then do
    relink cmdline
    setRetry
  else pure ()

/-- `up.kind == BLE && time(NULL) >= retry_at`. -/
def bleDue : Init Bool := do
  let kind ← Prog.read (·.up.kind)
  if kind = .ble then retryDue else pure false

/-- The last two arms of the chain. -/
def retry : Init Unit := do
  let ble ← bleDue
  if ble then retryBle cmdline
  else do
    let due ← retryDue
    if due then retryLink cmdline else pure ()

/-- `up.kind == AP && networks_changed()`. -/
def newCredentials : Init Bool := do
  let kind ← Prog.read (·.up.kind)
  if kind = .ap then networksChanged else pure false

/-- The `else if` chain of one iteration. -/
def handle (flags : Flags) : Init Unit := do
  let request ← askYes
  if request then do
    switchRoot
    let owed ← Prog.read (·.owed)
    log (.switchReturned owed)
  else do
    let credentials ← newCredentials
    if credentials then relink cmdline
    else if flags.provisioned then relink cmdline
    else if flags.lostLink then relink cmdline
    else retry cmdline

def keepRelay : Init Unit := do
  let s ← Prog.read id
  if s.relayIn ∧ s.relayPid < 0 then startRelay else pure ()

def keepAgent : Init Unit := do
  let s ← Prog.read id
  if s.agent ≤ 0 ∧ s.up.kind ≠ .ble then assignSpawn .agent s.av else pure ()

def iteration : Init Unit := do
  Prog.update fun s => { s with owed := false }
  keepRelay
  keepAgent
  let flags ← reapLoop
  handle cmdline flags
  let owed ← Prog.read (·.owed)
  log (.ended owed)
  sleep

/-- `main` from the first `bring_up` on. -/
def main : Init Empty := do
  bringUp cmdline
  setArgv cmdline
  launchAgent
  setRetry
  Prog.loop (fun _ : Unit => do
    iteration cmdline
    pure (.inl ())) ()

end

/-- As `main` stands before its first `bring_up`: no link, no agent, and a relay or none. -/
structure Booted (s : State) : Prop where
  up : s.up = Link.down
  agent : s.agent = -1
  helper : s.helper = -1
  relay : s.relayPid = -1 ∨ s.children.program s.relayPid = some .relay
  others : ∀ p g, s.children.program p = some g → g = .relay ∧ p = s.relayPid ∨ g = .other
  trace : s.trace = []

/-- A boot without a serial relay. -/
def State.fresh : State where
  children := ⟨fun _ => none, fun _ h => absurd rfl h⟩
  relayIn := false
  relayPid := -1
  agent := -1
  up := .down
  helper := -1
  wireless := []
  av := []
  retryAt := 0
  owed := false
  trace := []

theorem booted_fresh : Booted .fresh := by
  refine ⟨rfl, rfl, rfl, .inl rfl, ?_, rfl⟩
  intro p g h
  cases h

def bleCmdline : Str := "egdod.controller=k".toList

/-- A boot that comes up over Bluetooth, on a machine without a network: `dbus-daemon` has pid 2,
`bluetoothd` 3 and the provisioning helper 4. -/
def bleBoot : List Answer :=
  [.aliases [], .interfaces none, .yes true, .forked (some 2), .slept, .forked (some 3),
    .forked (some 4), .stat none, .now 0]

/-- The helper succeeds, and the machine joins a wired network. -/
def provisioning : List Answer :=
  bleBoot ++ [.child (some (4, 0)), .child none, .yes false, .waited true, .waited true,
    .aliases [], .interfaces (some [⟨"eth0".toList, false, true⟩]), .forked (some 6), .yes true,
    .forked (some 7)]

/-- A state in which init may be found, having begun in `s₀`: it waits for an answer there, or
has handed over to another init. -/
def Reached (cmdline : Str) (s₀ s : State) : Prop :=
  ∃ as, main cmdline s₀ as = .waiting s ∨ main cmdline s₀ as = .halted s

theorem Reached.of_spec {cmdline : Str} {s₀ s : State} {P I : State → Prop}
    {Q : Empty → State → Prop} (h : Spec P (main cmdline) I Q) (hr : Reached cmdline s₀ s)
    (hs : P s₀) : I s := by
  obtain ⟨as, hr⟩ := hr
  have hmeets := h s₀ as hs
  rcases hr with hr | hr
  · rw [hr] at hmeets
    exact hmeets
  · rw [hr] at hmeets
    exact hmeets

theorem Reached.of_waitsIn {cmdline : Str} {s₀ : State} {as : List Answer} {test : State → Bool}
    (h : (main cmdline s₀ as).waitsIn test = true) :
    ∃ s, Reached cmdline s₀ s ∧ test s = true := by
  obtain ⟨s, hs, ht⟩ := Result.of_waitsIn h
  exact ⟨s, ⟨as, .inl hs⟩, ht⟩

end Egdod.Boot
