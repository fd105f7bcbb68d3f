import Egdod.Boot.Init
import Egdod.DerivedLink
import Egdod.Lib.CString
import Egdod.Lib.Lines

/-! `access_point` of `boot/init.c` in its buffers: the text that `egdod link`
prints is captured, searched line by line and made into an address, a netmask
and the place to dial. -/
namespace Egdod.Boot.AccessPoint

open Posix Text Memory CString DerivedLink

/-! ## `capture` and `field` -/

/-- What is read goes behind what was read, up to the last byte but one; then comes a NUL. -/
def capture {cap : Nat} (buf : Block UInt8 cap) (n : Nat) :
    List Bytes → Option (Block UInt8 cap × Nat)
  | [] => (buf.store n [0]).map (·, n)
  | bs :: reads =>
    if n < cap - 1 ∧ bs ≠ [] then
      (buf.store n bs).bind fun buf => capture buf (n + bs.length) reads
    else (buf.store n [0]).map (·, n)

/-- Whether the line at `p` starts with `key=`. -/
def hits (key p : Bytes) : Option Bool :=
  (strncmp key p).bind fun same =>
    if same then (p[key.length]?).map (· = '='.toUInt8) else some false

def fieldLoop {cap : Nat} (key : Bytes) (out : Block UInt8 cap) :
    Nat → Bytes → Option (Bool × Block UInt8 cap)
  | 0, _ | _ + 1, [] => none
  | fuel + 1, b :: tail =>
    if b = 0 then some (false, out)
    else do
      let p := b :: tail
      if ← hits key p then
        let value ← strcspn ['\n'.toUInt8] (p.drop (key.length + 1))
        if cap ≤ value.length then some (false, out)
        else
          let out ← out.store 0 value
          let out ← out.store value.length [0]
          some (true, out)
      else
        match ← strchr '\n'.toUInt8 p with
        | none => some (false, out)
        | some q => fieldLoop key out fuel (q.drop 1)

/-- `field`, with the result it returns and the buffer it leaves. -/
def field {size cap : Nat} (text : Block UInt8 size) (key : String) (out : Block UInt8 cap) :
    Option (Bool × Block UInt8 cap) := fieldLoop (encode key.toList) out size text.cells

/-! ## Numbers and addresses -/

def isDigit (b : UInt8) : Bool := 48 ≤ b ∧ b ≤ 57

def digitsValue (ds : Bytes) : Nat := ds.foldl (fun n b => 10 * n + (b.toNat - 48)) 0

def isSpace (b : UInt8) : Bool := b = 32 ∨ (9 ≤ b ∧ b ≤ 13)

def atoi (s : Bytes) : Int :=
  let magnitude := fun s : Bytes => (digitsValue (s.takeWhile isDigit) : Int)
  match s.dropWhile isSpace with
  | [] => 0
  | c :: s => if c = 45 then -magnitude s else if c = 43 then magnitude s else magnitude (c :: s)

/-- `~0u << (32 - len)`, where C gives it a meaning. -/
def netmask (len : Int) : Option UInt32 :=
  if 0 < len ∧ len ≤ 32 then some ((~~~0) <<< UInt32.ofNat (32 - len).toNat) else none

/-- Up to three digits, no zero in front, and at most 255. -/
def octet (s : Bytes) : Option (UInt8 × Bytes) :=
  let ds := (s.take 3).takeWhile isDigit
  if ds = [] ∨ (1 < ds.length ∧ ds.head? = some 48) ∨ 255 < digitsValue ds then none
  else some (.ofNat (digitsValue ds), s.drop ds.length)

def dot : Bytes → Option Bytes
  | [] => none
  | b :: s => if b = '.'.toUInt8 then some s else none

/-- `inet_pton` for an IPv4 address. -/
def inetPton (s : Bytes) : Option Ipv4Addr := do
  let (a, s) ← octet s
  let (b, s) ← octet (← dot s)
  let (c, s) ← octet (← dot s)
  let (d, s) ← octet (← dot s)
  if s = [] then some ⟨a, b, c, d⟩ else none

/-- The address and the netmask that `set_addr` sets; one it cannot read is left zero. -/
def setAddr (ip mask : Bytes) : Ipv4Addr × Ipv4Addr :=
  ((inetPton ip).getD (.ofNat 0), (inetPton mask).getD (.ofNat 0))

/-- An address with the length of its subnet, as `ip addr` takes it. -/
def readCidr (s : Bytes) : Option (Ipv4Addr × Nat) :=
  match s.dropWhile (· ≠ '/'.toUInt8) with
  | [] => none
  | _ :: len => (inetPton (s.takeWhile (· ≠ '/'.toUInt8))).map (·, digitsValue len)

/-! ## `access_point` -/

/-- Its buffers, and `dial` of the link. -/
structure Buffers where
  text : Block UInt8 1024
  ssid : Block UInt8 64
  target : Block UInt8 32
  controller : Block UInt8 32
  port : Block UInt8 8
  prefixLen : Block UInt8 4
  dial : Block UInt8 64

/-- What the access point is given. -/
structure Raised where
  ssid : Bytes
  target : Bytes
  controller : Bytes
  port : Bytes
  prefixLen : Bytes
  dial : Bytes
  address : Ipv4Addr
  netmask : Ipv4Addr
  deriving DecidableEq

/-- The five lookups; there is no result after the first one that fails. -/
def lookups (b : Buffers) : Option (Option Buffers) := do
  let (found, ssid) ← field b.text "ssid" b.ssid
  if !found then return none
  let (found, target) ← field b.text "target" b.target
  if !found then return none
  let (found, controller) ← field b.text "controller" b.controller
  if !found then return none
  let (found, port) ← field b.text "port" b.port
  if !found then return none
  let (found, prefixLen) ← field b.text "prefix" b.prefixLen
  if !found then return none
  return some { b with ssid, target, controller, port, prefixLen }

def snprintf {cap : Nat} (out : Block UInt8 cap) (s : Bytes) : Option (Block UInt8 cap) :=
  out.store 0 (s.take (cap - 1) ++ [0])

/-- What follows the lookups, as far as addresses go. -/
def address (b : Buffers) : Option Raised := do
  let ssid ← string b.ssid.cells
  let target ← string b.target.cells
  let controller ← string b.controller.cells
  let port ← string b.port.cells
  let prefixLen ← string b.prefixLen.cells
  let dial ← snprintf b.dial (controller ++ ':'.toUInt8 :: port)
  let m ← netmask (atoi prefixLen)
  let (address, netmask) := setAddr target (encode (Ipv4Addr.ofNat m.toNat).display)
  let dial ← string dial.cells
  return { ssid, target, controller, port, prefixLen, dial, address, netmask }

/-- `access_point` with the reads that bring it the output of `egdod link`. -/
def accessPoint (b : Buffers) (reads : List Bytes) : Option (Option Raised) := do
  let (text, _) ← capture b.text 0 reads
  match ← lookups { b with text } with
  | none => return none
  | some b => return some (← address b)

/-! ## Capturing -/

theorem capture_holds {cap : Nat} {buf : Block UInt8 cap} {before : Bytes}
    (hholds : buf.Holds before) {reads : List Bytes} (hne : ∀ bs ∈ reads, bs ≠ [])
    (hfit : before.length + reads.flatten.length < cap) :
    ∃ buf', capture buf before.length reads =
        some (buf', before.length + reads.flatten.length) ∧
      buf'.Holds (before ++ reads.flatten ++ [0]) := by
  induction reads generalizing buf before with
  | nil =>
    obtain ⟨buf', hstore, hholds'⟩ := hholds.store [0] hfit
    exact ⟨buf', by simp [capture, hstore], by simpa using hholds'⟩
  | cons bs reads ih =>
    obtain ⟨hbs, hreads⟩ := List.forall_mem_cons.mp hne
    have hpos := List.length_pos_iff.mpr hbs
    rw [List.flatten_cons, List.length_append] at hfit
    obtain ⟨buf₁, hstore, hholds₁⟩ := hholds.store bs (by omega)
    obtain ⟨buf', hcapture, hholds'⟩ := ih hholds₁ hreads (by rw [List.length_append]; omega)
    have hroom : before.length < cap - 1 ∧ bs ≠ [] := ⟨by omega, hbs⟩
    rw [List.length_append] at hcapture
    refine ⟨buf', ?_, by simpa using hholds'⟩
    rw [capture, if_pos hroom, hstore, Option.bind_some, hcapture, List.flatten_cons,
      List.length_append, Nat.add_assoc]

/-- An output that fits is captured whole. -/
theorem capture_whole {cap : Nat} (buf : Block UInt8 cap) {reads : List Bytes} {bs : Bytes}
    (hne : ∀ r ∈ reads, r ≠ []) (hreads : reads.flatten = bs) (hfit : bs.length < cap) :
    ∃ buf', capture buf 0 reads = some (buf', bs.length) ∧ buf'.Holds (bs ++ [0]) := by
  subst hreads
  obtain ⟨buf', hcapture, hholds⟩ := capture_holds buf.holds_nil hne (by simpa using hfit)
  exact ⟨buf', by simpa using hcapture, by simpa using hholds⟩

/-! ## Looking up -/

/-- A lookup in the buffers ends as one in the text does: it fails and leaves
its buffer, or puts the value there with its NUL. -/
def Finds {cap : Nat} (out : Block UInt8 cap) (found : Option Str)
    (result : Option (Bool × Block UInt8 cap)) : Prop :=
  match found with
  | none => result = some (false, out)
  | some v => ∃ out', result = some (true, out') ∧ out'.Holds (encode v ++ [0])

/-- A value that fits is copied and ended. -/
theorem exists_terminated {cap : Nat} (out : Block UInt8 cap) {v : Bytes} (h : v.length < cap) :
    ∃ out₁ out₂, out.store 0 v = some out₁ ∧ out₁.store v.length [0] = some out₂ ∧
      out₂.Holds (v ++ [0]) := by
  obtain ⟨out₁, hstore, hholds⟩ := out.holds_nil.store v (by simpa using h.le)
  obtain ⟨out₂, hend, hholds⟩ := hholds.store [0] h
  exact ⟨out₁, out₂, hstore, hend, hholds⟩

section
variable {key text : Str} (hkey : ∀ k ∈ key, k.toNat < 128 ∧ k ≠ '\x00') (htext : '\x00' ∉ text)
  (junk : Bytes)
include hkey htext

/-- The line at the pointer is compared as text is. -/
theorem hits_encode :
    hits (encode key) (encode text ++ 0 :: junk) =
      some (decide (text.take key.length = key ∧ (text.drop key.length).head? = some '=')) := by
  rw [hits, strncmp_encode htext junk hkey, Option.bind_some]
  by_cases hsame : text.take key.length = key
  · have hlength : (encode key).length = key.length := length_encode_ascii fun k hk => (hkey k hk).1
    obtain ⟨b, p, hp, hb⟩ := head_encode (c := '=') (by decide) (by decide)
      (text.drop key.length) junk
    have hat : (encode text ++ 0 :: junk)[(encode key).length]? = some b := by
      rw [← List.take_append_drop key.length text, hsame, encode_append, List.append_assoc, hp]
      simp
    simp [hsame, hat, hb]
  · simp [hsame]

/-- `field` finds in the buffers what it finds in the text. -/
theorem fieldLoop_finds (hnonempty : key ≠ []) {cap fuel : Nat} (hfuel : text.length < fuel)
    (out : Block UInt8 cap) :
    Finds out (fieldFrom key cap fuel text)
      (fieldLoop (encode key) out fuel (encode text ++ 0 :: junk)) := by
  induction fuel generalizing text with
  | zero => omega
  | succ fuel ih =>
    by_cases hnil : text = []
    · subst hnil
      simp [fieldFrom, fieldLoop, encode, hnonempty.symm, Finds]
    · obtain ⟨b, tail, hp⟩ := List.exists_cons_of_ne_nil (encode_ne_nil hnil)
      have hb : b ≠ 0 := by
        rintro rfl
        exact zero_not_mem_encode htext (hp ▸ List.mem_cons_self)
      have hhits := hits_encode hkey htext junk
      have hchr := strchr_encode htext junk (c := '\n') (by decide) (by decide)
      simp only [hp, List.cons_append] at hhits hchr ⊢
      simp only [fieldLoop, hb, if_false, hhits, Option.bind_eq_bind, Option.bind_some, fieldFrom]
      by_cases hhit : text.take key.length = key ∧ (text.drop key.length).head? = some '='
      · have hv : '\x00' ∉ text.drop (key.length + 1) :=
          fun hmem => htext (List.mem_of_mem_drop hmem)
        have hvalue := strcspn_encode hv junk (c := '\n') (by decide)
        have hdrop : (b :: (tail ++ 0 :: junk)).drop ((encode key).length + 1) =
            encode (text.drop (key.length + 1)) ++ 0 :: junk := by
          rw [← List.cons_append, ← hp, ← List.drop_drop, ← List.drop_drop]
          conv_lhs => rw [← List.take_append_drop key.length text, hhit.1, encode_append,
            List.append_assoc, List.drop_left]
          obtain ⟨rest, hrest⟩ := List.head?_eq_some_iff.mp hhit.2
          rw [hrest, encode_cons_ascii (by decide)]
          rfl
        simp only [hhit, and_self, if_true, decide_true, hdrop, hvalue, Option.bind_some]
        split_ifs with hcap
        · rfl
        · obtain ⟨out₁, out₂, hstore, hend, hholds⟩ := exists_terminated out (Nat.lt_of_not_le hcap)
          exact ⟨out₂, by simp only [hstore, hend, Option.bind_some], hholds⟩
      · simp only [hhit, if_false, decide_false, Bool.false_eq_true, hchr, Option.bind_some]
        cases hrest : text.dropWhile (· ≠ '\n') with
        | nil => rfl
        | cons c rest =>
          have hsuffix := List.dropWhile_suffix (l := text) (fun c => decide (c ≠ '\n'))
          rw [hrest] at hsuffix
          have hc : c = '\n' := by
            have hhead := List.head?_dropWhile_not (fun c => decide (c ≠ '\n')) text
            rw [hrest] at hhead
            simpa using hhead
          have hrest' : '\x00' ∉ rest := fun hmem =>
            htext (hsuffix.mem (List.mem_cons_of_mem _ hmem))
          have hlength := hsuffix.length_le
          rw [List.length_cons] at hlength
          subst hc
          have hnext : (encode ('\n' :: rest) ++ 0 :: junk).drop 1 = encode rest ++ 0 :: junk := by
            rw [encode_cons_ascii (by decide)]
            rfl
          show Finds out (fieldFrom key cap fuel rest) (fieldLoop (encode key) out fuel
            ((encode ('\n' :: rest) ++ 0 :: junk).drop 1))
          rw [hnext]
          exact ih hrest' (by omega)

end

/-- More turns than characters change nothing. -/
theorem fieldFrom_fuel {key text : Str} {cap fuel fuel' : Nat} (h : text.length < fuel)
    (h' : text.length < fuel') : fieldFrom key cap fuel text = fieldFrom key cap fuel' text := by
  induction fuel generalizing text fuel' with
  | zero => omega
  | succ fuel ih =>
    obtain ⟨k, rfl⟩ := Nat.exists_eq_add_one_of_ne_zero (Nat.ne_zero_of_lt h')
    simp only [fieldFrom]
    split
    · rfl
    · split
      · rfl
      · rename_i c rest hrest
        have hlength := (List.dropWhile_suffix (l := text) (fun c => decide (c ≠ '\n'))).length_le
        rw [hrest, List.length_cons] at hlength
        exact ih (by omega) (by omega)

/-- `field` on a captured text is `field` on the text. -/
theorem field_finds {size cap : Nat} {text : Str} (htext : '\x00' ∉ text) {buf : Block UInt8 size}
    (hholds : buf.Holds (encode text ++ [0])) {key : String}
    (hkey : ∀ k ∈ key.toList, k.toNat < 128 ∧ k ≠ '\x00') (hnonempty : key.toList ≠ [])
    (out : Block UInt8 cap) : Finds out (Boot.field text key cap) (field buf key out) := by
  obtain ⟨junk, hjunk⟩ := hholds
  have hcells : buf.cells = encode text ++ 0 :: junk := by simp [← hjunk]
  have hfuel : text.length < size := by
    have hsize := buf.length_cells
    have hbytes := length_le_length_encode text
    simp only [hcells, List.length_append, List.length_cons] at hsize
    omega
  rw [Boot.field, fieldFrom_fuel (Nat.lt_succ_self _) hfuel, field, hcells]
  exact fieldLoop_finds hkey htext junk hnonempty hfuel out

/-! ## The lines of a derivation -/

/-- A line `key=v` in front of others. -/
def line (key : String) (v rest : Str) : Str := key.toList ++ '=' :: (v ++ '\n' :: rest)

/-- A text of such lines. -/
def printed (table : List (String × Str)) : Str := table.foldr (fun e => line e.1 e.2) []

section
variable {key : String} {v : Str} {cap fuel : Nat} (rest : Str)

theorem fieldFrom_line (hv : '\n' ∉ v) (hcap : (encode v).length < cap) :
    fieldFrom key.toList cap (fuel + 1) (line key v rest) = some v := by
  have htake : (line key v rest).take key.toList.length = key.toList := List.take_left
  have hdrop : (line key v rest).drop key.toList.length = '=' :: (v ++ '\n' :: rest) :=
    List.drop_left
  have hvalue : (line key v rest).drop (key.toList.length + 1) = v ++ '\n' :: rest := by
    rw [← List.drop_drop, hdrop]
    rfl
  rw [fieldFrom, htake, hdrop, hvalue]
  simp only [List.head?_cons, and_self, if_true, takeWhile_ne_append hv, Nat.not_le.mpr hcap,
    if_false]

/-- A line for another key is passed over, also if one key starts with the other. -/
theorem fieldFrom_line_ne {other : String} (hne : key ≠ other) (hkey : '=' ∉ key.toList)
    (hother : '=' ∉ other.toList ∧ '\n' ∉ other.toList) (hv : '\n' ∉ v) :
    fieldFrom key.toList cap (fuel + 1) (line other v rest) =
      fieldFrom key.toList cap fuel rest := by
  have hmiss : ¬ ((line other v rest).take key.toList.length = key.toList ∧
      ((line other v rest).drop key.toList.length).head? = some '=') := by
    rintro ⟨htake, hhead⟩
    obtain ⟨tail, htail⟩ := List.head?_eq_some_iff.mp hhead
    have hsplit := List.take_append_drop key.toList.length (line other v rest)
    rw [htake, htail, line] at hsplit
    have hfirst := Lines.first_eq (p := fun c => c == '=')
      (fun c hc => beq_false_of_ne fun heq => hkey (heq ▸ hc))
      (fun c hc => beq_false_of_ne fun heq => hother.1 (heq ▸ hc))
      (.inr ⟨'=', tail, rfl, rfl⟩) (.inr ⟨'=', _, rfl, rfl⟩) hsplit
    exact hne (String.toList_injective hfirst.1)
  have hnewline : '\n' ∉ other.toList ++ '=' :: v := by simp [hother.2, hv]
  have hrest : (line other v rest).dropWhile (fun c => decide (c ≠ '\n')) = '\n' :: rest := by
    have hline : line other v rest = (other.toList ++ '=' :: v) ++ '\n' :: rest := by simp [line]
    rw [hline, dropWhile_ne_append hnewline]
  rw [fieldFrom, if_neg hmiss, hrest]

end

/-- `field` looks a key up in the lines that were printed. -/
theorem fieldFrom_printed {key : String} {v : Str} {cap fuel : Nat} {table : List (String × Str)}
    (htable : ∀ e ∈ table, '=' ∉ e.1.toList ∧ '\n' ∉ e.1.toList ∧ '\n' ∉ e.2)
    (hlookup : table.lookup key = some v) (hcap : (encode v).length < cap)
    (hfuel : table.length ≤ fuel) : fieldFrom key.toList cap fuel (printed table) = some v := by
  obtain ⟨before, after, rfl, hbefore⟩ := List.lookup_eq_some_iff.mp hlookup
  clear hlookup
  have hkey := htable (key, v) (by simp)
  induction before generalizing fuel with
  | nil =>
    obtain ⟨k, rfl⟩ : ∃ k, fuel = k + 1 := ⟨fuel - 1, by simp at hfuel; omega⟩
    exact fieldFrom_line _ hkey.2.2 hcap
  | cons e before ih =>
    obtain ⟨k, rfl⟩ : ∃ k, fuel = k + 1 := ⟨fuel - 1, by simp at hfuel; omega⟩
    rw [List.cons_append, List.forall_mem_cons] at htable
    rw [List.forall_mem_cons] at hbefore
    have hne : key ≠ e.1 := by simpa using hbefore.1
    rw [← ih hbefore.2 htable.2 (by simpa using hfuel)]
    exact fieldFrom_line_ne _ hne hkey.1 ⟨htable.1.1, htable.1.2.1⟩ htable.1.2.2

theorem ascii_printed {table : List (String × Str)}
    (h : ∀ e ∈ table, Visible e.1.toList ∧ Visible e.2) :
    ∀ c ∈ printed table, c.toNat < 128 ∧ c ≠ '\x00' := by
  induction table with
  | nil => simp [printed]
  | cons e table ih =>
    obtain ⟨he, htable⟩ := List.forall_mem_cons.mp h
    have hcons : printed (e :: table) = line e.1 e.2 (printed table) := rfl
    simp only [hcons, line, List.forall_mem_append, List.forall_mem_cons]
    exact ⟨he.1.ascii, by decide, he.2.ascii, by decide, ih htable⟩

/-- The lines of a derivation by their keys. -/
def entries (l : DerivedLink.Link) : List (String × Str) :=
  [("ssid", l.ssid), ("psk", l.psk), ("target", l.target.display),
    ("controller", l.controller.display), ("prefix", decimal DerivedLink.prefixLen),
    ("port", decimal l.port.toNat)]

theorem lines_eq (l : DerivedLink.Link) : l.lines = printed (entries l) := by
  have hssid : "ssid=".toList = "ssid".toList ++ ['='] := by decide
  have hpsk : "\npsk=".toList = '\n' :: ("psk".toList ++ ['=']) := by decide
  have htarget : "\ntarget=".toList = '\n' :: ("target".toList ++ ['=']) := by decide
  have hcontroller : "\ncontroller=".toList = '\n' :: ("controller".toList ++ ['=']) := by decide
  have hbits : "\nprefix=".toList = '\n' :: ("prefix".toList ++ ['=']) := by decide
  have hport : "\nport=".toList = '\n' :: ("port".toList ++ ['=']) := by decide
  unfold DerivedLink.Link.lines printed entries
  rw [hssid, hpsk, htarget, hcontroller, hbits, hport]
  simp only [List.foldr_cons, List.foldr_nil, line, List.append_assoc, List.cons_append,
    List.nil_append]

section
variable {l : DerivedLink.Link} (hl : l.Plain)
include hl

theorem plain_entries : ∀ e ∈ entries l,
    (e.1.toList ≠ [] ∧ '=' ∉ e.1.toList ∧ Visible e.1.toList) ∧ Visible e.2 := by
  simp only [entries, List.forall_mem_cons]
  exact ⟨⟨by decide +kernel, hl.visible_ssid⟩, ⟨by decide +kernel, hl.visible_psk⟩,
    ⟨by decide +kernel, l.target.visible_display⟩,
    ⟨by decide +kernel, l.controller.visible_display⟩, ⟨by decide +kernel, visible_toDigits _⟩,
    ⟨by decide +kernel, visible_toDigits _⟩, by simp⟩

/-- Every lookup in the printed text finds its value. -/
theorem field_lines {key : String} {v : Str} {cap : Nat}
    (hlookup : (entries l).lookup key = some v) (hcap : v.length < cap) :
    Boot.field l.lines key cap = some v := by
  have hplain := plain_entries hl
  have hv : Visible v := by
    obtain ⟨before, after, htable, -⟩ := List.lookup_eq_some_iff.mp hlookup
    exact (hplain (key, v) (by simp [htable])).2
  have hfuel : (entries l).length ≤ l.lines.length + 6 := Nat.le_add_left 6 _
  rw [Boot.field, fieldFrom_fuel (Nat.lt_succ_self _) (Nat.lt_add_of_pos_right (by decide : 0 < 6))]
  have hfound := fieldFrom_printed (fun e he => ⟨(hplain e he).1.2.1,
    (hplain e he).1.2.2.not_mem (by decide), (hplain e he).2.not_mem (by decide)⟩) hlookup
    (by rwa [hv.length_encode]) hfuel
  rwa [← lines_eq] at hfound

theorem ascii_lines : ∀ c ∈ l.lines, c.toNat < 128 ∧ c ≠ '\x00' := by
  rw [lines_eq]
  exact ascii_printed fun e he => ⟨(plain_entries hl e he).1.2.2, (plain_entries hl e he).2⟩

theorem length_lines_lt : (encode l.lines).length < 1024 := by
  have htarget := l.target.length_display_le
  have hcontroller := l.controller.length_display_le
  have hport := length_decimal_port l
  have hbits : (decimal DerivedLink.prefixLen).length = 2 := by decide
  rw [length_encode_ascii fun c hc => (ascii_lines hl c hc).1, lines_eq]
  simp [printed, entries, line, hl.length_ssid, hl.length_psk, hbits]
  omega

end

/-! ## Addresses -/

/-- The digits of an octet. -/
theorem octet_digits : ∀ n < 256, (encode (decimal n)).all isDigit = true ∧
    (encode (decimal n)).length ≤ 3 ∧ encode (decimal n) ≠ [] ∧
    digitsValue (encode (decimal n)) = n ∧
    ¬ (1 < (encode (decimal n)).length ∧ (encode (decimal n)).head? = some 48) := by
  decide +kernel

theorem octet_decimal (b : UInt8) {rest : Bytes} (hrest : ∀ c ∈ rest.head?, isDigit c = false) :
    octet (encode (decimal b.toNat) ++ rest) = some (b, rest) := by
  obtain ⟨hall, hlength, hne, hvalue, hzero⟩ := octet_digits b.toNat b.toNat_lt
  have hbyte := b.toNat_lt
  have hds : ((encode (decimal b.toNat) ++ rest).take 3).takeWhile isDigit =
      encode (decimal b.toNat) := by
    rw [List.take_append, List.take_of_length_le hlength,
      List.takeWhile_append_of_pos (List.all_eq_true.mp hall)]
    have hstop : (rest.take (3 - (encode (decimal b.toNat)).length)).takeWhile isDigit = [] := by
      cases rest with
      | nil => simp
      | cons c rest =>
        have hc : isDigit c = false := hrest c rfl
        cases 3 - (encode (decimal b.toNat)).length <;> simp [hc]
    rw [hstop, List.append_nil]
  simp only [octet, hds, hne, hzero, hvalue, List.drop_left, false_or]
  rw [if_neg (by omega), UInt8.ofNat_toNat]

theorem inetPton_display (ip : Ipv4Addr) : inetPton (encode ip.display) = some ip := by
  have hdot : ∀ s : Str, encode ('.' :: s) = '.'.toUInt8 :: encode s :=
    encode_cons_ascii (by decide)
  have hoctet : ∀ (b : UInt8) (s : Bytes), octet (encode (decimal b.toNat) ++ '.'.toUInt8 :: s) =
      some (b, '.'.toUInt8 :: s) := fun b s => octet_decimal b (by simp; decide)
  have hlast : octet (encode (decimal ip.d.toNat) ++ []) = some (ip.d, []) :=
    octet_decimal ip.d (by simp)
  rw [List.append_nil] at hlast
  simp only [inetPton, Ipv4Addr.display, encode_append, hdot, hoctet, dot, if_true, hlast,
    Option.bind_eq_bind, Option.bind_some]

/-- The address that `join` sets is in the subnet of that length. -/
theorem readCidr_cidr (l : DerivedLink.Link) :
    readCidr (encode l.cidr) = some (l.controller, DerivedLink.prefixLen) := by
  have hslash : '/' ∉ l.controller.display := l.controller.not_mem_display (by decide) (by decide)
  have hplain : '/'.toUInt8 ∉ encode l.controller.display :=
    fun hmem => hslash ((mem_encode_ascii (by decide)).mp hmem)
  have hbytes : encode l.cidr = encode l.controller.display ++
      '/'.toUInt8 :: encode (decimal DerivedLink.prefixLen) := by
    rw [Link.cidr, encode_append, encode_cons_ascii (by decide)]
  have hlen : digitsValue (encode (decimal DerivedLink.prefixLen)) = DerivedLink.prefixLen := by
    decide +kernel
  rw [readCidr, hbytes, dropWhile_ne_append hplain, takeWhile_ne_append hplain]
  simp [inetPton_display, hlen]

/-! ## Agreement -/

/-- What the controller that joins the link expects of the target. -/
def expected (l : DerivedLink.Link) : Raised where
  ssid := encode l.ssid
  target := encode l.target.display
  controller := encode l.controller.display
  port := encode (decimal l.port.toNat)
  prefixLen := encode (decimal DerivedLink.prefixLen)
  dial := encode l.dialled
  address := l.target
  netmask := .mask DerivedLink.prefixLen

theorem string_of_holds {cap : Nat} {buf : Block UInt8 cap} {s : Bytes} (hs : 0 ∉ s)
    (h : buf.Holds (s ++ [0])) : string buf.cells = some s := by
  obtain ⟨junk, hjunk⟩ := h
  rw [← hjunk, List.append_assoc]
  exact string_terminated hs junk

section
variable {l : DerivedLink.Link} (hl : l.Plain)
include hl

theorem field_captured {text : Block UInt8 1024} (htext : text.Holds (encode l.lines ++ [0]))
    (key : String) {v : Str} {cap : Nat} (hlookup : (entries l).lookup key = some v)
    (hcap : v.length < cap) (out : Block UInt8 cap) :
    ∃ out', field text key out = some (true, out') ∧ string out'.cells = some (encode v) := by
  obtain ⟨before, after, htable, -⟩ := List.lookup_eq_some_iff.mp hlookup
  obtain ⟨⟨hnonempty, -, hkey⟩, hv⟩ := plain_entries hl (key, v) (by simp [htable])
  have hzero : '\x00' ∉ l.lines := fun hmem => (ascii_lines hl _ hmem).2 rfl
  have hfinds : Finds out (Boot.field l.lines key cap) (field text key out) :=
    field_finds hzero htext hkey.ascii hnonempty out
  rw [field_lines hl hlookup hcap] at hfinds
  obtain ⟨out', hfield, hholds⟩ := hfinds
  exact ⟨out', hfield, string_of_holds (zero_not_mem_encode (hv.not_mem (by decide))) hholds⟩

/-- The values fit in the buffers they go to. -/
theorem fits : l.ssid.length < 64 ∧ l.target.display.length < 32 ∧
    l.controller.display.length < 32 ∧ (decimal l.port.toNat).length < 8 ∧
    (decimal DerivedLink.prefixLen).length < 4 := by
  have hssid := hl.length_ssid
  have htarget := l.target.length_display_le
  have hcontroller := l.controller.length_display_le
  have hport := length_decimal_port l
  exact ⟨by omega, by omega, by omega, by omega, by decide⟩

/-- What init reads of the derivation. -/
theorem derivation_lines :
    derivation l.lines = some (l.controller.display, decimal l.port.toNat) := by
  obtain ⟨hssid, htarget, hcontroller, hport, hbits⟩ := fits hl
  have hssid' : Boot.field l.lines "ssid" 64 = some l.ssid := field_lines hl rfl hssid
  have htarget' : Boot.field l.lines "target" 32 = some _ := field_lines hl rfl htarget
  have hcontroller' : Boot.field l.lines "controller" 32 = some _ := field_lines hl rfl hcontroller
  have hport' : Boot.field l.lines "port" 8 = some _ := field_lines hl rfl hport
  have hbits' : Boot.field l.lines "prefix" 4 = some _ := field_lines hl rfl hbits
  simp only [derivation, hssid', htarget', hcontroller', hport', hbits', Option.bind_eq_bind,
    Option.bind_some]

theorem lookups_captured (b : Buffers) (htext : b.text.Holds (encode l.lines ++ [0])) :
    ∃ b', lookups b = some (some b') ∧ string b'.ssid.cells = some (encode l.ssid) ∧
      string b'.target.cells = some (encode l.target.display) ∧
      string b'.controller.cells = some (encode l.controller.display) ∧
      string b'.port.cells = some (encode (decimal l.port.toNat)) ∧
      string b'.prefixLen.cells = some (encode (decimal DerivedLink.prefixLen)) := by
  obtain ⟨hssid, htarget, hcontroller, hport, hbits⟩ := fits hl
  obtain ⟨ssid, hssid, hssid'⟩ := field_captured hl htext "ssid" rfl hssid b.ssid
  obtain ⟨target, htarget, htarget'⟩ := field_captured hl htext "target" rfl htarget b.target
  obtain ⟨controller, hcontroller, hcontroller'⟩ :=
    field_captured hl htext "controller" rfl hcontroller b.controller
  obtain ⟨port, hport, hport'⟩ := field_captured hl htext "port" rfl hport b.port
  obtain ⟨prefixLen, hbits, hbits'⟩ := field_captured hl htext "prefix" rfl hbits b.prefixLen
  exact ⟨{ b with ssid, target, controller, port, prefixLen }, by
    simp [lookups, hssid, htarget, hcontroller, hport, hbits], hssid', htarget', hcontroller',
    hport', hbits'⟩

end

/-- The place to dial fits in its buffer. -/
theorem exists_dial (l : DerivedLink.Link) (out : Block UInt8 64) :
    ∃ dial, snprintf out (encode l.controller.display ++ ':'.toUInt8 ::
        encode (decimal l.port.toNat)) = some dial ∧
      string dial.cells = some (encode l.dialled) := by
  have hcontroller := l.controller.length_display_le
  have hport := length_decimal_port l
  have hvisible : Visible l.dialled :=
    l.controller.visible_display.append ((visible_toDigits _).cons (by decide))
  have hbytes : encode l.controller.display ++ ':'.toUInt8 :: encode (decimal l.port.toNat) =
      encode l.dialled := by
    rw [Link.dialled, encode_append, encode_cons_ascii (by decide)]
  have hlength : (encode l.dialled).length ≤ 63 := by
    rw [hvisible.length_encode, Link.dialled, List.length_append, List.length_cons]
    omega
  obtain ⟨dial, hstore, hholds⟩ := out.holds_nil.store (encode l.dialled ++ [0]) (by simp; omega)
  refine ⟨dial, ?_, string_of_holds (zero_not_mem_encode (hvisible.not_mem (by decide))) hholds⟩
  rw [hbytes, snprintf, List.take_of_length_le hlength]
  exact hstore

/-- The mask for the printed length is that of the subnet `join` uses. -/
theorem netmask_prefixLen :
    ∃ m, netmask (atoi (encode (decimal DerivedLink.prefixLen))) = some m ∧
      Ipv4Addr.ofNat m.toNat = .mask DerivedLink.prefixLen :=
  ⟨0xffff0000, by decide +kernel, by decide⟩

theorem address_eq {l : DerivedLink.Link} {b : Buffers}
    (hssid : string b.ssid.cells = some (encode l.ssid))
    (htarget : string b.target.cells = some (encode l.target.display))
    (hcontroller : string b.controller.cells = some (encode l.controller.display))
    (hport : string b.port.cells = some (encode (decimal l.port.toNat)))
    (hbits : string b.prefixLen.cells = some (encode (decimal DerivedLink.prefixLen))) :
    address b = some (expected l) := by
  obtain ⟨dial, hdial, hdial'⟩ := exists_dial l b.dial
  obtain ⟨m, hm, hmask⟩ := netmask_prefixLen
  simp [address, hssid, htarget, hcontroller, hport, hbits, hdial, hdial', hm, hmask, setAddr,
    inetPton_display, expected]

/-- What init makes of the derivation, however the pipe delivers it. -/
theorem accessPoint_lines {l : DerivedLink.Link} (hl : l.Plain) (b : Buffers)
    {reads : List Bytes} (hne : ∀ bs ∈ reads, bs ≠ []) (hreads : reads.flatten = encode l.lines) :
    accessPoint b reads = some (some (expected l)) := by
  obtain ⟨text, hcapture, htext⟩ := capture_whole b.text hne hreads (length_lines_lt hl)
  obtain ⟨b', hlookups, hssid, htarget, hcontroller, hport, hbits⟩ :=
    lookups_captured hl { b with text } htext
  simp [accessPoint, hcapture, hlookups, address_eq hssid htarget hcontroller hport hbits]

/-- Whatever the digests are, what the target makes of the printed derivation
of a node id is what a controller with that id expects: every lookup succeeds,
and the address, the netmask and the place to dial are those of the derivation.
Both addresses are hosts of one subnet, and the port is one nobody assigns. -/
theorem access_point_agrees (sha256 : Bytes → Block UInt8 32) (id : NodeId) (b : Buffers)
    {reads : List Bytes} (hne : ∀ bs ∈ reads, bs ≠ [])
    (hreads : reads.flatten = encode (derive sha256 id).lines) :
    accessPoint b reads = some (some (expected (derive sha256 id))) ∧
      readCidr (encode (derive sha256 id).cidr) =
        some ((derive sha256 id).controller, DerivedLink.prefixLen) ∧
      derivation (derive sha256 id).lines = some ((derive sha256 id).controller.display,
        decimal (derive sha256 id).port.toNat) ∧
      (derive sha256 id).target ≠ (derive sha256 id).controller ∧
      (derive sha256 id).target.c = (derive sha256 id).controller.c ∧
      (derive sha256 id).target.IsHost ∧ (derive sha256 id).controller.IsHost ∧
      (derive sha256 id).port.toNat = 49152 +
        ((byte (hash sha256 "egdod-link-addr" id) 3).toNat * 256 +
          (byte (hash sha256 "egdod-link-addr" id) 4).toNat) % 16384 ∧
      49152 ≤ (derive sha256 id).port.toNat ∧ (derive sha256 id).port.toNat ≤ 65535 := by
  have hl := plain_derive sha256 id
  exact ⟨accessPoint_lines hl b hne hreads, readCidr_cidr _, derivation_lines hl,
    target_ne_controller sha256 id, rfl, isHost_target sha256 id, isHost_controller sha256 id,
    toNat_port sha256 id, port_mem sha256 id⟩

/-- Buffers with nothing in them. -/
def blank : Buffers where
  text := ⟨List.replicate 1024 0, List.length_replicate⟩
  ssid := ⟨List.replicate 64 0, List.length_replicate⟩
  target := ⟨List.replicate 32 0, List.length_replicate⟩
  controller := ⟨List.replicate 32 0, List.length_replicate⟩
  port := ⟨List.replicate 8 0, List.length_replicate⟩
  prefixLen := ⟨List.replicate 4 0, List.length_replicate⟩
  dial := ⟨List.replicate 64 0, List.length_replicate⟩

/-- Digests in which both hosts get the same octet at first. -/
def sevens : Bytes → Block UInt8 32 := fun _ => ⟨List.replicate 32 7, List.length_replicate⟩

theorem access_point_agrees_sevens :
    accessPoint blank [encode ((derive sevens (.filled 3)).lines.take 40),
        encode ((derive sevens (.filled 3)).lines.drop 40)] =
      some (some (expected (derive sevens (.filled 3)))) ∧
      (derive sevens (.filled 3)).dialled = "169.254.8.9:50951".toList := by
  have hreads : [encode ((derive sevens (.filled 3)).lines.take 40),
      encode ((derive sevens (.filled 3)).lines.drop 40)].flatten =
        encode (derive sevens (.filled 3)).lines := by
    rw [List.flatten_cons, List.flatten_cons, List.flatten_nil, List.append_nil, ← encode_append,
      List.take_append_drop]
  exact ⟨(access_point_agrees sevens (.filled 3) blank (by decide +kernel) hreads).1,
    by decide +kernel⟩

end Egdod.Boot.AccessPoint
