import Egdod.Copy.Commands
import Egdod.Lib.Wire

/-! The messages as postcard writes them: a varint for the position of a
variant and for every length, text as UTF-8, fields in the order they are
declared, a digest as its bytes. With these the law asked of a codec is a
theorem, and sessions can be run. -/
namespace Egdod.Postcard

open Text Posix

def text : Wire Str := Wire.bytes.via encode decode decode_encode

theorem text_ne_nil (s : Str) : text.put s ≠ [] :=
  List.append_ne_nil_of_left_ne_nil (Wire.putVarint_ne_nil _ _) _

/-- Small numbers of either sign stay small. -/
def zigzag (z : Int32) : UInt32 :=
  .ofNat (if 0 ≤ z.toInt then 2 * z.toInt.toNat else 2 * (-z.toInt).toNat - 1)

def unzigzag (n : UInt32) : Int32 :=
  .ofInt (if n.toNat % 2 = 0 then (n.toNat / 2 : Nat) else -((n.toNat + 1) / 2 : Nat))

theorem unzigzag_zigzag (z : Int32) : unzigzag (zigzag z) = z := by
  have hlow := z.minValue_le_toInt
  have hhigh := z.toInt_lt
  have hmin : Int32.minValue.toInt = -2 ^ 31 := by decide
  rw [hmin] at hlow
  have hnat : (zigzag z).toNat =
      if 0 ≤ z.toInt then 2 * z.toInt.toNat else 2 * (-z.toInt).toNat - 1 := by
    rw [zigzag, UInt32.toNat_ofNat_of_lt' (by unfold UInt32.size; split <;> omega)]
  have hvalue : (if (zigzag z).toNat % 2 = 0 then (((zigzag z).toNat / 2 : Nat) : Int)
      else -((((zigzag z).toNat + 1) / 2 : Nat) : Int)) = z.toInt := by
    rw [hnat]
    split <;> split <;> omega
  rw [unzigzag, hvalue, Int32.ofInt_toInt]

def integer : Wire Int32 :=
  Wire.u32.via zigzag (fun n => some (unzigzag n)) fun z => congrArg some (unzigzag_zigzag z)

/-- An array has no length in front of it. -/
def digest : Wire Digest :=
  (Wire.fixed 32).via (fun d => ⟨d.cells, d.length_cells⟩) (fun bs => some ⟨bs.val, bs.property⟩)
    fun _ => rfl

/-! ## Variants -/

/-- The position of a variant. -/
def variant (n : Nat) : Bytes := Wire.putVarint n n

def getVariant (bs : Bytes) : Option (Nat × Bytes) := Wire.getVarint 32 bs

theorem getVariant_variant {n : Nat} (h : n < 2 ^ 32) (rest : Bytes) :
    getVariant (variant n ++ rest) = some (n, rest) := Wire.getVarint_put (Nat.le_refl _) h rest

/-- What a variant carries is taken off behind its position. -/
theorem getVariant_bind {α β : Type} {n : Nat} (w : Wire α) {a : α} {rest : Bytes}
    {f : Nat × Bytes → Option (β × Bytes)} {g : α → β} (hn : n < 2 ^ 32)
    (hfit : (variant n ++ w.put a).length < 2 ^ 64)
    (hf : ∀ bs, f (n, bs) = (w.get bs).map fun (a, bs) => (g a, bs)) :
    (getVariant (variant n ++ w.put a ++ rest)).bind f = some (g a, rest) := by
  rw [List.length_append] at hfit
  rw [List.append_assoc, getVariant_variant hn, Option.bind_some, hf, w.law a rest (by omega)]
  rfl

/-! ## The messages -/

def route : Wire Route := text.via Route.agent (fun agent => some ⟨agent⟩) fun _ => rfl

def pathKind : Wire PathKind :=
  Wire.u32.via
    (fun
      | .directLocal => 0
      | .directLan => 1
      | .directWan => 2
      | .relayed => 3
      | .unknown => 4)
    (fun n => [PathKind.directLocal, .directLan, .directWan, .relayed, .unknown][n.toNat]?)
    fun path => by cases path <;> rfl

def routed : Wire (Str × PathKind × Str) := text.pair (pathKind.pair text)

def routeReply : Wire RouteReply where
  put
    | .ok agent path remote => variant 0 ++ routed.put (agent, path, remote)
    | .err error => variant 1 ++ text.put error
  get bs := (getVariant bs).bind fun
    | (0, bs) => (routed.get bs).map fun
      | ((agent, path, remote), bs) => (.ok agent path remote, bs)
    | (1, bs) => (text.get bs).map fun (error, bs) => (.err error, bs)
    | _ => none
  law reply rest h := by
    cases reply with
    | ok agent path remote =>
      refine getVariant_bind routed (a := (agent, path, remote))
        (g := fun (a, p, r) => RouteReply.ok a p r) (by decide) h ?_
      exact fun _ => rfl
    | err => exact getVariant_bind text (by decide) h fun _ => rfl

def argv : Wire (List Str) := text.list text_ne_nil

/-- Mode, length and digest. -/
def header : Wire (UInt32 × UInt64 × Digest) := Wire.u32.pair (Wire.u64.pair digest)

def pushed : Wire (Str × UInt32 × UInt64 × Digest) := text.pair header

def request : Wire Request where
  put
    | .exec words => variant 0 ++ argv.put words
    | .push path mode len sha256 => variant 1 ++ pushed.put (path, mode, len, sha256)
    | .pull path => variant 2 ++ text.put path
    | .forward addr => variant 3 ++ text.put addr
  get bs := (getVariant bs).bind fun
    | (0, bs) => (argv.get bs).map fun (words, bs) => (.exec words, bs)
    | (1, bs) => (pushed.get bs).map fun
      | ((path, mode, len, sha256), bs) => (.push path mode len sha256, bs)
    | (2, bs) => (text.get bs).map fun (path, bs) => (.pull path, bs)
    | (3, bs) => (text.get bs).map fun (addr, bs) => (.forward addr, bs)
    | _ => none
  law req rest h := by
    cases req with
    | exec => exact getVariant_bind argv (by decide) h fun _ => rfl
    | push path mode len sha256 =>
      refine getVariant_bind pushed (a := (path, mode, len, sha256))
        (g := fun (p, m, l, d) => Request.push p m l d) (by decide) h ?_
      exact fun _ => rfl
    | pull => exact getVariant_bind text (by decide) h fun _ => rfl
    | forward => exact getVariant_bind text (by decide) h fun _ => rfl

def execFrame : Wire ExecFrame where
  put
    | .stdout bs => variant 0 ++ Wire.bytes.put bs
    | .stderr bs => variant 1 ++ Wire.bytes.put bs
    | .exit code => variant 2 ++ integer.put code
    | .failed error => variant 3 ++ text.put error
    | .truncated => variant 4
  get bs := (getVariant bs).bind fun
    | (0, bs) => (Wire.bytes.get bs).map fun (out, bs) => (.stdout out, bs)
    | (1, bs) => (Wire.bytes.get bs).map fun (err, bs) => (.stderr err, bs)
    | (2, bs) => (integer.get bs).map fun (code, bs) => (.exit code, bs)
    | (3, bs) => (text.get bs).map fun (error, bs) => (.failed error, bs)
    | (4, bs) => some (.truncated, bs)
    | _ => none
  law frame rest h := by
    cases frame with
    | stdout | stderr => exact getVariant_bind Wire.bytes (by decide) h fun _ => rfl
    | exit => exact getVariant_bind integer (by decide) h fun _ => rfl
    | failed => exact getVariant_bind text (by decide) h fun _ => rfl
    | truncated => simp [getVariant_variant]

def ack : Wire Ack where
  put
    | .ok => variant 0
    | .err error => variant 1 ++ text.put error
  get bs := (getVariant bs).bind fun
    | (0, bs) => some (.ok, bs)
    | (1, bs) => (text.get bs).map fun (error, bs) => (.err error, bs)
    | _ => none
  law a rest h := by
    cases a with
    | ok => simp [getVariant_variant]
    | err => exact getVariant_bind text (by decide) h fun _ => rfl

def pullStart : Wire PullStart where
  put
    | .ok mode len sha256 => variant 0 ++ header.put (mode, len, sha256)
    | .missing => variant 1
    | .err error => variant 2 ++ text.put error
  get bs := (getVariant bs).bind fun
    | (0, bs) => (header.get bs).map fun
      | ((mode, len, sha256), bs) => (.ok mode len sha256, bs)
    | (1, bs) => some (.missing, bs)
    | (2, bs) => (text.get bs).map fun (error, bs) => (.err error, bs)
    | _ => none
  law start rest h := by
    cases start with
    | ok mode len sha256 =>
      refine getVariant_bind header (a := (mode, len, sha256))
        (g := fun (m, l, d) => PullStart.ok m l d) (by decide) h ?_
      exact fun _ => rfl
    | missing => simp [getVariant_variant]
    | err => exact getVariant_bind text (by decide) h fun _ => rfl

/-- A message is all of what was sent for it; bytes left over are not looked at. -/
def codec {T : Type} (w : Wire T) : Codec T where
  encode := w.put
  decode bs := (w.get bs).map Prod.fst
  inverse x h := by
    have hlaw := w.law x [] (Nat.lt_of_le_of_lt h (by decide))
    simpa using congrArg (Option.map Prod.fst) hlaw

def codecs : Copy.Codecs where
  route := codec route
  routeReply := codec routeReply
  request := codec request
  ack := codec ack
  pullStart := codec pullStart

/-! ## A small session, to run things with -/

/-- A granted route, as `serve` writes it. -/
def granted : RouteReply := .ok "ab".toList .directLan "10.0.0.7:1".toList

def grantedBytes : Bytes :=
  [16, 0, 0, 0, 0, 2, 97, 98, 1, 10, 49, 48, 46, 48, 46, 48, 46, 55, 58, 49]

/-- The head of the answer to a pull: mode, length and digest of the file below. -/
def headBytes : Bytes := [36, 0, 0, 0, 0, 164, 3, 2] ++ List.replicate 32 3

/-- Every path opens as one small file. -/
def oneFile : Copy.Opens := fun _ => .ok ⟨.ok (0o100644, true), ⟨[[1], [2]], false⟩, ⟨false, []⟩⟩

end Egdod.Postcard
