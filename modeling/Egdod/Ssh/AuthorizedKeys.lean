import Egdod.Lib.Files
import Egdod.Lib.Text

/-! The line the ssh recipe installs and how it goes into an
`authorized_keys` file. The file is the target's, so it is cut and compared
as bytes. -/
namespace Egdod.Ssh

open Text Posix

/-! ## The line -/

/-- The second field of a public key line. -/
def keyBlob (pubkeyLine : Str) : Option Str := (splitWhitespace pubkeyLine)[1]?

/-- Year, month and day of a day counted from the epoch. -/
def civilFromDays (z : Int) : Int × Nat × Nat :=
  let z := z + 719468
  let era := z / 146097
  let doe := z % 146097
  let yoe := (doe - doe / 1460 + doe / 36524 - doe / 146096) / 365
  let doy := doe - (365 * yoe + yoe / 4 - yoe / 100)
  let mp := (5 * doy + 2) / 153
  let d := (doy - (153 * mp + 2) / 5 + 1).toNat
  let m := (if mp < 10 then mp + 3 else mp - 9).toNat
  (yoe + era * 400 + (if m ≤ 2 then 1 else 0), m, d)

/-- Decimal digits, with zeros in front up to a width. -/
def zeroPad (width n : Nat) : Str :=
  let digits := Nat.toDigits 10 n
  List.replicate (width - digits.length) '0' ++ digits

/-- The stamp of a time in seconds since the epoch. -/
def utcYyyymmddhhmm (secs : Nat) : Str :=
  let (days, rem) := (secs / 86400, secs % 86400)
  let (hh, mm) := (rem / 3600, rem % 3600 / 60)
  let (y, m, d) := civilFromDays days
  zeroPad 4 y.toNat ++ zeroPad 2 m ++ zeroPad 2 d ++ zeroPad 2 hh ++ zeroPad 2 mm ++ ['Z']

def authorizedLine (options : Str) (expiry : Nat) (pubkeyLine : Str) : Str :=
  options ++ ",expiry-time=\"".toList ++ utcYyyymmddhhmm expiry ++ "\" ".toList ++ pubkeyLine

/-! ## The merge -/

/-- `u8::is_ascii_whitespace`; the vertical tab is not in it. -/
def isAsciiWhitespace (b : UInt8) : Bool := b = 9 || b = 10 || b = 12 || b = 13 || b = 32

/-- A line as the merged file has it: gone if it carries the blob, otherwise
as it was, with a newline if it lacked one. -/
def keptLine (blob : Bytes) (line : Bytes) : Bytes :=
  if blob ∈ line.splitOnP isAsciiWhitespace then []
  else if line.getLast? = some 10 then line
  else line ++ [10]

/-- `merge_authorized_keys`. -/
def mergeAuthorizedKeys (existing : Option Bytes) (blob line : Bytes) : Bytes :=
  (splitInclusive 10 (existing.getD [])).flatMap (keptLine blob) ++ line ++ [10]

end Egdod.Ssh
