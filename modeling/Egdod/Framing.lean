import Egdod.Lib.Files
import Egdod.Lib.Stream
import Mathlib.Algebra.Group.Nat.Defs
import Mathlib.Data.List.Infix
import Mathlib.Data.List.TakeDrop

/-! Messages on a byte stream: a length, then an encoding. A stream may be
carried by the proxy of `serve`, which passes on what it could read and write
and then ends the stream cleanly, whatever stopped it. -/
namespace Egdod

open Posix Stream

/-- `MAX_MSG`. -/
def maxMsg : Nat := 2 ^ 20

/-- postcard for one type of message: decoding is inverse to encoding, for all that is sent. -/
structure Codec (T : Type) where
  encode : T → Bytes
  decode : Bytes → Option T
  inverse : ∀ x, (encode x).length ≤ maxMsg → decode (encode x) = some x

/-! ## Lengths -/

def le32 (n : Nat) : Bytes :=
  [n, n / 2 ^ 8, n / 2 ^ 16, n / 2 ^ 24].map UInt8.ofNat

def fromLe32 (bs : Bytes) : Nat := bs.foldr (fun b n => b.toNat + 2 ^ 8 * n) 0

theorem fromLe32_le32 {n : Nat} (h : n < 2 ^ 32) : fromLe32 (le32 n) = n := by
  simp only [fromLe32, le32, List.map_cons, List.map_nil, List.foldr_cons, List.foldr_nil,
    UInt8.toNat_ofNat']
  omega

/-! ## Messages -/

inductive ReadError where
  | readingLength
  | oversized (len : Nat)
  | reading
  | decoding
  | closed
  deriving DecidableEq

section
variable {T : Type} (codec : Codec T)

/-- The bytes `write_msg` writes, unless the message is too large. -/
def writeMsg (x : T) : Option Bytes :=
  let body := codec.encode x
  if body.length ≤ maxMsg then some (le32 body.length ++ body) else none

/-- `read_msg_opt`: the message and the rest of the stream, or none at its end. An end inside
the length is taken for the end of the stream. -/
def readMsgOpt (r : Reader UInt8) : Except ReadError (Option (T × Reader UInt8)) :=
  match r.readExact 4 with
  | .eof => .ok none
  | .failed => .error .readingLength
  | .full len rest =>
    if fromLe32 len ≤ maxMsg then
      match rest.readExact (fromLe32 len) with
      | .full body rest =>
        match codec.decode body with
        | some x => .ok (some (x, rest))
        | none => .error .decoding
      | _ => .error .reading
    else .error (.oversized (fromLe32 len))

def readMsg (r : Reader UInt8) : Except ReadError (T × Reader UInt8) :=
  match readMsgOpt codec r with
  | .ok (some x) => .ok x
  | .ok none => .error .closed
  | .error e => .error e

variable {codec} {x : T} {bs : Bytes} {r : Reader UInt8}

theorem writeMsg_some (h : writeMsg codec x = some bs) :
    (codec.encode x).length ≤ maxMsg ∧ bs = le32 (codec.encode x).length ++ codec.encode x := by
  unfold writeMsg at h
  dsimp only at h
  split at h
  · rename_i hle
    cases h
    exact ⟨hle, rfl⟩
  · cases h

/-- Several messages in a row. -/
def writeMsgs (codec : Codec T) : List T → Option Bytes
  | [] => some []
  | x :: xs => do
    let bs ← writeMsg codec x
    let rest ← writeMsgs codec xs
    some (bs ++ rest)

theorem writeMsgs_cons {xs : List T} (h : writeMsgs codec (x :: xs) = some bs) :
    ∃ first rest, writeMsg codec x = some first ∧ writeMsgs codec xs = some rest ∧
      bs = first ++ rest := by
  obtain ⟨first, hfirst, h⟩ := Option.bind_eq_some_iff.mp h
  obtain ⟨rest, hrest, h⟩ := Option.bind_eq_some_iff.mp h
  exact ⟨first, rest, hfirst, hrest, (Option.some.inj h).symm⟩

/-- Every message takes something off the stream. -/
theorem readMsgOpt_shorter {r' : Reader UInt8} (h : readMsgOpt codec r = .ok (some (x, r'))) :
    r'.content.length < r.content.length := by
  unfold readMsgOpt at h
  split at h
  · cases h
  · cases h
  · rename_i len rest hread
    obtain ⟨h4, hrest⟩ := Reader.content_of_full hread
    split at h
    · split at h
      · rename_i body rest' hread'
        obtain ⟨-, hrest'⟩ := Reader.content_of_full hread'
        split at h
        · cases h
          rw [hrest', hrest, List.length_drop, List.length_drop]
          omega
        · cases h
      · cases h
    · cases h

/-- A whole message is read as it was written. -/
theorem readMsgOpt_whole {rest : Bytes} (h : writeMsg codec x = some bs)
    (hr : r.content = bs ++ rest) :
    ∃ r', readMsgOpt codec r = .ok (some (x, r')) ∧ r'.content = rest ∧ r'.broken = r.broken := by
  obtain ⟨hle, rfl⟩ := writeMsg_some h
  have hlen : (le32 (codec.encode x).length).length = 4 := rfl
  obtain ⟨r₁, hread, hcontent, hbroken⟩ := Reader.readExact_full (r := r) (n := 4)
    (by rw [hr]; simp only [List.length_append, hlen]; omega)
  have htake : r.content.take 4 = le32 (codec.encode x).length := by
    rw [hr, List.append_assoc]
    exact List.take_left' hlen
  have hdrop : r₁.content = codec.encode x ++ rest := by
    rw [hcontent, hr, List.append_assoc]
    exact List.drop_left' hlen
  have hfrom : fromLe32 (le32 (codec.encode x).length) = (codec.encode x).length :=
    fromLe32_le32 (Nat.lt_of_le_of_lt hle (by decide))
  obtain ⟨r₂, hread₂, hcontent₂, hbroken₂⟩ := Reader.readExact_full (r := r₁)
    (n := (codec.encode x).length) (by rw [hdrop]; simp)
  refine ⟨r₂, ?_, ?_, hbroken₂.trans hbroken⟩
  · rw [hdrop, List.take_left] at hread₂
    simp [readMsgOpt, hread, htake, hfrom, hle, hread₂, codec.inverse x hle]
  · rw [hcontent₂, hdrop, List.drop_left]

/-- A stream that ends before a length is complete reads as one that has ended. -/
theorem readMsgOpt_short (codec : Codec T) (h : r.content.length < 4) :
    readMsgOpt codec r = if r.broken then .error .readingLength else .ok none := by
  rw [readMsgOpt, Reader.readExact_short h]
  cases r.broken <;> rfl

/-- A message that is cut in its body is an error. -/
theorem readMsgOpt_partial (h : writeMsg codec x = some bs) (hr : r.content <+: bs)
    (hne : r.content ≠ bs) (h4 : 4 ≤ r.content.length) :
    readMsgOpt codec r = .error .reading := by
  obtain ⟨hle, rfl⟩ := writeMsg_some h
  have hlen : (le32 (codec.encode x).length).length = 4 := rfl
  have hshort : r.content.length < 4 + (codec.encode x).length := by
    have hlength := hr.length_le
    rw [List.length_append, hlen] at hlength
    refine Nat.lt_of_le_of_ne hlength fun e => hne (hr.eq_of_length ?_)
    rw [List.length_append, hlen, e]
  obtain ⟨r₁, hread, hcontent, -⟩ := Reader.readExact_full h4
  have htake : r.content.take 4 = le32 (codec.encode x).length := by
    have := List.prefix_of_prefix_length_le (List.take_prefix 4 r.content |>.trans hr)
      (List.prefix_append (le32 (codec.encode x).length) (codec.encode x))
      (by rw [hlen]; exact List.length_take_le _ _)
    exact this.eq_of_length (by simp [hlen, h4])
  have hfrom : fromLe32 (le32 (codec.encode x).length) = (codec.encode x).length :=
    fromLe32_le32 (Nat.lt_of_le_of_lt hle (by decide))
  have hrest := Reader.readExact_short (r := r₁) (n := (codec.encode x).length)
    (by rw [hcontent, List.length_drop]; omega)
  cases hb : r₁.broken with
  | false => simp [readMsgOpt, hread, htake, hfrom, hle, hrest, hb]
  | true => simp [readMsgOpt, hread, htake, hfrom, hle, hrest, hb]

/-- A message that is cut is not read. -/
theorem readMsgOpt_cut (h : writeMsg codec x = some bs) (hr : r.content <+: bs)
    (hne : r.content ≠ bs) :
    readMsgOpt codec r = .ok none ∨ ∃ e, readMsgOpt codec r = .error e := by
  by_cases h4 : 4 ≤ r.content.length
  · exact .inr ⟨.reading, readMsgOpt_partial h hr hne h4⟩
  · rw [readMsgOpt_short codec (by omega)]
    cases r.broken with
    | false => exact .inl rfl
    | true => exact .inr ⟨.readingLength, rfl⟩

/-- From a stream that is cut somewhere, the first message is read as it was written or not at
all. -/
theorem readMsgOpt_carried {more : Bytes} (h : writeMsg codec x = some bs)
    (hr : r.content <+: bs ++ more) :
    (r.content <+: bs ∧ r.content ≠ bs ∧
      (readMsgOpt codec r = .ok none ∨ ∃ e, readMsgOpt codec r = .error e)) ∨
    ∃ r', readMsgOpt codec r = .ok (some (x, r')) ∧ r.content = bs ++ r'.content ∧
      r'.content <+: more ∧ r'.broken = r.broken := by
  by_cases hwhole : bs.length ≤ r.content.length
  · obtain ⟨rest, hrest⟩ := List.prefix_of_prefix_length_le (List.prefix_append bs more) hr hwhole
    obtain ⟨r', hread, hcontent, hbroken⟩ := readMsgOpt_whole h hrest.symm
    refine .inr ⟨r', hread, by rw [hcontent, hrest], ?_, hbroken⟩
    rw [← hrest] at hr
    rw [hcontent]
    exact (List.prefix_append_right_inj bs).mp hr
  · have hbegin : r.content <+: bs :=
      List.prefix_of_prefix_length_le hr (List.prefix_append bs more) (by omega)
    have hne : r.content ≠ bs := fun e => hwhole (by rw [e])
    exact .inl ⟨hbegin, hne, readMsgOpt_cut h hbegin hne⟩

theorem readMsg_carried {more : Bytes} (h : writeMsg codec x = some bs)
    (hr : r.content <+: bs ++ more) :
    (r.content <+: bs ∧ r.content ≠ bs ∧ ∃ e, readMsg codec r = .error e) ∨
    ∃ r', readMsg codec r = .ok (x, r') ∧ r.content = bs ++ r'.content ∧ r'.content <+: more ∧
      r'.broken = r.broken := by
  rcases readMsgOpt_carried h hr with ⟨hbegin, hne, hnone | ⟨e, he⟩⟩ | ⟨r', hread, hrest⟩
  · exact .inl ⟨hbegin, hne, .closed, by simp [readMsg, hnone]⟩
  · exact .inl ⟨hbegin, hne, e, by simp [readMsg, he]⟩
  · exact .inr ⟨r', by simp [readMsg, hread], hrest⟩

theorem readMsg_nil (codec : Codec T) (hr : r.content = []) : ∃ e, readMsg codec r = .error e := by
  rw [readMsg, readMsgOpt_short codec (by simp [hr])]
  cases r.broken with
  | false => exact ⟨.closed, rfl⟩
  | true => exact ⟨.readingLength, rfl⟩

/-- A message and what follows it. Nothing follows a message that is too large to be sent. -/
def framed (codec : Codec T) (x : T) (more : Bytes) : Bytes :=
  match writeMsg codec x with
  | some bs => bs ++ more
  | none => []

/-- What is read off any beginning of a message is that message, and what is left of the stream
some beginning of what followed. -/
theorem readMsg_framed {more : Bytes} {y : T} {r' : Reader UInt8}
    (hr : r.content <+: framed codec x more) (hread : readMsg codec r = .ok (y, r')) :
    y = x ∧ r'.content <+: more := by
  unfold framed at hr
  cases hbs : writeMsg codec x with
  | some bs =>
    rw [hbs] at hr
    rcases readMsg_carried hbs hr with ⟨-, -, e, he⟩ | ⟨r₁, hread₁, -, hmore, -⟩
    · cases he.symm.trans hread
    · cases hread₁.symm.trans hread
      exact ⟨rfl, hmore⟩
  | none =>
    rw [hbs] at hr
    obtain ⟨e, he⟩ := readMsg_nil codec (List.prefix_nil.mp hr)
    cases he.symm.trans hread

/-- At a clean end there is no message. -/
theorem readMsgOpt_end (hr : r.content = []) (hbroken : r.broken = false) :
    readMsgOpt codec r = .ok none := by
  simp [readMsgOpt_short codec (r := r) (by simp [hr]), hbroken]

end

/-! ## The proxy -/

/-- One direction of `splice`: chunks go over until a write fails, having taken some of its
bytes. A write that is not listed works. What follows is a clean end in any case. -/
def spliced : List (Option Nat) → List Bytes → Bytes
  | _, [] => []
  | [], c :: chunks => c ++ spliced [] chunks
  | none :: fates, c :: chunks => c ++ spliced fates chunks
  | some n :: _, c :: _ => c.take n

theorem spliced_prefix_flatten (fates : List (Option Nat)) (chunks : List Bytes) :
    spliced fates chunks <+: chunks.flatten := by
  induction chunks generalizing fates with
  | nil => cases fates <;> exact List.prefix_refl _
  | cons c chunks ih =>
    match fates with
    | [] | none :: _ =>
      simp only [spliced, List.flatten_cons]
      exact (List.prefix_append_right_inj c).mpr (ih _)
    | some n :: _ =>
      simp only [spliced, List.flatten_cons]
      exact (List.take_prefix n c).trans (List.prefix_append _ _)

/-- Every part of what was read is left over by some failure. -/
theorem exists_spliced {out : Bytes} {chunks : List Bytes} (h : out <+: chunks.flatten) :
    ∃ fates, spliced fates chunks = out := by
  induction chunks generalizing out with
  | nil => exact ⟨[], (List.prefix_nil.mp h).symm⟩
  | cons c chunks ih =>
    rw [List.flatten_cons] at h
    rcases List.prefix_or_prefix_of_prefix h (List.prefix_append c _) with hc | hc
    · exact ⟨[some out.length], (List.prefix_iff_eq_take.mp hc).symm⟩
    · obtain ⟨rest, rfl⟩ := hc
      obtain ⟨fates, hfates⟩ := ih ((List.prefix_append_right_inj c).mp h)
      exact ⟨none :: fates, by rw [spliced, hfates]⟩

end Egdod
