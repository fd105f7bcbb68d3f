import Egdod.Lib.Stream
import Mathlib.Data.List.Infix

/-! One end of a duplex stream and programs on it. A program reads what there
is to read and writes until a write fails. Two things are followed through
such a program: what it has written, which is some beginning of what it would
write if nothing failed, and what it must have read to end well. -/
namespace Stream

variable {α ε β γ : Type}

structure Socket (α : Type) where
  reader : Reader α
  /-- How many elements the next writes get through before they fail, or none for a write that
  works. A write that is not listed works. -/
  fates : List (Option Nat)
  sent : List α

def Peer (α ε β : Type) := Socket α → Except ε β × Socket α

namespace Peer

def bind (x : Peer α ε β) (f : β → Peer α ε γ) : Peer α ε γ := fun s =>
  match x s with
  | (.ok b, s') => f b s'
  | (.error e, s') => (.error e, s')

instance : Monad (Peer α ε) where
  pure b := fun s => (.ok b, s)
  bind := bind

def fail (e : ε) : Peer α ε β := fun s => (.error e, s)

/-- Writes `xs`, or fails with `e`. -/
def put (e : ε) (xs : List α) : Peer α ε Unit := fun s =>
  match s.fates with
  | [] => (.ok (), { s with sent := s.sent ++ xs })
  | none :: fates => (.ok (), { s with fates := fates, sent := s.sent ++ xs })
  | some n :: fates => (.error e, { s with fates := fates, sent := s.sent ++ xs.take n })

/-- Reads something off the stream. -/
def take (f : Reader α → Except ε (β × Reader α)) : Peer α ε β := fun s =>
  match f s.reader with
  | .ok (b, r) => (.ok b, { s with reader := r })
  | .error e => (.error e, s)

/-! ## Ending well -/

theorem bind_ok {x : Peer α ε β} {f : β → Peer α ε γ} {s s'' : Socket α} {c : γ}
    (h : (x >>= f) s = (.ok c, s'')) : ∃ b s', x s = (.ok b, s') ∧ f b s' = (.ok c, s'') := by
  simp only [Bind.bind, bind] at h
  split at h
  · rename_i b s' hx
    exact ⟨b, s', hx, h⟩
  · cases h

theorem put_ok {e : ε} {xs : List α} {s s' : Socket α} {u : Unit}
    (h : put e xs s = (.ok u, s')) : s'.reader = s.reader := by
  unfold put at h
  split at h
  · cases h
    rfl
  · cases h
    rfl
  · cases h

theorem take_ok {f : Reader α → Except ε (β × Reader α)} {s s' : Socket α} {b : β}
    (h : take f s = (.ok b, s')) : f s.reader = .ok (b, s'.reader) := by
  unfold take at h
  split at h
  · rename_i hf
    cases h
    exact hf
  · cases h

/-! ## What is written -/

/-- A program that writes `w`, or some beginning of it when it fails. -/
def Writes (x : Peer α ε β) (w : List α) : Prop :=
  ∀ s, ∃ part, (x s).2.sent = s.sent ++ part ∧ part <+: w ∧ ∀ b, (x s).1 = .ok b → part = w

theorem Writes.pure (b : β) : Writes (pure b : Peer α ε β) [] := fun _ =>
  ⟨[], (List.append_nil _).symm, List.prefix_refl _, fun _ _ => rfl⟩

/-- A program that fails has written as much as any that could have followed. -/
theorem Writes.fail (e : ε) (w : List α) : Writes (fail e : Peer α ε β) w := fun _ =>
  ⟨[], (List.append_nil _).symm, List.nil_prefix, nofun⟩

theorem Writes.put (e : ε) (xs : List α) : Writes (put e xs) xs := by
  intro s
  unfold Peer.put
  split
  · exact ⟨xs, rfl, List.prefix_refl _, fun _ _ => rfl⟩
  · exact ⟨xs, rfl, List.prefix_refl _, fun _ _ => rfl⟩
  · exact ⟨_, rfl, List.take_prefix _ _, nofun⟩

theorem Writes.take (f : Reader α → Except ε (β × Reader α)) : Writes (take f) [] := by
  intro s
  unfold Peer.take
  split
  · exact ⟨[], (List.append_nil _).symm, List.prefix_refl _, fun _ _ => rfl⟩
  · exact ⟨[], (List.append_nil _).symm, List.prefix_refl _, fun _ _ => rfl⟩

theorem Writes.bind {x : Peer α ε β} {f : β → Peer α ε γ} {v w : List α} (hx : Writes x v)
    (hf : ∀ b, Writes (f b) w) : Writes (x >>= f) (v ++ w) := by
  intro s
  obtain ⟨part, hsent, hpart, hall⟩ := hx s
  simp only [Bind.bind, Peer.bind]
  split
  · rename_i b s' hxs
    rw [hxs] at hsent hall
    obtain rfl := hall b rfl
    obtain ⟨part', hsent', hpart', hall'⟩ := hf b s'
    refine ⟨part ++ part', ?_, (List.prefix_append_right_inj part).mpr hpart', fun c hc => ?_⟩
    · rw [hsent', hsent, List.append_assoc]
    · rw [hall' c hc]
  · rename_i e s' hxs
    rw [hxs] at hsent
    exact ⟨part, hsent, hpart.trans (List.prefix_append _ _), nofun⟩

/-- A program that never ends well. -/
def Stuck (x : Peer α ε β) : Prop := ∀ s b, (x s).1 ≠ .ok b

theorem Stuck.fail (e : ε) : Stuck (fail e : Peer α ε β) := fun _ _ => nofun

theorem Stuck.bind_left {x : Peer α ε β} {f : β → Peer α ε γ} (hx : Stuck x) :
    Stuck (x >>= f) := by
  intro s c
  simp only [Bind.bind, Peer.bind]
  split
  · rename_i b s' hxs
    exact absurd (congrArg Prod.fst hxs) (hx s b)
  · exact nofun

theorem Stuck.bind_right {x : Peer α ε β} {f : β → Peer α ε γ} (hf : ∀ b, Stuck (f b)) :
    Stuck (x >>= f) := by
  intro s c
  simp only [Bind.bind, Peer.bind]
  split
  · exact hf _ _ _
  · exact nofun

/-- What would follow a program that never ends well is never written. -/
theorem Writes.bind_stuck {x : Peer α ε β} {f : β → Peer α ε γ} {v : List α} (hx : Writes x v)
    (hs : Stuck x) : Writes (x >>= f) v := by
  intro s
  obtain ⟨part, hsent, hpart, -⟩ := hx s
  simp only [Bind.bind, Peer.bind]
  split
  · rename_i b s' hxs
    exact absurd (congrArg Prod.fst hxs) (hs s b)
  · rename_i e s' hxs
    rw [hxs] at hsent
    exact ⟨part, hsent, hpart, nofun⟩

theorem Writes.bind_left {x : Peer α ε β} {f : β → Peer α ε γ} {v : List α} (hx : Writes x v)
    (hf : ∀ b, Writes (f b) []) : Writes (x >>= f) v :=
  List.append_nil v ▸ hx.bind hf

theorem Writes.bind_right {x : Peer α ε β} {f : β → Peer α ε γ} {w : List α} (hx : Writes x [])
    (hf : ∀ b, Writes (f b) w) : Writes (x >>= f) w :=
  hx.bind hf

theorem Writes.sent_ok {x : Peer α ε β} {w : List α} (h : Writes x w) {s s' : Socket α} {b : β}
    (hx : x s = (.ok b, s')) : s'.sent = s.sent ++ w := by
  obtain ⟨part, hsent, -, hall⟩ := h s
  rw [hx] at hsent hall
  rw [hsent, hall b rfl]

/-- What has been written on a fresh socket. -/
theorem Writes.sent {x : Peer α ε β} {w : List α} (h : Writes x w) {s : Socket α}
    (hs : s.sent = []) : (x s).2.sent <+: w := by
  obtain ⟨part, hsent, hpart, -⟩ := h s
  rw [hsent, hs, List.nil_append]
  exact hpart

end Peer

end Stream
