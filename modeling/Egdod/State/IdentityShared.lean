import Egdod.State.Identity

/-! One key path, many creators. A call reads, finds nothing, and renames its
own key into place; nothing ties the two together, so the result depends on
whether another call has renamed in between. -/
namespace Egdod.Identity

open Posix StepSystem Egdod.State

/-- When a call renames, the path was absent at its own read and no other call
has renamed since. -/
def undisturbed (s : State) : Action → Bool
  | .step i .ok =>
    match s.calls[i]? with
    | some c =>
      match c.pc with
      | .rename _ => c.before = none && c.epoch = s.disk.renames
      | _ => true
    | none => true
  | _ => true

def Undisturbed (s : State) (a : Action) : Prop := undisturbed s a = true

theorem Undisturbed.rename {s : State} {i : Nat} {c : Call} {k : SecretKey}
    (h : Undisturbed s (.step i .ok)) (hc : s.calls[i]? = some c) (hpc : c.pc = .rename k) :
    c.before = none ∧ c.epoch = s.disk.renames := by
  simpa [Undisturbed, undisturbed, hc, hpc] using h

/-- What a call knows of the path, and what it was told is what is there. -/
structure Call.Agrees (d : Disk) (c : Call) : Prop where
  stamp : c.pc ≠ .read →
    c.epoch ≤ d.renames ∧ (c.epoch = d.renames → d.fs.read .key = c.before)
  handed : ∀ k, c.pc = .returned (.ok k) → d.fs.read .key = some k.bytes

theorem readKey_some {d : Disk} {k : SecretKey} (h : d.readKey = .ok (some k)) :
    d.fs.read .key = some k.bytes := by
  unfold Disk.readKey Identity.readKey at h
  split at h
  case h_1 bytes hentry =>
    split at h
    · cases h
      cases hread : d.fs.read .key with
      | none => simp [hread, ofEntry] at hentry
      | some b =>
        simp only [hread, ofEntry, Except.ok.injEq] at hentry
        rw [hentry]
    · cases h
  case h_2 => cases h
  case h_3 => cases h

/-- A call is handed the key that stands at the path, read there or renamed there. -/
theorem Call.Moves.handed {d d' : Disk} {c c' : Call} {a : Answer} (h : Call.Moves d c a d' c')
    (hc : c.Staged d) {k : SecretKey} (hk : c'.pc = .returned (.ok k)) :
    d'.fs.read .key = some k.bytes := by
  cases h with
  | read r _ hr =>
    simp only [Call.saw, Call.onRead] at hk
    split at hk
    case h_1 =>
      cases hk
      exact readKey_some hr.symm
    case h_2 => cases hk
    case h_3 => split at hk <;> cases hk
  | readFail _ =>
    simp only [Call.saw, Call.onRead] at hk
    split at hk <;> cases hk
  | write _ _ _ _ _ _ _ =>
    dsimp only at hk
    split at hk <;> cases hk
  | rename k' fs hpc hfs =>
    cases hk
    simp only [Call.Staged, hpc] at hc
    exact (Files.read_rename hfs).trans hc
  | _ => cases hk

/-- A call looks at the path once, first. -/
theorem Call.Moves.seen {d d' : Disk} {c c' : Call} {a : Answer} (h : Call.Moves d c a d' c') :
    (c'.before = d.fs.read .key ∧ c'.epoch = d.renames) ∨
      (c.pc ≠ .read ∧ c'.before = c.before ∧ c'.epoch = c.epoch) := by
  cases h with
  | read _ _ _ | readFail _ => exact .inl ⟨rfl, rfl⟩
  | failed e he =>
    refine .inr ⟨fun hpc => ?_, rfl, rfl⟩
    simp [hpc, Pc.failsWith] at he
  | random k hpc | parent k hpc _ | noParent k hpc _ | parentFail k hpc | mkdir k hpc
  | restrict k hpc | create k hpc _ _ | refused k hpc _ | write k fd off n hpc _ _ | sync k hpc
  | rename k fs hpc _ =>
    exact .inr ⟨by simp [hpc], rfl, rfl⟩

/-- A step that leaves the path as it is keeps the mover's view of it. -/
theorem Call.Moves.agrees {d d' : Disk} {c c' : Call} {a : Answer} (h : Call.Moves d c a d' c')
    (hs : c.Staged d) (hc : c.Agrees d) (hkey : d'.fs.read .key = d.fs.read .key)
    (hren : d'.renames = d.renames) : c'.Agrees d' := by
  refine ⟨fun _ => ?_, fun k hk => h.handed hs hk⟩
  rcases h.seen with ⟨hbefore, hepoch⟩ | ⟨hread, hbefore, hepoch⟩
  · rw [hepoch, hren, hkey, hbefore]
    exact ⟨Nat.le_refl _, fun _ => rfl⟩
  · rw [hepoch, hren, hkey, hbefore]
    exact hc.stamp hread

theorem Call.Agrees.frame {d d' : Disk} {c : Call} (hc : c.Agrees d)
    (hkey : d'.fs.read .key = d.fs.read .key) (hren : d'.renames = d.renames) : c.Agrees d' := by
  constructor
  · intro hread
    rw [hren, hkey]
    exact hc.stamp hread
  · intro k hk
    rw [hkey]
    exact hc.handed k hk

/-- A rename onto an absent path overtakes nobody who was handed a key. -/
theorem Call.Agrees.overtaken {d d' : Disk} {c : Call} (hc : c.Agrees d)
    (habsent : d.fs.read .key = none) (hren : d'.renames = d.renames + 1) : c.Agrees d' := by
  constructor
  · intro hread
    have hle := (hc.stamp hread).1
    exact ⟨by omega, fun heq => by omega⟩
  · intro k hk
    have := hc.handed k hk
    simp [habsent] at this

structure Agreed (s : State) : Prop where
  sound : Sound s
  agrees : ∀ c ∈ s.calls, c.Agrees s.disk

/-- An undisturbed rename finds the path absent. -/
theorem Agreed.absent {s : State} (hs : Agreed s) {i : Nat} {c c' : Call} {a : Answer} {d : Disk}
    {k : SecretKey} (hok : Undisturbed s (.step i a)) (hc : s.calls[i]? = some c)
    (hm : Call.Moves s.disk c a d c') (hpc : c.pc = .rename k)
    (hpc' : c'.pc = .returned (.ok k)) : s.disk.fs.read .key = none := by
  have hans : a = .ok := by cases hm <;> simp_all
  subst hans
  obtain ⟨hbefore, hepoch⟩ := Undisturbed.rename hok hc hpc
  have hstamp := (hs.agrees c (List.mem_of_getElem? hc)).stamp (by simp [hpc])
  exact (hstamp.2 hepoch).trans hbefore

theorem Agreed.step {s s' : State} {a : Action} (hok : Undisturbed s a)
    (hstep : Identity.step s a = some s') (hs : Agreed s) :
    Agreed s' ∧ ∀ bytes, s.disk.fs.read .key = some bytes → s'.disk.fs.read .key = some bytes := by
  have hm := step_cases hstep
  have hsound := hm.sound hs.sound
  cases hm with
  | call pid u =>
    refine ⟨⟨hsound, ?_⟩, fun _ h => h⟩
    intro c hc
    rcases List.mem_append.mp hc with hc | hc
    · exact hs.agrees c hc
    · rw [List.mem_singleton.mp hc]
      exact ⟨fun h => absurd rfl h, fun k hk => by cases hk⟩
  | move i c a d c' hc hm =>
    have hcall := hs.agrees c (List.mem_of_getElem? hc)
    have hstaged := hs.sound.staged c (List.mem_of_getElem? hc)
    rcases hm.key hstaged with ⟨hkey, hren⟩ | ⟨k, hpc, hpc', hkey, hren⟩
    · refine ⟨⟨hsound, ?_⟩, fun bytes h => hkey.trans h⟩
      intro c₂ hmem
      rcases List.mem_or_eq_of_mem_set hmem with hmem | rfl
      · exact (hs.agrees c₂ hmem).frame hkey hren
      · exact hm.agrees hstaged hcall hkey hren
    · have habsent := hs.absent hok hc hm hpc hpc'
      refine ⟨⟨hsound, ?_⟩, fun bytes h => by simp [habsent] at h⟩
      intro c₂ hmem
      rcases List.mem_or_eq_of_mem_set hmem with hmem | rfl
      · exact (hs.agrees c₂ hmem).overtaken habsent hren
      · refine ⟨fun _ => ?_, fun k' hk' => hm.handed hstaged hk'⟩
        have hepoch : c₂.epoch = c.epoch := by cases hm <;> simp_all
        have hle := (hcall.stamp (by simp [hpc])).1
        simp only [hepoch, hren]
        exact ⟨by omega, fun heq => by omega⟩

theorem Agreed.run {s t : State} {as : List Action} (h : Steps Identity.step Undisturbed s as t)
    (hs : Agreed s) :
    Agreed t ∧ ∀ bytes, s.disk.fs.read .key = some bytes → t.disk.fs.read .key = some bytes := by
  refine h.invariant (I := fun u => Agreed u ∧
    ∀ bytes, s.disk.fs.read .key = some bytes → u.disk.fs.read .key = some bytes) ?_
    ⟨hs, fun _ h => h⟩
  rintro u a u' hok hstep ⟨hu, hkeep⟩
  obtain ⟨hu', hkeep'⟩ := hu.step hok hstep
  exact ⟨hu', fun bytes hb => hkeep' bytes (hkeep bytes hb)⟩

/-- Nothing has been called yet. -/
def State.start (fs : Files Name) (parent : Bool) : State := ⟨⟨fs, parent, 0⟩, []⟩

theorem Agreed.start (fs : Files Name) (parent : Bool) : Agreed (.start fs parent) where
  sound := ⟨by simp [State.start], by simp [State.start]⟩
  agrees := by simp [State.start]

/-- In every run whose renames are all undisturbed, the calls that were handed a key were handed
the same one, it is the one at the path, and a key once at the path stays there. -/
theorem handed_key_on_disk {fs : Files Name} {parent : Bool} (habsent : fs.dir .key = none)
    {as : List Action} {t : State} (h : Steps step Undisturbed (.start fs parent) as t) :
    (∀ c ∈ t.calls, ∀ c' ∈ t.calls, ∀ k k', c.pc = .returned (.ok k) →
      c'.pc = .returned (.ok k') → k = k') ∧
    (∀ c ∈ t.calls, ∀ k, c.pc = .returned (.ok k) → t.disk.fs.read .key = some k.bytes) ∧
    (∀ bs u bytes, Steps step Undisturbed t bs u → t.disk.fs.read .key = some bytes →
      bytes.length = 32 ∧ u.disk.fs.read .key = some bytes) := by
  obtain ⟨hagreed, -⟩ := Agreed.run h (.start fs parent)
  refine ⟨?_, ?_, ?_⟩
  · intro c hc c' hc' k k' hk hk'
    have hread := (hagreed.agrees c hc).handed k hk
    rw [(hagreed.agrees c' hc').handed k' hk', Option.some.injEq] at hread
    cases k
    cases k'
    simpa using hread.symm
  · intro c hc
    exact (hagreed.agrees c hc).handed
  · intro bs u bytes hbs hread
    refine ⟨?_, (hagreed.run hbs).2 bytes hread⟩
    rcases Whole.run h (Agreed.start fs parent).sound with hwhole | ⟨k, hwhole⟩
    · have hnone : (State.start fs parent).disk.fs.read .key = none := by
        simp [State.start, Files.read, Files.stat, habsent]
      rw [hread, hnone] at hwhole
      cases hwhole
    · rw [hread, Option.some.injEq] at hwhole
      rw [hwhole]
      exact k.size

theorem length_filled (b : UInt8) : (List.replicate 32 b).length = 32 := List.length_replicate

/-- A key of one repeated byte. -/
def SecretKey.filled (b : UInt8) : SecretKey := ⟨List.replicate 32 b, length_filled b⟩

/-- The steps of call `i` from its read to its rename, when it creates the key `k`. -/
def creates (i : Nat) (k : SecretKey) : List Action :=
  [.step i .ok, .step i (.key k), .step i .ok, .step i .ok, .step i (.wrote 32), .step i .ok,
    .step i .ok]

/-- A second call that reads after the first one's rename is handed the first one's key. -/
theorem handed_key_on_disk_second :
    ∃ t, run step (.start .empty true) ([.call 7 .replace, .call 8 .replace] ++
        creates 0 (.filled 1) ++ [.step 1 .ok]) = some t ∧
      t.calls.map Call.pc = [.returned (.ok (.filled 1)), .returned (.ok (.filled 1))] ∧
      t.disk.fs.read .key = some (List.replicate 32 1) := by
  obtain ⟨t, hrun, hpcs⟩ : ∃ t, run (fun s a => if undisturbed s a then step s a else none)
      (.start .empty true) ([.call 7 .replace, .call 8 .replace] ++
        creates 0 (.filled 1) ++ [.step 1 .ok]) = some t ∧
      t.calls.map Call.pc = [.returned (.ok (.filled 1)), .returned (.ok (.filled 1))] :=
    ⟨_, rfl, by decide +kernel⟩
  have hsteps : Steps step Undisturbed (.start .empty true) _ t :=
    Steps.of_check hrun
  have hcall : ∃ c ∈ t.calls, c.pc = .returned (.ok (.filled 1)) :=
    List.mem_map.mp (hpcs ▸ List.mem_cons_self)
  obtain ⟨c, hc, hpc⟩ := hcall
  exact ⟨t, hsteps.run_eq, hpcs, (handed_key_on_disk rfl hsteps).2.1 c hc _ hpc⟩

/-- Two calls that both read before either renames are handed different keys, and the first
one's key is gone from the path. -/
theorem handed_keys_differ :
    ∃ t, run step (.start .empty true) ([.call 7 .replace, .call 8 .replace, .step 0 .ok] ++
        creates 1 (.filled 2) ++ (creates 0 (.filled 1)).tail) = some t ∧
      t.calls.map Call.pc = [.returned (.ok (.filled 1)), .returned (.ok (.filled 2))] ∧
      t.disk.fs.read .key = some (List.replicate 32 1) := by
  refine ⟨_, rfl, ?_, ?_⟩ <;> decide +kernel

end Egdod.Identity
