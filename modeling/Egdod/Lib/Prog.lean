import Mathlib.Logic.Basic

/-! Sequential programs over a world that also changes by what the outside
answers. A program runs on the list of answers it will be given: it is done,
or it has used them all up and waits, in a world that is then a reachable one.
A program that serves forever is studied through its waiting worlds, one for
every finite list of answers. -/
namespace Asking

inductive Result (W A α : Type)
  | done (value : α) (world : W) (rest : List A)
  | waiting (world : W)
  /-- The program is gone: it ended, or another took its place. -/
  | halted (world : W)
  /-- The outside gave an answer that it cannot give here. -/
  | invalid

def Prog (W A α : Type) := W → List A → Result W A α

namespace Prog

variable {W A α β γ : Type}

def bind (p : Prog W A α) (f : α → Prog W A β) : Prog W A β := fun w as =>
  match p w as with
  | .done a w' rest => f a w' rest
  | .waiting w' => .waiting w'
  | .halted w' => .halted w'
  | .invalid => .invalid

instance : Monad (Prog W A) where
  pure a := fun w as => .done a w as
  bind := bind

def read (f : W → α) : Prog W A α := fun w as => .done (f w) w as

def update (f : W → W) : Prog W A Unit := fun w as => .done () (f w) as

/-- Takes the next answer, which `f` may refuse. -/
def ask (f : W → A → Option (α × W)) : Prog W A α := fun w as =>
  match as with
  | [] => .waiting w
  | a :: rest =>
    match f w a with
    | some (x, w') => .done x w' rest
    | none => .invalid

def halt : Prog W A α := fun w _ => .halted w

/-- Waits, whatever is answered. -/
def hang : Prog W A α := fun w _ => .waiting w

/-- Rounds of a loop, at most `fuel` of them. -/
def rounds (body : β → Prog W A (β ⊕ γ)) : Nat → β → Prog W A γ
  | 0, _ => fun w _ => .waiting w
  | fuel + 1, b => fun w as =>
    match body b w as with
    | .done (.inl b') w' rest => rounds body fuel b' w' rest
    | .done (.inr c) w' rest => .done c w' rest
    | .waiting w' => .waiting w'
    | .halted w' => .halted w'
    | .invalid => .invalid

/-- A loop whose body goes on (`inl`) or leaves (`inr`). Every round is meant to take an
answer, so the number of answers bounds the number of rounds. -/
def loop (body : β → Prog W A (β ⊕ γ)) (b : β) : Prog W A γ := fun w as =>
  rounds body (as.length + 1) b w as

end Prog

/-! ## Specifications -/

variable {W A α β γ : Type}

/-- Whether the program waits in a world that passes a test. -/
def Result.waitsIn (test : W → Bool) : Result W A α → Bool
  | .waiting w => test w
  | _ => false

theorem Result.of_waitsIn {r : Result W A α} {test : W → Bool} (h : r.waitsIn test = true) :
    ∃ w, r = .waiting w ∧ test w = true := by
  cases r with
  | waiting w => exact ⟨w, rfl, h⟩
  | done | halted | invalid => cases h

def Result.Meets (I : W → Prop) (Q : α → W → Prop) : Result W A α → Prop
  | .done a w _ => Q a w
  | .waiting w | .halted w => I w
  | .invalid => True

/-- From a world in `P` the program only waits or halts in worlds of `I`, and is done only
with a value and a world in `Q`. -/
def Spec (P : W → Prop) (p : Prog W A α) (I : W → Prop) (Q : α → W → Prop) : Prop :=
  ∀ w as, P w → (p w as).Meets I Q

namespace Spec

variable {P P' I I' : W → Prop} {Q Q' : α → W → Prop}

theorem mono {p : Prog W A α} (h : Spec P p I Q) (hP : ∀ w, P' w → P w) (hI : ∀ w, I w → I' w)
    (hQ : ∀ a w, Q a w → Q' a w) : Spec P' p I' Q' := by
  intro w as hw
  have := h w as (hP w hw)
  cases hr : p w as with
  | done a w' rest =>
    rw [hr] at this
    exact hQ a w' this
  | waiting w' | halted w' =>
    rw [hr] at this
    exact hI w' this
  | invalid => trivial

theorem pure {a : α} (h : ∀ w, P w → Q a w) : Spec P (Pure.pure a : Prog W A α) I Q :=
  fun w _ hw => h w hw

theorem bind {p : Prog W A α} {f : α → Prog W A β} {R : β → W → Prop} (hp : Spec P p I Q)
    (hf : ∀ a, Spec (Q a) (f a) I R) : Spec P (p >>= f) I R := by
  intro w as hw
  have := hp w as hw
  show (Prog.bind p f w as).Meets I R
  unfold Prog.bind
  cases hr : p w as with
  | done a w' rest =>
    rw [hr] at this
    exact hf a w' rest this
  | waiting w' | halted w' =>
    rw [hr] at this
    exact this
  | invalid => trivial

theorem read {f : W → α} (h : ∀ w, P w → Q (f w) w) : Spec P (Prog.read f : Prog W A α) I Q :=
  fun w _ hw => h w hw

/-- What is read in a known world is known. -/
theorem bind_read {f : W → α} {k : α → Prog W A β} {w : W} {R : β → W → Prop}
    (h : Spec (· = w) (k (f w)) I R) : Spec (· = w) (Prog.read f >>= k) I R := by
  rintro w' as rfl
  exact h w' as rfl

theorem update {f : W → W} {Q : Unit → W → Prop} (h : ∀ w, P w → Q () (f w)) :
    Spec P (Prog.update f : Prog W A Unit) I Q :=
  fun w _ hw => h w hw

theorem ask {f : W → A → Option (α × W)} (hI : ∀ w, P w → I w)
    (h : ∀ w a x w', P w → f w a = some (x, w') → Q x w') : Spec P (Prog.ask f) I Q := by
  intro w as hw
  cases as with
  | nil => exact hI w hw
  | cons a rest =>
    unfold Prog.ask
    dsimp only
    cases hf : f w a with
    | none => trivial
    | some r => exact h w a r.1 r.2 hw hf

theorem halt (h : ∀ w, P w → I w) : Spec P (Prog.halt : Prog W A α) I Q := fun w _ hw => h w hw

theorem hang (h : ∀ w, P w → I w) : Spec P (Prog.hang : Prog W A α) I Q := fun w _ hw => h w hw

theorem ite {c : Prop} [Decidable c] {p q : Prog W A α} (hp : c → Spec P p I Q)
    (hq : ¬ c → Spec P q I Q) : Spec P (if c then p else q) I Q := by
  split
  · exact hp ‹_›
  · exact hq ‹_›

theorem or {p : Prog W A α} (h : Spec P p I Q) (h' : Spec P' p I Q) :
    Spec (fun w => P w ∨ P' w) p I Q := by
  rintro w as (hw | hw)
  · exact h w as hw
  · exact h' w as hw

theorem and {p : Prog W A α} (h : Spec P p I Q) (h' : Spec P' p I' Q') :
    Spec (fun w => P w ∧ P' w) p (fun w => I w ∧ I' w) (fun a w => Q a w ∧ Q' a w) := by
  rintro w as ⟨hw, hw'⟩
  have := h w as hw
  have := h' w as hw'
  cases hr : p w as <;> simp_all [Result.Meets]

theorem anything {p : Prog W A α} : Spec P p (fun _ => True) (fun _ _ => True) := by
  intro w as _
  cases p w as <;> trivial

/-- A loop keeps what each of its rounds keeps. -/
theorem loop {body : β → Prog W A (β ⊕ γ)} {J : β → W → Prop} {R : γ → W → Prop}
    (hI : ∀ b w, J b w → I w)
    (hbody : ∀ b, Spec (J b) (body b) I (fun r w => r.elim (J · w) (R · w)))
    (b : β) : Spec (J b) (Prog.loop body b) I R := by
  intro w as hw
  unfold Prog.loop
  generalize as.length + 1 = fuel
  induction fuel generalizing b w as with
  | zero => exact hI b w hw
  | succ fuel ih =>
    have := hbody b w as hw
    unfold Prog.rounds
    cases hr : body b w as with
    | done r w' rest =>
      rw [hr] at this
      cases r with
      | inl b' => exact ih b' w' rest this
      | inr c => exact this
    | waiting w' | halted w' =>
      rw [hr] at this
      exact this
    | invalid => trivial

end Spec

/-! ## Programs that stay within a relation -/

/-- Wherever the program waits or ends, the world stands in `R` to the one it began in. -/
def Stays (R : W → W → Prop) (p : Prog W A α) : Prop := ∀ w, Spec (· = w) p (R w) (fun _ => R w)

namespace Stays

variable {R : W → W → Prop}

theorem spec {p : Prog W A α} (h : Stays R p) {P I : W → Prop} {Q : α → W → Prop}
    (hI : ∀ w w', P w → R w w' → I w') (hQ : ∀ a w w', P w → R w w' → Q a w') :
    Spec P p I Q := by
  intro w as hw
  exact (h w).mono (fun _ e => e) (fun w' hr => hI w w' hw hr) (fun a w' hr => hQ a w w' hw hr)
    w as rfl

theorem mono {R' : W → W → Prop} {p : Prog W A α} (h : Stays R p)
    (weaken : ∀ w w', R w w' → R' w w') : Stays R' p :=
  fun w => (h w).mono (fun _ e => e) (weaken w) (fun _ => weaken w)

theorem pure (refl : ∀ w, R w w) (a : α) : Stays R (Pure.pure a : Prog W A α) :=
  fun w => Spec.pure fun _ e => e ▸ refl w

theorem read (refl : ∀ w, R w w) (f : W → α) : Stays R (Prog.read f : Prog W A α) :=
  fun w => Spec.read fun _ e => e ▸ refl w

theorem update {f : W → W} (h : ∀ w, R w (f w)) : Stays R (Prog.update f : Prog W A Unit) :=
  fun w => Spec.update fun _ e => e ▸ h w

theorem ask (refl : ∀ w, R w w) {f : W → A → Option (α × W)}
    (h : ∀ w a x w', f w a = some (x, w') → R w w') : Stays R (Prog.ask f) :=
  fun w => Spec.ask (fun _ e => e ▸ refl w) (fun _ a x w' e hf => e ▸ h _ a x w' hf)

theorem bind (trans : ∀ {u v w}, R u v → R v w → R u w) {p : Prog W A α} {f : α → Prog W A β}
    (hp : Stays R p) (hf : ∀ a, Stays R (f a)) : Stays R (p >>= f) := by
  intro w
  refine Spec.bind (hp w) fun a => ?_
  exact (hf a).spec (fun _ _ h h' => trans h h') (fun _ _ _ h h' => trans h h')

theorem ite {c : Prop} [Decidable c] {p q : Prog W A α} (hp : c → Stays R p)
    (hq : ¬ c → Stays R q) : Stays R (if c then p else q) :=
  fun w => Spec.ite (fun h => hp h w) (fun h => hq h w)

end Stays

end Asking
