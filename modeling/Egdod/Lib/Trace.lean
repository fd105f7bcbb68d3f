import Mathlib.Data.List.Basic

/-! Traces in which what is opened gets closed. -/
namespace Trace

variable {α : Type} {p q : α → Prop} {log : List α} {c : α}

/-- Every `p` of the trace has a `q` after it. -/
def Followed (p q : α → Prop) (log : List α) : Prop :=
  ∀ pre c post, log = pre ++ c :: post → p c → ∃ d ∈ post, q d

theorem Followed.of_forall_not (h : ∀ c ∈ log, ¬ p c) : Followed p q log := by
  intro pre c post hsplit hc
  exact absurd hc (h c (by simp [hsplit]))

/-- Where a trace one longer splits, the old trace did, or it is at the end. -/
theorem snoc_eq_append_cons {pre post : List α} {d : α} (h : log ++ [c] = pre ++ d :: post) :
    (pre = log ∧ d = c ∧ post = []) ∨ ∃ post', post = post' ++ [c] ∧ log = pre ++ d :: post' := by
  rcases List.eq_nil_or_concat post with rfl | ⟨post', x, rfl⟩
  · obtain ⟨hlog, hc⟩ := List.append_inj' h rfl
    cases hc
    exact .inl ⟨hlog.symm, rfl, rfl⟩
  · rw [List.concat_eq_append] at h ⊢
    rw [← List.cons_append, ← List.append_assoc] at h
    obtain ⟨hlog, hc⟩ := List.append_inj' h rfl
    cases hc
    exact .inr ⟨post', rfl, hlog⟩

theorem Followed.snoc (h : Followed p q log) (hc : ¬ p c) : Followed p q (log ++ [c]) := by
  intro pre d post hsplit hd
  rcases snoc_eq_append_cons hsplit with ⟨-, rfl, -⟩ | ⟨post', rfl, hlog⟩
  · exact absurd hd hc
  · obtain ⟨e, he, hq⟩ := h pre d post' hlog hd
    exact ⟨e, List.mem_append_left _ he, hq⟩

/-- A `q` at the end settles everything before it. -/
theorem Followed.close (hp : ¬ p c) (hq : q c) : Followed p q (log ++ [c]) := by
  intro pre d post hsplit hd
  rcases snoc_eq_append_cons hsplit with ⟨-, rfl, -⟩ | ⟨post', rfl, -⟩
  · exact absurd hd hp
  · exact ⟨c, by simp, hq⟩

end Trace
