import Mathlib.Data.List.Basic

/-!
# Loops that may fail

How to reason about a loop in `Except` that ran to its end.
-/

namespace Except

variable {ε α β σ : Type}

/-- What is known when a sequence of two steps did not fail. -/
theorem of_bind_ok {x : Except ε α} {f : α → Except ε β} {b : β} (h : (x >>= f) = .ok b) :
    ∃ a, x = .ok a ∧ f a = .ok b := by
  cases x with
  | error e => cases h
  | ok a => exact ⟨a, rfl, h⟩

theorem of_bind_error {x : Except ε α} {f : α → Except ε β} {e : ε} (h : (x >>= f) = .error e) :
    x = .error e ∨ ∃ a, x = .ok a ∧ f a = .error e := by
  cases x with
  | error e' =>
      cases h
      exact .inl rfl
  | ok a => exact .inr ⟨a, rfl, h⟩

/-- The invariant rule: `P` speaks of the elements already done and the state. -/
theorem foldlM_ok {f : σ → α → Except ε σ} (P : List α → σ → Prop) {as : List α} {s s' : σ}
    (h : as.foldlM f s = .ok s') (h₀ : P [] s)
    (hstep : ∀ {done s a s'}, P done s → f s a = .ok s' → P (done ++ [a]) s') : P as s' := by
  suffices key : ∀ (todo : List α) {done : List α} {s : σ}, P done s →
      todo.foldlM f s = .ok s' → P (done ++ todo) s' from key as h₀ h
  intro todo
  induction todo with
  | nil =>
      intro done s hP h
      obtain rfl : s = s' := Except.ok.inj h
      simpa using hP
  | cons a todo ih =>
      intro done s hP h
      rw [List.foldlM_cons] at h
      obtain ⟨s₁, h₁, hrest⟩ := of_bind_ok h
      simpa using ih (hstep hP h₁) hrest

/-- A loop that failed did so at one of its elements, and the invariant held there. -/
theorem foldlM_error {f : σ → α → Except ε σ} (P : σ → Prop) {as : List α} {s : σ} {e : ε}
    (h : as.foldlM f s = .error e) (h₀ : P s)
    (hstep : ∀ {s a s'}, a ∈ as → P s → f s a = .ok s' → P s') :
    ∃ s' a, a ∈ as ∧ P s' ∧ f s' a = .error e := by
  induction as generalizing s with
  | nil => cases h
  | cons a as ih =>
      rw [List.foldlM_cons] at h
      cases ha : f s a with
      | error e' =>
          rw [ha] at h
          cases h
          exact ⟨s, a, List.mem_cons_self, h₀, ha⟩
      | ok s₁ =>
          rw [ha] at h
          obtain ⟨s', a', ha', hP, hfail⟩ := ih h (hstep List.mem_cons_self h₀ ha)
            fun hmem => hstep (List.mem_cons_of_mem _ hmem)
          exact ⟨s', a', List.mem_cons_of_mem _ ha', hP, hfail⟩

/-- The simulation rule: two loops over lists in step, whose bodies keep a relation of
the states, keep it to the end; the second fails only if the first does. -/
theorem foldlM_sim {σ' β : Type} {f : σ → α → Except ε σ} {g : σ' → β → Except ε σ'}
    {R : σ → σ' → Prop} {A : α → β → Prop}
    (hstep : ∀ {s s' a b s₁}, R s s' → A a b → f s a = .ok s₁ →
      ∃ s₁', g s' b = .ok s₁' ∧ R s₁ s₁')
    {as : List α} {bs : List β} (hlists : List.Forall₂ A as bs) {s s₁ : σ} {s' : σ'}
    (hR : R s s') (h : as.foldlM f s = .ok s₁) :
    ∃ s₁', bs.foldlM g s' = .ok s₁' ∧ R s₁ s₁' := by
  induction hlists generalizing s s' with
  | nil =>
      obtain rfl : s = s₁ := Except.ok.inj h
      exact ⟨s', rfl, hR⟩
  | cons hab _ ih =>
      rw [List.foldlM_cons] at h
      obtain ⟨s₂, h₂, hrest⟩ := of_bind_ok h
      obtain ⟨s₂', h₂', hR'⟩ := hstep hR hab h₂
      obtain ⟨s₁', h₁', hR₁⟩ := ih hR' hrest
      refine ⟨s₁', ?_, hR₁⟩
      rw [List.foldlM_cons, h₂']
      exact h₁'

/-- A loop that maps each element to one in relation with it. -/
theorem mapM_ok {f : α → Except ε β} {R : α → β → Prop} {as : List α}
    (h : ∀ a ∈ as, ∃ b, f a = .ok b ∧ R a b) :
    ∃ bs, as.mapM f = .ok bs ∧ List.Forall₂ R as bs := by
  induction as with
  | nil => exact ⟨[], rfl, .nil⟩
  | cons a as ih =>
      obtain ⟨b, hb, hR⟩ := h a List.mem_cons_self
      obtain ⟨bs, hbs, hrel⟩ := ih fun a ha => h a (List.mem_cons_of_mem _ ha)
      refine ⟨b :: bs, ?_, .cons hR hrel⟩
      rw [List.mapM_cons, hb, hbs]
      rfl

/-- A loop of checks passes if each of them does. -/
theorem forM_ok {f : α → Except ε Unit} {as : List α} :
    as.forM f = .ok () ↔ ∀ a ∈ as, f a = .ok () := by
  induction as with
  | nil => exact ⟨fun _ a ha => absurd ha List.not_mem_nil, fun _ => rfl⟩
  | cons a as ih =>
      rw [List.forall_mem_cons, ← ih]
      change (f a >>= fun _ => as.forM f) = _ ↔ _
      cases f a with
      | error e => exact ⟨fun h => (nomatch h), fun h => nomatch h.1⟩
      | ok _ => exact ⟨fun h => ⟨rfl, h⟩, fun h => h.2⟩

end Except

/-- A loop that collects its output: what is collected before it stays in front. -/
theorem List.foldl_collect {σ α β : Type} {f : σ × List α → β → σ × List α}
    (hf : ∀ s out b, f (s, out) b = ((f (s, []) b).1, out ++ (f (s, []) b).2)) (bs : List β)
    (s : σ) (out : List α) :
    bs.foldl f (s, out) = ((bs.foldl f (s, [])).1, out ++ (bs.foldl f (s, [])).2) := by
  induction bs generalizing s out with
  | nil => simp
  | cons b bs ih =>
      rw [List.foldl_cons, List.foldl_cons, hf s out b, ih, ih (f (s, []) b).1 (f (s, []) b).2,
        List.append_assoc]
