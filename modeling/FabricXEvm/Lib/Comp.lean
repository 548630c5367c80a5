import Mathlib.Tactic

/-!
# Computations with an environment, a state and errors

`Comp ρ σ ε α` reads an environment `ρ`, threads a state `σ` and may stop with an error
`ε`.

A `Motion` fixes how a state may move, and `Moves` says that every successful run of a
computation is such a move.  A `Footprint` also fixes which keys a move touches.  A
computation is *local* for it when every successful run makes such a move, and when the
run only depends on the environment through the keys it touched: another environment that
agrees there gives the same result and the same state.

Two environments are the *same* to a computation when its runs on them are equal.  A
computation *simulates* a step of an abstract model when it returns what the step returns and
keeps the relation to the model.

All four are closed under `pure` and `bind`, so they are proved once for each primitive and
then read off a program's text.
-/

/-- A computation that reads an environment, threads a state and may fail. -/
def Comp (ρ σ ε α : Type) : Type := ρ → σ → Except ε (α × σ)

namespace Comp

variable {ρ σ ε α β κ : Type}

instance : Monad (Comp ρ σ ε) where
  pure a := fun _ s => .ok (a, s)
  bind m f := fun e s =>
    match m e s with
    | .ok (a, s') => f a e s'
    | .error x => .error x

/-- Read the environment. -/
def ask : Comp ρ σ ε ρ := fun e s => .ok (e, s)

/-- Read the state. -/
def get : Comp ρ σ ε σ := fun _ s => .ok (s, s)

/-- Update the state. -/
def modify (f : σ → σ) : Comp ρ σ ε Unit := fun _ s => .ok ((), f s)

/-- Stop. -/
def throw (x : ε) : Comp ρ σ ε α := fun _ _ => .error x

theorem bind_run_ok {m : Comp ρ σ ε α} {f : α → Comp ρ σ ε β} {e : ρ} {s s' : σ} {a : α}
    (h : m e s = .ok (a, s')) : (m >>= f) e s = f a e s' := by
  change (match m e s with
    | .ok (a, s') => f a e s'
    | .error x => .error x) = _
  rw [h]

/-- A successful sequence succeeds at its first half and then at its second. -/
theorem of_bind_ok {m : Comp ρ σ ε α} {f : α → Comp ρ σ ε β} {e : ρ} {s t : σ} {b : β}
    (h : (m >>= f) e s = .ok (b, t)) :
    ∃ a s', m e s = .ok (a, s') ∧ f a e s' = .ok (b, t) := by
  change (match m e s with
    | .ok (a, s') => f a e s'
    | .error x => .error x) = _ at h
  cases hm : m e s with
  | ok r =>
      rw [hm] at h
      exact ⟨r.1, r.2, rfl, h⟩
  | error x =>
      rw [hm] at h
      cases h

theorem bind_assoc (m : Comp ρ σ ε α) (f : α → Comp ρ σ ε β) {γ : Type}
    (g : β → Comp ρ σ ε γ) : (m >>= f) >>= g = m >>= fun a => f a >>= g := by
  funext e s
  change (match (match m e s with
    | .ok (a, s') => f a e s'
    | .error x => .error x) with
    | .ok (b, s') => g b e s'
    | .error x => .error x) = match m e s with
    | .ok (a, s') => (f a >>= g) e s'
    | .error x => .error x
  cases m e s with
  | ok r => rfl
  | error x => rfl

/-! ## Motions -/

/-- How a state may move. -/
structure Motion (σ : Type) where
  rel : σ → σ → Prop
  refl : ∀ s, rel s s
  trans : ∀ {s t u}, rel s t → rel t u → rel s u

/-- The successful runs of `m` in the environment `e` are moves of `M`. -/
def Moves (M : Motion σ) (e : ρ) (m : Comp ρ σ ε α) : Prop :=
  ∀ ⦃s a t⦄, m e s = .ok (a, t) → M.rel s t

namespace Moves

variable {M : Motion σ} {e : ρ}

theorem pure (a : α) : Moves M e (Pure.pure a : Comp ρ σ ε α) := by
  intro s b t h
  cases h
  exact M.refl s

theorem throw (x : ε) : Moves M e (Comp.throw x : Comp ρ σ ε α) := by
  intro s b t h
  cases h

theorem get : Moves M e (Comp.get : Comp ρ σ ε σ) := by
  intro s b t h
  cases h
  exact M.refl s

theorem modify {f : σ → σ} (hf : ∀ s, M.rel s (f s)) :
    Moves M e (Comp.modify f : Comp ρ σ ε Unit) := by
  intro s b t h
  cases h
  exact hf s

theorem bind {m : Comp ρ σ ε α} {f : α → Comp ρ σ ε β} (hm : Moves M e m)
    (hf : ∀ a, Moves M e (f a)) : Moves M e (m >>= f) := by
  intro s b t h
  obtain ⟨a, s', h₁, h₂⟩ := of_bind_ok h
  exact M.trans (hm h₁) (hf a h₂)

theorem ask_bind {f : ρ → Comp ρ σ ε α} (hf : Moves M e (f e)) :
    Moves M e (Comp.ask >>= f) :=
  fun _ _ _ h => hf h

end Moves

/-! ## Footprints -/

/-- How a state may move, which keys a move touches, and what it means for two
environments to agree at a key.  `base` is what they have in common at every key. -/
structure Footprint (ρ σ κ : Type) where
  le : σ → σ → Prop
  refl : ∀ s, le s s
  trans : ∀ {s t u}, le s t → le t u → le s u
  touched : σ → σ → κ → Prop
  touched_left : ∀ {s t u k}, le s t → le t u → touched s t k → touched s u k
  touched_right : ∀ {s t u k}, le s t → le t u → touched t u k → touched s u k
  base : ρ → ρ → Prop
  agree : ρ → ρ → κ → Prop

/-- The runs of `m` are moves of `F` and depend on the environment only through what
they touched. -/
structure Local (F : Footprint ρ σ κ) (m : Comp ρ σ ε α) : Prop where
  moves : ∀ {e s a s'}, m e s = .ok (a, s') → F.le s s'
  transfer : ∀ {e₁ e₂ s a s'}, m e₁ s = .ok (a, s') → F.base e₁ e₂ →
    (∀ k, F.touched s s' k → F.agree e₁ e₂ k) → m e₂ s = .ok (a, s')

namespace Local

variable {F : Footprint ρ σ κ}

theorem pure (a : α) : Local F (Pure.pure a : Comp ρ σ ε α) where
  moves h := by
    cases h
    exact F.refl _
  transfer h _ _ := h

theorem throw (x : ε) : Local F (Comp.throw x : Comp ρ σ ε α) where
  moves h := by cases h
  transfer h _ _ := h

theorem get : Local F (Comp.get : Comp ρ σ ε σ) where
  moves h := by
    cases h
    exact F.refl _
  transfer h _ _ := h

/-- An update of the state is local when it is a move. -/
theorem modify {f : σ → σ} (h : ∀ s, F.le s (f s)) :
    Local F (Comp.modify f : Comp ρ σ ε Unit) where
  moves hr := by
    cases hr
    exact h _
  transfer hr _ _ := hr

theorem bind {m : Comp ρ σ ε α} {f : α → Comp ρ σ ε β} (hm : Local F m)
    (hf : ∀ a, Local F (f a)) : Local F (m >>= f) where
  moves h := by
    obtain ⟨a, s', h₁, h₂⟩ := of_bind_ok h
    exact F.trans (hm.moves h₁) ((hf a).moves h₂)
  transfer h hb hk := by
    obtain ⟨a, s', h₁, h₂⟩ := of_bind_ok h
    have hle := hm.moves h₁
    have hle' := (hf a).moves h₂
    rw [bind_run_ok (hm.transfer h₁ hb fun k ht => hk k (F.touched_left hle hle' ht))]
    exact (hf a).transfer h₂ hb fun k ht => hk k (F.touched_right hle hle' ht)

/-- A computation that reads the environment is local when it is local for each one, and
when environments with a common base give the same computation. -/
theorem ask_bind {f : ρ → Comp ρ σ ε α} (hf : ∀ e, Local F (f e))
    (hbase : ∀ e₁ e₂, F.base e₁ e₂ → f e₁ = f e₂) : Local F (Comp.ask >>= f) where
  moves {e} _ _ _ h := (hf e).moves h
  transfer {e₁ e₂} s a s' h hb hk := by
    change f e₂ e₂ s = .ok (a, s')
    rw [← hbase e₁ e₂ hb]
    exact (hf e₁).transfer h hb hk

/-- Locality for a finer notion of move gives locality for a coarser one. -/
theorem mono {G : Footprint ρ σ κ} {m : Comp ρ σ ε α} (h : Local F m)
    (hle : ∀ {s t}, F.le s t → G.le s t)
    (htouched : ∀ {s t k}, F.touched s t k → G.touched s t k)
    (hbase : ∀ {e₁ e₂}, G.base e₁ e₂ → F.base e₁ e₂)
    (hagree : ∀ {e₁ e₂ k}, G.agree e₁ e₂ k → F.agree e₁ e₂ k) : Local G m where
  moves hm := hle (h.moves hm)
  transfer hm hb hk :=
    h.transfer hm (hbase hb) fun k ht => hagree (hk k (htouched ht))

end Local

/-! ## Environments that are not told apart -/

/-- The runs of `m` in two environments are equal, the failing ones included. -/
def Same (e₁ e₂ : ρ) (m : Comp ρ σ ε α) : Prop := ∀ s, m e₁ s = m e₂ s

namespace Same

variable {e₁ e₂ : ρ}

theorem pure (a : α) : Same e₁ e₂ (Pure.pure a : Comp ρ σ ε α) := fun _ => rfl

theorem throw (x : ε) : Same e₁ e₂ (Comp.throw x : Comp ρ σ ε α) := fun _ => rfl

theorem get : Same e₁ e₂ (Comp.get : Comp ρ σ ε σ) := fun _ => rfl

theorem modify (f : σ → σ) : Same e₁ e₂ (Comp.modify f : Comp ρ σ ε Unit) := fun _ => rfl

theorem bind {m : Comp ρ σ ε α} {f : α → Comp ρ σ ε β} (hm : Same e₁ e₂ m)
    (hf : ∀ a, Same e₁ e₂ (f a)) : Same e₁ e₂ (m >>= f) := by
  intro s
  change (match m e₁ s with
    | .ok (a, s') => f a e₁ s'
    | .error x => .error x) = match m e₂ s with
    | .ok (a, s') => f a e₂ s'
    | .error x => .error x
  rw [hm s]
  cases m e₂ s with
  | error x => rfl
  | ok r => exact hf r.1 r.2

theorem ask_bind {f : ρ → Comp ρ σ ε α} (hf : Same e₁ e₂ (f e₁)) (heq : f e₁ = f e₂) :
    Same e₁ e₂ (Comp.ask >>= f) := by
  intro s
  change f e₁ e₁ s = f e₂ e₂ s
  rw [← heq]
  exact hf s

end Same

/-! ## Simulations -/

/-- From every state that represents `w`, `m` returns `a` and ends in one that represents
`w'`. -/
def Sim {ω : Type} (R : σ → ω → Prop) (e : ρ) (m : Comp ρ σ ε α) (w : ω) (a : α) (w' : ω) : Prop :=
  ∀ ⦃s⦄, R s w → ∃ t, m e s = .ok (a, t) ∧ R t w'

namespace Sim

variable {ω : Type} {R : σ → ω → Prop} {e : ρ} {w w' w'' : ω}

theorem pure (a : α) : Sim R e (Pure.pure a : Comp ρ σ ε α) w a w := fun s hs => ⟨s, rfl, hs⟩

theorem modify {f : σ → σ} (hf : ∀ s, R s w → R (f s) w') :
    Sim R e (Comp.modify f : Comp ρ σ ε Unit) w () w' := fun s hs => ⟨f s, rfl, hf s hs⟩

theorem bind {m : Comp ρ σ ε α} {f : α → Comp ρ σ ε β} {a : α} {b : β} (hm : Sim R e m w a w')
    (hf : Sim R e (f a) w' b w'') : Sim R e (m >>= f) w b w'' := by
  intro s hs
  obtain ⟨s', h₁, hs'⟩ := hm hs
  obtain ⟨t, h₂, ht⟩ := hf hs'
  exact ⟨t, (bind_run_ok h₁).trans h₂, ht⟩

theorem ask_bind {f : ρ → Comp ρ σ ε α} {a : α} (hf : Sim R e (f e) w a w') :
    Sim R e (Comp.ask >>= f) w a w' := hf

/-- A computation that looks at the state is run from there. -/
theorem get_bind {f : σ → Comp ρ σ ε α} {a : α}
    (hf : ∀ s, R s w → ∃ t, f s e s = .ok (a, t) ∧ R t w') :
    Sim R e (Comp.get >>= f) w a w' := hf

end Sim

end Comp
