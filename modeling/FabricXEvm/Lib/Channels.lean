import Mathlib.Data.List.Nodup
import Mathlib.Logic.Relation

/-!
# Channels with one owner

Channels are made, used and closed, and each of these is recorded.  Whoever may use or close
a channel owns it.  `owned` lists the open channels, once for each owner.  A channel is made
with one owner, may pass from one owner to another, and is given up when it is closed.

Then a channel is closed at most once, and not used after that (`Safe`), in every run
(`safe_of_run`).  To use this, list the owners of a concrete state and show that its steps are
sequences of the steps here.
-/

namespace Channels

/-- What is done with a channel. -/
inductive Event (β : Type) where
  | send (ch : Nat) (v : β)
  /-- A send that found no room. -/
  | drop (ch : Nat) (v : β)
  | close (ch : Nat)

variable {β : Type}

def Event.ch : Event β → Nat
  | .send ch _ => ch
  | .drop ch _ => ch
  | .close ch => ch

structure State (β : Type) where
  /-- The channels made so far are those below. -/
  made : Nat
  owned : List Nat
  log : List (Event β)

inductive Step : State β → State β → Prop where
  | make (c : State β) : Step c { c with made := c.made + 1, owned := c.made :: c.owned }
  | send {c : State β} {ch : Nat} (h : ch ∈ c.owned) (v : β) :
      Step c { c with log := c.log ++ [.send ch v] }
  | drop {c : State β} {ch : Nat} (h : ch ∈ c.owned) (v : β) :
      Step c { c with log := c.log ++ [.drop ch v] }
  | close {c : State β} {ch : Nat} {owned : List Nat} (h : c.owned.Perm (ch :: owned)) :
      Step c { c with owned := owned, log := c.log ++ [.close ch] }
  | pass {c : State β} {owned : List Nat} (h : c.owned.Perm owned) : Step c { c with owned := owned }

/-- Nothing happens to a channel after it was closed. -/
def Safe (log : List (Event β)) : Prop :=
  log.Pairwise fun e e' => e = .close e.ch → e.ch ≠ e'.ch

/-- Each open channel has one owner, and was not closed. -/
structure Inv (c : State β) : Prop where
  nodup : c.owned.Nodup
  owned_lt : ∀ ch ∈ c.owned, ch < c.made
  log_lt : ∀ e ∈ c.log, e.ch < c.made
  unclosed : ∀ ch ∈ c.owned, .close ch ∉ c.log
  safe : Safe c.log

variable {c c' : State β}

/-- An owned channel may be used or closed. -/
theorem Inv.safe_append (h : Inv c) {e : Event β} (he : e.ch ∈ c.owned) : Safe (c.log ++ [e]) := by
  refine List.pairwise_append.mpr ⟨h.safe, List.pairwise_singleton _ _, ?_⟩
  intro e' he' e'' he'' hclose heq
  obtain rfl := List.mem_singleton.mp he''
  rw [heq] at hclose
  exact h.unclosed _ he (hclose ▸ he')

theorem Inv.log_lt_append (h : Inv c) {e : Event β} (he : e.ch ∈ c.owned) :
    ∀ e' ∈ c.log ++ [e], e'.ch < c.made := by
  intro e' he'
  rcases List.mem_append.mp he' with he' | he'
  · exact h.log_lt e' he'
  · rw [List.mem_singleton.mp he']
    exact h.owned_lt _ he

/-- A use of an owned channel keeps the invariant. -/
theorem Inv.use (h : Inv c) {e : Event β} (he : e.ch ∈ c.owned) (hne : e ≠ .close e.ch) :
    Inv { c with log := c.log ++ [e] } where
  nodup := h.nodup
  owned_lt := h.owned_lt
  log_lt := h.log_lt_append he
  unclosed ch hch hmem := by
    rcases List.mem_append.mp hmem with hmem | hmem
    · exact h.unclosed ch hch hmem
    · obtain rfl := List.mem_singleton.mp hmem
      exact hne rfl
  safe := h.safe_append he

theorem Inv.step (h : Inv c) (hstep : Step c c') : Inv c' := by
  cases hstep with
  | make =>
      refine ⟨List.nodup_cons.mpr ⟨fun hmem => ?_, h.nodup⟩, ?_, ?_, ?_, h.safe⟩
      · exact absurd (h.owned_lt _ hmem) (Nat.lt_irrefl _)
      · intro ch hch
        rcases List.mem_cons.mp hch with rfl | hch
        · exact Nat.lt_succ_self _
        · exact Nat.lt_succ_of_lt (h.owned_lt ch hch)
      · intro e he
        exact Nat.lt_succ_of_lt (h.log_lt e he)
      · intro ch hch hmem
        rcases List.mem_cons.mp hch with rfl | hch
        · exact absurd (h.log_lt _ hmem) (Nat.lt_irrefl _)
        · exact h.unclosed ch hch hmem
  | send hch v => exact h.use hch (by simp)
  | drop hch v => exact h.use hch (by simp)
  | @close ch owned hperm =>
      obtain ⟨hch, hnodup⟩ := List.nodup_cons.mp (hperm.nodup_iff.mp h.nodup)
      have hsub : ∀ x ∈ owned, x ∈ c.owned := fun x hx =>
        hperm.mem_iff.mpr (List.mem_cons_of_mem ch hx)
      have howned : (Event.close ch : Event β).ch ∈ c.owned := hperm.mem_iff.mpr List.mem_cons_self
      refine ⟨hnodup, fun x hx => h.owned_lt x (hsub x hx), h.log_lt_append howned, ?_,
        h.safe_append howned⟩
      intro x hx hmem
      rcases List.mem_append.mp hmem with hmem | hmem
      · exact h.unclosed x (hsub x hx) hmem
      · obtain rfl : x = ch := by simpa using hmem
        exact hch hx
  | @pass owned hperm =>
      exact ⟨hperm.nodup_iff.mp h.nodup, fun ch hch => h.owned_lt ch (hperm.mem_iff.mpr hch), h.log_lt,
        fun ch hch => h.unclosed ch (hperm.mem_iff.mpr hch), h.safe⟩

/-- An owner may close all it has. -/
theorem run_closeAll (made : Nat) (chs rest : List Nat) (log : List (Event β)) :
    Relation.ReflTransGen Step ⟨made, chs ++ rest, log⟩ ⟨made, rest, log ++ chs.map .close⟩ := by
  induction chs generalizing log with
  | nil => simpa using Relation.ReflTransGen.refl
  | cons ch chs ih =>
      have hrest := ih (log ++ [.close ch])
      rw [List.append_assoc] at hrest
      exact .head (.close (.refl _)) hrest

/-- A run that makes every channel it has. -/
theorem safe_of_run (h : Relation.ReflTransGen Step ⟨0, [], []⟩ c) : Safe c.log := by
  have hinv : Inv c := by
    induction h with
    | refl => exact ⟨List.nodup_nil, nofun, nofun, nofun, .nil⟩
    | tail _ hstep ih => exact ih.step hstep
  exact hinv.safe

/-- Closed at most once. -/
theorem Safe.close_unique {log : List (Event β)} (h : Safe log) {pre post : List (Event β)} {ch : Nat}
    (hlog : log = pre ++ .close ch :: post) : ∀ e ∈ post, e.ch ≠ ch := by
  intro e he heq
  rw [hlog] at h
  have hpost := (List.pairwise_append.mp h).2.1
  exact (List.pairwise_cons.mp hpost).1 e he rfl heq.symm

end Channels
