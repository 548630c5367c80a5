import Mathlib.Tactic

/-!
# Undo logs

A state that records how to undo each of its changes.  `undo` takes back one log entry,
and a log is taken back newest entry first (`undoAll`).  States are compared by an
equivalence, since an undone state need only be indistinguishable from the old one.

`Undoes x es y` says that the log `es` leads back from `y` to `x`.  Logs of consecutive
changes concatenate (`Undoes.append`), and taking back a tail of the log leaves a state
that the rest of the log still leads back from (`Undoes.truncate`).  So nested rollbacks
never break an enclosing one.
-/

/-- Log entries `ε` that undo changes of a state `σ`, up to an equivalence. -/
structure UndoLog (σ ε : Type) where
  undo : ε → σ → σ
  equiv : σ → σ → Prop
  equivalence : Equivalence equiv
  undo_congr : ∀ (e : ε) {x y : σ}, equiv x y → equiv (undo e x) (undo e y)

namespace UndoLog

variable {σ ε : Type} (L : UndoLog σ ε)

/-- Take back a log, newest entry first.  The newest entry is the last. -/
def undoAll (es : List ε) (x : σ) : σ := es.foldr L.undo x

/-- The log `es` leads back from `y` to `x`. -/
def Undoes (x : σ) (es : List ε) (y : σ) : Prop := L.equiv (L.undoAll es y) x

variable {L}

theorem undoAll_append (es fs : List ε) (x : σ) :
    L.undoAll (es ++ fs) x = L.undoAll es (L.undoAll fs x) := by
  simp [undoAll]

theorem undoAll_congr (es : List ε) {x y : σ} (h : L.equiv x y) :
    L.equiv (L.undoAll es x) (L.undoAll es y) := by
  induction es with
  | nil => exact h
  | cons e es ih => exact L.undo_congr e ih

theorem Undoes.refl (x : σ) : L.Undoes x [] x := L.equivalence.refl x

theorem Undoes.append {x y z : σ} {es fs : List ε} (hxy : L.Undoes x es y)
    (hyz : L.Undoes y fs z) : L.Undoes x (es ++ fs) z := by
  unfold Undoes
  rw [undoAll_append]
  exact L.equivalence.trans (undoAll_congr es hyz) hxy

/-- The end may be replaced by an equivalent state. -/
theorem Undoes.of_equiv {x y z : σ} {es : List ε} (h : L.Undoes x es y) (hz : L.equiv z y) :
    L.Undoes x es z :=
  L.equivalence.trans (undoAll_congr es hz) h

/-- After a tail of the log is taken back, the rest still leads back. -/
theorem Undoes.truncate {x z : σ} {es fs : List ε} (h : L.Undoes x (es ++ fs) z) :
    L.Undoes x es (L.undoAll fs z) := by
  unfold Undoes at h ⊢
  rwa [undoAll_append] at h

end UndoLog
