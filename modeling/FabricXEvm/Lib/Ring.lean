import Mathlib.Tactic

/-!
# Ring buffers

A buffer in which the `j`-th value pushed goes to slot `j % m`.  `Ring.Holds` says what is
in the slots: the last `m` values, each in its own slot.  A push keeps that, since the value
it overwrites is the only one to fall out.
-/

namespace Ring

variable {α : Type} {m : Nat} {slots : List (Option α)} {pushed : List α}

/-- The slots hold the last `m` of the values pushed. -/
def Holds (m : Nat) (slots : List (Option α)) (pushed : List α) : Prop :=
  ∀ i x, slots[i]? = some (some x) ↔
    ∃ j, pushed[j]? = some x ∧ j % m = i ∧ pushed.length ≤ j + m

theorem Holds.empty (m n : Nat) : Holds m (List.replicate n none) ([] : List α) := by
  intro i x
  simp [List.getElem?_replicate]

/-- Two of the last `m` numbers in one class are the same. -/
theorem eq_of_mod_eq {j k : Nat} (hmod : j % m = k % m) (hle : j ≤ k)
    (hlast : k < j + m) : j = k := by
  obtain ⟨d, rfl⟩ := Nat.exists_eq_add_of_le hle
  have hd : d % m = 0 := by
    have := Nat.ModEq.add_left_cancel' j (show j + 0 ≡ j + d [MOD m] from hmod)
    exact this.symm
  rw [Nat.mod_eq_of_lt (by omega)] at hd
  rw [hd, Nat.add_zero]

theorem Holds.push (h : Holds m slots pushed) (hm : 0 < m) (hlen : m ≤ slots.length) (x : α) :
    Holds m (slots.set (pushed.length % m) (some x)) (pushed ++ [x]) := by
  intro i y
  have hslot : pushed.length % m < slots.length := (Nat.mod_lt _ hm).trans_le hlen
  rw [List.length_append, List.length_singleton]
  by_cases hi : pushed.length % m = i
  · -- the new value is the only one of the last `m` that belongs in this slot
    subst hi
    rw [List.getElem?_set_self hslot, Option.some.injEq, Option.some.injEq]
    constructor
    · rintro rfl
      exact ⟨pushed.length, by simp, rfl, by omega⟩
    · rintro ⟨j, hj, hmod, hlast⟩
      have hle : j ≤ pushed.length := by
        have := (List.getElem?_eq_some_iff.mp hj).1
        rw [List.length_append, List.length_singleton] at this
        omega
      obtain rfl := eq_of_mod_eq hmod hle (by omega)
      simpa using hj
  · rw [List.getElem?_set_ne hi, h i y]
    refine exists_congr fun j => ?_
    constructor
    · rintro ⟨hj, hmod, hlast⟩
      have hlt := (List.getElem?_eq_some_iff.mp hj).1
      refine ⟨by rwa [List.getElem?_append_left hlt], hmod, ?_⟩
      -- the value that falls out was in the other slot
      rcases Nat.lt_or_ge pushed.length (j + m) with hlast | hout
      · exact hlast
      · have hfull : pushed.length = j + m := by omega
        rw [hfull, Nat.add_mod_right] at hi
        exact absurd hmod hi
    · rintro ⟨hj, hmod, hlast⟩
      have hlt : j < pushed.length := by
        have := (List.getElem?_eq_some_iff.mp hj).1
        rw [List.length_append, List.length_singleton] at this
        rcases Nat.lt_or_ge j pushed.length with hlt | hge
        · exact hlt
        · obtain rfl : j = pushed.length := by omega
          exact absurd hmod hi
      rw [List.getElem?_append_left hlt] at hj
      exact ⟨hj, hmod, by omega⟩

theorem Holds.mem (h : Holds m slots pushed) {x : α} :
    some x ∈ slots ↔ ∃ j, pushed[j]? = some x ∧ pushed.length ≤ j + m := by
  constructor
  · intro hx
    obtain ⟨i, hi⟩ := List.getElem?_of_mem hx
    obtain ⟨j, hj, -, hlast⟩ := (h i x).mp hi
    exact ⟨j, hj, hlast⟩
  · rintro ⟨j, hj, hlast⟩
    exact List.mem_of_getElem? ((h (j % m) x).mpr ⟨j, hj, rfl, hlast⟩)

/-- As long as nothing has fallen out, the first value is in the first slot. -/
theorem Holds.first (h : Holds m slots pushed) {x : α} (hx : pushed[0]? = some x)
    (hle : pushed.length ≤ m) : slots[0]? = some (some x) :=
  (h 0 x).mpr ⟨0, hx, Nat.zero_mod m, by rwa [Nat.zero_add]⟩

end Ring
