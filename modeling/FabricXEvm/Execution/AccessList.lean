import FabricXEvm.Execution.Keys
import Mathlib.Data.Finset.Insert

/-!
# The EIP-2929 access list

An address maps to an index into a list of slot sets, or to `-1` (here `some none`) when
it is present without slots.  No two addresses share an index and every index is in
range; both are fields of the structure, so `contains` never indexes out of bounds and a
slot added for one address is never seen at another.

`contains` is all that can be observed, and each operation has one lemma that says what
it does to it.
-/

namespace Execution

/-- `accessList`. -/
structure AccessList where
  /-- `some none` is the index `-1`: the address is present without slots. -/
  addresses : Address → Option (Option Nat)
  slots : List (Finset Hash)
  inRange : ∀ a i, addresses a = some (some i) → i < slots.length
  unshared : ∀ a b i, addresses a = some (some i) → addresses b = some (some i) → a = b

namespace AccessList

/-- `newAccessList`. -/
def new : AccessList where
  addresses := fun _ => none
  slots := []
  inRange := by simp
  unshared := by simp

def containsAddress (al : AccessList) (addr : Address) : Bool := (al.addresses addr).isSome

/-- `contains`: whether the address is present, and whether the slot is. -/
def contains (al : AccessList) (addr : Address) (slot : Hash) : Bool × Bool :=
  match al.addresses addr with
  | none => (false, false)
  | some none => (true, false)
  | some (some idx) => (true, slot ∈ al.slots.getD idx ∅)

def addAddress (al : AccessList) (addr : Address) : AccessList where
  addresses :=
    if (al.addresses addr).isSome then al.addresses
    else Function.update al.addresses addr (some none)
  slots := al.slots
  inRange a i h := by
    split at h
    · exact al.inRange a i h
    · by_cases ha : a = addr
      · subst ha; simp at h
      · rw [Function.update_of_ne ha] at h
        exact al.inRange a i h
  unshared a b i ha hb := by
    split at ha
    next hp =>
      rw [if_pos hp] at hb
      exact al.unshared a b i ha hb
    next hp =>
      rw [if_neg hp] at hb
      have hne : ∀ c, Function.update al.addresses addr (some none) c = some (some i) →
          al.addresses c = some (some i) := by
        intro c hc
        by_cases h : c = addr
        · subst h; simp at hc
        · rwa [Function.update_of_ne h] at hc
      exact al.unshared a b i (hne a ha) (hne b hb)

/-- An address with a new index: the one after the last, or the one it had. -/
theorem index_update {al : AccessList} {addr a : Address} {i : Nat}
    (h : Function.update al.addresses addr (some (some al.slots.length)) a = some (some i)) :
    (a = addr ∧ i = al.slots.length) ∨ (al.addresses a = some (some i) ∧ i < al.slots.length) := by
  by_cases ha : a = addr
  · subst ha
    rw [Function.update_self] at h
    cases h
    exact .inl ⟨rfl, rfl⟩
  · rw [Function.update_of_ne ha] at h
    exact .inr ⟨h, al.inRange a i h⟩

theorem inRange_update {al : AccessList} {addr a : Address} {i : Nat} (slots : Finset Hash)
    (h : Function.update al.addresses addr (some (some al.slots.length)) a = some (some i)) :
    i < (al.slots ++ [slots]).length := by
  rw [List.length_append, List.length_singleton]
  rcases index_update h with ⟨-, rfl⟩ | ⟨-, hi⟩
  · exact Nat.lt_succ_self _
  · exact Nat.lt_succ_of_lt hi

theorem unshared_update {al : AccessList} {addr a b : Address} {i : Nat}
    (ha : Function.update al.addresses addr (some (some al.slots.length)) a = some (some i))
    (hb : Function.update al.addresses addr (some (some al.slots.length)) b = some (some i)) :
    a = b := by
  rcases index_update ha with ⟨rfl, rfl⟩ | ⟨ha, hi⟩
  · rcases index_update hb with ⟨rfl, -⟩ | ⟨-, hi⟩
    · rfl
    · exact absurd hi (Nat.lt_irrefl _)
  · rcases index_update hb with ⟨-, rfl⟩ | ⟨hb, -⟩
    · exact absurd hi (Nat.lt_irrefl _)
    · exact al.unshared a b i ha hb

def addSlot (al : AccessList) (addr : Address) (slot : Hash) : AccessList :=
  match al.addresses addr with
  | some (some idx) =>
      { addresses := al.addresses
        slots := al.slots.modify idx (insert slot)
        inRange := fun a i ha => by simpa using al.inRange a i ha
        unshared := al.unshared }
  | _ =>
      { addresses := Function.update al.addresses addr (some (some al.slots.length))
        slots := al.slots ++ [{slot}]
        inRange := fun _ _ ha => inRange_update {slot} ha
        unshared := fun _ _ _ ha hb => unshared_update ha hb }

def deleteAddress (al : AccessList) (addr : Address) : AccessList where
  addresses := Function.update al.addresses addr none
  slots := al.slots
  inRange a i h := by
    by_cases ha : a = addr
    · subst ha; simp at h
    · rw [Function.update_of_ne ha] at h
      exact al.inRange a i h
  unshared a b i ha hb := by
    have hne : ∀ c, Function.update al.addresses addr none c = some (some i) →
        al.addresses c = some (some i) := by
      intro c hc
      by_cases h : c = addr
      · subst h; simp at hc
      · rwa [Function.update_of_ne h] at hc
    exact al.unshared a b i (hne a ha) (hne b hb)

def deleteSlot (al : AccessList) (addr : Address) (slot : Hash) : AccessList :=
  match al.addresses addr with
  | some (some idx) =>
      { addresses := al.addresses
        slots := al.slots.modify idx (·.erase slot)
        inRange := fun a i ha => by simpa using al.inRange a i ha
        unshared := al.unshared }
  | _ => al

/-! ## What can be observed -/

theorem containsAddress_eq (al : AccessList) (addr : Address) (slot : Hash) :
    al.containsAddress addr = (al.contains addr slot).1 := by
  unfold containsAddress contains
  split <;> simp_all

/-- Only an update of the address's own entry changes what is seen at it. -/
theorem contains_of_addresses_eq {x y : AccessList} {addr : Address} {slot : Hash}
    (ha : x.addresses addr = y.addresses addr)
    (hs : ∀ i, x.addresses addr = some (some i) → x.slots.getD i ∅ = y.slots.getD i ∅) :
    x.contains addr slot = y.contains addr slot := by
  unfold contains
  rw [← ha]
  cases h : x.addresses addr with
  | none => rfl
  | some idx =>
      cases idx with
      | none => rfl
      | some i => simp only [hs i h]

theorem contains_addAddress (al : AccessList) (a b : Address) (s : Hash) :
    (al.addAddress a).contains b s =
      if b = a then (true, (al.contains a s).2) else al.contains b s := by
  by_cases hb : b = a
  · subst hb
    cases h : al.addresses b with
    | none => simp [addAddress, contains, h]
    | some idx =>
        cases idx with
        | none => simp [addAddress, contains, h]
        | some i => simp [addAddress, contains, h]
  · rw [if_neg hb]
    apply contains_of_addresses_eq
    · simp only [addAddress]
      split
      · rfl
      · rw [Function.update_of_ne hb]
    · intro i _
      rfl

/-- A new slot set at the end of the list is seen by no address already there. -/
theorem getD_append_of_inRange (al : AccessList) {b : Address} {i : Nat} (t : Finset Hash)
    (h : al.addresses b = some (some i)) :
    (al.slots ++ [t]).getD i ∅ = al.slots.getD i ∅ := by
  simp [List.getElem?_append_left (al.inRange b i h)]

/-- A change of one address's slot set is seen by no other address. -/
theorem getD_modify_of_ne (al : AccessList) {a b : Address} {i j : Nat} (hb : b ≠ a)
    (f : Finset Hash → Finset Hash) (ha : al.addresses a = some (some j))
    (h : al.addresses b = some (some i)) :
    (al.slots.modify j f).getD i ∅ = al.slots.getD i ∅ := by
  have hij : j ≠ i := by
    intro hij
    subst hij
    exact hb (al.unshared b a j h ha)
  simp [hij]

theorem contains_addSlot (al : AccessList) (a b : Address) (t s : Hash) :
    (al.addSlot a t).contains b s =
      if b = a then (true, (al.contains a s).2 || decide (s = t)) else al.contains b s := by
  by_cases hb : b = a
  · subst hb
    cases h : al.addresses b with
    | none => simp [addSlot, contains, h]
    | some idx =>
        cases idx with
        | none => simp [addSlot, contains, h]
        | some i =>
            have hi := al.inRange b i h
            simp [addSlot, contains, h, hi, Bool.or_comm]
  · rw [if_neg hb]
    cases h : al.addresses a with
    | none =>
        symm
        apply contains_of_addresses_eq
        · simp [addSlot, h, Function.update_of_ne hb]
        · intro i hi
          simp only [addSlot, h]
          exact (al.getD_append_of_inRange _ hi).symm
    | some idx =>
        cases idx with
        | none =>
            symm
            apply contains_of_addresses_eq
            · simp [addSlot, h, Function.update_of_ne hb]
            · intro i hi
              simp only [addSlot, h]
              exact (al.getD_append_of_inRange _ hi).symm
        | some j =>
            symm
            apply contains_of_addresses_eq
            · simp [addSlot, h]
            · intro i hi
              simp only [addSlot, h]
              exact (al.getD_modify_of_ne hb _ h hi).symm

theorem contains_deleteAddress (al : AccessList) (a b : Address) (s : Hash) :
    (al.deleteAddress a).contains b s = if b = a then (false, false) else al.contains b s := by
  by_cases hb : b = a
  · subst hb
    simp [deleteAddress, contains]
  · rw [if_neg hb]
    apply contains_of_addresses_eq
    · simp [deleteAddress, Function.update_of_ne hb]
    · intro i _
      rfl

theorem contains_deleteSlot (al : AccessList) (a b : Address) (t s : Hash) :
    (al.deleteSlot a t).contains b s =
      if b = a then ((al.contains a s).1, (al.contains a s).2 && !decide (s = t))
      else al.contains b s := by
  by_cases hb : b = a
  · subst hb
    cases h : al.addresses b with
    | none => simp [deleteSlot, contains, h]
    | some idx =>
        cases idx with
        | none => simp [deleteSlot, contains, h]
        | some i =>
            have hi := al.inRange b i h
            simp [deleteSlot, contains, h, hi, Bool.and_comm]
  · rw [if_neg hb]
    cases h : al.addresses a with
    | none => simp [deleteSlot, h]
    | some idx =>
        cases idx with
        | none => simp [deleteSlot, h]
        | some j =>
            symm
            apply contains_of_addresses_eq
            · simp [deleteSlot, h]
            · intro i hi
              simp only [deleteSlot, h]
              exact (al.getD_modify_of_ne hb _ h hi).symm

end AccessList

end Execution
