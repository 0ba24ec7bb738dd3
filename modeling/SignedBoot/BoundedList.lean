/-!
# Lists of bounded length

The signature index and the gather list hold a few elements in the order of arrival and refuse
the rest. `toList_foldl_offer` says what a run of offers leaves: the longest prefix of everything
offered that fits.
-/

namespace SignedBoot

/-- A list of at most `capacity` elements. -/
structure BoundedList (α : Type) (capacity : Nat) where
  toList : List α
  length_le : toList.length ≤ capacity

namespace BoundedList

variable {α : Type} {capacity : Nat}

def empty : BoundedList α capacity := ⟨[], Nat.zero_le _⟩

instance : EmptyCollection (BoundedList α capacity) := ⟨empty⟩

instance [DecidableEq α] : DecidableEq (BoundedList α capacity) := fun a b =>
  decidable_of_iff (a.toList = b.toList) (by cases a; cases b; simp)

def length (l : BoundedList α capacity) : Nat := l.toList.length

/-- Appends an element, or refuses it when the list is full. -/
def push? (l : BoundedList α capacity) (a : α) : Option (BoundedList α capacity) :=
  if h : l.toList.length < capacity then
    some ⟨l.toList ++ [a], by rw [List.length_append]; exact h⟩
  else none

/-- Appends an element if there is room, and otherwise leaves the list as it is. -/
def offer (l : BoundedList α capacity) (a : α) : BoundedList α capacity := (l.push? a).getD l

section

variable {l : BoundedList α capacity}

theorem push?_of_lt (h : l.toList.length < capacity) (a : α) :
    ∃ m, l.push? a = some m ∧ m.toList = l.toList ++ [a] := by
  rw [push?, dif_pos h]
  exact ⟨_, rfl, rfl⟩

theorem push?_of_not_lt (h : ¬ l.toList.length < capacity) (a : α) : l.push? a = none := by
  rw [push?, dif_neg h]

theorem toList_offer_of_lt (h : l.toList.length < capacity) (a : α) :
    (l.offer a).toList = l.toList ++ [a] := by
  obtain ⟨m, hpush, hm⟩ := push?_of_lt h a
  rw [offer, hpush]
  exact hm

end

theorem take_append_take (n : Nat) (x y : List α) : (x.take n ++ y).take n = (x ++ y).take n := by
  by_cases h : x.length ≤ n
  · rw [List.take_of_length_le h]
  · have hn : n ≤ x.length := Nat.le_of_not_le h
    rw [List.take_append_of_le_length (by simp [hn]), List.take_append_of_le_length hn,
      List.take_take, Nat.min_self]

theorem toList_offer (l : BoundedList α capacity) (a : α) :
    (l.offer a).toList = (l.toList ++ [a]).take capacity := by
  by_cases h : l.toList.length < capacity
  · rw [toList_offer_of_lt h, List.take_of_length_le]
    rw [List.length_append]
    exact h
  · have hl : l.toList.length = capacity := Nat.le_antisymm l.length_le (Nat.le_of_not_lt h)
    rw [offer, push?_of_not_lt h, Option.getD_none,
      List.take_append_of_le_length (Nat.le_of_eq hl.symm), List.take_of_length_le (Nat.le_of_eq hl)]

/-- A run of offers keeps the longest prefix that fits. -/
theorem toList_foldl_offer (l : BoundedList α capacity) (as : List α) :
    (as.foldl offer l).toList = (l.toList ++ as).take capacity := by
  induction as generalizing l with
  | nil => simp [List.take_of_length_le l.length_le]
  | cons a as ih => simp [List.foldl_cons, ih, toList_offer, take_append_take]

end BoundedList

end SignedBoot
