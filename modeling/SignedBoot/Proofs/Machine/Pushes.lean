import Mathlib
import SignedBoot.Proofs.Calls
import SignedBoot.Proofs.Machine.Message
import SignedBoot.Proofs.Machine.Stages

/-!
# Pushes onto bounded containers

The signature index and the gather list take what is pushed onto them until they are full, and
refuse the rest. What one push does (`Pushes`) settles what every sequence of pushes leaves
(`Pushes.holdsFirst`): the longest prefix of everything pushed that fits. Both containers are
alike in this (`pushes_hold_first`).
-/

namespace SignedBoot

section

variable {σ α ρ : Type}

/-- What a push does to a container around a bounded list: it offers the item to the list, and is
refused and changes nothing if there is no room. -/
structure Pushes (capacity : Nat) (list : σ → BoundedList α capacity) (done refused : ρ)
    (perform : α → σ → ρ × σ) : Prop where
  done_ne_refused : done ≠ refused
  list_perform (a : α) (s : σ) : list (perform a s).2 = (list s).offer a
  room (a : α) (s : σ) (h : (list s).toList.length < capacity) : (perform a s).1 = done
  full (a : α) (s : σ) (h : ¬ (list s).toList.length < capacity) : perform a s = (refused, s)

/-- A container with the first of some items in it, as many as it has room for, and what the next
push does to it. -/
structure HoldsFirst (capacity : Nat) (held : σ → List α) (done refused : ρ)
    (perform : α → σ → ρ × σ) (s : σ) (items : List α) : Prop where
  held_eq : held s = items.take capacity
  done_iff (a : α) : (perform a s).1 = done ↔ (held s).length < capacity
  done_iff_items (a : α) : (perform a s).1 = done ↔ items.length < capacity
  appended (a : α) (h : (perform a s).1 = done) : held (perform a s).2 = held s ++ [a]
  unchanged (a : α) (h : (perform a s).1 ≠ done) : perform a s = (refused, s)

variable {capacity : Nat} {list : σ → BoundedList α capacity} {done refused : ρ}
  {perform : α → σ → ρ × σ}

/-- A sequence of pushes offers its items to the list one after the other. -/
theorem Pushes.list_afterCalls (h : Pushes capacity list done refused perform) (s : σ)
    (pushed : List α) :
    list (afterCalls perform s pushed) = pushed.foldl BoundedList.offer (list s) :=
  (List.foldl_hom list fun t a => (h.list_perform a t).symm).symm

theorem Pushes.holdsFirst_of_toList_eq (h : Pushes capacity list done refused perform) {s : σ}
    {items : List α} (hs : (list s).toList = items.take capacity) :
    HoldsFirst capacity (fun t => (list t).toList) done refused perform s items := by
  have hlength : (list s).toList.length < capacity ↔ items.length < capacity := by
    rw [hs, List.length_take]
    omega
  have hdone (a : α) : (perform a s).1 = done ↔ (list s).toList.length < capacity := by
    constructor
    · intro hd
      by_contra hfull
      rw [h.full a s hfull] at hd
      exact h.done_ne_refused hd.symm
    · exact h.room a s
  refine ⟨hs, hdone, fun a => (hdone a).trans hlength, fun a hd => ?_,
    fun a hd => h.full a s (mt (hdone a).mpr hd)⟩
  rw [h.list_perform]
  exact BoundedList.toList_offer_of_lt ((hdone a).mp hd) a

/-- What a sequence of pushes leaves of a container. -/
theorem Pushes.holdsFirst (h : Pushes capacity list done refused perform) (s : σ)
    (pushed : List α) :
    HoldsFirst capacity (fun t => (list t).toList) done refused perform
      (afterCalls perform s pushed) ((list s).toList ++ pushed) := by
  refine h.holdsFirst_of_toList_eq ?_
  rw [h.list_afterCalls, BoundedList.toList_foldl_offer]

end

/-! ### The signature index -/

namespace SignedIndex

/-- A push with its answer and what it leaves. -/
def perform (e : IndexEntry) (x : SignedIndex) : Bool × SignedIndex :=
  match x.push? e with
  | some y => (true, y)
  | none => (false, x)

def held (x : SignedIndex) : List IndexEntry := x.entries.toList

theorem perform_snd (e : IndexEntry) (x : SignedIndex) : (perform e x).2 = x.offer e := by
  rw [perform, offer]
  cases x.push? e <;> rfl

theorem offer_eq (x : SignedIndex) (e : IndexEntry) :
    x.offer e = { x with entries := x.entries.offer e } := by
  rw [offer, push?, BoundedList.offer]
  cases x.entries.push? e <;> rfl

theorem pushes : Pushes indexCapacity entries true false perform where
  done_ne_refused := by decide
  list_perform e x := congrArg entries ((perform_snd e x).trans (offer_eq x e))
  room e x h := by
    obtain ⟨entries, hpush, -⟩ := BoundedList.push?_of_lt h e
    rw [perform, push?, hpush]
    rfl
  full e x h := by
    rw [perform, push?, BoundedList.push?_of_not_lt h]
    rfl

theorem trailerOffset_afterCalls (x : SignedIndex) (pushed : List IndexEntry) :
    (afterCalls perform x pushed).trailerOffset = x.trailerOffset := by
  refine afterCalls_induction (P := fun _ (y : SignedIndex) => y.trailerOffset = x.trailerOffset)
    rfl ?_ pushed
  intro pushed e y hy
  rw [perform_snd, offer_eq]
  exact hy

end SignedIndex

namespace Machine.IndexTable

/-- The table after a push, which is the same table when the push is refused. -/
def afterPush (t : IndexTable) (e : IndexEntry) : Run IndexTable := do
  match ← t.push e with
  | some u => .value u
  | none => .value t

theorem foldlM_afterPush_ofIndex (x : SignedIndex) (pushed : List IndexEntry) :
    pushed.foldlM afterPush (ofIndex x) =
      .value (ofIndex (afterCalls SignedIndex.perform x pushed)) := by
  induction pushed generalizing x with
  | nil => rfl
  | cons e pushed ih =>
    have hstep : (ofIndex x).afterPush e = .value (ofIndex (SignedIndex.perform e x).2) := by
      rw [afterPush, push_ofIndex, Run.value_bind, SignedIndex.perform]
      cases x.push? e <;> rfl
    rw [List.foldlM_cons, hstep]
    exact ih (SignedIndex.perform e x).2

end Machine.IndexTable

/-! ### The gather list -/

namespace Gather

/-- A push with its answer and what it leaves. -/
def perform (segment : Bytes) (g : Gather) : Except Fault Unit × Gather :=
  match g.push segment with
  | .ok h => (.ok (), h)
  | .error f => (.error f, g)

def held (g : Gather) : List Bytes := g.segments.toList

theorem pushes : Pushes gatherCapacity segments (.ok ()) (.error .gatherFull) perform where
  done_ne_refused := by simp
  list_perform segment g := by
    rw [perform, push, BoundedList.offer]
    cases g.segments.push? segment <;> rfl
  room segment g h := by
    obtain ⟨segments, hpush, -⟩ := BoundedList.push?_of_lt h segment
    rw [perform, push, hpush]
  full segment g h := by
    rw [perform, push, BoundedList.push?_of_not_lt h]

end Gather

/-! ### What both come to -/

/-- An index with the first four of some entries, on a machine as well. -/
structure SignedIndex.HoldsEntries (trailerOffset : Nat) (pushed : List IndexEntry)
    (x : SignedIndex) : Prop where
  first : HoldsFirst 4 held true false perform x pushed
  length_eq : x.length = min 4 pushed.length
  trailerOffset_eq : x.trailerOffset = trailerOffset
  table : pushed.foldlM Machine.IndexTable.afterPush (.ofIndex (.empty trailerOffset)) =
    .value (.ofIndex x)
  slots : (Machine.IndexTable.ofIndex x).entries = .value (pushed.take 4)
  table_push (e : IndexEntry) : (Machine.IndexTable.ofIndex x).push e =
    .value (if pushed.length < 4 then some (.ofIndex (perform e x).2) else none)

/-- A gather list with the first five of some segments. -/
structure Gather.HoldsSegments (segments : List Bytes) (g : Gather) : Prop where
  first : HoldsFirst 5 held (.ok ()) (.error .gatherFull) perform g segments
  bytes_eq : g.bytes = (segments.take 5).flatten
  length_eq : g.length = g.bytes.length
  machine_length (space : Machine.AddressSpace) (h : g.bytes.length < space.size) :
    Machine.gatherLength space g = .value g.bytes.length

theorem SignedIndex.holdsEntries_afterCalls (trailerOffset : Nat) (pushed : List IndexEntry) :
    HoldsEntries trailerOffset pushed (afterCalls perform (.empty trailerOffset) pushed) := by
  have hfirst : HoldsFirst 4 held true false perform _ pushed :=
    pushes.holdsFirst (.empty trailerOffset) pushed
  refine ⟨hfirst, ?_, trailerOffset_afterCalls _ pushed,
    Machine.IndexTable.foldlM_afterPush_ofIndex _ pushed, ?_, ?_⟩
  · exact (congrArg List.length hfirst.held_eq).trans List.length_take
  · rw [Machine.IndexTable.entries_ofIndex]
    exact congrArg _ hfirst.held_eq
  · intro e
    have hdone := hfirst.done_iff_items e
    rw [Machine.IndexTable.push_ofIndex]
    rw [perform] at hdone ⊢
    split at hdone
    · rename_i y hpush
      rw [if_pos (hdone.mp rfl), hpush]
      rfl
    · rename_i hpush
      rw [if_neg (fun h => by simpa using hdone.mpr h), hpush]
      rfl

theorem Gather.holdsSegments_afterCalls (start : Gather) (pushed : List Bytes) :
    HoldsSegments (start.held ++ pushed) (afterCalls perform start pushed) := by
  have hfirst := pushes.holdsFirst start pushed
  have hlength := (afterCalls perform start pushed).length_eq
  refine ⟨hfirst, congrArg List.flatten hfirst.held_eq, hlength, fun space h => ?_⟩
  rw [← hlength] at h ⊢
  exact Machine.gatherLength_eq space h

/-- Pushes onto an index leave the first four of them in it, and pushes onto a gather list the first
five segments, one that it was made with included. A push is taken exactly when there is room and
leaves everything as it is when it is refused, and the length of the message is that of its octets.
There is room for one segment for each entry of an index behind the first. -/
theorem pushes_hold_first :
    (∀ trailerOffset pushed, SignedIndex.HoldsEntries trailerOffset pushed
      (afterCalls SignedIndex.perform (.empty trailerOffset) pushed)) ∧
    (∀ first pushed, Gather.HoldsSegments (first :: pushed)
      (afterCalls Gather.perform (.single first) pushed)) ∧
    (∀ pushed, Gather.HoldsSegments pushed (afterCalls Gather.perform .empty pushed)) ∧
    ∀ first (x : SignedIndex) (segments : List Bytes), segments.length ≤ x.length →
      (afterCalls Gather.perform (.single first) segments).held = first :: segments ∧
        (afterCalls Gather.perform (.single first) segments).bytes =
          first ++ segments.flatten := by
  refine ⟨SignedIndex.holdsEntries_afterCalls,
    fun first => Gather.holdsSegments_afterCalls (.single first),
    Gather.holdsSegments_afterCalls .empty, ?_⟩
  intro first x segments hlength
  have hholds := Gather.holdsSegments_afterCalls (.single first) segments
  have htake : (first :: segments).take 5 = first :: segments := by
    have hle : x.length ≤ 4 := x.entries.length_le
    refine List.take_of_length_le ?_
    rw [List.length_cons]
    omega
  exact ⟨hholds.first.held_eq.trans htake,
    hholds.bytes_eq.trans (congrArg List.flatten htake)⟩

example : (afterCalls Gather.perform (.single (ascii "ab")) [[], ascii "cde"]).bytes =
    ascii "abcde" := by
  decide

end SignedBoot
