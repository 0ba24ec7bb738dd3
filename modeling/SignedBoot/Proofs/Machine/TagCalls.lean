import Mathlib
import SignedBoot.Proofs.Container.TagWalk
import SignedBoot.Proofs.Machine.Container

/-!
# Calls of a walk on a machine

A cursor on a machine counts its position and cuts the octets ahead off the image. However often it
is called, and whatever the octets are, it yields the items of the walk and then nothing, and none
of its steps is trapped (`TagCursor.walk_tiles_and_ends`).
-/

namespace SignedBoot

namespace Machine.Cursor

variable (space : AddressSpace)

/-- A call: what it yields, and the cursor that it leaves. -/
def call (c : Cursor) : Run (Option (Except Fault PlacedTag) × Cursor) := do
  match ← c.next space with
  | none => .value (none, c)
  | some (item, d) => .value (some item, d)

/-- What a call yields that comes behind `n` others. -/
def yields : (n : Nat) → (c : Cursor) → Run (Option (Except Fault PlacedTag))
  | 0, c => do
    let (item, _) ← c.call space
    .value item
  | n + 1, c => do
    let (_, d) ← c.call space
    yields n d

theorem call_eq {c : Cursor} (h : c.image.length < space.size) :
    ∃ d, c.call space = .value (c.view.next?.map Prod.fst, d) ∧ d.view = c.view.advance ∧
      d.image = c.image := by
  obtain ⟨step, hnext, hview, himage⟩ := next_eq space h
  rw [call, hnext, Run.value_bind, TagCursor.advance]
  cases step with
  | none =>
    rw [← hview]
    exact ⟨c, rfl, rfl, rfl⟩
  | some step =>
    rw [← hview]
    exact ⟨step.2, rfl, rfl, himage step rfl⟩

theorem yields_eq {c : Cursor} (h : c.image.length < space.size) (n : Nat) :
    c.yields space n = .value (c.view.yields n) := by
  induction n generalizing c with
  | zero =>
    obtain ⟨d, hcall, -, -⟩ := call_eq space h
    rw [yields, hcall]
    rfl
  | succ n ih =>
    obtain ⟨d, hcall, hview, himage⟩ := call_eq space h
    rw [yields, hcall, TagCursor.yields, ← hview]
    exact ih (himage ▸ h)

end Machine.Cursor

/-- A walk over the tags of any byte string ends. Up to its end it yields tags in a row from the
offset on, each read from its own octets, and at most one fault behind them; it has no fault exactly
when there is nothing at the offset or the tags end with the byte string. The calls behind the last
item yield nothing, and on a machine they do the same. The offset that a tag shows is a word, which
is the whole offset in every byte string whose octets words can count. -/
theorem TagCursor.walk_tiles_and_ends (b : Bytes) (offset : UInt32) :
    (∃ ps stop fault, WalkedTags b offset.toNat (start b offset.toNat).items ps stop fault ∧
      (b.length ≤ UInt32.size → ∀ p ∈ ps, p.offsetWord.toNat = p.offset)) ∧
      ∀ n, (start b offset.toNat).yields n = (start b offset.toNat).items[n]? ∧
        ∀ space : Machine.AddressSpace, b.length < space.size →
          (Machine.Cursor.start b offset.toNat).yields space n =
            .value (start b offset.toNat).items[n]? := by
  constructor
  · obtain ⟨ps, stop, fault, hw⟩ := (tagWalk_iff.mpr rfl).exists_walkedTags
    refine ⟨ps, stop, fault, hw, fun hb p hp => UInt32.toNat_ofNat_of_lt' ?_⟩
    have hlimit := (hw.read p hp).1
    have hsize : 0x13c ≤ p.size := p.kind.byteSize_ge
    omega
  · intro n
    refine ⟨yields_eq n _, fun space hb => ?_⟩
    rw [Machine.Cursor.yields_eq space hb]
    exact congrArg _ (yields_eq n _)

end SignedBoot
