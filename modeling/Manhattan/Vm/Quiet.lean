import Manhattan.Vm.Shape
import Manhattan.Vm.StorageMap

/-! # Programs that leave the storage and the program counter alone

A quiet program neither fetches nor touches the storage, and does not fault. Every case
but SLOAD and SSTORE is one.
-/

namespace Manhattan.Vm

open Library.ExecRules

/-- `k` has the accesses, the fetches and the storage of `m`. -/
structure Machine.Remembers (m k : Machine) : Prop where
  accesses : accesses k.trace = accesses m.trace
  fetches : fetches k = fetches m
  storage : k.stack.storage = m.stack.storage

theorem Machine.Remembers.refl (m : Machine) : m.Remembers m := ⟨rfl, rfl, rfl⟩

abbrev Quiet {α : Type} (m : VM α) : Prop :=
  ∀ k : Machine, Keeps k.Remembers (fun e k' => e ≠ .fault ∧ k.Remembers k') m

theorem quiet_emit {e : Event} (hAccess : e.access = none) (hFetched : e.fetched = none) :
    Quiet (emit e) := by
  intro k m h
  constructor
  · exact (List.filterMap_cons_none hAccess).trans h.accesses
  · refine (fetches_cons m.stack e m.trace).trans ?_
    rw [hFetched]
    exact (List.append_nil _).trans h.fetches
  · exact h.storage

theorem quiet_modifyStack {f : Stack → Stack} (h : ∀ s : Stack, (f s).storage = s.storage) :
    Quiet (modifyStack f) := fun _ m hm =>
  ⟨hm.accesses, hm.fetches, (h m.stack).trans hm.storage⟩

theorem Quiet.bind {α β : Type} {m : VM α} {f : α → VM β} (hm : Quiet m) (hf : ∀ a, Quiet (f a)) :
    Quiet (m >>= f) := fun k => (hm k).bind fun a => hf a k

theorem quiet_pure {α : Type} (a : α) : Quiet (pure a) := fun _ => .pure a

theorem quiet_tolerates (k : Machine) :
    Tolerates k.Remembers fun e k' => e ≠ .fault ∧ k.Remembers k' := by
  constructor
  · rintro e ⟨⟩ <;> exact quiet_emit rfl rfl k
  · exact fun f hf => quiet_modifyStack hf k
  · exact fun _ _ h => ⟨Halt.noConfusion, h⟩

theorem quiet_getStack : Quiet getStack := fun _ => Tolerates.getStack

theorem quiet_stackPush (value : Word) : Quiet (stackPush value) := fun k =>
  (quiet_tolerates k).stackPush value

theorem quiet_stackPop : Quiet stackPop := fun k => (quiet_tolerates k).stackPop

theorem quiet_primitive {α : Type} (m : VM α) (h : Primitive α m) : Quiet m := fun k =>
  (quiet_tolerates k).primitive (fun _ => quiet_emit rfl rfl k) h

theorem Shaped.quiet {α : Type} {m : VM α} (h : Shaped m) : Quiet m := fun k =>
  h.keeps (fun m hm => quiet_primitive m hm k) fun _ _ he hs => ⟨he, hs⟩

end Manhattan.Vm
