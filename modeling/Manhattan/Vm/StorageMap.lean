import Manhattan.Vm.StorageHelpers

/-! # When the contract storage is a map

The storage accesses of a run are compared with those of a map from 64-bit keys to 64-bit
values. SSTORE keeps only the low 32 bits of a value, and every key with the same leading
byte goes through one table entry, so the comparison comes out exactly for the histories
that `AllSound` describes.
-/

namespace Manhattan.Vm

inductive Access
  | load (key : Word)
  | answer (key value : Word)
  | store (key value : Word)
  deriving DecidableEq

def Event.access : Event → Option Access
  | .sload key => some (.load key)
  | .loaded key value => some (.answer key value)
  | .sstore key value => some (.store key value)
  | _ => none

def accesses (trace : List Event) : List Access := trace.filterMap Event.access

/-! ## The map -/

def contents : List Access → Word → Word
  | [] => fun _ => 0
  | .store key value :: older => Function.update (contents older) key value
  | .load _ :: older => contents older
  | .answer _ _ :: older => contents older

/-- Every SLOAD found what the map holds at that moment. -/
def Answered : List Access → Prop
  | [] => True
  | .answer key value :: older => value = contents older key ∧ Answered older
  | .load _ :: older => Answered older
  | .store _ _ :: older => Answered older

instance : DecidablePred Answered := go
where
  go : (history : List Access) → Decidable (Answered history)
    | [] => inferInstanceAs (Decidable True)
    | .answer key value :: older =>
      have := go older
      inferInstanceAs (Decidable (value = contents older key ∧ Answered older))
    | .load _ :: older => go older
    | .store _ _ :: older => go older

/-! ## The histories on which the table is such a map -/

/-- The entry of the table that `stack_get_storage_address` starts from. -/
def entryOf (key : Word) : Nat := addressByte key 0

def lastThrough (entry : Nat) : List Access → Option (Word × Word)
  | [] => none
  | .store key value :: older =>
    if entryOf key = entry then some (key, value) else lastThrough entry older
  | .load _ :: older => lastThrough entry older
  | .answer _ _ :: older => lastThrough entry older

def lowBits (value : Word) : Word := (value.setWidth 32).setWidth 64

/-- An SSTORE needs an entry of the table that no SSTORE has used yet, or the key 0. -/
def SoundStore (older : List Access) (key : Word) : Prop :=
  entryOf key < 4 ∧ (lastThrough (entryOf key) older = none ∨ key = 0)

/-- An SLOAD of key 0 may also go through a used entry, as long as the last value stored
through it was stored at key 0 and has 32 bits, or has none but zero bits there. -/
def SoundLoad (older : List Access) (key : Word) : Prop :=
  entryOf key < 4 ∧ match lastThrough (entryOf key) older with
    | none => True
    | some (stored, value) => key = 0 ∧ lowBits value = if stored = 0 then value else 0

def AllSound : List Access → Prop
  | [] => True
  | .store key _ :: older => SoundStore older key ∧ AllSound older
  | .load key :: older => SoundLoad older key ∧ AllSound older
  | .answer _ _ :: older => AllSound older

theorem contents_of_unused {older : List Access} {key : Word}
    (h : lastThrough (entryOf key) older = none) : contents older key = 0 := by
  induction older with
  | nil => rfl
  | cons access older ih =>
    cases access with
    | load _ => exact ih h
    | answer _ _ => exact ih h
    | store stored value =>
      rw [lastThrough] at h
      split at h
      · cases h
      · rename_i hEntry
        have hKey : key ≠ stored := fun hEq => hEntry (by rw [hEq])
        exact (Function.update_of_ne hKey _ _).trans (ih h)

theorem contents_zero_of_used {older : List Access} (hSound : AllSound older)
    {stored value : Word} (h : lastThrough (entryOf 0) older = some (stored, value)) :
    contents older 0 = if stored = 0 then value else 0 := by
  induction older with
  | nil => cases h
  | cons access older ih =>
    cases access with
    | load _ => exact ih hSound.2 h
    | answer _ _ => exact ih hSound h
    | store key value' =>
      rw [lastThrough] at h
      obtain ⟨⟨_, hStore⟩, hOlder⟩ := hSound
      split at h
      · rename_i hEntry
        cases h
        by_cases hKey : stored = 0
        · subst hKey
          rw [if_pos rfl]
          exact Function.update_self _ _ _
        · rw [if_neg hKey]
          have hUnused := hStore.resolve_right hKey
          rw [hEntry] at hUnused
          exact (Function.update_of_ne (Ne.symm hKey) _ _).trans (contents_of_unused hUnused)
      · rename_i hEntry
        have hKey : (0 : Word) ≠ key := fun hEq => hEntry (by rw [hEq])
        exact (Function.update_of_ne hKey _ _).trans (ih hOlder h)

end Manhattan.Vm
