import Manhattan.Library.Triples
import Manhattan.Vm.Trapping

/-! # What the instructions do to the height of the stack

Every case checks the height it needs before it writes, though each in its own words. `Describes`
says of a computation how the height changes and when and with which text it stops for it; the cases
are put together from the rules for one pop and one push.
-/

namespace Manhattan.Vm

open Library.ExecRules

structure Effect where
  needs : Nat
  takes : Nat
  gives : Nat

def Effect.after (effect : Effect) (height : Nat) : Nat := height - effect.takes + effect.gives

def Effect.Fits (effect : Effect) (capacity height : Nat) : Prop :=
  effect.needs ≤ height ∧ effect.after height ≤ capacity

instance (effect : Effect) (capacity height : Nat) : Decidable (effect.Fits capacity height) :=
  inferInstanceAs (Decidable (_ ∧ _))

/-- SIGNEXTEND asks for three items and takes two, BALANCE asks for one and leaves it. -/
def Opcode.effect : Opcode → Effect
  | .stop | .jumpdest | .skip | .invalid _ => ⟨0, 0, 0⟩
  | .add | .mul | .sub | .div | .sdiv | .mod | .smod | .exp => ⟨2, 2, 1⟩
  | .lt | .gt | .slt | .sgt | .eq | .and | .or | .xor | .byte | .shl | .shr | .sar => ⟨2, 2, 1⟩
  | .addmod | .mulmod => ⟨3, 3, 1⟩
  | .signextend => ⟨3, 2, 1⟩
  | .iszero | .not | .mload | .sload => ⟨1, 1, 1⟩
  | .balance => ⟨1, 0, 0⟩
  | .pop | .jump => ⟨1, 1, 0⟩
  | .mstore | .mstore8 | .sstore | .jumpi => ⟨2, 2, 0⟩
  | .pc | .msize | .push0 => ⟨0, 0, 1⟩
  | .push n => ⟨0, 0, n⟩
  | .dup x => ⟨x, 0, x⟩
  | .swap x => ⟨x + 1, 0, 0⟩
  | .log topicCount => ⟨topicCount + 2, topicCount + 2, 0⟩

def noRoomText : String := "Stack overflow! Increase the stack size.\n"

def popText : String := "POP: Stack underflow!\n"

def notEnough (name : String) : String :=
  "Not enough elements on the stack for " ++ name ++ " operation.\n"

/-- What an opcode prints when items are missing; of the plain ones the text is `stack_pop`'s. -/
def Opcode.underflow : Opcode → String
  | .signextend => notEnough "SIGNEXTEND"
  | .lt | .gt => notEnough "LT"
  | .slt | .sgt => notEnough "SLT"
  | .eq => notEnough "EQ"
  | .iszero => notEnough "ISZERO"
  | .and => notEnough "AND"
  | .or => notEnough "OR"
  | .xor => notEnough "XOR"
  | .not => notEnough "NOT"
  | .byte => notEnough "BYTE"
  | .shl => notEnough "SHL"
  | .shr => notEnough "SHR"
  | .sar => notEnough "SAR"
  | .balance => notEnough "BALANCE"
  | .pop => "Stack underflow in case!\n"
  | .dup x => "DUP" ++ toString x ++ ": Stack underflow!\n"
  | .swap x => "SWAP" ++ toString x ++ ": Stack underflow!\n"
  | .log topicCount => "LOG" ++ toString topicCount ++ ": Stack underflow!\n"
  | _ => popText

inductive Halt.OfStack : Halt → Prop
  | overflow : OfStack (.exit noRoomText)
  | underflow (op : Opcode) : OfStack (.exit op.underflow)

theorem head_append {text : String} {c : Char} (h : text.toList.head? = some c) (rest : String) :
    (text ++ rest).toList.head? = some c := by
  rw [String.toList_append, List.head?_append, h]
  rfl

theorem Opcode.head_underflow (op : Opcode) :
    ∃ c ∈ ['D', 'L', 'N', 'P', 'S'], op.underflow.toList.head? = some c := by
  have hTwo (text : String) {c : Char} (hc : c ∈ ['D', 'L', 'N', 'P', 'S'])
      (hText : text.toList.head? = some c) (number rest : String) :
      ∃ c ∈ ['D', 'L', 'N', 'P', 'S'], (text ++ number ++ rest).toList.head? = some c :=
    ⟨c, hc, head_append (head_append hText number) rest⟩
  cases op with
  | dup x => exact hTwo "DUP" (c := 'D') (by simp) (by simp) _ _
  | swap x => exact hTwo "SWAP" (c := 'S') (by simp) (by simp) _ _
  | log topicCount => exact hTwo "LOG" (c := 'L') (by simp) (by simp) _ _
  | pop => exact ⟨'S', by simp, by simp [Opcode.underflow]⟩
  | signextend | lt | gt | slt | sgt | eq | iszero | and | or | xor | not | byte | shl | shr | sar
    | balance => exact hTwo _ (c := 'N') (by simp) (by simp) _ _
  | _ => exact ⟨'P', by simp, by simp [Opcode.underflow, popText]⟩

theorem Halt.OfStack.head {message : String} (h : (Halt.exit message).OfStack) :
    ∃ c ∈ ['D', 'L', 'N', 'P', 'S'], message.toList.head? = some c := by
  cases h with
  | overflow => exact ⟨'S', by simp, by simp [noRoomText]⟩
  | underflow op => exact op.head_underflow

theorem not_ofStack {message : String} {c : Char} (h : message.toList.head? = some c)
    (hc : c ∉ ['D', 'L', 'N', 'P', 'S']) : ¬(Halt.exit message).OfStack := by
  intro hStack
  obtain ⟨d, hd, hHead⟩ := hStack.head
  rw [h] at hHead
  exact hc (Option.some.inj hHead ▸ hd)

theorem not_ofStack_trap : ¬Halt.trap.OfStack := nofun

theorem not_ofStack_fault : ¬Halt.fault.OfStack := nofun

structure Machine.High (capacity height : Nat) (m : Machine) : Prop where
  inRange : m.stack.InRange capacity
  top : m.stack.top + 1 = height

def Effect.Stops (effect : Effect) (text : String) (capacity height : Nat) (e : Halt) : Prop :=
  if height < effect.needs then e = .exit text
  else if capacity < effect.after height then e = .exit noRoomText
  else ¬e.OfStack

/-- When the run returns there were items and cells enough, and where it goes on the height has
changed by the effect. When it stops, the height says how. -/
def Effect.DescribesAt {α : Type} (effect : Effect) (text : String) (capacity height : Nat)
    (run : VM α) (goesOn : α → Prop) : Prop :=
  Triple (Machine.High capacity height) run
    (fun a m => effect.Fits capacity height ∧ (goesOn a → m.High capacity (effect.after height)))
    fun e _ => effect.Stops text capacity height e

/-- `DescribesAt` on every stack with `slack` free cells -/
def Effect.Describes {α : Type} (effect : Effect) (text : String) (slack : Nat) (run : VM α)
    (goesOn : α → Prop) : Prop :=
  ∀ capacity height, height + slack ≤ capacity → effect.DescribesAt text capacity height run goesOn

/-- A computation that leaves the height, and does not stop for it. -/
abbrev Level {α : Type} (run : VM α) : Prop :=
  ∀ capacity height, Keeps (Machine.High capacity height) (fun e _ => ¬e.OfStack) run

/-! ## The rules -/

section Rules

variable {α β : Type} {effect : Effect} {text : String} {slack capacity height : Nat}
  {goesOn : α → Prop}

theorem Effect.fits_of (hNeeds : effect.needs ≤ height) (hGives : effect.gives ≤ slack)
    (hRoom : height + slack ≤ capacity) : effect.Fits capacity height := by
  refine ⟨hNeeds, ?_⟩
  rw [Effect.after]
  omega

theorem Effect.Fits.stops {e : Halt} (h : effect.Fits capacity height) (he : ¬e.OfStack) :
    effect.Stops text capacity height e := by
  obtain ⟨hNeeds, hRoom⟩ := h
  rw [Effect.Stops, if_neg (not_lt.mpr hNeeds), if_neg (not_lt.mpr hRoom)]
  exact he

theorem Effect.stops_below (h : height < effect.needs) :
    effect.Stops text capacity height (.exit text) := by
  rw [Effect.Stops, if_pos h]

theorem stackPop_high : Triple (Machine.High capacity (height + 1)) stackPop
    (fun _ => Machine.High capacity height) fun _ _ => False := by
  intro m h
  obtain ⟨⟨hSize, hCells, hLower, hUpper⟩, hTop⟩ := h
  rw [stackPop_apply, if_neg (by omega)]
  refine ⟨⟨hSize, hCells, ?_, ?_⟩, ?_⟩
  · change -1 ≤ m.stack.top - 1
    omega
  · change m.stack.top - 1 ≤ m.stack.size - 1
    omega
  · change m.stack.top - 1 + 1 = height
    omega

theorem stackPop_low : Triple (Machine.High capacity 0) stackPop (fun _ _ => False)
    fun e _ => e = .exit popText := by
  intro m h
  have hTop := h.top
  rw [stackPop_apply, if_pos (by omega)]
  rfl

theorem stackPush_high (value : Word) (hRoom : height < capacity) :
    Triple (Machine.High capacity height) (stackPush value)
      (fun _ => Machine.High capacity (height + 1)) fun _ _ => False := by
  intro m h
  obtain ⟨⟨hSize, hCells, hLower, hUpper⟩, hTop⟩ := h
  rw [stackPush_apply, if_neg (by omega)]
  refine ⟨⟨hSize, ?_, ?_, ?_⟩, ?_⟩
  · simpa using hCells
  · change -1 ≤ m.stack.top + 1
    omega
  · change m.stack.top + 1 ≤ m.stack.size - 1
    omega
  · change m.stack.top + 1 + 1 = (height + 1 : Nat)
    omega

theorem stackPush_full (value : Word) (hRoom : capacity ≤ height) :
    Triple (Machine.High capacity height) (stackPush value) (fun _ _ => False)
      fun e _ => e = .exit noRoomText := by
  intro m h
  have hTop := h.top
  have hSize := h.inRange.size
  rw [stackPush_apply, if_pos (by omega)]
  rfl

theorem describes_pure {a : α} (hNeeds : effect.needs = 0) (hGives : effect.gives ≤ slack)
    (hGoesOn : goesOn a → effect = ⟨0, 0, 0⟩) :
    effect.Describes text slack (pure a) goesOn := by
  intro capacity height hRoom m hm
  refine ⟨Effect.fits_of (by omega) hGives hRoom, fun h => ?_⟩
  rw [hGoesOn h]
  exact hm

theorem describes_pop_bind {f : Word → VM α}
    (h : ∀ value, effect.Describes popText (slack + 1) (f value) goesOn) :
    Effect.Describes ⟨effect.needs + 1, effect.takes + 1, effect.gives⟩ popText slack
      (stackPop >>= f) goesOn := by
  intro capacity height hRoom
  cases height with
  | zero =>
    refine (stackPop_low.mono (fun _ => id) (fun _ _ => id) ?_).bind fun _ => triple_false
    rintro e m rfl
    exact Effect.stops_below (Nat.succ_pos _)
  | succ height =>
    refine (stackPop_high.mono (fun _ => id) (fun _ _ => id) fun _ _ => False.elim).bind
      fun value => ?_
    have hAfter : Effect.after ⟨effect.needs + 1, effect.takes + 1, effect.gives⟩ (height + 1) =
        effect.after height := by
      rw [Effect.after, Effect.after, Nat.add_sub_add_right]
    refine (h value capacity height (by omega)).mono (fun _ => id) ?_ ?_
    · rintro a m ⟨⟨hNeeds, hFits⟩, hOn⟩
      refine ⟨⟨Nat.succ_le_succ hNeeds, hAfter ▸ hFits⟩, ?_⟩
      rwa [hAfter]
    · intro e m he
      rw [Effect.Stops, hAfter]
      simpa [Effect.Stops] using he

theorem describes_push_bind {k : Nat} {run : VM α} (value : Word)
    (h : Effect.Describes ⟨0, 0, k⟩ text 0 run goesOn) :
    Effect.Describes ⟨0, 0, k + 1⟩ text slack (stackPush value >>= fun _ => run) goesOn := by
  intro capacity height hRoom
  have hAfter : Effect.after ⟨0, 0, k + 1⟩ height = Effect.after ⟨0, 0, k⟩ (height + 1) := by
    simp only [Effect.after]
    omega
  obtain hFree | hFull := Nat.lt_or_ge height capacity
  · refine ((stackPush_high value hFree).mono (fun _ => id) (fun _ _ => id)
      fun _ _ => False.elim).bind fun _ => ?_
    refine (h capacity (height + 1) hFree).mono (fun _ => id) ?_ ?_
    · rintro a m ⟨⟨_, hFits⟩, hOn⟩
      refine ⟨⟨Nat.zero_le _, hAfter ▸ hFits⟩, ?_⟩
      rwa [hAfter]
    · intro e m he
      rw [Effect.Stops, hAfter]
      exact he
  · refine ((stackPush_full value hFull).mono (fun _ => id) (fun _ _ => id) ?_).bind
      fun _ => triple_false
    rintro e m rfl
    rw [Effect.Stops, if_neg (Nat.not_lt_zero _), if_pos]
    simp only [Effect.after]
    omega

theorem describes_push {goesOn : Unit → Prop} (value : Word) :
    Effect.Describes ⟨0, 0, 1⟩ text slack (stackPush value) goesOn := by
  rw [← bind_pure_unit (x := stackPush value)]
  exact describes_push_bind value (describes_pure rfl (Nat.le_refl 0) fun _ => rfl)

theorem describes_pushes {goesOn : PUnit → Prop} (values : List Word) :
    Effect.Describes ⟨0, 0, values.length⟩ text slack (values.forM stackPush) goesOn := by
  induction values generalizing slack with
  | nil => exact describes_pure rfl (Nat.zero_le _) fun _ => rfl
  | cons value values ih => exact describes_push_bind value ih

theorem describes_pops_bind {ι : Type} (effect : Effect) (l : List ι) {f : List Word → VM α}
    (h : ∀ values, effect.Describes popText (slack + l.length) (f values) goesOn) :
    Effect.Describes ⟨effect.needs + l.length, effect.takes + l.length, effect.gives⟩ popText slack
      ((l.mapM fun _ => stackPop) >>= f) goesOn := by
  induction l generalizing slack f with
  | nil => exact h []
  | cons i l ih =>
    have hRest (value : Word) : Effect.Describes
        ⟨effect.needs + l.length, effect.takes + l.length, effect.gives⟩ popText (slack + 1)
        ((l.mapM fun _ => stackPop) >>= fun values => f (value :: values)) goesOn := by
      refine ih fun values => ?_
      rw [Nat.add_assoc, Nat.add_comm 1]
      exact h (value :: values)
    have hFirst := describes_pop_bind hRest
    simpa only [List.mapM_cons, bind_assoc, pure_bind, List.length_cons, ← Nat.add_assoc] using hFirst

/-- Work that leaves the height alone may come first when no item and no cell can be missing. -/
theorem describes_level_bind {run : VM β} {f : β → VM α} (hRun : Level run)
    (hNeeds : effect.needs = 0) (hGives : effect.gives ≤ slack)
    (h : ∀ b, effect.Describes text slack (f b) goesOn) :
    effect.Describes text slack (run >>= f) goesOn := by
  intro capacity height hRoom
  refine Triple.bind (Triple.of ?_ ?_) fun b => h b capacity height hRoom
  · exact fun m b m' hm hEnd => (hRun capacity height).of_ok hm hEnd
  · intro m e m' hm hEnd
    exact (Effect.fits_of (by omega) hGives hRoom).stops ((hRun capacity height).of_error hm hEnd)

theorem describes_level {run : VM α} (hRun : Level run) :
    Effect.Describes ⟨0, 0, 0⟩ text slack run goesOn := by
  rw [← bind_pure (x := run)]
  exact describes_level_bind hRun rfl (Nat.zero_le _)
    fun _ => describes_pure rfl (Nat.zero_le _) fun _ => rfl

theorem describes_popped {ι : Type} {n : Nat} (l : List ι) (hn : l.length = n)
    {run : List Word → VM α} (h : ∀ values, Level (run values)) :
    Effect.Describes ⟨n, n, 0⟩ popText slack ((l.mapM fun _ => stackPop) >>= run) goesOn := by
  have hPops : Effect.Describes ⟨0 + l.length, 0 + l.length, 0⟩ popText slack
      ((l.mapM fun _ => stackPop) >>= run) goesOn :=
    describes_pops_bind ⟨0, 0, 0⟩ l fun values => describes_level (h values)
  rwa [hn, Nat.zero_add] at hPops

/-- Behind a check that asks for `n` items nothing asks for them again. -/
theorem Effect.DescribesAt.raise {n : Nat} {text' : String} {run : VM α}
    (h : effect.DescribesAt text' capacity height run goesOn) (hNeeds : effect.needs ≤ n)
    (hItems : n ≤ height) :
    Effect.DescribesAt ⟨n, effect.takes, effect.gives⟩ text capacity height run goesOn := by
  refine h.mono (fun _ => id) ?_ ?_
  · rintro a m ⟨⟨_, hFits⟩, hOn⟩
    exact ⟨⟨hItems, hFits⟩, hOn⟩
  · intro e m he
    rw [Effect.Stops, if_neg (not_lt.mpr (hNeeds.trans hItems))] at he
    rw [Effect.Stops, if_neg (not_lt.mpr hItems)]
    exact he

/-- A check that is made before anything is popped -/
theorem describes_check {n : Nat} {c : Stack → Prop} [DecidablePred c] {text' : String}
    {f : Stack → VM α} (hCheck : ∀ m : Machine, c m.stack ↔ m.stack.top + 1 < n)
    (hNeeds : effect.needs ≤ n) (h : ∀ s, effect.Describes text' slack (f s) goesOn) :
    Effect.Describes ⟨n, effect.takes, effect.gives⟩ text slack
      (getStack >>= fun s => exitIf (c s) text >>= fun _ => f s) goesOn := by
  intro capacity height hRoom m hm
  have hRun : (getStack >>= fun s => exitIf (c s) text >>= fun _ => f s) m =
      if c m.stack then .error (.exit text) m else f m.stack m :=
    (bind_of_ok rfl).trans (exitIf_bind _ _ _ m)
  have hTop := hm.top
  obtain hLow | hHigh := Nat.lt_or_ge height n
  · rw [hRun, if_pos ((hCheck m).mpr (by omega))]
    exact Effect.stops_below hLow
  · rw [hRun, if_neg (mt (hCheck m).mp (by omega))]
    exact (h m.stack capacity height hRoom).raise hNeeds hHigh m hm

theorem describes_ite {c : Prop} [Decidable c] {run run' : VM α}
    (h : effect.Describes text slack run goesOn) (h' : effect.Describes text slack run' goesOn) :
    effect.Describes text slack (if c then run else run') goesOn := by
  split
  · exact h
  · exact h'

theorem describes_andBreak {body : VM Unit} {goesOn : Control → Prop}
    (h : effect.Describes text slack body fun _ => True) (pc : Nat) :
    effect.Describes text slack (andBreak pc body) goesOn := by
  intro capacity height hRoom
  refine (h capacity height hRoom).bind fun _ m hm => ?_
  exact ⟨hm.1, fun _ => hm.2 trivial⟩

end Rules

/-! ## Work that leaves the height -/

theorem level_pure {α : Type} (a : α) : Level (pure a : VM α) := fun _ _ => .pure a

theorem level_throw {α : Type} {e : Halt} (h : ¬e.OfStack) : Level (throw e : VM α) :=
  fun _ _ => .throw fun _ _ => h

theorem level_exitIf {message : String} (h : ¬(Halt.exit message).OfStack) (c : Prop)
    [Decidable c] : Level (exitIf c message) :=
  fun capacity height => .ite (level_throw h capacity height) (.pure _)

theorem level_emit (e : Event) : Level (emit e) := fun _ _ _ h => ⟨h.inRange, h.top⟩

theorem level_modifyStack {f : Stack → Stack}
    (h : ∀ s, (f s).size = s.size ∧ (f s).top = s.top ∧ (f s).data = s.data) :
    Level (modifyStack f) := by
  rintro capacity height m ⟨⟨hSize, hCells, hLower, hUpper⟩, hTop⟩
  obtain ⟨hSize', hTop', hData'⟩ := h m.stack
  exact ⟨⟨hSize'.trans hSize, hData' ▸ hCells, hTop' ▸ hLower, hTop' ▸ hSize' ▸ hUpper⟩, hTop' ▸ hTop⟩

theorem Level.bind {α β : Type} {run : VM α} {f : α → VM β} (hRun : Level run)
    (hf : ∀ a, Level (f a)) : Level (run >>= f) :=
  fun capacity height => (hRun capacity height).bind fun a => hf a capacity height

theorem Level.ite {α : Type} {c : Prop} [Decidable c] {run run' : VM α} (h : Level run)
    (h' : Level run') : Level (if c then run else run') :=
  fun capacity height => .ite (h capacity height) (h' capacity height)

theorem level_getStack : Level getStack := fun _ _ _ h => h

theorem level_memorySize : Level memorySize := level_getStack.bind fun _ => level_pure _

theorem level_readMemory (index : Nat) : Level (readMemory index) :=
  level_getStack.bind fun _ => (level_emit _).bind fun _ => level_pure _

theorem level_writeMemory (index : Nat) (value : Byte) : Level (writeMemory index value) :=
  level_getStack.bind fun _ => (level_emit _).bind fun _ =>
    level_modifyStack fun _ => ⟨rfl, rfl, rfl⟩

theorem level_cDiv (a b : Word) : Level (cDiv a b) := (level_throw not_ofStack_trap).ite (level_pure _)

theorem level_cRem (a b : Word) : Level (cRem a b) := (level_throw not_ofStack_trap).ite (level_pure _)

theorem level_checkZero (c : Word) : Level (exitIf (c = 0) "Error: Division by zero\n") :=
  level_exitIf (not_ofStack (c := 'E') (by simp) (by simp)) _

theorem level_divOperation (a b : Word) : Level (divOperation a b) :=
  (level_checkZero b).bind fun _ => level_cDiv a b

theorem level_modOperation (a b : Word) : Level (modOperation a b) :=
  (level_checkZero b).bind fun _ => level_cRem a b

theorem level_sdivOperation (a b : Word) : Level (sdivOperation a b) := by
  refine (level_checkZero b).bind fun _ => (level_cDiv a b).bind fun result => ?_
  refine Level.ite ((level_cRem a b).bind fun _ => ?_) (level_pure _)
  refine Level.ite ((level_cRem a b).bind fun _ => ?_) (level_pure _)
  exact (level_cDiv _ b).bind fun _ => level_pure _

theorem level_smodOperation (a b : Word) : Level (smodOperation a b) := by
  refine (level_checkZero b).bind fun _ => (level_cRem a b).bind fun result => ?_
  refine Level.ite ((level_cRem a b).bind fun _ => ?_) (level_pure _)
  exact Level.ite ((level_cDiv _ b).bind fun _ => level_pure _) (level_pure _)

theorem level_remainderBy (value c : Word) : Level (remainderBy value c) :=
  (level_exitIf (not_ofStack (c := 'E') (by simp) (by simp)) _).bind fun _ => level_cRem value c

theorem level_expLoop (exponent a result : Word) : Level (expLoop exponent a result) := by
  have hCheck : ¬(Halt.exit "Error: Integer overflow in exponential operation\n").OfStack :=
    not_ofStack (c := 'E') (by simp) (by simp)
  induction exponent, a, result using expLoop.induct with
  | case1 exponent a result h a' ih =>
    rw [expLoop, dif_pos h]
    exact (level_exitIf hCheck _).bind fun _ => (level_exitIf hCheck _).bind fun _ => ih
  | case2 exponent a result h =>
    rw [expLoop, dif_neg h]
    exact level_pure _

theorem level_storage {α : Type} {run : VM α} (h : Stored run)
    (hFault : ∀ m e m', run m = .error e m' → e = .fault) : Level run := by
  intro capacity height m hm
  have hEmit (e : Event) (_ : e.OfStorage) :
      Keeps (Machine.High capacity height) (fun _ => Machine.High capacity height) (emit e) :=
    fun _ h => ⟨h.inRange, h.top⟩
  have hStorage (m : Machine) (storage : Storage) (h : m.High capacity height) :
      Machine.High capacity height { m with stack := { m.stack with storage := storage } } :=
    ⟨⟨h.inRange.size, h.inRange.cells, h.inRange.lower, h.inRange.upper⟩, h.top⟩
  have hKeeps : Keeps (Machine.High capacity height) (fun _ => Machine.High capacity height) run :=
    h.keeps (fun _ hPrimitive => hPrimitive.keeps hEmit hStorage) fun _ _ _ hm => hm
  cases hRun : run m with
  | ok a m' => exact hKeeps.of_ok hm hRun
  | error e m' =>
    rw [hFault m e m' hRun]
    exact not_ofStack_fault

theorem level_storageLoad (key : Word) : Level (storageLoad key) := by
  refine level_storage (stored_storageLoad key) fun m e m' hRun => ?_
  by_cases hInside : m.stack.storage.Admits key
  · obtain ⟨v, m₁, hLoad, _⟩ := storageLoad_of_admits hInside
    cases hLoad.symm.trans hRun
  · obtain ⟨m₁, hLoad, _⟩ := storageLoad_of_not_admits hInside
    cases hLoad.symm.trans hRun
    rfl

theorem level_storageStore (key value : Word) : Level (storageStore key value) := by
  refine level_storage (stored_storageStore key value) fun m e m' hRun => ?_
  by_cases hInside : m.stack.storage.Admits key
  · obtain ⟨m₁, hStore, _⟩ := storageStore_of_admits value hInside
    cases hStore.symm.trans hRun
  · obtain ⟨m₁, hStore, _⟩ := storageStore_of_not_admits value hInside
    cases hStore.symm.trans hRun
    rfl

/-! ## The cases -/

section Cases

variable {text : String} {slack : Nat} {goesOn : Unit → Prop}

theorem describes_arithmeticCase {operation : Word → Word → VM Word}
    (h : ∀ a b, Level (operation a b)) :
    Effect.Describes ⟨2, 2, 1⟩ popText slack (arithmeticCase operation) goesOn :=
  describes_pop_bind fun _ => describes_pop_bind fun _ =>
    describes_level_bind (h _ _) rfl (by simp) fun _ => describes_push _

theorem describes_moduloCase (operation : Word → Word → Word) :
    Effect.Describes ⟨3, 3, 1⟩ popText slack (moduloCase operation) goesOn := by
  have hRest (a b c : Word) : Effect.Describes ⟨0, 0, 1⟩ popText (slack + 1 + 1 + 1)
      (remainderBy (operation a b) c >>= stackPush) goesOn :=
    describes_level_bind (level_remainderBy _ c) rfl (by simp) describes_push
  simp only [remainderBy, bind_assoc] at hRest
  exact describes_pop_bind fun c => describes_pop_bind fun b => describes_pop_bind fun a => hRest a b c

theorem describes_pop32_bind {α : Type} {effect : Effect} {goesOn : α → Prop} {f : BitVec 32 → VM α}
    (h : ∀ value, effect.Describes popText (slack + 1) (f value) goesOn) :
    Effect.Describes ⟨effect.needs + 1, effect.takes + 1, effect.gives⟩ popText slack
      (stackPop32 >>= f) goesOn := by
  rw [stackPop32, bind_assoc]
  simp only [pure_bind]
  exact describes_pop_bind fun value => h (value.setWidth 32)

theorem describes_require_bind {α : Type} {effect : Effect} {goesOn : α → Prop} (n : Nat)
    (name : String) {text' : String} {run : VM α} (hNeeds : effect.needs ≤ n + 1)
    (h : effect.Describes text' slack run goesOn) :
    Effect.Describes ⟨n + 1, effect.takes, effect.gives⟩ (notEnough name) slack
      (require n name >>= fun _ => run) goesOn := by
  have hCheck (m : Machine) : m.stack.top < (n : Int) ↔ m.stack.top + 1 < (n + 1 : Nat) := by
    omega
  rw [require, bind_assoc]
  exact describes_check (c := fun s => s.top < (n : Int)) hCheck hNeeds fun _ => h

theorem describes_lowTopCase (name : String) {operation : Word → BitVec 32 → VM Word}
    (h : ∀ a b, Level (operation a b)) :
    Effect.Describes ⟨2, 2, 1⟩ (notEnough name) slack (lowTopCase name operation) goesOn :=
  describes_require_bind 1 name (Nat.le_refl 2) (describes_pop32_bind fun _ =>
    describes_pop_bind fun _ => describes_level_bind (h _ _) rfl (by simp) fun _ =>
      describes_push _)

theorem describes_lowSecondCase (name : String) (operation : Word → BitVec 32 → Word) :
    Effect.Describes ⟨2, 2, 1⟩ (notEnough name) slack (lowSecondCase name operation) goesOn :=
  describes_require_bind 1 name (Nat.le_refl 2) (describes_pop_bind fun _ =>
    describes_pop32_bind fun _ => describes_push _)

theorem describes_unaryCase (name : String) (operation : Word → Word) :
    Effect.Describes ⟨1, 1, 1⟩ (notEnough name) slack (unaryCase name operation) goesOn :=
  describes_require_bind 0 name (Nat.le_refl 1) (describes_pop_bind fun _ => describes_push _)

theorem describes_caseSIGNEXTEND :
    Effect.Describes ⟨3, 2, 1⟩ (notEnough "SIGNEXTEND") slack caseSIGNEXTEND goesOn :=
  describes_require_bind 2 "SIGNEXTEND" (Nat.le_succ 2) (describes_pop32_bind fun _ =>
    describes_pop_bind fun _ => describes_ite (describes_push _) (describes_push _))

theorem describes_caseEXP : Effect.Describes ⟨2, 2, 1⟩ popText slack caseEXP goesOn :=
  describes_pop_bind fun _ => describes_pop_bind fun _ =>
    describes_level_bind (level_expLoop _ _ _) rfl (by simp) fun _ => describes_push _

theorem describes_casePOP :
    Effect.Describes ⟨1, 1, 0⟩ "Stack underflow in case!\n" slack casePOP goesOn := by
  rintro capacity height hRoom m ⟨⟨hSize, hCells, hLower, hUpper⟩, hTop⟩
  obtain rfl | hItem := Nat.eq_zero_or_pos height
  · rw [casePOP_apply, if_pos (by omega)]
    exact Effect.stops_below Nat.one_pos
  · rw [casePOP_apply, if_neg (by omega)]
    refine ⟨⟨hItem, ?_⟩, fun _ => ⟨⟨hSize, hCells, ?_, ?_⟩, ?_⟩⟩
    · simp only [Effect.after]
      omega
    · change -1 ≤ m.stack.top - 1
      omega
    · change m.stack.top - 1 ≤ m.stack.size - 1
      omega
    · change m.stack.top - 1 + 1 = (height - 1 + 0 : Nat)
      omega

theorem describes_stackDup (x : Nat) :
    Effect.Describes ⟨x, 0, x⟩ ("DUP" ++ toString x ++ ": Stack underflow!\n") slack (stackDup x)
      goesOn := by
  intro capacity height hRoom m hm
  have hTop := hm.top
  rw [stackDup_apply]
  obtain hLow | hHigh := Nat.lt_or_ge height x
  · rw [if_pos (by omega)]
    exact Effect.stops_below hLow
  · rw [if_neg (by omega)]
    have hLength : ((List.range x).map m.stack.fromTop).reverse.length = x := by simp
    have hPushes : Effect.Describes ⟨0, 0, x⟩ popText slack
        (((List.range x).map m.stack.fromTop).reverse.forM stackPush) goesOn := by
      have hValues := @describes_pushes popText slack goesOn
        ((List.range x).map m.stack.fromTop).reverse
      rwa [hLength] at hValues
    exact (hPushes capacity height hRoom).raise (Nat.zero_le x) hHigh (m.afterReads x)
      ⟨hm.inRange, hm.top⟩

theorem describes_stackSwap (x : Nat) :
    Effect.Describes ⟨x + 1, 0, 0⟩ ("SWAP" ++ toString x ++ ": Stack underflow!\n") slack
      (stackSwap x) goesOn := by
  intro capacity height hRoom m hm
  have hTop := hm.top
  obtain ⟨hSize, hCells, hLower, hUpper⟩ := hm.inRange
  rw [stackSwap_apply]
  obtain hLow | hHigh := Nat.lt_or_ge height (x + 1)
  · rw [if_pos (by omega)]
    exact Effect.stops_below hLow
  · rw [if_neg (by omega), forM_writeData]
    refine ⟨⟨hHigh, ?_⟩, fun _ => ⟨⟨hSize, ?_, hLower, hUpper⟩, hTop⟩⟩
    · simp only [Effect.after]
      omega
    · exact (length_foldl_set _ _ _ _).trans hCells

theorem describes_stackLog (topicCount : Nat) :
    Effect.Describes ⟨topicCount + 2, topicCount + 2, 0⟩
      ("LOG" ++ toString topicCount ++ ": Stack underflow!\n") slack (stackLog topicCount) goesOn := by
  have hBounds : ¬(Halt.exit "Memory access out of bounds for LOGx.\n").OfStack :=
    not_ofStack (c := 'M') (by simp) (by simp)
  have hRange (ptr memoryEnd : Word) : Level (readRange ptr memoryEnd) := fun capacity height =>
    .mapM _ fun i _ => (level_getStack.bind fun _ => level_readMemory _) capacity height
  have hWork (s : Stack) (offset size : Word) (topics : List Word) : Level (do
      exitIf (s.memory.base + offset < s.memory.base ∨
          s.memory.base + BitVec.ofNat 64 s.memory.size < s.memory.base + offset + size)
        "Memory access out of bounds for LOGx.\n"
      let data ← readRange (s.memory.base + offset) (s.memory.base + offset + size)
      emit (.log topicCount data topics)) :=
    (level_exitIf hBounds _).bind fun _ => (hRange _ _).bind fun _ => level_emit _
  exact describes_check (c := fun s => s.top + 1 < (topicCount : Int) + 2)
    (fun m => by push_cast; omega) (Nat.le_refl _) fun s => describes_pop_bind fun offset => describes_pop_bind fun size =>
      describes_popped _ List.length_range (hWork s offset size)

def GoesOn (control : Control) : Prop := ∃ pc, control = .inl pc

theorem describes_errorReturn {k : Nat} (h : k ≤ slack) (message : String) (value : Word) :
    Effect.Describes ⟨0, 0, k⟩ text slack (pure (errorReturn message value)) GoesOn :=
  describes_pure rfl h (by rintro ⟨pc, ⟨⟩⟩)

theorem describes_caseMLOAD (pc : Nat) :
    Effect.Describes ⟨1, 1, 1⟩ popText slack (caseMLOAD pc) GoesOn := by
  have hPush (value : Word) : Effect.Describes ⟨0, 0, 1⟩ popText (slack + 1)
      (stackPush value >>= fun _ => pure (.inl pc)) GoesOn :=
    describes_push_bind value (describes_pure rfl (Nat.le_refl 0) fun _ => rfl)
  exact describes_pop_bind fun a => describes_level_bind level_memorySize rfl (by simp) fun size =>
    describes_ite (describes_errorReturn (by simp) _ _)
      (describes_level_bind (level_readMemory _) rfl (by simp) fun _ => hPush _)

theorem describes_storeCase (pc : Nat) (mask : BitVec 32 → BitVec 32) :
    Effect.Describes ⟨2, 2, 0⟩ popText slack (storeCase pc mask) GoesOn := by
  have hWrite (index : Nat) (value : Byte) : Level (writeMemory index value >>= fun _ =>
      (pure (.inl pc) : VM Control)) := (level_writeMemory index value).bind fun _ => level_pure _
  have hStore (a : Word) (b : BitVec 32) (size : Nat) : Effect.Describes ⟨0, 0, 0⟩ popText
      (slack + 1 + 1) (if outOfBounds a (size * 8) then
        return errorReturn "Error: Offset out of bounds\n" (-1) else do
          let old ← readMemory (a.toNat / 8)
          writeMemory (a.toNat / 8) (storeBits old (mask b) (a.toNat % 8))
          return .inl pc) GoesOn :=
    describes_ite (describes_errorReturn (Nat.zero_le _) _ _)
      (describes_level ((level_readMemory _).bind fun _ => hWrite _ _))
  exact describes_pop32_bind fun b => describes_pop_bind fun a =>
    describes_level_bind level_memorySize rfl (by simp) fun size => hStore a b size

theorem describes_caseJUMP (code : Bytecode) :
    Effect.Describes ⟨1, 1, 0⟩ popText slack (caseJUMP code) GoesOn :=
  describes_pop_bind fun _ => describes_level (level_pure _)

theorem describes_caseJUMPI (code : Bytecode) (pc : Nat) :
    Effect.Describes ⟨2, 2, 0⟩ popText slack (caseJUMPI code pc) GoesOn :=
  describes_pop32_bind fun _ => describes_pop_bind fun _ => describes_level (level_pure _)

theorem describes_caseSLOAD : Effect.Describes ⟨1, 1, 1⟩ popText slack caseSLOAD goesOn :=
  describes_pop_bind fun _ =>
    describes_level_bind (level_storageLoad _) rfl (by simp) fun _ => describes_push _

theorem describes_caseSSTORE : Effect.Describes ⟨2, 2, 0⟩ popText slack caseSSTORE goesOn :=
  describes_pop_bind fun _ => describes_pop_bind fun _ => describes_level (level_storageStore _ _)

theorem describes_casePUSH (code : Bytecode) (n pc : Nat) :
    Effect.Describes ⟨0, 0, n⟩ text 0 (casePUSH code n pc >>= fun pc' => pure (.inl pc')) GoesOn := by
  induction n generalizing pc with
  | zero => exact describes_pure rfl (Nat.le_refl 0) fun _ => rfl
  | succ n ih =>
    intro capacity height hRoom m hm
    have hStep : Effect.Describes ⟨0, 0, n + 1⟩ text 0 _ GoesOn :=
      describes_push_bind ((code.read pc).setWidth 64) (ih (pc + 1))
    rw [casePUSH, bind_assoc]
    simp only [bind_assoc]
    exact hStep capacity height hRoom { m with trace := .immediate pc :: m.trace } ⟨hm.inRange, hm.top⟩

theorem describes_executeCase (code : Bytecode) (pc : Nat) (op : Opcode) :
    op.effect.Describes op.underflow 0 (executeCase code pc op) GoesOn := by
  cases op with
  | stop => exact describes_level (level_getStack.bind fun _ => level_pure _)
  | add | mul | sub => exact describes_andBreak (describes_arithmeticCase fun _ _ => level_pure _) pc
  | div => exact describes_andBreak (describes_arithmeticCase level_divOperation) pc
  | sdiv => exact describes_andBreak (describes_arithmeticCase level_sdivOperation) pc
  | mod => exact describes_andBreak (describes_arithmeticCase level_modOperation) pc
  | smod => exact describes_andBreak (describes_arithmeticCase level_smodOperation) pc
  | addmod | mulmod => exact describes_andBreak (describes_moduloCase _) pc
  | exp => exact describes_andBreak describes_caseEXP pc
  | signextend => exact describes_andBreak describes_caseSIGNEXTEND pc
  | lt | gt | slt | sgt | shl | shr | sar =>
    exact describes_andBreak (describes_lowTopCase _ fun _ _ => level_pure _) pc
  | byte =>
    have hCheck : ¬(Halt.exit "Byte offset out of range for BYTE operation.\n").OfStack :=
      not_ofStack (c := 'B') (by simp) (by simp)
    exact describes_andBreak (describes_lowTopCase _ fun _ _ =>
      (level_exitIf hCheck _).bind fun _ => level_pure _) pc
  | eq | and | or | xor => exact describes_andBreak (describes_lowSecondCase _ _) pc
  | iszero | not => exact describes_andBreak (describes_unaryCase _ _) pc
  | balance =>
    have hNothing : Effect.Describes ⟨0, 0, 0⟩ popText 0 (pure ()) fun _ => True :=
      describes_pure rfl (Nat.le_refl 0) fun _ => rfl
    have hCheck := describes_require_bind 0 "BALANCE" (Nat.zero_le 1) hNothing
    rw [bind_pure_unit] at hCheck
    exact describes_andBreak hCheck pc
  | pop => exact describes_andBreak describes_casePOP pc
  | mload => exact describes_caseMLOAD pc
  | mstore | mstore8 => exact describes_storeCase pc _
  | sload => exact describes_andBreak describes_caseSLOAD pc
  | sstore => exact describes_andBreak describes_caseSSTORE pc
  | jump => exact describes_caseJUMP code
  | jumpi => exact describes_caseJUMPI code pc
  | pc | push0 => exact describes_andBreak (describes_push _) pc
  | msize =>
    refine describes_andBreak (fun capacity height hRoom m hm => ?_) pc
    exact describes_push (BitVec.ofNat 64 (m.stack.memory.size * 8)) capacity height hRoom m hm
  | jumpdest | skip => exact describes_level (level_pure _)
  | push n => exact describes_casePUSH code n pc
  | dup x => exact describes_andBreak (describes_stackDup x) pc
  | swap x => exact describes_andBreak (describes_stackSwap x) pc
  | log topicCount => exact describes_andBreak (describes_stackLog topicCount) pc
  | invalid opcode =>
    refine describes_level (level_throw (not_ofStack (c := 'I') ?_ (by simp)))
    exact head_append (head_append (by simp) _) _

end Cases

/-! ## One turn -/

def Bytecode.effectAt (code : Bytecode) (pc : Nat) : Effect :=
  if pc < code.size then (decode (code.read pc)).effect else ⟨1, 1, 0⟩

def Bytecode.underflowAt (code : Bytecode) (pc : Nat) : String :=
  if pc < code.size then (decode (code.read pc)).underflow else popText

def Machine.height (m : Machine) : Nat := (m.stack.top + 1).toNat

/-- The stops for which the height is to blame. -/
def Effect.StackStops (effect : Effect) (text : String) (capacity height : Nat) (e : Halt) : Prop :=
  height < effect.needs ∧ e = .exit text ∨
    effect.needs ≤ height ∧ capacity < effect.after height ∧ e = .exit noRoomText

section Runs

variable {code : Bytecode} {capacity pc pc' : Nat} {m m' : Machine} {s : Stack} {e : Halt}

theorem high_of_inRange (h : m.stack.InRange capacity) : m.High capacity m.height := by
  refine ⟨h, ?_⟩
  have hLower := h.lower
  rw [Machine.height]
  omega

theorem Machine.High.height_eq {height : Nat} (h : m.High capacity height) : m.height = height := by
  have hTop := h.top
  rw [Machine.height]
  omega

theorem height_le (h : m.stack.InRange capacity) : m.height ≤ capacity := by
  obtain ⟨hSize, _, _, hUpper⟩ := h
  rw [Machine.height]
  omega

theorem cycle_describes (code : Bytecode) (pc : Nat) {height : Nat} (h : height ≤ capacity) :
    (code.effectAt pc).DescribesAt (code.underflowAt pc) capacity height (cycle code pc) GoesOn := by
  intro m hm
  obtain hPc | hEnd := Nat.lt_or_ge pc code.size
  · rw [cycle_of_lt hPc, Bytecode.effectAt, Bytecode.underflowAt, if_pos hPc, if_pos hPc]
    exact describes_executeCase code (pc + 1) _ capacity height h (m.fetched pc) ⟨hm.inRange, hm.top⟩
  · have hReturn : Effect.Describes ⟨1, 1, 0⟩ popText 0
        (stackPop >>= fun value => pure (.inr ⟨.fellOff, value⟩)) GoesOn :=
      describes_pop_bind fun value => describes_pure rfl (Nat.zero_le _) fun _ => rfl
    rw [cycle, Bytecode.effectAt, Bytecode.underflowAt, if_neg (not_lt.mpr hEnd),
      if_neg (not_lt.mpr hEnd), if_neg (not_lt.mpr hEnd)]
    exact hReturn capacity height h m hm

theorem Effect.StackStops.not_fits {effect : Effect} {text : String} {height : Nat}
    (h : effect.StackStops text capacity height e) : ¬effect.Fits capacity height := by
  rintro ⟨hNeeds, hRoom⟩
  obtain ⟨hLow, _⟩ | ⟨_, hHigh, _⟩ := h
  · omega
  · omega

theorem Effect.Stops.stackStops_iff {effect : Effect} {text : String} {height : Nat}
    (h : effect.Stops text capacity height e) (hText : (Halt.exit text).OfStack) :
    e.OfStack ↔ effect.StackStops text capacity height e := by
  rw [Effect.Stops] at h
  split at h
  · rename_i hLow
    exact iff_of_true (h ▸ hText) (.inl ⟨hLow, h⟩)
  · rename_i hItems
    split at h
    · rename_i hHigh
      exact iff_of_true (h ▸ .overflow) (.inr ⟨not_lt.mp hItems, hHigh, h⟩)
    · rename_i hRoom
      exact iff_of_false h fun hStops => hStops.not_fits ⟨not_lt.mp hItems, not_lt.mp hRoom⟩

theorem Effect.StackStops.eq {effect : Effect} {text : String} {height : Nat} {e' : Halt}
    (h : effect.StackStops text capacity height e) (h' : effect.Stops text capacity height e') :
    e' = e := by
  obtain ⟨hLow, rfl⟩ | ⟨hItems, hHigh, rfl⟩ := h
  · rwa [Effect.Stops, if_pos hLow] at h'
  · rwa [Effect.Stops, if_neg (not_lt.mpr hItems), if_pos hHigh] at h'

theorem ofStack_underflowAt (code : Bytecode) (pc : Nat) :
    (Halt.exit (code.underflowAt pc)).OfStack := by
  rw [Bytecode.underflowAt]
  split
  · exact .underflow _
  · exact .underflow .add

/-- What a turn stops with for the height of the stack -/
theorem cycle_stackStops_iff (hs : m.stack.InRange capacity) :
    (∃ m', cycle code pc m = .error e m') ∧ e.OfStack ↔
      (code.effectAt pc).StackStops (code.underflowAt pc) capacity m.height e := by
  have hTurn := cycle_describes code pc (height_le hs)
  have hHigh := high_of_inRange hs
  constructor
  · rintro ⟨⟨m', hRun⟩, hStack⟩
    exact ((hTurn.of_error hHigh hRun).stackStops_iff (ofStack_underflowAt code pc)).mp hStack
  · intro hStops
    cases hRun : cycle code pc m with
    | ok c m' => exact absurd (hTurn.of_ok hHigh hRun).1 hStops.not_fits
    | error e' m' =>
      have hStops' := hTurn.of_error hHigh hRun
      obtain rfl := hStops.eq hStops'
      exact ⟨⟨m', rfl⟩, (hStops'.stackStops_iff (ofStack_underflowAt code pc)).mpr hStops⟩

theorem cycle_height (hs : m.stack.InRange capacity) (h : cycle code pc m = .ok (.inl pc') m') :
    m'.height = (code.effectAt pc).after m.height := by
  have hTurn := cycle_describes code pc (height_le hs)
  exact ((hTurn.of_ok (high_of_inRange hs) h).2 ⟨pc', rfl⟩).height_eq

/-! ## Runs -/

/-- A run stops for the height of its stack, and with which text, exactly if it comes to an
instruction that asks for more items than there are or for more cells than are left. Where it goes
on the height changes by what the instructions take and give. -/
theorem stack_stops_iff (code : Bytecode) (capacity : Nat) (s : Stack) (hs : s.InRange capacity) :
    (∀ e, (∃ n m, executeFor code n 0 s.machine = .error e m) ∧ e.OfStack ↔
      ∃ n pc m, executeFor code n 0 s.machine = .ok (.inl pc) m ∧
        (code.effectAt pc).StackStops (code.underflowAt pc) capacity m.height e) ∧
    ∀ n pc m pc' m', executeFor code n 0 s.machine = .ok (.inl pc) m →
      executeFor code (n + 1) 0 s.machine = .ok (.inl pc') m' →
        m'.height = (code.effectAt pc).after m.height := by
  refine ⟨fun e => ⟨?_, ?_⟩, ?_⟩
  · rintro ⟨⟨n, m', hRun⟩, hStack⟩
    obtain ⟨k, _, pc, m, hBefore, hTurn⟩ := turns_error hRun
    exact ⟨k, pc, m, hBefore,
      (cycle_stackStops_iff (executeFor_inRange hs hBefore)).mp ⟨⟨m', hTurn⟩, hStack⟩⟩
  · rintro ⟨n, pc, m, hRun, hStops⟩
    obtain ⟨⟨m', hTurn⟩, hStack⟩ := (cycle_stackStops_iff (executeFor_inRange hs hRun)).mpr hStops
    exact ⟨⟨n + 1, m', (turns_add hRun).trans (turns_succ_of_error hTurn)⟩, hStack⟩
  · intro n pc m pc' m' hRun hNext
    rw [executeFor_succ_of_inl hRun] at hNext
    exact cycle_height (executeFor_inRange hs hRun) hNext

/-- PUSH1 1, JUMPDEST, DUP1, PUSH1 2, JUMP: each round leaves one item more, and the fourth stops at
PUSH1. -/
theorem stack_stops_iff_loop :
    let code : Bytecode := ⟨[0x60, 1, 0x5b, 0x80, 0x60, 2, 0x56], fun _ => 0⟩
    let s := stackCreate 4 (fun _ => 0) zeroMemory
    (∀ e, (∃ n m, executeFor code n 0 s.machine = .error e m) ∧ e.OfStack ↔
      ∃ n pc m, executeFor code n 0 s.machine = .ok (.inl pc) m ∧
        (code.effectAt pc).StackStops (code.underflowAt pc) 4 m.height e) ∧
    ∀ n pc m pc' m', executeFor code n 0 s.machine = .ok (.inl pc) m →
      executeFor code (n + 1) 0 s.machine = .ok (.inl pc') m' →
        m'.height = (code.effectAt pc).after m.height :=
  stack_stops_iff _ 4 _ ⟨rfl, rfl, by decide, by decide⟩

end Runs

end Manhattan.Vm
