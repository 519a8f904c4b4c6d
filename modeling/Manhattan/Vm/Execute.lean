import Manhattan.Library.ExecRules
import Manhattan.Vm.Cases

/-! # execute_bytecode

The switch labels as an enumeration, the dispatch and the fetch loop. A run is followed
for a number of turns of the loop: it is still running at some `pc`, has returned, or
has stopped with a `Halt`.
-/

namespace Manhattan.Vm

open Library.ExecRules

/-- The labels of the switch; `skip` stands for those followed by `break` alone. -/
inductive Opcode
  | stop | add | mul | sub | div | sdiv | mod | smod | addmod | mulmod | exp | signextend
  | lt | gt | slt | sgt | eq | iszero | and | or | xor | not | byte | shl | shr | sar
  | balance | pop | mload | mstore | mstore8 | sload | sstore | jump | jumpi | pc | msize
  | jumpdest | push0 | push (n : Nat) | dup (x : Nat) | swap (x : Nat) | log (topicCount : Nat)
  | skip | invalid (opcode : Byte)
  deriving DecidableEq

def decodeLow : Nat → Option Opcode
  | 0x00 => some .stop | 0x01 => some .add | 0x02 => some .mul | 0x03 => some .sub
  | 0x04 => some .div | 0x05 => some .sdiv | 0x06 => some .mod | 0x07 => some .smod
  | 0x08 => some .addmod | 0x09 => some .mulmod | 0x0a => some .exp | 0x0b => some .signextend
  | 0x10 => some .lt | 0x11 => some .gt | 0x12 => some .slt | 0x13 => some .sgt
  | 0x14 => some .eq | 0x15 => some .iszero | 0x16 => some .and | 0x17 => some .or
  | 0x18 => some .xor | 0x19 => some .not | 0x1a => some .byte | 0x1b => some .shl
  | 0x1c => some .shr | 0x1d => some .sar | 0x1e => some .skip | 0x30 => some .skip
  | 0x31 => some .balance | 0x50 => some .pop | 0x51 => some .mload | 0x52 => some .mstore
  | 0x53 => some .mstore8 | 0x54 => some .sload | 0x55 => some .sstore | 0x56 => some .jump
  | 0x57 => some .jumpi | 0x58 => some .pc | 0x59 => some .msize | 0x5a => some .skip
  | 0x5b => some .jumpdest | 0x5f => some .push0
  | n => if 0x32 ≤ n ∧ n ≤ 0x48 then some .skip else none

def decode (opcode : Byte) : Opcode :=
  let n := opcode.toNat
  if n < 0x60 then (decodeLow n).getD (.invalid opcode)
  else if n < 0x80 then .push (n - 95)
  else if n < 0x90 then .dup (n - 127)
  else if n < 0xa0 then .swap (n - 143)
  else if n < 0xa5 then .log (n - 160)
  else if n ∈ [0xf0, 0xf1, 0xf2, 0xf3, 0xf4, 0xf5, 0xfa, 0xfd, 0xfe, 0xff] then .skip
  else .invalid opcode

def hexByte (b : Byte) : String :=
  let digits := "0123456789ABCDEF".toList
  String.ofList [digits.getD (b.toNat / 16) '0', digits.getD (b.toNat % 16) '0']

def andBreak (pc : Nat) (body : VM Unit) : VM Control := do
  body
  return .inl pc

/-- `switch (opcode)`, with `pc` already past the opcode. -/
def executeCase (code : Bytecode) (pc : Nat) : Opcode → VM Control
  | .stop => do
    let s ← getStack
    return .inr ⟨.stop, BitVec.ofInt 64 s.top⟩
  | .add => andBreak pc caseADD
  | .mul => andBreak pc caseMUL
  | .sub => andBreak pc caseSUB
  | .div => andBreak pc caseDIV
  | .sdiv => andBreak pc caseSDIV
  | .mod => andBreak pc caseMOD
  | .smod => andBreak pc caseSMOD
  | .addmod => andBreak pc caseADDMOD
  | .mulmod => andBreak pc caseMULMOD
  | .exp => andBreak pc caseEXP
  | .signextend => andBreak pc caseSIGNEXTEND
  | .lt => andBreak pc caseLT
  | .gt => andBreak pc caseGT
  | .slt => andBreak pc caseSLT
  | .sgt => andBreak pc caseSGT
  | .eq => andBreak pc caseEQ
  | .iszero => andBreak pc caseISZERO
  | .and => andBreak pc caseAND
  | .or => andBreak pc caseOR
  | .xor => andBreak pc caseXOR
  | .not => andBreak pc caseNOT
  | .byte => andBreak pc caseBYTE
  | .shl => andBreak pc caseSHL
  | .shr => andBreak pc caseSHR
  | .sar => andBreak pc caseSAR
  | .balance => andBreak pc caseBALANCE
  | .pop => andBreak pc casePOP
  | .mload => caseMLOAD pc
  | .mstore => caseMSTORE pc
  | .mstore8 => caseMSTORE8 pc
  | .sload => andBreak pc caseSLOAD
  | .sstore => andBreak pc caseSSTORE
  | .jump => caseJUMP code
  | .jumpi => caseJUMPI code pc
  | .pc => andBreak pc (casePC pc)
  | .msize => andBreak pc caseMSIZE
  | .jumpdest => return .inl pc
  | .push0 => andBreak pc (stackPush 0)
  | .push n => do
    let pc' ← casePUSH code n pc
    return .inl pc'
  | .dup x => andBreak pc (stackDup x)
  | .swap x => andBreak pc (stackSwap x)
  | .log topicCount => andBreak pc (stackLog topicCount)
  | .skip => return .inl pc
  | .invalid opcode => exit ("Invalid opcode: 0x" ++ hexByte opcode ++ "\n")

/-- One turn of `while (pc < bytecode + size)`, or the `return` after it. -/
def cycle (code : Bytecode) (pc : Nat) : VM Control :=
  if pc < code.size then do
    emit (.fetch pc)
    executeCase code (pc + 1) (decode (code.read pc))
  else do
    let value ← stackPop
    return .inr ⟨.fellOff, value⟩

def Machine.fetched (m : Machine) (pc : Nat) : Machine where
  stack := m.stack
  trace := .fetch pc :: m.trace

theorem cycle_of_lt {code : Bytecode} {pc : Nat} (h : pc < code.size) (m : Machine) :
    cycle code pc m = executeCase code (pc + 1) (decode (code.read pc)) (m.fetched pc) := by
  rw [cycle, if_pos h]
  rfl

/-- `execute_bytecode` for at most `n` turns from `pc`. -/
def executeFor (code : Bytecode) (n pc : Nat) : VM Control := turns (cycle code) n pc

def Stack.machine (s : Stack) : Machine := { stack := s, trace := [] }

/-- `execute_bytecode(bytecode, size, stack)` returns. -/
def Returns (code : Bytecode) (s : Stack) (r : Return) (m : Machine) : Prop :=
  ∃ n, executeFor code n 0 s.machine = .ok (.inr r) m

def Halts (code : Bytecode) (s : Stack) (h : Halt) (m : Machine) : Prop :=
  ∃ n, executeFor code n 0 s.machine = .error h m

def Event.fetched : Event → Option Nat
  | .fetch offset => some offset
  | _ => none

/-- The offsets from which opcodes were fetched, oldest first. -/
def fetches (m : Machine) : List Nat := m.trace.reverse.filterMap Event.fetched

theorem fetches_cons (s : Stack) (e : Event) (trace : List Event) :
    fetches { stack := s, trace := e :: trace } =
      fetches { stack := s, trace := trace } ++ e.fetched.toList := by
  simp only [fetches, List.reverse_cons, List.filterMap_append, List.filterMap_cons,
    List.filterMap_nil]
  cases e.fetched <;> rfl

end Manhattan.Vm
