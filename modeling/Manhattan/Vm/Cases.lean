import Manhattan.Vm.StackHelpers
import Manhattan.Vm.StorageHelpers

/-! # The cases of the switch

One definition for each case of `execute_bytecode` that does something. From SIGNEXTEND's
case on the name `b` is the `uint32_t` declared there, so every later case that pops into
`b` keeps the low 32 bits only (`stackPop32`). Arithmetic is that of the unoptimised
x86-64 build: two's complement with wrap-around, shift counts modulo 64, and `idiv`
trapping on a zero divisor and on the quotient 2^63.
-/

namespace Manhattan.Vm

open Library.ExecRules

def INT64_MIN : Word := BitVec.intMin 64

/-- `a / b` -/
def cDiv (a b : Word) : VM Word :=
  if b = 0 ∨ (a = INT64_MIN ∧ b = -1) then throw .trap else return a.sdiv b

/-- `a % b` -/
def cRem (a b : Word) : VM Word :=
  if b = 0 ∨ (a = INT64_MIN ∧ b = -1) then throw .trap else return a.srem b

def ofBool (c : Bool) : Word := if c then 1 else 0

/-! ## 0x01 to 0x0b -/

/-- Pop `b`, pop `a`, push the result: the shape of ADD to SMOD. -/
def arithmeticCase (operation : Word → Word → VM Word) : VM Unit := do
  let b ← stackPop
  let a ← stackPop
  let result ← operation a b
  stackPush result

def moduloCase (operation : Word → Word → Word) : VM Unit := do
  let c ← stackPop
  let b ← stackPop
  let a ← stackPop
  exitIf (c = 0) "Error: Modulo by zero\n"
  let result ← cRem (operation a b) c
  stackPush result

def caseADD : VM Unit := arithmeticCase fun a b => return a + b

def caseMUL : VM Unit := arithmeticCase fun a b => return a * b

def caseSUB : VM Unit := arithmeticCase fun a b => return a - b

def caseDIV : VM Unit := arithmeticCase fun a b => do
  exitIf (b = 0) "Error: Division by zero\n"
  cDiv a b

def caseSDIV : VM Unit := arithmeticCase fun a b => do
  exitIf (b = 0) "Error: Division by zero\n"
  let result ← cDiv a b
  if (a ^^^ b).toInt < 0 then do
    let remainder ← cRem a b
    if remainder ≠ 0 then do
      let remainder ← cRem a b
      let quotient ← cDiv (-(a - remainder)) b
      return -quotient
    else return result
  else return result

def caseMOD : VM Unit := arithmeticCase fun a b => do
  exitIf (b = 0) "Error: Division by zero\n"
  cRem a b

def caseSMOD : VM Unit := arithmeticCase fun a b => do
  exitIf (b = 0) "Error: Division by zero\n"
  let result ← cRem a b
  if (a ^^^ b).toInt < 0 then do
    let remainder ← cRem a b
    if remainder ≠ 0 then do
      let quotient ← cDiv (-a) b
      return quotient * b + a
    else return result
  else return result

def caseADDMOD : VM Unit := moduloCase fun a b => a + b

def caseMULMOD : VM Unit := moduloCase fun a b => a * b

/-- `while (exponent > 0)` with its two overflow guesses. -/
def expLoop (exponent a result : Word) : VM Word :=
  if _h : 0 < exponent.toInt then do
    let result' := if exponent &&& 1 ≠ 0 then result * a else result
    exitIf (exponent &&& 1 ≠ 0 ∧ result'.toInt < a.toInt)
      "Error: Integer overflow in exponential operation\n"
    let a' := a * a
    exitIf (a'.toInt < 1) "Error: Integer overflow in exponential operation\n"
    expLoop (exponent.sshiftRight 1) a' result'
  else return result
termination_by exponent.toNat
decreasing_by
  have hMsb : exponent.msb = false := by
    rw [BitVec.msb_eq_toInt]
    exact decide_eq_false (by omega)
  have hNat : (exponent.toNat : Int) = exponent.toInt :=
    (BitVec.toInt_eq_toNat_of_msb hMsb).symm
  rw [BitVec.sshiftRight_eq_of_msb_false hMsb, BitVec.toNat_ushiftRight, Nat.shiftRight_eq_div_pow]
  omega

def caseEXP : VM Unit := do
  let exponent ← stackPop
  let a ← stackPop
  let result ← expLoop exponent a 1
  stackPush result

/-- `uint32_t b = stack_pop(stack)` -/
def stackPop32 : VM (BitVec 32) := do
  let value ← stackPop
  return value.setWidth 32

def require (depth : Int) (operation : String) : VM Unit := do
  let s ← getStack
  exitIf (s.top < depth) ("Not enough elements on the stack for " ++ operation ++ " operation.\n")

def caseSIGNEXTEND : VM Unit := do
  require 2 "SIGNEXTEND"
  let b ← stackPop32
  let a ← stackPop
  if b &&& 0x80000000 ≠ 0 then
    stackPush (a &&& (~~~((~~~0 : BitVec 32) <<< (b &&& 0x1f).toNat)).setWidth 64)
  else
    stackPush (a &&& 0xffffffffffffffff)

/-! ## 0x10 to 0x31 -/

/-- Check, pop `b`, pop `a`, push the result: the shape of LT to SGT and of BYTE to SAR. -/
def lowTopCase (name : String) (operation : Word → BitVec 32 → VM Word) : VM Unit := do
  require 1 name
  let b ← stackPop32
  let a ← stackPop
  let result ← operation a b
  stackPush result

def lowSecondCase (name : String) (operation : Word → BitVec 32 → Word) : VM Unit := do
  require 1 name
  let a ← stackPop
  let b ← stackPop32
  stackPush (operation a b)

def unaryCase (name : String) (operation : Word → Word) : VM Unit := do
  require 0 name
  let a ← stackPop
  stackPush (operation a)

def caseLT : VM Unit :=
  lowTopCase "LT" fun a b => return ofBool (a.toInt < (b.setWidth 64).toInt)

/-- GT prints LT's text. -/
def caseGT : VM Unit :=
  lowTopCase "LT" fun a b => return ofBool (a.toInt > (b.setWidth 64).toInt)

def caseSLT : VM Unit :=
  lowTopCase "SLT" fun a b => return ofBool (a.toInt < (b.setWidth 64).toInt)

/-- SGT prints SLT's text. -/
def caseSGT : VM Unit :=
  lowTopCase "SLT" fun a b => return ofBool (a.toInt > (b.setWidth 64).toInt)

def caseEQ : VM Unit := lowSecondCase "EQ" fun a b => ofBool (a = b.setWidth 64)

def caseISZERO : VM Unit := unaryCase "ISZERO" fun a => ofBool (a = 0)

def caseAND : VM Unit := lowSecondCase "AND" fun a b => a &&& b.setWidth 64

def caseOR : VM Unit := lowSecondCase "OR" fun a b => a ||| b.setWidth 64

def caseXOR : VM Unit := lowSecondCase "XOR" fun a b => a ^^^ b.setWidth 64

def caseNOT : VM Unit := unaryCase "NOT" fun a => ~~~a

/-- `8 * b` is an `unsigned int`; the test `b < 0` is never true of it. -/
def caseBYTE : VM Unit := lowTopCase "BYTE" fun a b => do
  exitIf (b.toNat ≥ 32) "Byte offset out of range for BYTE operation.\n"
  return a.sshiftRight ((8 * b).toNat % 64) &&& 0xFF

def caseSHL : VM Unit := lowTopCase "SHL" fun a b =>
  return if b.toNat > 255 then 0 else a <<< (b.toNat % 64)

def caseSHR : VM Unit := lowTopCase "SHR" fun a b =>
  return if b.toNat > 255 then 0 else a.sshiftRight (b.toNat % 64)

def caseSAR : VM Unit := lowTopCase "SAR" fun a b =>
  return if b.toNat > 63 then if a.toInt < 0 then INT64_MIN else 0 else a.sshiftRight b.toNat

def caseBALANCE : VM Unit := require 0 "BALANCE"

/-! ## 0x50 to 0x5f -/

def casePOP : VM Unit := do
  let s ← getStack
  exitIf (s.top < 0) "Stack underflow in case!\n"
  setTop (s.top - 1)

theorem casePOP_apply (m : Machine) :
    casePOP m =
      if m.stack.top < 0 then .error (.exit "Stack underflow in case!\n") m
      else .ok () { m with stack := { m.stack with top := m.stack.top - 1 } } := (bind_of_ok rfl).trans (exitIf_bind _ _ _ m)

/-- How `execute_bytecode` returned: by STOP, by an error `return` after a message, or by
the `stack_pop` after the loop. -/
inductive Ending
  | stop
  | errorReturn (message : String)
  | fellOff
  deriving DecidableEq

structure Return where
  ending : Ending
  value : Word
  deriving DecidableEq

abbrev Control := Nat ⊕ Return

def errorReturn (message : String) (value : Word) : Control := .inr ⟨.errorReturn message, value⟩

/-- `a < 0 || a >= limit` for an `int64_t a` and a `size_t limit` -/
def outOfBounds (a : Word) (limit : Nat) : Prop := a.toInt < 0 ∨ limit % 2 ^ 64 ≤ a.toNat

instance (a : Word) (limit : Nat) : Decidable (outOfBounds a limit) :=
  inferInstanceAs (Decidable (_ ∨ _))

def caseMLOAD (pc : Nat) : VM Control := do
  let a ← stackPop
  let size ← memorySize
  if outOfBounds a (size * 8) then return errorReturn "Error: Offset out of bounds\n" 0
  else do
    let loadWord ← readMemory (a.toNat / 8)
    let b : BitVec 32 := ((loadWord.setWidth 64 >>> (a.toNat % 8)) &&& (0xFF : Word)).setWidth 32
    stackPush (b.setWidth 64)
    return .inl pc

/-- `(old & ~(0xFF << bit)) | ((b & 0xFF) << bit)` computed in 32 bits and stored in a byte -/
def storeBits (old : Byte) (b : BitVec 32) (bit : Nat) : Byte :=
  ((old.setWidth 32 &&& ~~~((0xFF : BitVec 32) <<< bit)) ||| ((b &&& 0xFF) <<< bit)).setWidth 8

/-- MSTORE and, but for the mask that its pop already applies, MSTORE8. -/
def storeCase (pc : Nat) (mask : BitVec 32 → BitVec 32) : VM Control := do
  let b ← stackPop32
  let a ← stackPop
  let size ← memorySize
  if outOfBounds a (size * 8) then return errorReturn "Error: Offset out of bounds\n" (-1)
  else do
    let old ← readMemory (a.toNat / 8)
    writeMemory (a.toNat / 8) (storeBits old (mask b) (a.toNat % 8))
    return .inl pc

def caseMSTORE (pc : Nat) : VM Control := storeCase pc fun b => b

def caseMSTORE8 (pc : Nat) : VM Control := storeCase pc fun b => b &&& 0xFF

def storageLoad (a : Word) : VM Word := do
  emit (.sload a)
  let storageAddress ← stackGetStorageAddress a
  match ← loadAddress storageAddress with
  | none => do
    emit (.loaded a 0)
    return 0
  | some pointer => do
    let value ← readCell pointer
    emit (.loaded a value)
    return value

def caseSLOAD : VM Unit := do
  let a ← stackPop
  let value ← storageLoad a
  stackPush value

/-- SSTORE after its pops; `value` is what was popped into the `uint32_t b`. -/
def storageStore (a value : Word) : VM Unit := do
  emit (.sstore a value)
  let b : BitVec 32 := value.setWidth 32
  let storageAddress ← stackGetStorageAddress a
  match ← loadAddress storageAddress with
  | none => do
    let pointer ← allocateCell
    setAddress storageAddress pointer
    writeCell pointer (b.setWidth 64)
  | some pointer => writeCell pointer (b.setWidth 64)

def caseSSTORE : VM Unit := do
  let value ← stackPop
  let a ← stackPop
  storageStore a value

/-- `bytecode` with its `size`, and what lies in memory after it. -/
structure Bytecode where
  bytes : List Byte
  beyond : Nat → Byte

def Bytecode.size (code : Bytecode) : Nat := code.bytes.length

def Bytecode.read (code : Bytecode) (offset : Nat) : Byte :=
  if h : offset < code.bytes.length then code.bytes[offset]
  else code.beyond (offset - code.bytes.length)

/-- The two checks of a destination and the new `pc`. -/
def jumpTo (code : Bytecode) (a : Word) : Control :=
  if outOfBounds a code.size then errorReturn "Invalid jump destination\n" (-1)
  else if code.read a.toNat ≠ 0x5b then errorReturn "Jump destination is not a JUMPDEST\n" (-1)
  else .inl a.toNat

def caseJUMP (code : Bytecode) : VM Control := do
  let a ← stackPop
  return jumpTo code a

def caseJUMPI (code : Bytecode) (pc : Nat) : VM Control := do
  let b ← stackPop32
  let a ← stackPop
  return if b ≠ 0 then jumpTo code a else .inl pc

def casePC (pc : Nat) : VM Unit := stackPush (BitVec.ofNat 64 pc)

def caseMSIZE : VM Unit := do
  let size ← memorySize
  stackPush (BitVec.ofNat 64 (size * 8))

/-- `for (i = 0; i < n; i++) stack_push(stack, *(pc++))` -/
def casePUSH (code : Bytecode) : Nat → Nat → VM Nat
  | 0, pc => return pc
  | n + 1, pc => do
    emit (.immediate pc)
    stackPush ((code.read pc).setWidth 64)
    casePUSH code n (pc + 1)

end Manhattan.Vm
