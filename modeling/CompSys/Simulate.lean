import CompSys.SimMemory

/-!
# The simulator of A5

`simulate` in `simulate.c`, one iteration of its loop at a time. Signed
arithmetic wraps, and a shift by 32 or more shifts by the low five bits, as the
compiled program does; a division that the processor refuses stops the program.
-/
namespace CompSys.Simulate

/-- Why the loop ends: `exit` on an ecall or an unaligned access, or a division trap. -/
inductive Stop where
  | ecall
  | unaligned
  | trap
deriving DecidableEq

/-- `enum opcodes`. -/
inductive Opcode where
  | R
  | I1
  | I2
  | I3
  | I4
  | S
  | B
  | J
  | U1
  | U2
deriving DecidableEq

/-- `none` stands for every other value, on which each `switch` takes its default. -/
def Opcode.ofWord (w : Word) : Option Opcode :=
  match w.toNat with
  | 0x33 => some R
  | 0x13 => some I1
  | 0x3 => some I2
  | 0x67 => some I3
  | 0x73 => some I4
  | 0x23 => some S
  | 0x63 => some B
  | 0x6F => some J
  | 0x37 => some U1
  | 0x17 => some U2
  | _ => none

/-- `struct instruction`; the pointer `rd` is the index of the register it points to. -/
structure Instruction where
  opcode : Option Opcode
  rd : BitVec 5
  funct3 : Word
  rs1 : Word
  rs2 : Word
  funct7 : Word
  immediate : Word

/-- What lives from one iteration to the next. `immediate` keeps its old value on an
opcode without one. -/
structure State where
  pc : Word
  reg : BitVec 5 → Word
  mem : SimMemory
  immediate : Word

/-! ## Decoding -/

/-- The index of a register, from bit `s` on. -/
def regIndex (inst : Word) (s : Nat) : BitVec 5 := (inst.sshiftRight s &&& 0x1F#32).setWidth 5

def rs1 (s : State) (inst : Word) : Word := s.reg (regIndex inst 15)

def rs2 (s : State) (inst : Word) : Word := s.reg (regIndex inst 20)

def rd (inst : Word) : BitVec 5 := regIndex inst 7

def funct3 (inst : Word) : Word := inst.sshiftRight 12 &&& 0x7#32

def funct7 (inst : Word) : Word := inst.sshiftRight 25 &&& 0x7F#32

/-- The loops that copy the sign bit into the bits `low`, `low + 1`, ... -/
def fillSign (inst : Word) (low count : Nat) : Word :=
  (List.range count).foldl (fun retval i => retval ||| ((inst >>> 31) <<< (low + i))) 0

def immediateI (inst : Word) : Word :=
  fillSign inst 11 21 ||| ((inst >>> 20) &&& ~~~(1#32 <<< 11))

def immediateS (inst : Word) : Word :=
  fillSign inst 11 21 ||| (((inst >>> 25) &&& ~~~(1#32 <<< 6)) <<< 5) |||
    (((inst >>> 8) &&& 0xF#32) <<< 1) ||| ((inst &&& (1#32 <<< 7)) >>> 7)

/-- The bits of `inst[11:8]` are taken from the top of the word. -/
def immediateB (inst : Word) : Word :=
  (fillSign inst 12 20 ||| ((inst &&& (1#32 <<< 7)) <<< 4) |||
    (((inst >>> 25) &&& ~~~(1#32 <<< 6)) <<< 5) ||| ((inst >>> 28) <<< 1)) &&& ~~~1#32

/-- The lowest bit ends up set. -/
def immediateJ (inst : Word) : Word :=
  fillSign inst 20 12 ||| ((((inst >>> 12) <<< 12) <<< 12) >>> 12) |||
    ((inst &&& (1#32 <<< 20)) >>> 9) ||| (((inst >>> 25) &&& ~~~(1#32 <<< 6)) <<< 5) |||
    ((inst &&& (0xF#32 <<< 21)) >>> 20) ||| 1#32

def immediateU (inst : Word) : Word := inst &&& 0x7FFFF800#32

def calculateImmediate (opcode : Option Opcode) (inst old : Word) : Word :=
  match opcode with
  | some .I1 | some .I2 | some .I3 | some .I4 => immediateI inst
  | some .S => immediateS inst
  | some .B => immediateB inst
  | some .J => immediateJ inst
  | some .U1 | some .U2 => immediateU inst
  | _ => old

/-- The fields of the instruction word, with the values of its source registers. -/
def decode (s : State) (inst : Word) : Instruction :=
  let opcode := Opcode.ofWord (inst &&& 0x7F#32)
  { opcode := opcode
    rd := rd inst
    funct3 := funct3 inst
    rs1 := rs1 s inst
    rs2 := rs2 s inst
    funct7 := funct7 inst
    immediate := calculateImmediate opcode inst s.immediate }

/-! ## Executing -/

namespace State

/-- `*ins.rd = insertdata`. -/
def writeRd (s : State) (ins : Instruction) (insertdata : Word) : State :=
  { s with reg := Function.update s.reg ins.rd insertdata }

def incrementPC (s : State) : State := { s with pc := s.pc + 4 }

/-- The three lines that end most cases. -/
def insert (s : State) (ins : Instruction) (insertdata : Word) : State :=
  (s.writeRd ins insertdata).incrementPC

/-- `PC += ins.immediate`, or the next instruction. -/
def branch (s : State) (ins : Instruction) (taken : Bool) : State :=
  if taken then { s with pc := s.pc + ins.immediate } else s.incrementPC

end State

/-- A comparison as a C int. -/
def ofBool (b : Bool) : Word := if b then 1 else 0

/-- `a / b` on ints: the quotient -2^31 / -1 does not fit and traps. -/
def divide (a b : Word) : Except Stop Word :=
  if a = 0x80000000 ∧ b = -1 then .error .trap else .ok (a.sdiv b)

/-- `a % b` on unsigneds. -/
def remainderUnsigned (a b : Word) : Except Stop Word :=
  if b = 0 then .error .trap else .ok (a % b)

/-- `a << b` and `a >> b` with a variable count. -/
def shiftCount (b : Word) : Nat := b.toNat % 32

/-- `case opcode_R`; a `break` without a write leaves the PC where it is. -/
def executeR (s : State) (ins : Instruction) : Except Stop State :=
  match ins.funct3.toNat with
  | 0x0 =>
    if ins.funct7 = 0x00 then .ok (s.insert ins (ins.rs1 + ins.rs2))
    else if ins.funct7 = 0x20 then .ok (s.insert ins (ins.rs1 - ins.rs2))
    else if ins.funct7 = 0x01 then .ok (s.insert ins (ins.rs1 * ins.rs2))
    else .ok s
  | 0x2 =>
    if ins.funct7 = 0x01 then
      let tempo : BitVec 64 := (ins.rs1 * ins.rs2).setWidth 64
      .ok (s.insert ins ((tempo.sshiftRight 32).setWidth 32))
    else if ins.funct7 = 0x01 then .ok (s.insert ins (ofBool (ins.rs1.slt ins.rs2)))
    else .ok s
  | 0x4 =>
    if ins.funct7 = 0x00 then .ok (s.insert ins (ins.rs1 ^^^ ins.rs2))
    else if ins.funct7 = 0x01 then
      if ins.rs2 ≠ 0 then return s.insert ins (← divide ins.rs1 ins.rs2)
      else .ok s
    else .ok s
  | 0x6 =>
    if ins.funct7 = 0x00 then .ok (s.insert ins (ins.rs1 ||| ins.rs2))
    else if ins.funct7 = 0x00 then .ok (s.insert ins (ins.rs1.srem ins.rs2))
    else .ok s
  | 0x7 =>
    if ins.funct7 = 0x00 then .ok (s.insert ins (ins.rs1 &&& ins.rs2))
    else if ins.funct7 = 0x01 then return s.insert ins (← remainderUnsigned ins.rs1 ins.rs2)
    else .ok s
  | 0x1 =>
    if ins.funct7 = 0x00 then .ok (s.insert ins (ins.rs1 <<< shiftCount ins.rs2))
    else if ins.funct7 = 0x01 then
      let temp : BitVec 64 := ins.rs1.signExtend 64 * ins.rs2.signExtend 64
      .ok (s.insert ins ((temp.sshiftRight 32).setWidth 32))
    else .ok s
  | 0x5 =>
    if ins.funct7 = 0x00 then .ok (s.insert ins (ins.rs1 >>> shiftCount ins.rs2))
    else if ins.funct7 = 0x5 then .ok (s.insert ins (ins.rs1.sshiftRight (shiftCount ins.rs2)))
    else if ins.funct7 = 0x01 then
      if ins.rs2 ≠ 0 then .ok (s.insert ins (ins.rs1 / ins.rs2))
      else .ok s
    else .ok s
  | 0x3 =>
    if ins.funct7 = 0x01 then
      let tempo : BitVec 64 := (ins.rs1 * ins.rs2).setWidth 64
      .ok (s.insert ins ((tempo >>> 32).setWidth 32))
    else if ins.funct7 = 0x0 then .ok (s.insert ins (ofBool (ins.rs1.ult ins.rs2)))
    else .ok s
  | _ => .ok s

/-- `(ins.immediate >> 5) & 0x7F`. -/
def shiftKind (ins : Instruction) : Word := ins.immediate.sshiftRight 5 &&& 0x7F#32

/-- `ins.immediate & 0xF`. -/
def shiftAmount (ins : Instruction) : Nat := (ins.immediate &&& 0xF#32).toNat

/-- `case opcode_I_1`. -/
def executeI1 (s : State) (ins : Instruction) : State :=
  match ins.funct3.toNat with
  | 0x0 => s.insert ins (ins.rs1 + ins.immediate)
  | 0x4 => s.insert ins (ins.rs1 ^^^ ins.immediate)
  | 0x6 => s.insert ins (ins.rs1 ||| ins.immediate)
  | 0x7 => s.insert ins (ins.rs1 &&& ins.immediate)
  | 0x1 =>
    if shiftKind ins = 0x00 then s.insert ins (ins.rs1 <<< shiftAmount ins) else s
  | 0x5 =>
    if shiftKind ins = 0x00 then s.insert ins (ins.rs1 >>> shiftAmount ins)
    else if shiftKind ins = 0x02 then s.insert ins (ins.rs1.sshiftRight (shiftAmount ins))
    else s
  | 0x2 => s.insert ins (ofBool (ins.rs1.slt ins.immediate))
  | 0x3 => s.insert ins (ofBool (ins.rs1.ult ins.immediate))
  | _ => s

/-- The address of a load or a store. -/
def dataAddress (s : State) (ins : Instruction) : Word := s.pc + ins.rs1 + ins.immediate

/-- Bytes and halfwords are read zero-extended by signed and unsigned loads alike. -/
def loadB (s : State) (ins : Instruction) (addr : Word) : State :=
  let (insertdata, mem) := s.mem.memoryRdB addr
  { s with mem := mem }.insert ins insertdata

def loadH (s : State) (ins : Instruction) (addr : Word) : Except Stop State :=
  match s.mem.memoryRdH addr with
  | some (insertdata, mem) => .ok ({ s with mem := mem }.insert ins insertdata)
  | none => .error .unaligned

def loadW (s : State) (ins : Instruction) (addr : Word) : Except Stop State :=
  match s.mem.memoryRdW addr with
  | some (insertdata, mem) => .ok ({ s with mem := mem }.insert ins insertdata)
  | none => .error .unaligned

/-- `case opcode_I_2`. -/
def executeI2 (s : State) (ins : Instruction) : Except Stop State :=
  match ins.funct3.toNat with
  | 0x0 => .ok (loadB s ins (dataAddress s ins))
  | 0x1 => loadH s ins (dataAddress s ins)
  | 0x2 => loadW s ins (dataAddress s ins)
  | 0x4 => .ok (loadB s ins (s.pc + (ins.rs1 + ins.immediate)))
  | 0x5 => loadH s ins (s.pc + (ins.rs1 + ins.immediate))
  | _ => .ok s

/-- The memory after a store; a failed store has exited. -/
def stored (s : State) : Option SimMemory → Except Stop State
  | some mem => .ok { s with mem := mem }.incrementPC
  | none => .error .unaligned

/-- `case opcode_S`. -/
def executeS (s : State) (ins : Instruction) : Except Stop State :=
  match ins.funct3.toNat with
  | 0x0 => stored s (some (s.mem.memoryWrB (dataAddress s ins) ins.rs2))
  | 0x1 => stored s (s.mem.memoryWrH (dataAddress s ins) ins.rs2)
  | 0x2 => stored s (s.mem.memoryWrW (dataAddress s ins) ins.rs2)
  | _ => .ok s

/-- `case opcode_B`. -/
def executeB (s : State) (ins : Instruction) : State :=
  match ins.funct3.toNat with
  | 0x0 => s.branch ins (ins.rs1 == ins.rs2)
  | 0x1 => s.branch ins (ins.rs1 != ins.rs2)
  | 0x4 => s.branch ins (ins.rs1.slt ins.rs2)
  | 0x5 => s.branch ins (!ins.rs1.slt ins.rs2)
  | 0x6 => s.branch ins (ins.rs1.ult ins.rs2)
  | 0x7 => s.branch ins (!ins.rs1.ult ins.rs2)
  | _ => s

/-- The `switch` on the opcode. -/
def execute (s : State) (ins : Instruction) : Except Stop State :=
  match ins.opcode with
  | some .R => executeR s ins
  | some .I1 => .ok (executeI1 s ins)
  | some .I2 => executeI2 s ins
  | some .S => executeS s ins
  | some .B => .ok (executeB s ins)
  | some .J => .ok { s.writeRd ins (s.pc + 4) with pc := s.pc + ins.immediate }
  | some .I3 =>
    match ins.funct3.toNat with
    | 0x0 => .ok { s.writeRd ins (s.pc + 4) with pc := ins.rs1 + ins.immediate }
    | _ => .ok s
  | some .U1 => .ok (s.insert ins (ins.immediate <<< 12))
  | some .U2 =>
    match ins.funct3.toNat with
    | 0x0 => .ok (s.insert ins (s.pc + (ins.immediate <<< 12)))
    | _ => .ok s
  | some .I4 =>
    match ins.funct3.toNat with
    | 0x0 => if ins.immediate = 0x0 then .error .ecall else .ok s
    | _ => .ok s
  | none => .ok s

/-- One iteration of the loop. The helpers read the word at the PC once each; all of
them find the same word and the page that the first one created. -/
def iteration (s : State) : Except Stop State :=
  match s.mem.memoryRdW s.pc with
  | none => .error .unaligned
  | some (inst, mem) =>
    let ins := decode s inst
    execute { s with mem := mem, immediate := ins.immediate } ins

/-- The state at the head of the loop: the global registers are zero, the immediate
is whatever the stack held. -/
def start (mem : SimMemory) (startAddr immediate : Word) : State :=
  { pc := startAddr, reg := fun _ => 0, mem := mem, immediate := immediate }

/-- The state after `n` iterations, if the program has not stopped. -/
def simulate : Nat → State → Except Stop State
  | 0, s => .ok s
  | n + 1, s => simulate n s >>= iteration

end CompSys.Simulate
