import MeasuredBoot.Fault

/-!
# Register snapshots

A register is a named value with an address and a width in bytes. Two sets of registers can be read like
a blob: the public space of the trusted execution technology, where a read must begin at a register and
stay inside it, and the two message registers of the security processor, laid end to end. A read writes
out no byte behind the ones that it returns, so a wide register costs no more than what is read of it. How
much memory there is for byte strings is left open.
-/
namespace MeasuredBoot

/-- A register with its value at the time of the snapshot. -/
structure Register where
  name : String
  address : Int
  size : Int
  value : Int
deriving DecidableEq

namespace Register

/-- The first address of the public space. -/
def txtBase : Int := 0xFED30000

def txtSize : Nat := 0x10000

def acmPolicyStatusName : String := "ACM_POLICY_STATUS"

/-- Where the policy status stands in the public space. -/
def acmPolicyStatusRange : ByteRange := ⟨0x378, 8⟩

def messageName37 : String := "MP0_C2P_MSG_37"
def messageName38 : String := "MP0_C2P_MSG_38"

/-- The policy status register with a value. -/
def acmPolicyStatus (value : Int) : Register :=
  ⟨acmPolicyStatusName, txtBase + acmPolicyStatusRange.offset, acmPolicyStatusRange.length, value⟩

def message (name : String) (value : Int) : Register := ⟨name, 0, 4, value⟩

/-- Widths are 64 bit numbers with a sign; this is the greatest one. -/
def maxWidth : Int := 0x7FFFFFFFFFFFFFFF

/-- What a byte string takes besides its bytes. -/
def overhead : Int := 33

/-- Why a register has no bytes, if it has none: its width cannot be had, or its value does not fit. -/
def obstacle? (r : Register) : Option EncodingFault :=
  if r.size < -maxWidth - 1 ∨ maxWidth < r.size then some .widthOutOfRange
  else if r.size < 0 then some .negativeWidth
  else if maxWidth - overhead < r.size then some .widthTooLarge
  else if r.value < 0 then some .negativeValue
  else if r.value ≠ 0 ∧ 8 * r.size ≤ r.value.toNat.log2 then some .tooWide
  else none

/-- Fails if the register has no bytes. -/
def verify (r : Register) : Except Fault Unit :=
  match r.obstacle? with
  | some f => .error (.encoding f)
  | none => .ok ()

/-- The value as a little-endian number of the register's width, up to a signed position. -/
def bytesUpTo (r : Register) (stop : Int) : Except Fault Bytes := do
  r.verify
  return Bytes.ofNatLE (Bytes.place r.size.toNat stop) r.value.toNat

/-- The value as a little-endian number of the register's width. -/
def bytes (r : Register) : Except Fault Bytes := r.bytesUpTo r.size

/-- So many bytes from one place on of registers that are laid end to end. -/
def span (start count : Nat) : List Register → Bytes
  | [] => []
  | r :: rest =>
    let width := r.size.toNat
    if count = 0 then []
    else if width ≤ start then span (start - width) count rest
    else
      let stop := min width (start + count)
      (Bytes.ofNatLE stop r.value.toNat).drop start ++ span 0 (start + count - stop) rest

def find? (registers : List Register) (name : String) : Option Register :=
  registers.find? (·.name = name)

/-- The names of the registers after the name of their set. -/
def textOf (kind : String) (registers : List Register) : String :=
  kind ++ "(" ++ ", ".intercalate (registers.map (·.name)) ++ ")"

end Register

/-- The registers of the public space, by address. -/
structure TxtPublic where
  registers : List Register

namespace TxtPublic

/-- The registers of a list that lie in the public space. -/
def ofList (registers : List Register) : TxtPublic :=
  ⟨(registers.filter fun r =>
      Register.txtBase ≤ r.address && r.address < Register.txtBase + Register.txtSize).mergeSort
    fun r s => r.address ≤ s.address⟩

/-- Where a register stands in the public space. -/
def place (r : Register) : ByteRange := ⟨r.address - Register.txtBase, r.size⟩

/-- Reads from the register that covers the offset; a negative length leaves bytes out at the end. -/
def read (t : TxtPublic) (offset length : Int) : Except Fault Bytes :=
  match t.registers.find? fun r => (place r).offset ≤ offset && offset < (place r).stop with
  | none => .error (.read (.noTxtRegister offset))
  | some r =>
    if offset ≠ (place r).offset then .error (.read (.unaligned offset r.name (place r).offset))
    else if r.size < length then .error (.read (.pastRegister length r.name r.size))
    else r.bytesUpTo length

end TxtPublic

/-- The message registers, by name. -/
structure AmdRegisters where
  registers : List Register

namespace AmdRegisters

def ofList (registers : List Register) : AmdRegisters :=
  ⟨(registers.filter fun r => r.name = Register.messageName37 || r.name = Register.messageName38).mergeSort
    fun r s => r.name ≤ s.name⟩

def size (a : AmdRegisters) : Int := a.registers.foldr (fun r n => r.size + n) 0

/-- Where the first register of a name begins, given where the list begins. -/
def offsetFrom (start : Int) (name : String) : List Register → Option Int
  | [] => none
  | r :: rest => if r.name = name then some start else offsetFrom (start + r.size) name rest

/-- Where the first register of a name begins. -/
def offsetOf? (a : AmdRegisters) (name : String) : Option Int := offsetFrom 0 name a.registers

/-- Reads from the beginning of a register; a read of no bytes may begin anywhere. -/
def read (a : AmdRegisters) (offset length : Int) : Except Fault Bytes := do
  a.registers.forM Register.verify
  let size := a.size.toNat
  if length ≠ 0 ∧ a.registers.all (fun r => a.offsetOf? r.name ≠ some offset) then
    throw (.read (.noAmdRegister offset))
  if (size : Int) < offset + length then throw (.read (.pastAmdRegisters offset length size))
  let start := Bytes.place size offset
  return Register.span start (Bytes.place size (offset + length) - start) a.registers

end AmdRegisters
end MeasuredBoot
