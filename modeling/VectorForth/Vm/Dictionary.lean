import VectorForth.Vm.Text

/-!
# The dictionary

`dictionary.c`: word entries in flat memory, newest first.

An entry is a link cell, a byte of flags and name length, the name, padding to
8 bytes, the code field and the parameter field.
-/

namespace VectorForth.Forth

open ByteMemory

def fImmediate : Byte := 0x80#8
def fHidden : Byte := 0x40#8
def fLenmask : Byte := 0x1F#8
def flagsMask : Byte := 0xE0#8

def alignCell (a : Cell) : Cell := (a + 7#64) &&& ~~~7#64

/-! ## Compiling -/

def Data.dictAlign (d : Data) : Data := { d with dictHere := alignCell d.dictHere }

def Data.dictComma (d : Data) (value : Cell) : Data :=
  let d := d.dictAlign
  { d.setCell d.dictHere value with dictHere := d.dictHere + 8#64 }

def Data.dictCComma (d : Data) (value : Byte) : Data :=
  { d.setByte d.dictHere value with dictHere := d.dictHere + 1#64 }

/-- The header of a new word; the caller writes the code field next. -/
def Data.dictCreate (d : Data) (name : Text) (flags : Byte) : Data :=
  let nameLen := BitVec.ofNat 8 name.length
  let nameLen := if nameLen > 31#8 then 31#8 else nameLen
  let d := d.dictAlign
  let entryStart := d.dictHere
  let d := { d.setCell d.dictHere d.dictLatest with dictHere := d.dictHere + 8#64 }
  let d := { d.setByte d.dictHere ((flags &&& flagsMask) ||| (nameLen &&& fLenmask)) with
    dictHere := d.dictHere + 1#64 }
  let d := { d with
    mem := store d.mem d.dictHere.toNat nameLen.toNat fun i => name.getD i 0#8
    dictHere := d.dictHere + nameLen.setWidth 64 }
  { d.dictAlign with dictLatest := entryStart }

def Data.dictSetCode (d : Data) (code : Cell) : Data :=
  { d.setCell d.dictHere code with dictHere := d.dictHere + 8#64 }

/-! ## Fields of an entry -/

def dictGetFlagsLen (m : Mem) (entry : Cell) : Byte := m (entry + 8#64).toNat

def dictGetNameLen (m : Mem) (entry : Cell) : Byte := dictGetFlagsLen m entry &&& fLenmask

def dictGetFlags (m : Mem) (entry : Cell) : Byte := dictGetFlagsLen m entry &&& flagsMask

def dictGetName (m : Mem) (entry : Cell) : Text :=
  (List.range (dictGetNameLen m entry).toNat).map fun i => m ((entry + 9#64).toNat + i)

def dictGetCodeField (m : Mem) (entry : Cell) : Cell :=
  alignCell (entry + 9#64 + (dictGetNameLen m entry).setWidth 64)

def dictGetParamField (m : Mem) (entry : Cell) : Cell := dictGetCodeField m entry + 8#64

/-! ## Lookup -/

def toUpper (c : Byte) : Byte := if chr 'a' ≤ c ∧ c ≤ chr 'z' then c - 32#8 else c

def nameMatches (m : Mem) (entry : Cell) (name : Text) : Bool :=
  (dictGetName m entry).map toUpper == name.map toUpper

/-- A chain of more links than the dictionary has cells never ends. -/
def chainFuel : Nat := dictSize / 8 + 1

/-- Walk the chain from `entry`; `some 0` is a miss. -/
def dictFindFrom (m : Mem) (name : Text) : Nat → Cell → Option Cell
  | 0, _ => none
  | fuel + 1, entry =>
      if entry = 0#64 then some 0#64
      else if dictGetFlagsLen m entry &&& fHidden = 0#8 ∧ nameMatches m entry name then some entry
      else dictFindFrom m name fuel (cellAt m entry)

def dictFind (d : Data) (name : Text) : Option Cell :=
  dictFindFrom d.mem name chainFuel d.dictLatest

/-- `dict_list_words` from `entry` on, with `count` words printed before. -/
def dictListWordsFrom : Nat → Cell → Nat → NativeM Unit
  | 0, _, _ => hang
  | fuel + 1, entry, count => do
      if entry = 0#64 then
        putchar (chr '\n')
        puts (itoa (BitVec.ofNat 32 count) 10)
        puts (text " words total\n")
      else
        let m := (← get).mem
        if dictGetFlagsLen m entry &&& fHidden = 0#8 then
          puts (dictGetName m entry)
          putchar (chr ' ')
          if (count + 1) % 10 = 0 then putchar (chr '\n')
          dictListWordsFrom fuel (cellAt m entry) (count + 1)
        else dictListWordsFrom fuel (cellAt m entry) count

def dictListWords : NativeM Unit := do dictListWordsFrom chainFuel (← get).dictLatest 0

/-- Inside the region that `dict_init` maps. -/
def InDict (a : Cell) : Prop := dictVirtBase ≤ a.toNat ∧ a.toNat < dictVirtBase + dictSize

instance (a : Cell) : Decidable (InDict a) := inferInstanceAs (Decidable (_ ∧ _))

end VectorForth.Forth
