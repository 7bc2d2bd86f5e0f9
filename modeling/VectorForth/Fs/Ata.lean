import VectorForth.Fs.BlockDevice

/-!
# Which sectors a block number selects

`ata.c` hands a 32-bit sector number to the drive through four byte-wide
registers. The drive sees 28 bits of it, and the number itself comes from a
32-bit multiplication. Both lose the high bits of the block number.
-/

namespace VectorForth.BlockDevice

open ByteMemory

/-- The registers that `ata_read_sector` and `ata_write_sector` set before the
command. -/
structure TaskFile where
  drvHead : Byte
  secCount : Byte
  lbaLo : Byte
  lbaMid : Byte
  lbaHi : Byte

def ataTaskFile (lba : BitVec 32) : TaskFile where
  drvHead := (0xE0#32 ||| ((lba >>> 24) &&& 0x0F#32)).setWidth 8
  secCount := 1#8
  lbaLo := lba.setWidth 8
  lbaMid := (lba >>> 8).setWidth 8
  lbaHi := (lba >>> 16).setWidth 8

/-- The sector a drive in LBA mode goes to: bits 27..24 are the low half of the
drive/head register. -/
def TaskFile.sector (r : TaskFile) : Nat :=
  r.lbaLo.toNat + 2 ^ 8 * r.lbaMid.toNat + 2 ^ 16 * r.lbaHi.toNat +
    2 ^ 24 * (r.drvHead &&& 0x0F#8).toNat

/-- The two sectors that `block_get` and `write_buffer_to_disk` transfer. -/
def blockSectors (blockNum : BitVec 32) : List Nat :=
  [(ataTaskFile (startSector blockNum)).sector, (ataTaskFile (startSector blockNum + 1#32)).sector]

/-- The head bits of the drive register are bits 27..24 of the sector number. -/
theorem drvHead_toNat (lba : BitVec 32) :
    ((ataTaskFile lba).drvHead &&& 0x0F#8).toNat = lba.toNat / 2 ^ 24 % 16 := by
  have hhead : (ataTaskFile lba).drvHead &&& 0x0F#8 = (lba >>> 24).setWidth 8 &&& 0x0F#8 := by
    ext i hi
    have hfour : i = 0 ∨ i = 1 ∨ i = 2 ∨ i = 3 ∨ i = 4 ∨ i = 5 ∨ i = 6 ∨ i = 7 := by omega
    rcases hfour with rfl | rfl | rfl | rfl | rfl | rfl | rfl | rfl <;> simp [ataTaskFile]
  have hmask : (0x0F#8).toNat = 2 ^ 4 - 1 := rfl
  rw [hhead, BitVec.toNat_and, hmask, Nat.and_two_pow_sub_one_eq_mod, BitVec.toNat_setWidth,
    BitVec.toNat_ushiftRight, Nat.shiftRight_eq_div_pow]
  omega

/-- **The drive sees the sector number modulo 2²⁸.** -/
theorem ataTaskFile_sector (lba : BitVec 32) :
    (ataTaskFile lba).sector = lba.toNat % 2 ^ 28 := by
  have hlo : (ataTaskFile lba).lbaLo.toNat = lba.toNat % 2 ^ 8 := BitVec.toNat_setWidth ..
  have hmid : (ataTaskFile lba).lbaMid.toNat = lba.toNat / 2 ^ 8 % 2 ^ 8 := by
    rw [ataTaskFile, BitVec.toNat_setWidth, BitVec.toNat_ushiftRight, Nat.shiftRight_eq_div_pow]
  have hhi : (ataTaskFile lba).lbaHi.toNat = lba.toNat / 2 ^ 16 % 2 ^ 8 := by
    rw [ataTaskFile, BitVec.toNat_setWidth, BitVec.toNat_ushiftRight, Nat.shiftRight_eq_div_pow]
  rw [TaskFile.sector, hlo, hmid, hhi, drvHead_toNat]
  omega

theorem startSector_mod (n : BitVec 32) :
    (startSector n).toNat = (1024 + 2 * n.toNat) % 2 ^ 32 := by
  rw [startSector, diskBlockOffsetSectors, BitVec.toNat_add, BitVec.toNat_mul, BitVec.toNat_ofNat,
    BitVec.toNat_ofNat]
  omega

/-- The sectors of a block number: 2²⁷ numbers, then they repeat. -/
theorem blockSectors_eq (n : BitVec 32) :
    blockSectors n = [2 * ((512 + n.toNat) % 2 ^ 27), 2 * ((512 + n.toNat) % 2 ^ 27) + 1] := by
  have hstart := startSector_mod n
  have hnext : (startSector n + 1#32).toNat = (startSector n).toNat + 1 := by
    rw [BitVec.toNat_add, BitVec.toNat_ofNat, hstart]
    omega
  rw [blockSectors, ataTaskFile_sector, ataTaskFile_sector, hnext, hstart]
  congr 1
  · omega
  · congr 1
    omega

/-- The two block numbers share no sector, and neither reaches below the
file-system area. -/
def AddressedApart (a b : BitVec 32) : Prop :=
  (∀ s ∈ blockSectors a, s ∉ blockSectors b) ∧
    ∀ s ∈ blockSectors a ++ blockSectors b, diskBlockOffsetSectors.toNat ≤ s

/-- A block number the 28-bit sector numbers have room for, modulo 2²⁷. -/
def OnDisk (n : BitVec 32) : Prop := n.toNat % 2 ^ 27 < 2 ^ 27 - 512

/-- **Two block numbers are addressed apart exactly when they differ modulo 2²⁷ and
neither falls, modulo 2²⁷, into the last 512 numbers.** -/
theorem addressedApart_iff (a b : BitVec 32) :
    AddressedApart a b ↔ a.toNat % 2 ^ 27 ≠ b.toNat % 2 ^ 27 ∧ OnDisk a ∧ OnDisk b := by
  have hoffset : diskBlockOffsetSectors.toNat = 1024 := rfl
  unfold AddressedApart OnDisk
  simp only [blockSectors_eq, hoffset, List.cons_append, List.nil_append, List.mem_cons,
    List.not_mem_nil, or_false, forall_eq_or_imp, forall_eq, not_or]
  constructor
  · rintro ⟨⟨⟨hdiff, -⟩, -⟩, ha, -, hb, -⟩
    refine ⟨?_, ?_, ?_⟩ <;> omega
  · rintro ⟨hdiff, ha, hb⟩
    refine ⟨⟨⟨?_, ?_⟩, ?_, ?_⟩, ?_, ?_, ?_, ?_⟩ <;> omega

/-- Block 2²⁷ - 512 is the boot sector. -/
example : 0 ∈ blockSectors (BitVec.ofNat 32 (2 ^ 27 - 512)) := by decide

/-- Blocks 0 and 2²⁷ are the same two sectors. -/
theorem blocks_collide :
    ¬ ∀ a b : BitVec 32, a ≠ b → AddressedApart a b := by
  intro h
  have hshared := (h 0#32 (BitVec.ofNat 32 (2 ^ 27)) (by decide)).1 1024 (by decide)
  exact hshared (by decide)

end VectorForth.BlockDevice
