-- The positions of a file: the block that each one lies in and the byte it holds,
-- and what allocations and stores do to them.
import TecnicoFS.Parte1.Frames

open byte_memory block_map ownership

namespace tecnicofs.parte1

/-- The byte at position `p` of file `f`. -/
def byteAt (d : Disk) (f p : Nat) : UInt8 := d.fs_data (addr BLOCK_SIZE (blocksOf d f) p)

theorem div_lt_of_room {d : Disk} {f p : Nat} (h : p < room d f) :
    p / BLOCK_SIZE < (d.inode_table f).blocksAlloc := by
  unfold room BLOCK_SIZE at *
  omega

theorem InRoom.lt_room {d : Disk} {f o n p : Nat} (h : InRoom d f o n) (hlo : o ≤ p)
    (hhi : p < o + n) : p < room d f := by
  have hp := h (p - o) (by omega)
  rw [show o + (p - o) = p by omega] at hp
  unfold room BLOCK_SIZE at *
  omega

/-- The byte at a position of a file, on a disk where its block has the same number and the
same bytes. -/
theorem byteAt_congr {d e : Disk} {f p : Nat}
    (hb : blockNo e f (p / BLOCK_SIZE) = blockNo d f (p / BLOCK_SIZE))
    (hm : ∀ a, a / BLOCK_SIZE = (blockNo d f (p / BLOCK_SIZE)).toNat → e.fs_data a = d.fs_data a) :
    byteAt e f p = byteAt d f p := by
  have haddr : addr BLOCK_SIZE (blocksOf e f) p = addr BLOCK_SIZE (blocksOf d f) p :=
    addr_congr (congrArg Int.toNat hb)
  unfold byteAt
  rw [haddr]
  exact hm _ (addr_div (by decide) _)

theorem FileSame.byteAt {f p : Nat} {d e : Disk} (h : FileSame f d e) (hp : p < room d f) :
    byteAt e f p = byteAt d f p :=
  byteAt_congr (h.block _ (div_lt_of_room hp)) (h.bytes _ (div_lt_of_room hp))

theorem Grown.byteAt {f p : Nat} {d e : Disk} (h : Grown f d e) (hf : FileInode d f)
    (hp : p < room d f) : byteAt e f p = byteAt d f p :=
  byteAt_congr (h.block_same _ (div_lt_of_room hp))
    (h.mem _ _ (ownedBlock_data hf (div_lt_of_room hp)) (by simp))

theorem sizeSet_byteAt (d : Disk) (f n g p : Nat) : byteAt (sizeSet d f n) g p = byteAt d g p :=
  byteAt_congr (sizeSet_blockNo d f n g _) fun _ _ => rfl

/-- What a store into file `f` leaves at position `p` of the file. -/
theorem stored_byteAt {d : Disk} {f o p : Nat} {bs : List UInt8} (h : DiskInv d)
    (hf : FileInode d f) (hin : InRoom d f o bs.length) (hp : p < room d f) :
    byteAt (stored d f o bs) f p =
      if h : o ≤ p ∧ p < o + bs.length then bs[p - o] else byteAt d f p := by
  have hmap : blocksOf (stored d f o bs) f (p / BLOCK_SIZE) = blocksOf d f (p / BLOCK_SIZE) :=
    congrArg Int.toNat (stored_blockNo h hf hin hf (div_lt_of_room hp))
  unfold byteAt
  rw [@addr_congr BLOCK_SIZE _ _ p hmap]
  exact fileStore_addr (by decide) (h.injBelow hf) d.fs_data o p bs hin (div_lt_of_room hp)

/-! ## Positions that stay -/

/-- Position `p` of `f` lies in the same block and holds the same byte on both disks. -/
structure PositionSame (f p : Nat) (d d' : Disk) : Prop where
  lt_room : p < room d' f
  block : blockNo d' f (p / BLOCK_SIZE) = blockNo d f (p / BLOCK_SIZE)
  byte : byteAt d' f p = byteAt d f p

theorem PositionSame.refl {d : Disk} {f p : Nat} (hp : p < room d f) : PositionSame f p d d :=
  ⟨hp, rfl, rfl⟩

theorem PositionSame.trans {d d' d'' : Disk} {f p : Nat} (h : PositionSame f p d d')
    (h' : PositionSame f p d' d'') : PositionSame f p d d'' :=
  ⟨h'.lt_room, h'.block.trans h.block, h'.byte.trans h.byte⟩

theorem FileSame.position {d d' : Disk} {f p : Nat} (h : FileSame f d d') (hp : p < room d f) :
    PositionSame f p d d' := by
  refine ⟨?_, h.block _ (div_lt_of_room hp), h.byteAt hp⟩
  unfold room
  rw [h.inode]
  exact hp

theorem Grown.position {d d' : Disk} {f p : Nat} (hg : Grown f d d') (hf : FileInode d f)
    (hp : p < room d f) : PositionSame f p d d' := by
  refine ⟨Nat.lt_of_lt_of_le hp ?_, hg.block_same _ (div_lt_of_room hp), hg.byteAt hf hp⟩
  exact Nat.mul_le_mul_right _ hg.blocks_le

/-- What a store into a file does not cover stays. -/
theorem stored_position {d : Disk} {f o p : Nat} {bs : List UInt8} (h : DiskInv d)
    (hf : FileInode d f) (hin : InRoom d f o bs.length) (hp : p < room d f)
    (hout : p < o ∨ o + bs.length ≤ p) : PositionSame f p d (stored d f o bs) := by
  refine ⟨hp, stored_blockNo h hf hin hf (div_lt_of_room hp), ?_⟩
  rw [stored_byteAt h hf hin hp, dif_neg (by omega)]

theorem sizeSet_room (d : Disk) (f n g : Nat) : room (sizeSet d f n) g = room d g := by
  unfold room
  rw [sizeSet_blocksAlloc]

theorem sizeSet_position {d : Disk} {f n g p : Nat} (hp : p < room d g) :
    PositionSame g p d (sizeSet d f n) := by
  refine ⟨?_, sizeSet_blockNo d f n g _, sizeSet_byteAt d f n g p⟩
  rw [sizeSet_room]
  exact hp

end tecnicofs.parte1
