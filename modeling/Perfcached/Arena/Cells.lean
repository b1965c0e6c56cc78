import Mathlib.Data.List.Nodup

/-!
# Perfcached.Arena.Cells

The cells of a chunk (`src/core/pcache_arena.c`).

The arena is cut into slots of 256 KB. A slot that is cut for a size class is a chunk: a header, and
as many cells of that size as fit. A cell is the address of its first byte, and its chunk is found
from the address alone.
-/

namespace Perfcached.Arena

/-- The size classes, `PCACHE_NCLASSES` of them. -/
abbrev Cls := Fin 27

def cellSizes : List Nat :=
  [64, 96, 128, 192, 256, 320, 384, 448, 512, 640, 768, 896, 1024, 1536, 2048, 3072, 4096, 6144,
    8192, 12288, 16384, 24576, 32768, 49152, 65536, 98304, 262080]

def cellSize (c : Cls) : Nat := cellSizes.get c

def pcacheSlot : Nat := 262144

def pcacheChunkHdr : Nat := 64

/-- The number of cells in a chunk of the class. -/
def cells (c : Cls) : Nat := (pcacheSlot - pcacheChunkHdr) / cellSize c

/-- The cells of a slot that is cut for a class, in order. -/
def cellsOf (slot : Nat) (c : Cls) : List Nat :=
  (List.range (cells c)).map fun j => slot * pcacheSlot + pcacheChunkHdr + j * cellSize c

def cellChunk (cell : Nat) : Nat := cell / pcacheSlot

variable {slot a b : Nat} {c : Cls}

theorem cellSize_pos (c : Cls) : 0 < cellSize c := by
  revert c
  decide

theorem length_cellsOf (slot : Nat) (c : Cls) : (cellsOf slot c).length = cells c := by
  rw [cellsOf, List.length_map, List.length_range]

theorem mem_cellsOf : a ∈ cellsOf slot c ↔
    ∃ j < cells c, a = slot * pcacheSlot + pcacheChunkHdr + j * cellSize c := by
  simp only [cellsOf, List.mem_map, List.mem_range, eq_comm]

theorem nodup_cellsOf (slot : Nat) (c : Cls) : (cellsOf slot c).Nodup := by
  refine List.nodup_range.map fun i j h => ?_
  exact Nat.eq_of_mul_eq_mul_right (cellSize_pos c) (Nat.add_left_cancel h)

theorem cell_bounds (ha : a ∈ cellsOf slot c) :
    slot * pcacheSlot ≤ a ∧ a + cellSize c ≤ (slot + 1) * pcacheSlot := by
  obtain ⟨j, hj, rfl⟩ := mem_cellsOf.mp ha
  have hroom : (j + 1) * cellSize c ≤ pcacheSlot - pcacheChunkHdr :=
    Nat.le_trans (Nat.mul_le_mul_right _ hj) (Nat.div_mul_le_self _ _)
  rw [Nat.succ_mul] at hroom
  have hhdr : pcacheChunkHdr ≤ pcacheSlot := by decide
  rw [Nat.succ_mul]
  omega

theorem cellChunk_of_mem (ha : a ∈ cellsOf slot c) : cellChunk a = slot := by
  obtain ⟨hlo, hhi⟩ := cell_bounds ha
  have hpos := cellSize_pos c
  exact Nat.div_eq_of_lt_le hlo (by omega)

/-- Two addresses are a cell's size apart. -/
def Apart (a b : Nat) (size size' : Nat) : Prop := a + size ≤ b ∨ b + size' ≤ a

theorem apart_of_mem (ha : a ∈ cellsOf slot c) (hb : b ∈ cellsOf slot c) (hne : a ≠ b) :
    Apart a b (cellSize c) (cellSize c) := by
  obtain ⟨i, -, rfl⟩ := mem_cellsOf.mp ha
  obtain ⟨j, -, rfl⟩ := mem_cellsOf.mp hb
  rcases Nat.lt_trichotomy i j with hij | rfl | hij
  · left
    have hle := Nat.mul_le_mul_right (cellSize c) hij
    rw [Nat.succ_mul] at hle
    omega
  · exact absurd rfl hne
  · right
    have hle := Nat.mul_le_mul_right (cellSize c) hij
    rw [Nat.succ_mul] at hle
    omega

/-- Cells of different slots do not overlap, whatever their sizes. -/
theorem apart_of_slots {slot' : Nat} {c' : Cls} (ha : a ∈ cellsOf slot c)
    (hb : b ∈ cellsOf slot' c') (hne : slot ≠ slot') : Apart a b (cellSize c) (cellSize c') := by
  obtain ⟨halo, hahi⟩ := cell_bounds ha
  obtain ⟨hblo, hbhi⟩ := cell_bounds hb
  rcases Nat.lt_or_gt_of_ne hne with hlt | hgt
  · exact .inl (Nat.le_trans hahi (Nat.le_trans (Nat.mul_le_mul_right pcacheSlot hlt) hblo))
  · exact .inr (Nat.le_trans hbhi (Nat.le_trans (Nat.mul_le_mul_right pcacheSlot hgt) halo))

end Perfcached.Arena
