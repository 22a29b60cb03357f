import FavoriteAssignments.Banana.Accesses
import Mathlib.Data.List.GetD

/-! # Booting a file

The constructor of `Console` and `reset` up to its call of `setup`, with the offsets of `RAM_`
that their two copies touch. -/

namespace FavoriteAssignments.Banana

open Machine

def kLoadDataAddress : ℕ := 0x81e8
def kDataSizeAddress : ℕ := 0x81f0

/-! ## Copies -/

/-- `std::memcpy` of other bytes to the offset `dst`. -/
def copyIn (ram : ℕ → BitVec 8) (dst : ℕ) (bytes : List (BitVec 8)) : ℕ → BitVec 8 :=
  fun i => if dst ≤ i ∧ i < dst + bytes.length then bytes.getD (i - dst) 0 else ram i

/-- `std::memcpy` of `n` bytes from the offset `src` to the offset `dst`. -/
def copyWithin (ram : ℕ → BitVec 8) (dst src n : ℕ) : ℕ → BitVec 8 :=
  fun i => if dst ≤ i ∧ i < dst + n then ram (src + (i - dst)) else ram i

/-- The offsets of `n` bytes from `address` on. -/
def span (address n : ℕ) : List ℕ := (List.range n).map (address + ·)

/-! ## The constructor -/

def hasExtension (filename extension : List Char) : Bool :=
  decide (extension.length ≤ filename.length) &&
    filename.drop (filename.length - extension.length) == extension

/-- The constructor. `file` is what opening `filename` gives, `heap` what lies behind the
vector, and `latches` what the constructor of the processor leaves uninitialised; `none` is
`exit(1)`. -/
def construct (heap : ℕ → BitVec 8) (latches : BananaCpu) (filename : List Char)
    (allowed_extensions : List (List Char)) (file : Option (List (BitVec 8))) :
    Option Machine :=
  let valid_extension := allowed_extensions.isEmpty ||
    allowed_extensions.any fun extension => hasExtension filename extension
  if valid_extension then
    file.map fun contents_ =>
      { CPU_ := { latches with registers_ := fun _ => 0, PC_ := 0 }
        RAM_ := copyIn (fun i => if i < ramSize then 0 else heap i) 0x8000 contents_
        stdin := []
        stdout := []
        stderr := []
        exited := false }
  else none

/-- The offsets of `RAM_` that the copy of the constructor writes. -/
def constructIndices (contents_ : List (BitVec 8)) : List ℕ := span 0x8000 contents_.length

/-! ## Reset -/

namespace Machine

/-- `std::fill` over the first `kRAMSize` bytes. -/
def cleared (m : Machine) : Machine :=
  { m with RAM_ := fun i => if i < kRAMSize then 0 else m.RAM_ i }

/-- The offset and the number of the bytes that `reset` copies. -/
def loadData (m : Machine) : BitVec 32 := m.cleared.read32 (BitVec.ofNat 16 kLoadDataAddress)

def dataSize (m : Machine) : BitVec 32 := m.cleared.read32 (BitVec.ofNat 16 kDataSizeAddress)

/-- Steps 1 to 3 of `reset`. -/
def reset (m : Machine) : Machine :=
  { m with
    RAM_ := copyWithin m.cleared.RAM_ 0 m.loadData.toNat m.dataSize.toNat
    CPU_ := { m.CPU_ with
      registers_ := Function.update m.CPU_.registers_ 29 (BitVec.ofNat 16 kVRAMAddress) } }

/-- The offsets of `RAM_` that `reset` uses: the fill, the two header words, the bytes it reads
and the bytes it writes. -/
def resetIndices (m : Machine) : List ℕ :=
  span 0 kRAMSize ++ readIndices 4 (BitVec.ofNat 16 kLoadDataAddress) ++
    readIndices 4 (BitVec.ofNat 16 kDataSizeAddress) ++
    span m.loadData.toNat m.dataSize.toNat ++ span 0 m.dataSize.toNat

end Machine

theorem mem_span {address n i : ℕ} : i ∈ span address n ↔ address ≤ i ∧ i < address + n := by
  simp only [span, List.mem_map, List.mem_range]
  constructor
  · rintro ⟨k, hk, rfl⟩
    omega
  · rintro ⟨hle, hlt⟩
    exact ⟨i - address, by omega, by omega⟩

/-- The offsets of `reset` are the only ones whose bytes it changes. -/
theorem RAM_reset_of_notMem {m : Machine} {i : ℕ} (hi : i ∉ m.resetIndices) :
    m.reset.RAM_ i = m.RAM_ i := by
  simp only [resetIndices, List.mem_append, not_or, mem_span] at hi
  obtain ⟨⟨⟨⟨hfill, -⟩, -⟩, -⟩, hcopy⟩ := hi
  calc m.reset.RAM_ i = m.cleared.RAM_ i := if_neg hcopy
    _ = m.RAM_ i := if_neg (by omega)

/-! ## Bounds -/

/-- The big-endian word of a file at an offset, missing bytes being zero. -/
def fileWord (contents_ : List (BitVec 8)) (offset : ℕ) : BitVec 32 :=
  (List.range 4).foldl
    (fun data i => (data <<< 8) ||| (contents_.getD (offset + i) 0).setWidth 32) 0

theorem span_lt_iff {address n size : ℕ} :
    (∀ i ∈ span address n, i < size) ↔ n = 0 ∨ address + n ≤ size := by
  simp only [mem_span]
  constructor
  · intro h
    by_cases hn : n = 0
    · exact Or.inl hn
    · have := h (address + (n - 1)) (by omega)
      omega
  · intro h i hi
    omega

/-- The loaded file and zeros behind it, from 0x8000 on. -/
theorem copyIn_program (heap : ℕ → BitVec 8) (contents_ : List (BitVec 8)) {i : ℕ}
    (hi : i < 0x8000) :
    copyIn (fun i => if i < ramSize then 0 else heap i) 0x8000 contents_ (0x8000 + i) =
      contents_.getD i 0 := by
  unfold copyIn
  split
  · rw [Nat.add_sub_cancel_left]
  · next hout =>
      have hin : 0x8000 + i < ramSize := by
        rw [ramSize]
        omega
      exact (if_pos hin).trans (List.getD_eq_default _ _ (by omega)).symm

/-- The four bytes of a word of the program are those of the file. -/
theorem read32_cleared (heap : ℕ → BitVec 8) (contents_ : List (BitVec 8)) (m : Machine)
    (hm : m.RAM_ = copyIn (fun i => if i < ramSize then 0 else heap i) 0x8000 contents_)
    {address : BitVec 16} {offset : ℕ} (haddress : address.toNat = 0x8000 + offset)
    (hoffset : offset + 4 ≤ 0x8000) :
    m.cleared.read32 address = fileWord contents_ offset := by
  have hreadable : readable address = true := by
    simp [readable, kSLUGFileAddress, kSLUGFileSize, haddress]
    omega
  rw [read32, readBytes, if_pos hreadable, fileWord]
  apply List.foldl_ext
  intro data i hi
  have hlt := List.mem_range.mp hi
  have hbyte : m.cleared.RAM_ (address.toNat + i) = contents_.getD (offset + i) 0 := by
    rw [haddress, Nat.add_assoc, ← copyIn_program heap contents_ (i := offset + i) (by omega), ← hm]
    exact if_neg (by simp only [kRAMSize]; omega)
  rw [hbyte]

theorem construct_eq_some {heap : ℕ → BitVec 8} {latches : BananaCpu} {filename : List Char}
    {allowed_extensions : List (List Char)} {contents_ : List (BitVec 8)} {m : Machine}
    (h : construct heap latches filename allowed_extensions (some contents_) = some m) :
    m.RAM_ = copyIn (fun i => if i < ramSize then 0 else heap i) 0x8000 contents_ := by
  unfold construct at h
  simp only [Option.map_some] at h
  split at h
  · cases h
    rfl
  · cases h

/-- `reset` finds the two header words of the file. -/
theorem header_construct {heap : ℕ → BitVec 8} {latches : BananaCpu} {filename : List Char}
    {allowed_extensions : List (List Char)} {contents_ : List (BitVec 8)} {m : Machine}
    (h : construct heap latches filename allowed_extensions (some contents_) = some m) :
    m.loadData = fileWord contents_ 0x1e8 ∧ m.dataSize = fileWord contents_ 0x1f0 :=
  ⟨read32_cleared heap contents_ m (construct_eq_some h) rfl (by omega),
    read32_cleared heap contents_ m (construct_eq_some h) rfl (by omega)⟩

/-- Booting a file stays inside the memory exactly if the file fits behind 0x8000, and the data
section that its header names is empty or lies inside the memory. -/
theorem boot_indices_lt_iff (heap : ℕ → BitVec 8) (latches : BananaCpu) (filename : List Char)
    (contents_ : List (BitVec 8)) (m : Machine)
    (h : construct heap latches filename [".slug".toList] (some contents_) = some m) :
    (∀ i ∈ constructIndices contents_ ++ m.resetIndices, i < ramSize) ↔
      contents_.length ≤ 0x8000 ∧ ((fileWord contents_ 0x1f0).toNat = 0 ∨
        (fileWord contents_ 0x1e8).toNat + (fileWord contents_ 0x1f0).toNat ≤ 0x10000) := by
  obtain ⟨hload, hsize⟩ := header_construct h
  have hwords : ∀ i ∈ readIndices 4 (BitVec.ofNat 16 kLoadDataAddress) ++
      readIndices 4 (BitVec.ofNat 16 kDataSizeAddress), i < ramSize := by decide
  rw [List.forall_mem_append, resetIndices, List.append_assoc (span 0 kRAMSize),
    List.forall_mem_append, List.forall_mem_append, List.forall_mem_append, constructIndices,
    span_lt_iff, span_lt_iff, span_lt_iff, span_lt_iff, hload, hsize, kRAMSize, ramSize]
  constructor
  · rintro ⟨hlength, ⟨-, hread⟩, -⟩
    exact ⟨by omega, hread⟩
  · rintro ⟨hlength, hread⟩
    exact ⟨by omega, ⟨⟨by omega, hwords⟩, hread⟩, by omega⟩

/-- A processor before anything has run. -/
def idleCpu : BananaCpu where
  registers_ := fun _ => 0
  op_code_ := 0
  reg_a_ := 0
  reg_b_ := 0
  reg_c_ := 0
  shift_value_ := 0
  function_ := 0
  immediate_ := 0
  PC_ := 0

/-- A file with two header words and eight bytes of data behind them. -/
def headerFile (loadData dataSize : BitVec 16) : List (BitVec 8) :=
  let zero : BitVec 8 := 0
  List.replicate 0x1ea zero ++ [(loadData >>> 8).setWidth 8, loadData.setWidth 8] ++
    List.replicate 6 zero ++ [(dataSize >>> 8).setWidth 8, dataSize.setWidth 8] ++
    List.replicate 8 7

def cartridge (file : List (BitVec 8)) : Option Machine :=
  construct (fun _ => 0) idleCpu "game.slug".toList [".slug".toList] (some file)

/-- A file whose data section is its own last eight bytes. -/
theorem boot_indices_lt_iff_data : ∃ m, cartridge (headerFile 0x81f4 8) = some m ∧
    ∀ i ∈ constructIndices (headerFile 0x81f4 8) ++ m.resetIndices, i < ramSize :=
  ⟨_, rfl, (boot_indices_lt_iff (fun _ => 0) idleCpu "game.slug".toList _ _ rfl).mpr
    (by decide +kernel)⟩

/-- A file of 508 bytes whose header asks for two bytes from the last offset of the memory. -/
theorem header_reads_past_memory : ∃ m, cartridge (headerFile 0xffff 2) = some m ∧
    ¬ ∀ i ∈ constructIndices (headerFile 0xffff 2) ++ m.resetIndices, i < ramSize := by
  refine ⟨_, rfl, fun h => ?_⟩
  obtain ⟨hload, hsize⟩ := header_construct
    (show cartridge (headerFile 0xffff 2) = some _ from rfl)
  have hpast : 0x10000 ∈ span (fileWord (headerFile 0xffff 2) 0x1e8).toNat
      (fileWord (headerFile 0xffff 2) 0x1f0).toNat := by decide +kernel
  rw [← hload, ← hsize] at hpast
  exact absurd (h 0x10000 (by simp only [resetIndices, List.mem_append, hpast, true_or, or_true]))
    (by decide)

end FavoriteAssignments.Banana
