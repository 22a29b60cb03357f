import FavoriteAssignments.Library.Schedules
import FavoriteAssignments.Lz78.BitStream

/-! # Short transfers

`read_bytes` and `write_bytes` call after call, where a call may transfer less than it is
asked for. Every call asks for the whole count again, so the bytes stay inside the buffer
only if the transfers add up to the count. -/

namespace FavoriteAssignments.Lz78

open Schedules

/-! ## Reading -/

/-- `read_bytes` between two calls, and the places of the buffer it has stored to. -/
structure Reading where
  infile : List UInt8
  buf : Buffer
  total : ℕ
  reads : ℤ
  stored : List ℕ

/-- `(total != to_read) && (reads != 0)`. -/
def Reading.More (to_read : ℕ) (r : Reading) : Prop := r.total ≠ to_read ∧ r.reads ≠ 0

instance (to_read : ℕ) (r : Reading) : Decidable (r.More to_read) :=
  inferInstanceAs (Decidable (_ ∧ _))

/-- One iteration. -/
def Reading.call (size : ℕ) (r : Reading) : Reading :=
  let chunk := r.infile.take size
  { infile := r.infile.drop size
    buf := r.buf.store r.total chunk
    total := r.total + chunk.length
    reads := chunk.length
    stored := r.stored ++ (List.range chunk.length).map (r.total + ·) }

/-- After at most `n` iterations. -/
def reading {to_read : ℕ} (s : Schedule to_read) (infile : List UInt8) (buf : Buffer) :
    ℕ → Reading
  | 0 => ⟨infile, buf, 0, -1, []⟩
  | n + 1 =>
      let r := reading s infile buf n
      if r.More to_read then r.call (s.size n) else r

/-- The loop ends with what is there of the count, taken from the file and stored inside
the buffer. -/
def ReadsCount {to_read : ℕ} (s : Schedule to_read) (infile : List UInt8) (buf : Buffer) : Prop :=
  ∃ n, ¬(reading s infile buf n).More to_read ∧
    (∀ offset ∈ (reading s infile buf n).stored, offset < to_read) ∧
    (reading s infile buf n).total = min to_read infile.length ∧
    infile.length - (reading s infile buf n).infile.length ≤ min to_read infile.length

theorem store_append (buf : Buffer) (offset : ℕ) (chunk more : List UInt8) :
    (buf.store offset chunk).store (offset + chunk.length) more =
      buf.store offset (chunk ++ more) := by
  funext i
  simp only [Buffer.store]
  by_cases hi : offset ≤ i
  · by_cases hlt : i - offset < chunk.length
    · rw [if_neg (by omega), if_pos hi, if_pos hi, List.getElem?_append_left hlt]
    · have hplace : i - (offset + chunk.length) = i - offset - chunk.length := by omega
      have hold : chunk[i - offset]? = none := List.getElem?_eq_none (by omega)
      rw [if_pos (by omega), if_pos hi, if_pos hi, List.getElem?_append_right (by omega), hold,
        hplace]
      rfl
  · rw [if_neg (by omega), if_neg hi, if_neg hi]

/-- Whatever the transfers, the first `total` bytes of the file have gone to the first
`total` places. -/
structure Filled (infile : List UInt8) (buf : Buffer) (r : Reading) : Prop where
  inside : r.total ≤ infile.length
  left : r.infile = infile.drop r.total
  buffer : r.buf = buf.store 0 (infile.take r.total)
  stored : r.stored = List.range r.total
  last : r.reads = 0 → r.total = infile.length

variable {infile : List UInt8} {buf : Buffer} {count : ℕ}

theorem Filled.call {r : Reading} (h : Filled infile buf r) {size : ℕ} (hsize : 0 < size) :
    Filled infile buf (r.call size) ∧
      (r.call size).total = min (r.total + size) infile.length := by
  have hinside := h.inside
  have hlength : (r.infile.take size).length = min size (infile.length - r.total) := by
    rw [h.left, List.length_take, List.length_drop]
  have htotal : (r.call size).total = r.total + (r.infile.take size).length := rfl
  have hchunk : r.infile.take size = r.infile.take (r.infile.take size).length := by
    rw [List.length_take, ← List.take_eq_take_min]
  have hfront : infile.take r.total ++ r.infile.take size = infile.take (r.call size).total := by
    rw [htotal, List.take_add, ← h.left, ← hchunk]
  have htake : (infile.take r.total).length = r.total := by
    rw [List.length_take, Nat.min_eq_left hinside]
  refine ⟨⟨?_, ?_, ?_, ?_, ?_⟩, ?_⟩
  · omega
  · rw [htotal, hlength, ← List.drop_drop, ← h.left]
    change r.infile.drop size = _
    rcases Nat.le_total size (infile.length - r.total) with hle | hge
    · rw [Nat.min_eq_left hle]
    · have hall : r.infile.length = infile.length - r.total := by rw [h.left, List.length_drop]
      rw [Nat.min_eq_right hge, List.drop_of_length_le (by omega),
        List.drop_of_length_le (by omega)]
  · have hstore := store_append buf 0 (infile.take r.total) (r.infile.take size)
    rw [htake, Nat.zero_add, hfront, ← h.buffer] at hstore
    exact hstore
  · change r.stored ++ (List.range (r.infile.take size).length).map (r.total + ·) = _
    rw [h.stored, htotal, ← List.range_add]
  · intro hzero
    have hnone : (r.infile.take size).length = 0 := Int.ofNat_eq_zero.mp hzero
    omega
  · omega

theorem reading_succ {s : Schedule count} {n : ℕ} (hmore : (reading s infile buf n).More count) :
    reading s infile buf (n + 1) = (reading s infile buf n).call (s.size n) := by
  rw [reading, if_pos hmore]

theorem reading_filled (s : Schedule count) (infile : List UInt8) (buf : Buffer) (n : ℕ) :
    Filled infile buf (reading s infile buf n) := by
  induction n with
  | zero =>
      refine ⟨Nat.zero_le _, rfl, ?_, rfl, ?_⟩
      · exact (store_nil buf 0).symm
      · intro hzero
        cases hzero
  | succ n ih =>
      by_cases hmore : (reading s infile buf n).More count
      · rw [reading_succ hmore]
        exact (ih.call (s.pos n)).1
      · rwa [reading, if_neg hmore]

/-- Until the count is reached the total is what the transfers add up to, or the file. -/
theorem reading_total (infile : List UInt8) (buf : Buffer) {s : Schedule count} {n : ℕ}
    (h : ∀ k < n, (reading s infile buf k).total ≠ count) :
    (reading s infile buf n).total = min (s.moved n) infile.length := by
  induction n with
  | zero => simp [reading, Schedule.moved]
  | succ n ih =>
      have htotal := ih fun k hk => h k (Nat.lt_succ_of_lt hk)
      have hsum := s.moved_succ n
      by_cases hlast : (reading s infile buf n).reads = 0
      · have hall := (reading_filled s infile buf n).last hlast
        have hended : ¬(reading s infile buf n).More count := fun hmore => hmore.2 hlast
        rw [reading, if_neg hended]
        omega
      · rw [reading_succ ⟨h n (Nat.lt_succ_self n), hlast⟩,
          ((reading_filled s infile buf n).call (s.pos n)).2]
        omega

/-- The loop ends, with the count or with the file. -/
theorem reading_ends (s : Schedule count) (infile : List UInt8) (buf : Buffer) :
    ∃ n, ¬(reading s infile buf n).More count ∧
      ((reading s infile buf n).total = count ∨
        (reading s infile buf n).total = infile.length) := by
  by_cases hreach : ∃ n, (reading s infile buf n).total = count
  · obtain ⟨n, hn⟩ := hreach
    exact ⟨n, fun hmore => hmore.1 hn, Or.inl hn⟩
  · have hnever : ∀ k, (reading s infile buf k).total ≠ count := fun k hk => hreach ⟨k, hk⟩
    have hle := s.le_moved infile.length
    have htotal := reading_total infile buf (n := infile.length) fun k _ => hnever k
    by_cases hmore : (reading s infile buf infile.length).More count
    · -- the call at the end of the file transfers nothing
      have hfilled := reading_filled s infile buf infile.length
      have hempty : (reading s infile buf infile.length).infile = [] := by
        rw [hfilled.left, List.drop_of_length_le (by omega)]
      refine ⟨infile.length + 1, ?_, Or.inr ?_⟩
      · rw [reading_succ hmore]
        intro hagain
        exact hagain.2 (by simp [Reading.call, hempty])
      · rw [reading_total infile buf fun k _ => hnever k]
        have := s.le_moved (infile.length + 1)
        omega
    · exact ⟨infile.length, hmore, Or.inr (by omega)⟩

theorem reading_reaches (buf : Buffer) {s : Schedule count} (hcount : count < infile.length) :
    (∃ n, (reading s infile buf n).total = count) ↔ s.Lands := by
  refine reaches_iff fun n hnever => ?_
  rw [reading_total infile buf hnever]
  omega

theorem readsCount_of_total {s : Schedule count} {n : ℕ}
    (hended : ¬(reading s infile buf n).More count)
    (htotal : (reading s infile buf n).total = min count infile.length) :
    ReadsCount s infile buf := by
  have hfilled := reading_filled s infile buf n
  refine ⟨n, hended, ?_, htotal, ?_⟩
  · intro offset hoffset
    rw [hfilled.stored, List.mem_range] at hoffset
    omega
  · rw [hfilled.left, List.length_drop]
    omega

theorem readsCount_iff (s : Schedule count) (infile : List UInt8) (buf : Buffer) :
    ReadsCount s infile buf ↔ infile.length ≤ count ∨ s.Lands := by
  rcases Nat.lt_or_ge count infile.length with hlong | hshort
  · constructor
    · rintro ⟨n, -, -, htotal, -⟩
      exact Or.inr ((reading_reaches buf hlong).mp ⟨n, by omega⟩)
    · rintro (hle | hlands)
      · omega
      · obtain ⟨n, hn⟩ := (reading_reaches buf hlong).mpr hlands
        exact readsCount_of_total (n := n) (fun hmore => hmore.1 hn) (by omega)
  · refine ⟨fun _ => Or.inl hshort, fun _ => ?_⟩
    obtain ⟨n, hended, htotal⟩ := reading_ends s infile buf
    have hinside := (reading_filled s infile buf n).inside
    exact readsCount_of_total hended (by omega)

/-- With full transfers this is `read_bytes`. -/
theorem reading_full (hcount : 0 < count) (infile : List UInt8) (buf : Buffer) :
    ∃ n, ¬(reading (Schedule.full count) infile buf n).More count ∧
      read_bytes infile buf count = ((reading (Schedule.full count) infile buf n).total,
        (reading (Schedule.full count) infile buf n).buf,
        (reading (Schedule.full count) infile buf n).infile) := by
  obtain ⟨n, hended, -, htotal, -⟩ :=
    (readsCount_iff (Schedule.full count) infile buf).mpr (Or.inr (Schedule.lands_full count))
  have hfilled := reading_filled (Schedule.full count) infile buf n
  refine ⟨n, hended, ?_⟩
  rw [read_bytes_eq infile buf hcount, hfilled.left, hfilled.buffer, htotal, List.length_take]
  rcases Nat.le_total count infile.length with hle | hge
  · rw [Nat.min_eq_left hle]
  · rw [Nat.min_eq_right hge, List.take_of_length_le hge, List.take_length,
      List.drop_of_length_le hge, List.drop_length]

/-! ## Writing -/

/-- `write_bytes` between two calls, and the places of the buffer it has taken. -/
structure Writing where
  outfile : List UInt8
  total : ℕ
  writes : ℤ
  taken : List ℕ

/-- `(total != to_write) && (writes != 0)`. -/
def Writing.More (to_write : ℕ) (w : Writing) : Prop := w.total ≠ to_write ∧ w.writes ≠ 0

instance (to_write : ℕ) (w : Writing) : Decidable (w.More to_write) :=
  inferInstanceAs (Decidable (_ ∧ _))

/-- One iteration. -/
def Writing.call (buf : Buffer) (size : ℕ) (w : Writing) : Writing :=
  let places := (List.range size).map (w.total + ·)
  { outfile := w.outfile ++ places.map buf
    total := w.total + size
    writes := size
    taken := w.taken ++ places }

/-- After at most `n` iterations. -/
def writing {to_write : ℕ} (s : Schedule to_write) (outfile : List UInt8) (buf : Buffer) :
    ℕ → Writing
  | 0 => ⟨outfile, 0, -1, []⟩
  | n + 1 =>
      let w := writing s outfile buf n
      if w.More to_write then w.call buf (s.size n) else w

/-- The loop ends with the bytes of the buffer written once each, in order, and no others
taken. -/
def WritesCount {to_write : ℕ} (s : Schedule to_write) (outfile : List UInt8) (buf : Buffer) :
    Prop :=
  ∃ n, ¬(writing s outfile buf n).More to_write ∧
    (∀ place ∈ (writing s outfile buf n).taken, place < to_write) ∧
    (writing s outfile buf n).outfile = outfile ++ (List.range to_write).map buf

variable {outfile : List UInt8}

/-- Whatever the transfers, the first `total` places have been written. -/
structure Drained (outfile : List UInt8) (buf : Buffer) (w : Writing) : Prop where
  written : w.outfile = outfile ++ (List.range w.total).map buf
  taken : w.taken = List.range w.total
  more : w.writes ≠ 0

theorem Drained.call {w : Writing} (h : Drained outfile buf w) {size : ℕ} (hsize : 0 < size) :
    Drained outfile buf (w.call buf size) := by
  refine ⟨?_, ?_, ?_⟩
  · change w.outfile ++ ((List.range size).map (w.total + ·)).map buf =
      outfile ++ (List.range (w.total + size)).map buf
    rw [h.written, List.range_add, List.map_append, List.append_assoc]
  · change w.taken ++ (List.range size).map (w.total + ·) = List.range (w.total + size)
    rw [h.taken, List.range_add]
  · exact Int.natCast_ne_zero.mpr (Nat.ne_of_gt hsize)

theorem writing_drained (s : Schedule count) (outfile : List UInt8) (buf : Buffer) (n : ℕ) :
    Drained outfile buf (writing s outfile buf n) := by
  induction n with
  | zero => exact ⟨by simp [writing], rfl, by simp [writing]⟩
  | succ n ih =>
      rw [writing]
      split
      · exact ih.call (s.pos n)
      · exact ih

/-- Until the count is reached the total is what the transfers add up to. -/
theorem writing_total (outfile : List UInt8) (buf : Buffer) {s : Schedule count} {n : ℕ}
    (h : ∀ k < n, (writing s outfile buf k).total ≠ count) :
    (writing s outfile buf n).total = s.moved n := by
  induction n with
  | zero => rfl
  | succ n ih =>
      have hmore : (writing s outfile buf n).More count :=
        ⟨h n (Nat.lt_succ_self n), (writing_drained s outfile buf n).more⟩
      rw [writing, if_pos hmore, s.moved_succ, ← ih fun k hk => h k (Nat.lt_succ_of_lt hk)]
      rfl

theorem writing_reaches (s : Schedule count) (outfile : List UInt8) (buf : Buffer) :
    (∃ n, (writing s outfile buf n).total = count) ↔ s.Lands :=
  reaches_iff fun _ hnever => by rw [writing_total outfile buf hnever]

/-- A loop that misses the count takes a place past the end of the buffer and does not
end. -/
theorem writing_past_end {s : Schedule count} (h : ¬s.Lands) (outfile : List UInt8)
    (buf : Buffer) :
    (∃ n, count ∈ (writing s outfile buf n).taken) ∧
      ∀ n, (writing s outfile buf n).More count := by
  have hnever : ∀ k, (writing s outfile buf k).total ≠ count := fun k hk =>
    h ((writing_reaches s outfile buf).mp ⟨k, hk⟩)
  constructor
  · refine ⟨count + 1, ?_⟩
    rw [(writing_drained s outfile buf _).taken, List.mem_range,
      writing_total outfile buf fun k _ => hnever k]
    exact s.le_moved (count + 1)
  · exact fun n => ⟨hnever n, (writing_drained s outfile buf n).more⟩

theorem writesCount_iff (s : Schedule count) (outfile : List UInt8) (buf : Buffer) :
    WritesCount s outfile buf ↔ s.Lands := by
  rw [← writing_reaches s outfile buf]
  constructor
  · rintro ⟨n, hended, -, -⟩
    by_contra hnever
    have hlost : ¬s.Lands := fun hlands => hnever ((writing_reaches s outfile buf).mpr hlands)
    exact hended ((writing_past_end hlost outfile buf).2 n)
  · rintro ⟨n, hn⟩
    have hdrained := writing_drained s outfile buf n
    refine ⟨n, fun hmore => hmore.1 hn, ?_, ?_⟩
    · intro place hplace
      rwa [hdrained.taken, hn, List.mem_range] at hplace
    · rw [hdrained.written, hn]

/-- With full transfers this is `write_bytes`. -/
theorem writing_full (count : ℕ) (outfile : List UInt8) (buf : Buffer) :
    ∃ n, ¬(writing (Schedule.full count) outfile buf n).More count ∧
      (writing (Schedule.full count) outfile buf n).outfile = write_bytes outfile buf count := by
  obtain ⟨n, hended, -, hwritten⟩ :=
    (writesCount_iff (Schedule.full count) outfile buf).mpr (Schedule.lands_full count)
  exact ⟨n, hended, hwritten⟩

/-! ## Both -/

/-- Short transfers are harmless if they land on the count, and in reading also if the
file has no more than the count. -/
theorem transfers_iff (s : Schedule count) (file : List UInt8) (buf : Buffer) :
    (ReadsCount s file buf ↔ file.length ≤ count ∨ s.Lands) ∧
      (WritesCount s file buf ↔ s.Lands) :=
  ⟨readsCount_iff s file buf, writesCount_iff s file buf⟩

/-- A header of eight bytes of which the first call transfers seven. -/
theorem header_passes_end : ¬ReadsCount (Schedule.short 6) (List.replicate 16 0) (fun _ => 0) ∧
    ¬WritesCount (Schedule.short 6) [] (fun _ => 0) := by
  constructor
  · rw [readsCount_iff]
    rintro (hle | hlands)
    · simp at hle
    · exact Schedule.not_lands_short 6 hlands
  · rw [writesCount_iff]
    exact Schedule.not_lands_short 6

/-- All transfers are harmless to a reader of a file with no more than the count, and else
only if the count is at most one. -/
theorem every_schedule_iff (count : ℕ) (file : List UInt8) (buf : Buffer) :
    ((∀ s : Schedule count, ReadsCount s file buf) ↔ file.length ≤ count ∨ count ≤ 1) ∧
      ((∀ s : Schedule count, WritesCount s file buf) ↔ count ≤ 1) := by
  have hlands : (∀ s : Schedule count, s.Lands) ↔ count ≤ 1 := by
    constructor
    · intro h
      by_contra hlong
      obtain ⟨m, rfl⟩ : ∃ m, count = m + 2 := ⟨count - 2, by omega⟩
      exact Schedule.not_lands_short m (h _)
    · exact fun h s => s.lands_of_le_one h
  constructor
  · rw [← hlands]
    simp only [readsCount_iff, forall_or_left]
  · rw [← hlands]
    simp only [writesCount_iff]

end FavoriteAssignments.Lz78
