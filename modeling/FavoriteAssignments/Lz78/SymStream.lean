import FavoriteAssignments.Lz78.BitStream

/-! # The symbols read

What successive calls of `read_sym` return, block after block. A file whose last block
is one byte short of full ends at index `BLOCK`, which `sym_index` never takes: one
byte of the buffer is returned besides. -/

namespace FavoriteAssignments.Lz78

/-- From a state whose buffer is loaded, the symbols returned until `read_sym` is false. -/
inductive Delivered : SymReader → List UInt8 → Prop where
  | stop {r : SymReader} (h : r.deliver.2.2 = false) : Delivered r []
  | more {r : SymReader} {syms : List UInt8} (h : r.deliver.2.2 = true) :
      Delivered r.deliver.1.refill syms → Delivered r (r.deliver.2.1 :: syms)

/-- The symbol left in the last place of the buffer by an earlier block. -/
def stale (buf : Buffer) (syms : List UInt8) : UInt8 :=
  if syms.length < BLOCK then buf (BLOCK - 1) else syms[syms.length - BLOCK]?.getD 0

/-- What `read_sym` makes of a file, reading it into `buf`. -/
def deliveredFrom (buf : Buffer) (syms : List UInt8) : List UInt8 :=
  if syms.length % BLOCK = BLOCK - 1 then syms ++ [stale buf syms] else syms

def delivered (syms : List UInt8) : List UInt8 := deliveredFrom (fun _ => 0) syms

theorem read_sym_eq {r : SymReader} {more : Bool} (h : r.refill.deliver.2.2 = more) :
    read_sym r = (r.refill.deliver.1, r.refill.deliver.2.1, more) := by
  rw [← h]
  rfl

theorem refill_of_pos {r : SymReader} (h : r.sym_index ≠ 0) : r.refill = r := by
  simp [SymReader.refill, h]

/-- A stretch of a block, none of its places the end. -/
theorem Delivered.block (syms : List UInt8) (k : ℕ) {r : SymReader}
    (hroom : r.sym_index + (k + 1) ≤ BLOCK)
    (hend : ∀ j, r.sym_index < j → j ≤ r.sym_index + (k + 1) →
      ((j % BLOCK : ℕ) : ℤ) ≠ r.endIndex)
    (hrest : ∀ total, Delivered (SymReader.refill
      { r with sym_index := (r.sym_index + (k + 1)) % BLOCK, total_syms := total }) syms) :
    Delivered r ((List.range (k + 1)).map (fun j => r.sym_buffer (r.sym_index + j)) ++ syms) := by
  have hmore : r.deliver.2.2 = true := by
    simpa [SymReader.deliver] using hend (r.sym_index + 1) (by omega) (by omega)
  induction k generalizing r with
  | zero => exact Delivered.more hmore (hrest _)
  | succ k ih =>
      have hmod : (r.sym_index + 1) % BLOCK = r.sym_index + 1 := Nat.mod_eq_of_lt (by omega)
      have hindex : r.deliver.1.sym_index = r.sym_index + 1 := hmod
      have hbuffer : r.deliver.1.sym_buffer = r.sym_buffer := rfl
      have hendIndex : r.deliver.1.endIndex = r.endIndex := rfl
      have hnext : Delivered r.deliver.1
          ((List.range (k + 1)).map (fun j => r.sym_buffer (r.sym_index + 1 + j)) ++ syms) := by
        have hend' : ∀ j, r.deliver.1.sym_index < j → j ≤ r.deliver.1.sym_index + (k + 1) →
            ((j % BLOCK : ℕ) : ℤ) ≠ r.deliver.1.endIndex := by
          intro j h1 h2
          exact hend j (by omega) (by omega)
        have := ih (r := r.deliver.1) (by omega) hend' ?_ ?_
        · simpa only [hindex, hbuffer] using this
        · intro total
          have := hrest total
          rw [show r.sym_index + (k + 1 + 1) = r.sym_index + 1 + (k + 1) by omega] at this
          simpa only [SymReader.deliver, hmod] using this
        · simpa [SymReader.deliver, hmod] using
            hend (r.sym_index + 1 + 1) (by omega) (by omega)
      have := Delivered.more hmore (r := r) (by rwa [refill_of_pos (by omega)])
      rw [List.range_succ_eq_map]
      simpa [SymReader.deliver, Function.comp_def, Nat.add_comm, Nat.add_left_comm] using this

/-- `read_sym` ends where the file ends in the block that is loaded. -/
theorem Delivered.stop_at {r : SymReader} (hend : ((r.sym_index + 1 : ℕ) : ℤ) = r.endIndex)
    (hroom : r.sym_index + 1 < BLOCK) : Delivered r [] := by
  apply Delivered.stop
  rw [← Nat.mod_eq_of_lt hroom] at hend
  simpa [SymReader.deliver] using hend

theorem store_last (buf : Buffer) (chunk : List UInt8) :
    buf.store 0 chunk chunk.length = buf chunk.length := by
  simp [Buffer.store]

/-- Of a whole block that is loaded every symbol is returned. -/
theorem Delivered.whole_block {infile syms : List UInt8} {buf : Buffer} {endIndex : ℤ}
    (total : ℕ) (hend : ∀ j < BLOCK, (j : ℤ) ≠ endIndex)
    (hrest : ∀ total, Delivered (SymReader.refill ⟨infile, buf, 0, endIndex, total⟩) syms) :
    Delivered ⟨infile, buf, 0, endIndex, total⟩ ((List.range BLOCK).map buf ++ syms) := by
  have hblock := Delivered.block syms (BLOCK - 1) (r := ⟨infile, buf, 0, endIndex, total⟩)
    (by simp [BLOCK]) ?_ ?_
  · simpa [BLOCK] using hblock
  · intro j _ _
    exact hend (j % BLOCK) (Nat.mod_lt _ (by decide))
  · intro total
    simpa [BLOCK] using hrest total

/-- A block that is not the last. -/
theorem deliveredFrom_block (buf : Buffer) {infile : List UInt8} (hfull : BLOCK ≤ infile.length) :
    infile.take BLOCK ++
        deliveredFrom (buf.store 0 (infile.take BLOCK)) (infile.drop BLOCK) =
      deliveredFrom buf infile := by
  have hmod : (infile.drop BLOCK).length % BLOCK = infile.length % BLOCK := by
    rw [List.length_drop, ← Nat.mod_eq_sub_mod hfull]
  unfold deliveredFrom
  rw [hmod]
  split
  · next hlast =>
      have hstale : stale (buf.store 0 (infile.take BLOCK)) (infile.drop BLOCK) =
          stale buf infile := by
        have hblock : BLOCK = 4096 := rfl
        unfold stale
        rw [if_neg (show ¬ infile.length < BLOCK by omega), List.length_drop]
        split
        · next hshort =>
            have hmod : infile.length % 4096 = 4095 := hlast
            have hplace : infile.length - BLOCK = BLOCK - 1 := by omega
            have hlt : BLOCK - 1 < infile.length := by omega
            rw [hplace, List.getElem?_eq_getElem hlt]
            simp [Buffer.store, hblock, List.getElem?_eq_getElem (hblock ▸ hlt)]
        · next hlong =>
            have hplace : BLOCK + (infile.length - BLOCK - BLOCK) = infile.length - BLOCK := by
              omega
            rw [List.getElem?_drop, hplace]
      rw [hstale, ← List.append_assoc, List.take_append_drop]
  · rw [List.take_append_drop]

/-- All of the file, read block after block. -/
theorem delivered_file (infile : List UInt8) (buf : Buffer) (total : ℕ) :
    Delivered (SymReader.refill ⟨infile, buf, 0, -1, total⟩) (deliveredFrom buf infile) := by
  have hload : SymReader.refill ⟨infile, buf, 0, -1, total⟩ =
      ⟨infile.drop BLOCK, buf.store 0 (infile.take BLOCK), 0,
        if (infile.take BLOCK).length < BLOCK then (infile.take BLOCK).length + 1 else -1,
        total⟩ := by
    simp [SymReader.refill, read_bytes_eq _ _ (show 0 < BLOCK by decide)]
  rw [hload]
  rcases Nat.lt_or_ge infile.length BLOCK with hshort | hfull
  · rw [List.take_of_length_le hshort.le, List.drop_of_length_le hshort.le, if_pos hshort]
    have hblock := map_store buf infile
    by_cases hlast : infile.length = BLOCK - 1
    · -- the index past the file is that of a whole block
      have hsyms : deliveredFrom buf infile =
          (List.range BLOCK).map (buf.store 0 infile) ++ [] := by
        have hmod : infile.length % BLOCK = BLOCK - 1 := by
          rw [hlast]
          rfl
        rw [deliveredFrom, if_pos hmod, stale, if_pos hshort, List.append_nil,
          show BLOCK = infile.length + 1 by rw [hlast]; rfl, List.range_succ, List.map_append,
          hblock]
        simp [store_last]
      rw [hsyms]
      apply Delivered.whole_block
      · intro j hj
        simp only [BLOCK] at hj hlast
        omega
      · intro total
        apply Delivered.stop_at
        · simp [SymReader.refill, read_bytes_eq _ _ (show 0 < BLOCK by decide),
            show 0 < BLOCK by decide]
        · simp [SymReader.refill, BLOCK]
    · have hroom : infile.length + 1 < BLOCK := by
        simp only [BLOCK] at hshort hlast ⊢
        omega
      have hmod : ∀ j ≤ infile.length + 1, j % BLOCK = j := by
        intro j hj
        exact Nat.mod_eq_of_lt (by omega)
      have hsyms : deliveredFrom buf infile = infile := by
        rw [deliveredFrom, if_neg (by rwa [hmod _ (by omega)])]
      rw [hsyms]
      rcases Nat.eq_zero_or_pos infile.length with hzero | hpos
      · rw [List.length_eq_zero_iff.mp hzero]
        exact Delivered.stop_at rfl (by simp [BLOCK])
      · obtain ⟨k, hk⟩ : ∃ k, infile.length = k + 1 := ⟨infile.length - 1, by omega⟩
        have := Delivered.block [] k
          (r := ⟨[], buf.store 0 infile, 0, infile.length + 1, total⟩) ?_ ?_ ?_
        · simpa [← hk, hblock] using this
        · simp only
          omega
        · intro j _ hj
          simp only at hj ⊢
          rw [hmod j (by omega)]
          omega
        · intro total
          simp only [Nat.zero_add, ← hk, hmod _ (Nat.le_succ _)]
          rw [refill_of_pos (Nat.ne_of_gt hpos)]
          exact Delivered.stop_at (by simp) hroom
  · rw [List.length_take, Nat.min_eq_left hfull, if_neg (Nat.lt_irrefl _),
      ← deliveredFrom_block buf hfull]
    have htake : (List.range BLOCK).map (buf.store 0 (infile.take BLOCK)) = infile.take BLOCK := by
      have := map_store buf (infile.take BLOCK)
      rwa [List.length_take, Nat.min_eq_left hfull] at this
    have hnext := delivered_file (infile.drop BLOCK) (buf.store 0 (infile.take BLOCK))
    have := Delivered.whole_block total (fun j _ => by omega) hnext
    rwa [htake] at this
termination_by infile.length
decreasing_by
  simp only [List.length_drop, BLOCK] at hfull ⊢
  omega

theorem delivered_eq_iff (syms : List UInt8) :
    delivered syms = syms ↔ syms.length % BLOCK ≠ BLOCK - 1 := by
  unfold delivered deliveredFrom
  split
  · next hlast => simp [hlast]
  · next hlast => simp [hlast]

/-! ## Successive calls -/

/-- The reader after `n` calls of `read_sym`, and what they returned. -/
def read_syms : ℕ → SymReader → SymReader × List (UInt8 × Bool)
  | 0, r => (r, [])
  | n + 1, r =>
      let got := read_sym r
      let rest := read_syms n got.1
      (rest.1, got.2 :: rest.2)

/-- The bytes of a file come back once each, in order, with their number in `total_syms`;
the next call is false. -/
structure ReadsExactly (infile : List UInt8) : Prop where
  syms : (read_syms infile.length (symReaderStart infile)).2 = infile.map (·, true)
  total : (read_syms infile.length (symReaderStart infile)).1.total_syms = infile.length
  stop : (read_sym (read_syms infile.length (symReaderStart infile)).1).2.2 = false
  final : (read_sym (read_syms infile.length (symReaderStart infile)).1).1.total_syms =
    infile.length

theorem total_syms_deliver (r : SymReader) :
    r.deliver.1.total_syms = if r.deliver.2.2 then r.total_syms + 1 else r.total_syms := rfl

theorem total_syms_refill (r : SymReader) : r.refill.total_syms = r.total_syms := by
  unfold SymReader.refill
  split <;> rfl

theorem total_syms_read_sym (r : SymReader) :
    (read_sym r).1.total_syms = if (read_sym r).2.2 then r.total_syms + 1 else r.total_syms := by
  rw [read_sym, total_syms_deliver, total_syms_refill]

theorem read_syms_succ (n : ℕ) (r : SymReader) :
    read_syms (n + 1) r = ((read_sym (read_syms n r).1).1,
      (read_syms n r).2 ++ [(read_sym (read_syms n r).1).2]) := by
  induction n generalizing r with
  | zero => rfl
  | succ n ih =>
      rw [read_syms, ih]
      rfl

/-- As many calls as there are symbols return them, and the next call is false. -/
theorem Delivered.read_syms {s : SymReader} {syms : List UInt8} (h : Delivered s syms)
    (r : SymReader) (hr : r.refill = s) :
    (Lz78.read_syms syms.length r).2 = syms.map (·, true) ∧
      (Lz78.read_syms syms.length r).1.total_syms = r.total_syms + syms.length ∧
      (read_sym (Lz78.read_syms syms.length r).1).2.2 = false := by
  induction h generalizing r with
  | stop hstop =>
      subst hr
      exact ⟨rfl, rfl, hstop⟩
  | @more _ syms hmore _ ih =>
      subst hr
      obtain ⟨hsyms, htotal, hlast⟩ := ih (read_sym r).1 rfl
      have hfirst := congrArg Prod.snd (read_sym_eq hmore)
      have hcount : (read_sym r).1.total_syms = r.total_syms + 1 := by
        rw [total_syms_read_sym, hfirst]
        rfl
      refine ⟨?_, ?_, hlast⟩
      · rw [List.length_cons, Lz78.read_syms, hsyms, hfirst]
        rfl
      · rw [List.length_cons, Lz78.read_syms, htotal, hcount]
        omega

theorem delivered_read_syms (infile : List UInt8) :
    (read_syms (delivered infile).length (symReaderStart infile)).2 =
        (delivered infile).map (·, true) ∧
      (read_syms (delivered infile).length (symReaderStart infile)).1.total_syms =
        0 + (delivered infile).length ∧
      (read_sym (read_syms (delivered infile).length (symReaderStart infile)).1).2.2 = false :=
  (delivered_file infile (fun _ => 0) 0).read_syms (symReaderStart infile) rfl

/-- Where the last block is one byte short of full, the call after the last byte is true. -/
theorem read_sym_after_last {infile : List UInt8} (h : infile.length % BLOCK = BLOCK - 1) :
    (read_sym (read_syms infile.length (symReaderStart infile)).1).2.2 = true := by
  have hcalls := (delivered_read_syms infile).1
  rw [delivered, deliveredFrom, if_pos h, List.length_append, List.length_singleton,
    read_syms_succ, List.map_append] at hcalls
  have hlast := (List.append_inj' hcalls rfl).2
  rw [(List.cons.inj hlast).1]

/-- `read_sym` is exact for every file but those whose last block is one byte short of
full. -/
theorem reads_exactly_iff (infile : List UInt8) :
    ReadsExactly infile ↔ infile.length % BLOCK ≠ BLOCK - 1 := by
  constructor
  · intro h hshort
    have hstop := h.stop
    rw [read_sym_after_last hshort] at hstop
    cases hstop
  · intro hlength
    have hcalls := delivered_read_syms infile
    rw [(delivered_eq_iff infile).mpr hlength, Nat.zero_add] at hcalls
    obtain ⟨hsyms, htotal, hstop⟩ := hcalls
    refine ⟨hsyms, htotal, hstop, ?_⟩
    rw [total_syms_read_sym, hstop]
    exact htotal

/-- After 4095 bytes the call is true once more. -/
theorem extra_symbol_read : ¬ReadsExactly (List.replicate 4095 97) := by
  intro h
  have hshort : (List.replicate 4095 (97 : UInt8)).length % BLOCK = BLOCK - 1 := by
    rw [List.length_replicate]
    rfl
  have hstop := h.stop
  rw [read_sym_after_last hshort] at hstop
  cases hstop

end FavoriteAssignments.Lz78
