import FavoriteAssignments.Banana.Regions
import FavoriteAssignments.Library.StoreLog

/-! # Coherence of the memory

Bytes and words overlap at odd addresses, and reading and writing go through different loops.
Every run of a program still sees the memory of a log of bytes. -/

namespace FavoriteAssignments.Banana

open StoreLog Transition

namespace Machine

/-! ## Loads and stores inside the RAM -/

section Access

variable {m : Machine} {address : BitVec 16}

theorem readable_of_lt (h : address.toNat < kRAMSize) : readable address = true := by
  have hlow : decide (kRAMAddress ≤ address.toNat) = true := decide_eq_true (Nat.zero_le _)
  have hhigh : decide (address.toNat ≤ kRAMAddress + kRAMSize) = true :=
    decide_eq_true (h.le.trans (Nat.le_add_left _ _))
  rw [readable, hlow, hhigh]
  rfl

/-- The bytes that `write16` stores, the newest first. -/
def wordStores (address data : BitVec 16) : List (ℕ × BitVec 8) :=
  [(address.toNat + 1, data.setWidth 8), (address.toNat, (data >>> 8).setWidth 8)]

theorem writable_of_le {bytes : ℕ} (h : address.toNat + bytes ≤ kRAMSize + 1) :
    writable address bytes = true := by
  apply List.all_eq_true.mpr
  intro i hi
  have hi' := List.mem_range.mp hi
  rw [kRAMSize] at h
  exact writableAt_iff.mpr (.inl (by omega))

/-- The two shifts of `read16` put the byte at the lower address in front. -/
theorem read16_eq (h : readable address = true) :
    m.read16 address = m.RAM_ address.toNat ++ m.RAM_ (address.toNat + 1) := by
  have hrange : List.range 2 = [0, 1] := rfl
  rw [read16, readBytes, if_pos h, hrange, List.foldl_cons, List.foldl_cons, List.foldl_nil,
    Nat.add_zero, BitVec.append_def, BitVec.shiftLeftZeroExtend_eq]
  simp

end Access

/-! ## The log of one instruction -/

section Cycle

variable {m : Machine}

/-- The bytes that the next instruction stores, the newest first. -/
def stores (m : Machine) : List (ℕ × BitVec 8) :=
  match m.opCode with
  | some .kSB => [(m.ea.toNat, m.stored.setWidth 8)]
  | some .kSW => wordStores m.ea m.stored
  | _ => []

/-- A store that `writable` refuses has no byte in the RAM. -/
theorem RAM_cycle_eq_replay {i : ℕ} (hpc : kSLUGFileAddress ≤ m.CPU_.PC_.toNat)
    (hi : i < kRAMSize) : m.cycle.RAM_ i = replay m.RAM_ m.stores i := by
  rw [RAM_cycle hpc, stores, address_eq_ea]
  cases m.opCode with
  | none => rfl
  | some code =>
      cases code <;> dsimp only
      case kSB =>
        by_cases hwritable : writable m.ea 1 = true
        · rw [write8, if_pos hwritable]
          rfl
        · have hea : i ≠ m.ea.toNat := by
            rintro rfl
            exact hwritable (writable_of_le (Nat.succ_le_succ hi.le))
          rw [write8, if_neg hwritable, replay_eq_latest, latest_cons, if_neg hea]
          rfl
      case kSW =>
        by_cases hwritable : writable m.ea 2 = true
        · rw [write16_of_writable _ hwritable]
          rfl
        · have hea : ¬m.ea.toNat + 2 ≤ kRAMSize + 1 := fun h => hwritable (writable_of_le h)
          rw [write16, writeBytes, if_neg hwritable, replay_eq_latest, wordStores, latest_cons,
            latest_cons, if_neg (by omega), if_neg (by omega)]
          rfl
      all_goals rfl

end Cycle

end Machine

/-! ## Runs -/

/-- The bytes that a step stores. -/
def Session.stores (s : Session) (a : Action) : List (ℕ × BitVec 8) :=
  if a = .execute then s.machine.stores else []

/-- The sessions that follow from `s₀`, with the bytes stored since. -/
abbrev Session.Logged (s₀ : Session) : List (ℕ × BitVec 8) → Session → Prop :=
  StoreLog.Logged s₀ (fun s a s' => s.next a = some s') Session.stores

variable {s₀ s : Session} {log : List (ℕ × BitVec 8)}

/-- Every byte of the RAM is the one that was stored there last. -/
theorem Session.RAM_eq_latest {i : ℕ} (h : s₀.Logged log s) (hi : i < kRAMSize) :
    s.machine.RAM_ i = latest s₀.machine.RAM_ log i := by
  apply StoreLog.Logged.memory_eq i (fun s => s.machine.RAM_) h
  intro s a s' hstep
  by_cases ha : a = .execute
  · rw [ha] at hstep
    obtain ⟨hpc, hmachine, _⟩ := Session.next_execute hstep
    rw [hmachine, Session.stores, if_pos ha, Machine.RAM_cycle_eq_replay hpc hi]
  · rw [(Session.next_of_ne_execute ha hstep).1, Session.stores, if_neg ha]
    rfl

/-- What an instruction does to the memory and what it loads, where `contents` is the byte stored
last at each address. -/
structure Coherent (contents : ℕ → BitVec 8) (m m' : Machine) : Prop where
  loadByte : m.opCode = some .kLBU → m.ea.toNat < kRAMSize →
    m'.CPU_.reg m.latched.CPU_.reg_b_ = (contents m.ea.toNat).setWidth 16
  loadWord : m.opCode = some .kLW → m.ea.toNat + 1 < kRAMSize →
    m'.CPU_.reg m.latched.CPU_.reg_b_ = contents m.ea.toNat ++ contents (m.ea.toNat + 1)
  storeByte : m.opCode = some .kSB → m.ea.toNat < kRAMSize →
    m'.RAM_ = Function.update m.RAM_ m.ea.toNat (m.stored.setWidth 8)
  storeWord : m.opCode = some .kSW → m.ea.toNat + 1 < kRAMSize →
    m'.RAM_ = Function.update (Function.update m.RAM_ m.ea.toNat ((m.stored >>> 8).setWidth 8))
      (m.ea.toNat + 1) (m.stored.setWidth 8)
  others : m.opCode ≠ some .kSB → m.opCode ≠ some .kSW → m'.RAM_ = m.RAM_

section Step

namespace Machine

variable {m : Machine}

/-- The sum of an LBU inside the RAM is not the address of the device. -/
theorem effective_ne_stdin (h : m.ea.toNat < kRAMSize) :
    m.latched.effective ≠ BitVec.ofNat 32 kDebugstdinAddress := by
  intro heq
  rw [← address_eq_ea, address, heq] at h
  exact absurd h (by decide)

theorem reg_setReg_advance (c : BananaCpu) (r v : BitVec 16) (n : BitVec 32) :
    ((c.setReg r v).advance n).reg r = v :=
  Function.update_self _ _ _

theorem cycle_loadByte (hpc : kSLUGFileAddress ≤ m.CPU_.PC_.toNat) (hcode : m.opCode = some .kLBU)
    (h : m.ea.toNat < kRAMSize) :
    m.cycle.CPU_.reg m.latched.CPU_.reg_b_ = (m.RAM_ m.ea.toNat).setWidth 16 := by
  have hread : m.latched.read8 m.address = m.RAM_ m.ea.toNat := by
    rw [address_eq_ea, read8, if_pos (readable_of_lt h)]
    rfl
  rw [cycle_LBU hpc hcode, LBU]
  dsimp only
  rw [if_neg (effective_ne_stdin h), ← hread]
  exact reg_setReg_advance _ _ _ _

theorem cycle_loadWord (hpc : kSLUGFileAddress ≤ m.CPU_.PC_.toNat) (hcode : m.opCode = some .kLW)
    (h : m.ea.toNat + 1 < kRAMSize) :
    m.cycle.CPU_.reg m.latched.CPU_.reg_b_ = m.RAM_ m.ea.toNat ++ m.RAM_ (m.ea.toNat + 1) := by
  have hread : m.latched.read16 m.address = m.RAM_ m.ea.toNat ++ m.RAM_ (m.ea.toNat + 1) := by
    rw [address_eq_ea, read16_eq (readable_of_lt (Nat.lt_of_succ_lt h))]
    rfl
  rw [cycle_LW hpc hcode, LW, ← hread]
  exact reg_setReg_advance _ _ _ _

end Machine

end Step

/-- After any run, loads return what was stored last, and stores change the addressed bytes
only. -/
theorem memory_coherent (s₀ s s' : Session) (log : List (ℕ × BitVec 8)) (hlog : s₀.Logged log s)
    (hstep : s.next .execute = some s') :
    Coherent (latest s₀.machine.RAM_ log) s.machine s'.machine := by
  obtain ⟨hpc, hmachine, _⟩ := Session.next_execute hstep
  rw [hmachine]
  constructor
  · intro hcode hea
    rw [Machine.cycle_loadByte hpc hcode hea, Session.RAM_eq_latest hlog hea]
  · intro hcode hea
    rw [Machine.cycle_loadWord hpc hcode hea, Session.RAM_eq_latest hlog hea,
      Session.RAM_eq_latest hlog (Nat.lt_of_succ_lt hea)]
  · intro hcode hea
    rw [Machine.RAM_cycle hpc, hcode, Machine.address_eq_ea]
    dsimp only
    rw [Machine.write8, if_pos (Machine.writable_of_le (by omega))]
    rfl
  · intro hcode hea
    rw [Machine.RAM_cycle hpc, hcode, Machine.address_eq_ea]
    exact Machine.write16_of_writable _ (Machine.writable_of_le (by omega))
  · intro hSB hSW
    rw [Machine.RAM_cycle hpc]
    split
    · next hcode => exact absurd hcode hSB
    · next hcode => exact absurd hcode hSW
    · rfl

/-- `SW r29, 0x10(r0)` and `SW r29, 0x11(r0)` store the word 0x5200 twice, and `LW r1, 0x10(r0)`
loads the high byte of both. -/
theorem memory_coherent_overlap :
    let s₀ := atRest 0 [0xE81D0010, 0xE81D0011, 0xD4010010]
    ∃ (s s' : Session) (log : List (ℕ × BitVec 8)), s₀.Logged log s ∧
      s.machine.opCode = some .kLW ∧ s'.machine.CPU_.reg 1 = 0x5252 ∧
      Coherent (latest s₀.machine.RAM_ log) s.machine s'.machine := by
  obtain ⟨s, hs, htest⟩ := Session.exists_of_run (atRest 0 [0xE81D0010, 0xE81D0011, 0xD4010010])
    Always [.loop, .execute, .execute] (fun s => decide (s.machine.opCode = some .kLW) &&
      (s.next .execute).any fun s' : Session => decide (s'.machine.CPU_.reg 1 = 0x5252))
    (by decide +kernel)
  rw [Bool.and_eq_true, decide_eq_true_iff, Option.any_eq_true] at htest
  obtain ⟨hcode, s', hs', hreg⟩ := htest
  obtain ⟨log, hlog⟩ := exists_logged Session.stores hs
  exact ⟨s, s', log, hlog, hcode, of_decide_eq_true hreg, memory_coherent _ s s' log hlog hs'⟩

end FavoriteAssignments.Banana
