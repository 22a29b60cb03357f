import FavoriteAssignments.Banana.Accesses

/-! # What programs can do to the memory

`writable` is asked for every byte of a store, `readable` only for the first byte of a load, and
both count the first address behind the RAM as a part of it. So the program and its data cannot
be overwritten, but the controller register can, and a load may run over the end of `RAM_`. -/

namespace FavoriteAssignments.Banana

open Transition

/-- A byte that no admitted instruction changes is the same after a run. -/
theorem Session.RAM_kept {ok : Session → Action → Prop} {s₀ s : Session} {i : ℕ}
    (hcycle : ∀ s : Session, ok s .execute → kSLUGFileAddress ≤ s.machine.CPU_.PC_.toNat →
      s.machine.cycle.RAM_ i = s.machine.RAM_ i)
    (h : Session.From s₀ ok s) : s.machine.RAM_ i = s₀.machine.RAM_ i := by
  apply h.invariant (P := fun s => s.machine.RAM_ i = s₀.machine.RAM_ i)
  · intro s hs
    rw [hs]
  · intro s a s' hs hok hstep
    by_cases ha : a = .execute
    · rw [ha] at hstep hok
      obtain ⟨hpc, hmachine, _⟩ := Session.next_execute hstep
      rw [hmachine, hcycle s hok hpc, hs]
    · rw [(Session.next_of_ne_execute ha hstep).1, hs]

/-! ## The program stays as it was loaded -/

/-- No run changes the program, so that it fetches the words that were loaded, nor any other
address but the RAM, the controller register behind it and the three output devices. -/
theorem program_unchanged (s₀ s : Session) (h : Session.From s₀ Always s) :
    (∀ i, kSLUGFileAddress ≤ i → i < ramSize → s.machine.RAM_ i = s₀.machine.RAM_ i) ∧
      (∀ pc : BitVec 16, kSLUGFileAddress ≤ pc.toNat →
        s.machine.read32 pc = s₀.machine.read32 pc) ∧
      ∀ i < ramSize, ¬(i ≤ 0x7000 ∨ i = 0x7110 ∨ i = 0x7120 ∨ i = 0x7200) →
        s.machine.RAM_ i = s₀.machine.RAM_ i := by
  have hkept : ∀ i, ¬(i ≤ 0x7000 ∨ i = 0x7110 ∨ i = 0x7120 ∨ i = 0x7200) →
      s.machine.RAM_ i = s₀.machine.RAM_ i := by
    intro i hi
    have hnot : writableAt i = false :=
      Bool.eq_false_iff.mpr fun hw => hi (Machine.writableAt_iff.mp hw)
    apply Session.RAM_kept _ h
    exact fun s _ hpc => Machine.RAM_cycle_of_not_writableAt hpc hnot
  have hprogram : ∀ i, 0x8000 ≤ i → s.machine.RAM_ i = s₀.machine.RAM_ i :=
    fun i hi => hkept i (by omega)
  refine ⟨fun i hi _ => hprogram i hi, ?_, fun i _ => hkept i⟩
  intro pc hpc
  apply Machine.readBytes_congr
  intro i hi
  exact hprogram i (hpc.trans (Machine.bounds_of_mem_readIndices hi).1)

/-- A console between two calls: a program of the given words, whose `setup` and `loop` are
its first instruction, and the buttons that are held down. -/
def atRest (buttons : BitVec 8) (words : List (BitVec 32)) : Session where
  machine :=
    { CPU_ :=
        { registers_ := fun r => if r = 29 then BitVec.ofNat 16 kVRAMAddress else 0
          op_code_ := 0, reg_a_ := 0, reg_b_ := 0, reg_c_ := 0, shift_value_ := 0,
          function_ := 0, immediate_ := 0, PC_ := 0 }
      RAM_ := fun i =>
        if i = kControllerDataAddress then buttons
        else if i < kSLUGFileAddress then 0
        else if i = kSetupAddress + 2 ∨ i = kLoopAddress + 2 then 0x80
        else ((words.getD ((i - kSLUGFileAddress) / 4) 0) >>> (8 * (3 - i % 4))).setWidth 8
      stdin := [], stdout := [], stderr := [], exited := false }
  running := false
  indices := []

/-- `SW r29, -1(r0)` runs over the end of the memory and is not done. -/
theorem program_unchanged_store :
    ∃ s, Session.From (atRest 0 [0xE81DFFFF]) Always s ∧ s.machine.CPU_.PC_ = 0x8004 ∧
      ∀ i, kSLUGFileAddress ≤ i → i < ramSize →
        s.machine.RAM_ i = (atRest 0 [0xE81DFFFF]).machine.RAM_ i := by
  obtain ⟨s, hs, hpc⟩ := Session.exists_of_run (atRest 0 [0xE81DFFFF]) Always [.setup, .execute]
    (fun s => decide (s.machine.CPU_.PC_ = 0x8004)) (by decide +kernel)
  exact ⟨s, hs, of_decide_eq_true hpc, (program_unchanged _ s hs).1⟩

/-! ## The controller register -/

section Controller

namespace Machine

variable {m : Machine}

/-- The test for the RAM includes the first address behind it. -/
theorem write8_controller (address : BitVec 16) (data : BitVec 8) :
    (m.write8 address data).RAM_ kControllerDataAddress =
      if address = 0x7000 then data else m.RAM_ kControllerDataAddress := by
  split
  · next h =>
      rw [h]
      rfl
  · next h =>
      apply write8_of_notMem
      intro hmem
      have hbounds := bounds_of_mem_writeIndices hmem
      rw [kControllerDataAddress] at hbounds
      exact h (BitVec.eq_of_toNat_eq (show address.toNat = 0x7000 by omega))

theorem write16_controller (address data : BitVec 16) :
    (m.write16 address data).RAM_ kControllerDataAddress =
      if address = 0x6FFF then data.setWidth 8 else m.RAM_ kControllerDataAddress := by
  split
  · next h =>
      have hwritable : writable 0x6FFF 2 = true := by decide
      rw [h, write16_of_writable _ hwritable]
      exact Function.update_self _ _ _
  · next h =>
      by_cases hstart : address = 0x7000
      · rw [hstart]
        rfl
      · apply writeBytes_of_notMem
        intro hmem
        have hbounds := bounds_of_mem_writeIndices hmem
        rw [kControllerDataAddress] at hbounds
        have hcases : address.toNat = 0x7000 ∨ address.toNat = 0x6FFF := by omega
        rcases hcases with h₀ | h₁
        · exact hstart (BitVec.eq_of_toNat_eq h₀)
        · exact h (BitVec.eq_of_toNat_eq h₁)

/-- The next instruction is no byte store to the controller register and no word store to the
address before it, unless it stores the byte that is there. -/
def SparesController (m : Machine) : Prop :=
  (m.opCode = some .kSB → m.address = 0x7000 →
    m.stored.setWidth 8 = m.RAM_ kControllerDataAddress) ∧
  (m.opCode = some .kSW → m.address = 0x6FFF →
    m.stored.setWidth 8 = m.RAM_ kControllerDataAddress)

instance decidableSparesController (m : Machine) : Decidable m.SparesController :=
  inferInstanceAs (Decidable (_ ∧ _))

theorem controller_cycle_iff (hpc : kSLUGFileAddress ≤ m.CPU_.PC_.toNat) :
    m.cycle.RAM_ kControllerDataAddress = m.RAM_ kControllerDataAddress ↔
      m.SparesController := by
  have hlatched : m.latched.RAM_ = m.RAM_ := rfl
  rw [RAM_cycle hpc, SparesController]
  split
  · next hcode =>
      rw [write8_controller, hlatched, hcode]
      simp [ite_eq_right_iff]
  · next hcode =>
      rw [write16_controller, hlatched, hcode]
      simp [ite_eq_right_iff]
  · next hSB hSW =>
      simp only [true_iff]
      exact ⟨fun h => absurd h hSB, fun h => absurd h hSW⟩

end Machine

/-- The next step is no store that changes the controller register. -/
def Session.Spares (s : Session) (a : Action) : Prop :=
  a = .execute → s.machine.SparesController

instance decidableSpares (s : Session) (a : Action) : Decidable (s.Spares a) :=
  inferInstanceAs (Decidable (_ → _))

theorem Session.execute_controller_iff {s s' : Session} (h : s.next .execute = some s') :
    s'.machine.RAM_ kControllerDataAddress = s.machine.RAM_ kControllerDataAddress ↔
      s.machine.SparesController := by
  obtain ⟨hpc, hmachine, _⟩ := Session.next_execute h
  rw [hmachine]
  exact Machine.controller_cycle_iff hpc

/-- An instruction keeps the controller register exactly when it is no such store, and it keeps
its value in every run without them. -/
theorem controller_kept_when (s₀ s : Session) :
    (∀ s', s.next .execute = some s' →
      (s'.machine.RAM_ kControllerDataAddress = s.machine.RAM_ kControllerDataAddress ↔
        s.machine.SparesController)) ∧
      (Session.From s₀ Session.Spares s →
        s.machine.RAM_ kControllerDataAddress = s₀.machine.RAM_ kControllerDataAddress) := by
  refine ⟨fun _ h => Session.execute_controller_iff h, ?_⟩
  intro h
  apply Session.RAM_kept _ h
  intro s hspares hpc
  exact (Machine.controller_cycle_iff hpc).mpr (hspares rfl)

/-- `SB r29, 0x7000(r0)` stores the zero that is there. -/
theorem controller_kept_when_zero :
    ∃ s, Session.From (atRest 0 [0x2C1D7000]) Session.Spares s ∧ s.machine.CPU_.PC_ = 0x8004 ∧
      s.machine.RAM_ kControllerDataAddress =
        (atRest 0 [0x2C1D7000]).machine.RAM_ kControllerDataAddress := by
  obtain ⟨s, hs, hpc⟩ := Session.exists_of_run (atRest 0 [0x2C1D7000]) Session.Spares
    [.setup, .execute] (fun s => decide (s.machine.CPU_.PC_ = 0x8004)) (by decide +kernel)
  exact ⟨s, hs, of_decide_eq_true hpc, (controller_kept_when _ s).2 hs⟩

/-- With a button held down, `SB r0, 0x7000(r0)` releases it. -/
theorem controller_overwritten :
    ¬ ∀ s₀ s : Session, Session.From s₀ Always s →
      s.machine.RAM_ kControllerDataAddress = s₀.machine.RAM_ kControllerDataAddress := by
  intro h
  obtain ⟨s, hs, hstore⟩ := Session.exists_of_run (atRest 0x80 [0x2C007000]) Always [.loop]
    (fun s => (s.next .execute).isSome && decide (¬ s.machine.SparesController))
    (by decide +kernel)
  rw [Bool.and_eq_true, Option.isSome_iff_exists, decide_eq_true_iff] at hstore
  obtain ⟨⟨s', hs'⟩, hspares⟩ := hstore
  apply hspares
  rw [← Session.execute_controller_iff hs', h _ s' (hs.next trivial hs'), h _ s hs]

end Controller

/-! ## The end of the memory -/

section Bounds

namespace Machine

variable {m : Machine}

theorem readIndices_lt_iff (k : ℕ) (address : BitVec 16) :
    (∀ i ∈ readIndices (k + 1) address, i < ramSize) ↔
      (readable address = true → address.toNat + k < ramSize) := by
  rw [readIndices]
  split
  · next hreadable =>
      simp only [List.forall_mem_map, List.mem_range, hreadable, forall_const]
      constructor
      · exact fun h => h k (Nat.lt_succ_self k)
      · intro h i hi
        omega
  · next hreadable =>
      simp [hreadable]

/-- All addresses that a store may use are far below the end. -/
theorem writeIndices_lt {bytes i : ℕ} {address : BitVec 16}
    (h : i ∈ writeIndices bytes address) : i < ramSize := by
  have hi := writableAt_iff.mp (writableAt_of_mem h)
  simp only [kDebugstdoutAddress, kDebugstderrAddress, kStopExecutionAddress] at hi
  rw [ramSize]
  omega

/-- The whole word at the program counter lies in the memory, and the instruction is no word
load from the last address. -/
def StaysInBounds (m : Machine) : Prop :=
  m.CPU_.PC_.toNat ≤ 0xFFFC ∧ ¬(m.opCode = some .kLW ∧ m.address = 0xFFFF)

theorem fetch_lt_iff (hpc : kSLUGFileAddress ≤ m.CPU_.PC_.toNat) :
    (∀ i ∈ readIndices 4 m.CPU_.PC_, i < ramSize) ↔ m.CPU_.PC_.toNat ≤ 0xFFFC := by
  have hreadable : readable m.CPU_.PC_ = true := by
    have hlt := m.CPU_.PC_.isLt
    have hle : m.CPU_.PC_.toNat ≤ kSLUGFileAddress + kSLUGFileSize := hlt.le
    simp only [readable, hpc, hle, decide_true, Bool.and_self, Bool.or_true]
  rw [readIndices_lt_iff]
  simp only [hreadable, forall_const]
  rw [ramSize]
  omega

/-- The last address passes the test for a load of two bytes. -/
theorem word_lt_iff (address : BitVec 16) :
    (readable address = true → address.toNat + 1 < ramSize) ↔ ¬ address = 0xFFFF := by
  constructor
  · rintro h rfl
    exact absurd (h (by decide)) (by decide)
  · intro h _
    have hne : address.toNat ≠ 0xFFFF := fun heq => h (BitVec.eq_of_toNat_eq heq)
    have hlt := address.isLt
    rw [ramSize]
    omega

theorem operandIndices_lt_iff :
    (∀ i ∈ m.latched.operandIndices, i < ramSize) ↔
      ¬(m.opCode = some .kLW ∧ m.address = 0xFFFF) := by
  have hstore : ∀ bytes address, ∀ i ∈ writeIndices bytes address, i < ramSize :=
    fun _ _ _ => writeIndices_lt
  rw [opCode, operandIndices]
  split
  · next hcode => exact iff_of_true (hstore _ _) (by simp [hcode])
  · next hcode =>
      refine iff_of_true ?_ (by simp [hcode])
      split
      · exact fun i hi => absurd hi List.not_mem_nil
      · exact (readIndices_lt_iff 0 _).mpr fun _ => (narrow m.latched.effective).isLt
  · next hcode =>
      rw [readIndices_lt_iff, hcode]
      simp only [true_and]
      exact word_lt_iff m.address
  · next hcode => exact iff_of_true (hstore _ _) (by simp [hcode])
  · next hLW _ =>
      refine iff_of_true (fun i hi => absurd hi List.not_mem_nil) ?_
      exact fun h => hLW h.1

theorem cycleIndices_lt_iff (hpc : kSLUGFileAddress ≤ m.CPU_.PC_.toNat) :
    (∀ i ∈ m.cycleIndices, i < ramSize) ↔ m.StaysInBounds := by
  simp only [cycleIndices, List.forall_mem_append]
  exact and_congr (fetch_lt_iff hpc) operandIndices_lt_iff

end Machine

/-- The next step uses no index past the end of the memory. -/
def Session.InBounds (s : Session) (a : Action) : Prop :=
  a = .execute → s.machine.StaysInBounds

variable {s₀ s : Session}

/-- One step uses indices below the end exactly when it meets the condition. -/
theorem Session.next_lt_iff {s' : Session} {a : Action} (h : s.next a = some s') :
    (∀ i ∈ s'.indices, i < ramSize) ↔ (∀ i ∈ s.indices, i < ramSize) ∧ s.InBounds a := by
  rw [Session.InBounds]
  by_cases ha : a = .execute
  · rw [ha] at h
    obtain ⟨hpc, _, hindices⟩ := Session.next_execute h
    rw [hindices, List.forall_mem_append, Machine.cycleIndices_lt_iff hpc, ha]
    simp only [forall_const]
  · obtain ⟨_, is, hindices, his⟩ := Session.next_of_ne_execute ha h
    rw [hindices, List.forall_mem_append]
    simp only [ha, false_implies, and_true]
    exact and_iff_left his

/-- A run has used no index past the end exactly when each of its steps meets the condition. -/
theorem indices_lt_iff (s₀ s : Session) (h₀ : s₀.indices = []) (h : Session.From s₀ Always s) :
    (∀ i ∈ s.indices, i < ramSize) ↔ Session.From s₀ Session.InBounds s := by
  constructor
  · intro hlt
    induction h with
    | start hs => exact .start hs
    | next _ _ hstep ih =>
        obtain ⟨hbefore, hok⟩ := (Session.next_lt_iff hstep).mp hlt
        exact (ih hbefore).next hok hstep
  · intro hbounds
    apply hbounds.invariant
    · rintro s rfl
      rw [h₀]
      exact fun i hi => absurd hi List.not_mem_nil
    · exact fun s a s' hs hok hstep => (Session.next_lt_iff hstep).mpr ⟨hs, hok⟩

/-- `LW r1, -2(r0)` loads the last word. -/
theorem indices_lt_iff_last_word :
    ∃ s, s.machine.CPU_.PC_ = 0x8004 ∧ ((∀ i ∈ s.indices, i < ramSize) ↔
      Session.From (atRest 0 [0xD401FFFE]) Session.InBounds s) := by
  obtain ⟨s, hs, hpc⟩ := Session.exists_of_run (atRest 0 [0xD401FFFE]) Always [.setup, .execute]
    (fun s => decide (s.machine.CPU_.PC_ = 0x8004)) (by decide +kernel)
  exact ⟨s, of_decide_eq_true hpc, indices_lt_iff _ s rfl hs⟩

/-- `LW r1, -1(r0)`. -/
theorem last_word_overruns :
    ¬ ∀ s₀ s : Session, s₀.indices = [] → Session.From s₀ Always s →
      ∀ i ∈ s.indices, i < ramSize := by
  intro h
  obtain ⟨s, hs, hlt⟩ := Session.exists_of_run (atRest 0 [0xD401FFFF]) Always [.setup, .execute]
    (fun s => decide (¬ ∀ i ∈ s.indices, i < ramSize)) (by decide +kernel)
  exact of_decide_eq_true hlt (h _ s rfl hs)

end Bounds

end FavoriteAssignments.Banana
