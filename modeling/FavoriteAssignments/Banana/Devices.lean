import FavoriteAssignments.Banana.Regions

/-! # Addresses of the devices

`SB` and `LBU` compare the `int` sum of the register and the immediate with the addresses of the
devices, where the accesses to the memory use the sum modulo 2 ^ 16. -/

namespace FavoriteAssignments.Banana

open Transition

namespace Machine

/-! ## Two views of one address -/

section Sum

variable {m : Machine} {d : ℕ}

/-- The `int` that `SB` and `LBU` compute. -/
def sum (m : Machine) : ℤ :=
  (m.latched.CPU_.reg m.latched.CPU_.reg_a_).toInt + m.latched.CPU_.immediate_.toInt

theorem sum_bounds (m : Machine) : -0x10000 ≤ m.sum ∧ m.sum < 0xFFFF := by
  have ha := BitVec.le_toInt (m.latched.CPU_.reg m.latched.CPU_.reg_a_)
  have ha' := BitVec.toInt_lt (x := m.latched.CPU_.reg m.latched.CPU_.reg_a_)
  have hi := BitVec.le_toInt m.latched.CPU_.immediate_
  have hi' := BitVec.toInt_lt (x := m.latched.CPU_.immediate_)
  rw [sum]
  omega

theorem effective_eq_sum : m.latched.effective = BitVec.ofInt 32 m.sum := by
  rw [effective, promote_eq_ofInt, promote_eq_ofInt, ← BitVec.ofInt_add]
  rfl

theorem ea_eq_sum : m.ea = BitVec.ofInt 16 m.sum := by
  rw [← address_eq_ea, address, effective_eq_sum, narrow_ofInt]

theorem effective_eq_iff (hd : d < 0x10000) :
    m.latched.effective = BitVec.ofNat 32 d ↔ m.sum = d := by
  have hbounds := m.sum_bounds
  rw [effective_eq_sum, Words.ofInt_eq_ofNat_iff]
  omega

theorem ea_eq_iff (hd : d < 0x10000) :
    m.ea = BitVec.ofNat 16 d ↔ m.sum = d ∨ m.sum = d - 0x10000 := by
  have hbounds := m.sum_bounds
  rw [ea_eq_sum, Words.ofInt_eq_ofNat_iff]
  omega

/-- The two agree on a device unless the sum is its address less 2 ^ 16. -/
theorem views_agree_iff (hd : d < 0x10000) :
    (m.latched.effective = BitVec.ofNat 32 d ↔ m.ea = BitVec.ofNat 16 d) ↔
      m.sum ≠ d - 0x10000 := by
  rw [effective_eq_iff hd, ea_eq_iff hd]
  omega

end Sum

/-! ## What the two instructions do to the devices -/

section Streams

variable {m : Machine}

theorem write8_eq_withRAM (address : BitVec 16) (data : BitVec 8) :
    m.write8 address data = m.withRAM (m.write8 address data).RAM_ := by
  rw [write8]
  split <;> rfl

theorem stdout_SB : m.SB.stdout =
    if m.effective = BitVec.ofNat 32 kDebugstdoutAddress then
      m.stdout ++ [(m.CPU_.reg m.CPU_.reg_b_).setWidth 8]
    else m.stdout := by
  rw [SB, write8_eq_withRAM]
  split
  · rfl
  · split
    · rfl
    · split <;> rfl

theorem stderr_SB : m.SB.stderr =
    if m.effective = BitVec.ofNat 32 kDebugstderrAddress then
      m.stderr ++ [(m.CPU_.reg m.CPU_.reg_b_).setWidth 8]
    else m.stderr := by
  rw [SB, write8_eq_withRAM]
  split
  · next hout =>
      rw [if_neg (by rw [hout]; decide)]
      rfl
  · split
    · rfl
    · split <;> rfl

theorem exited_SB : m.SB.exited =
    if m.effective = BitVec.ofNat 32 kStopExecutionAddress then true else m.exited := by
  rw [SB, write8_eq_withRAM]
  split
  · next hout =>
      rw [if_neg (by rw [hout]; decide)]
      rfl
  · split
    · next herr =>
        rw [if_neg (by rw [herr]; decide)]
        rfl
    · split <;> rfl

theorem stdin_LBU : m.LBU.stdin =
    if m.effective = BitVec.ofNat 32 kDebugstdinAddress then m.stdin.tail else m.stdin := by
  rw [LBU]
  split <;> rfl

end Streams

/-! ## Devices and effective addresses -/

/-- Every device reacts to the instruction exactly when the effective address is its own. At the
end of the input there is no byte to consume. -/
structure DevicesFollow (m m' : Machine) : Prop where
  stdout : m.opCode = some .kSB → ((∃ b, m'.stdout = m.stdout ++ [b]) ↔ m.ea = 0x7110)
  stderr : m.opCode = some .kSB → ((∃ b, m'.stderr = m.stderr ++ [b]) ↔ m.ea = 0x7120)
  stop : m.opCode = some .kSB → (m'.exited = true ↔ m.ea = 0x7200)
  stdin : m.opCode = some .kLBU →
    ((∃ b, m.stdin = b :: m'.stdin) ↔ m.stdin ≠ [] ∧ m.ea = 0x7100)

/-- The sum of the register and the immediate is not 2 ^ 16 below the address of a device that
the instruction can use. -/
def SumInRange (m : Machine) : Prop :=
  (m.opCode = some .kSB → ∀ d ∈ ([0x7110, 0x7120, 0x7200] : List ℤ), m.sum ≠ d - 0x10000) ∧
  (m.opCode = some .kLBU → m.stdin ≠ [] → m.sum ≠ 0x7100 - 0x10000)

instance decidableSumInRange (m : Machine) : Decidable m.SumInRange :=
  inferInstanceAs (Decidable (_ ∧ _))

section Follow

variable {m : Machine}

theorem exists_append_iff {α : Type*} {p : Prop} [Decidable p] (l : List α) (x : α) :
    (∃ b, (if p then l ++ [x] else l) = l ++ [b]) ↔ p := by
  by_cases h : p
  · simp [h]
  · simp [h]

theorem exists_cons_tail_iff {α : Type*} {p : Prop} [Decidable p] (l : List α) :
    (∃ b, l = b :: if p then l.tail else l) ↔ l ≠ [] ∧ p := by
  cases l with
  | nil => simp
  | cons b l =>
      by_cases h : p
      · simp [h]
      · simp [h]

/-- The devices look at the `int` sum. -/
theorem cycle_devices (hpc : kSLUGFileAddress ≤ m.CPU_.PC_.toNat) (hexited : m.exited = false) :
    (m.opCode = some .kSB →
      ((∃ b, m.cycle.stdout = m.stdout ++ [b]) ↔
        m.latched.effective = BitVec.ofNat 32 kDebugstdoutAddress) ∧
      ((∃ b, m.cycle.stderr = m.stderr ++ [b]) ↔
        m.latched.effective = BitVec.ofNat 32 kDebugstderrAddress) ∧
      (m.cycle.exited = true ↔
        m.latched.effective = BitVec.ofNat 32 kStopExecutionAddress)) ∧
    (m.opCode = some .kLBU →
      ((∃ b, m.stdin = b :: m.cycle.stdin) ↔
        m.stdin ≠ [] ∧ m.latched.effective = BitVec.ofNat 32 kDebugstdinAddress)) := by
  constructor
  · intro hcode
    rw [cycle_SB hpc hcode, stdout_SB, stderr_SB, exited_SB]
    refine ⟨exists_append_iff _ _, exists_append_iff _ _, ?_⟩
    have hlatched : m.latched.exited = false := hexited
    rw [hlatched]
    simp
  · intro hcode
    rw [cycle_LBU hpc hcode, stdin_LBU]
    exact exists_cons_tail_iff _

end Follow

end Machine

theorem Session.next_execute_exited {s s' : Session} (h : s.next .execute = some s') :
    s.machine.exited = false := by
  rw [next] at h
  split at h
  · next hrun => exact hrun.1.2
  · cases h

/-- An SB or LBU treats the devices by its effective address exactly when the sum of its
register and immediate is not 2 ^ 16 below the address of a device. -/
theorem devices_follow_iff (s s' : Session) (h : s.next .execute = some s') :
    s.machine.DevicesFollow s'.machine ↔ s.machine.SumInRange := by
  obtain ⟨hpc, hmachine, _⟩ := Session.next_execute h
  obtain ⟨hSB, hLBU⟩ := Machine.cycle_devices hpc (Session.next_execute_exited h)
  rw [hmachine]
  constructor
  · intro hfollow
    constructor
    · intro hcode
      obtain ⟨hout, herr, hstop⟩ := hSB hcode
      simp only [List.forall_mem_cons, List.not_mem_nil, false_implies, implies_true, and_true]
      refine ⟨?_, ?_, ?_⟩
      · exact (Machine.views_agree_iff (by decide)).mp (hout.symm.trans (hfollow.stdout hcode))
      · exact (Machine.views_agree_iff (by decide)).mp (herr.symm.trans (hfollow.stderr hcode))
      · exact (Machine.views_agree_iff (by decide)).mp (hstop.symm.trans (hfollow.stop hcode))
    · intro hcode hinput
      have hin := (hLBU hcode).symm.trans (hfollow.stdin hcode)
      simp only [hinput, ne_eq, not_false_eq_true, true_and] at hin
      exact (Machine.views_agree_iff (by decide)).mp hin
  · rintro ⟨hdevices, hinput⟩
    constructor
    · intro hcode
      exact (hSB hcode).1.trans
        ((Machine.views_agree_iff (by decide)).mpr (hdevices hcode 0x7110 (by decide)))
    · intro hcode
      exact (hSB hcode).2.1.trans
        ((Machine.views_agree_iff (by decide)).mpr (hdevices hcode 0x7120 (by decide)))
    · intro hcode
      exact (hSB hcode).2.2.trans
        ((Machine.views_agree_iff (by decide)).mpr (hdevices hcode 0x7200 (by decide)))
    · intro hcode
      refine (hLBU hcode).trans (and_congr_right ?_)
      intro hne
      exact (Machine.views_agree_iff (by decide)).mpr (hinput hcode hne)

/-- `SB r29, 0x7110(r0)` writes to the standard output. -/
theorem devices_follow_iff_stdout :
    ∃ s s' : Session, s.next .execute = some s' ∧ s.machine.ea = 0x7110 ∧
      s.machine.DevicesFollow s'.machine := by
  obtain ⟨s, _, htest⟩ := Session.exists_of_run (atRest 0 [0x2C1D7110]) Always [.setup]
    (fun s => (s.next .execute).isSome && decide (s.machine.ea = 0x7110) &&
      decide s.machine.SumInRange) (by decide +kernel)
  simp only [Bool.and_eq_true, Option.isSome_iff_exists, decide_eq_true_iff] at htest
  obtain ⟨⟨⟨s', hs'⟩, hea⟩, hsum⟩ := htest
  exact ⟨s, s', hs', hea, (devices_follow_iff s s' hs').mpr hsum⟩

/-- `ADDI r1, r0, -32768` and `SB r29, -3824(r1)`, whose sum is 0x7110 - 0x10000, write nothing to
the standard output. -/
theorem negative_sum_is_silent :
    ¬ ∀ s s' : Session, s.next .execute = some s' → s.machine.DevicesFollow s'.machine := by
  intro h
  obtain ⟨s, _, htest⟩ := Session.exists_of_run (atRest 0 [0xB8018000, 0x2C3DF110]) Always
    [.setup, .execute] (fun s => (s.next .execute).any fun s' : Session =>
      decide (s.machine.opCode = some .kSB ∧ s.machine.ea = 0x7110) &&
        decide (s'.machine.stdout = [])) (by decide +kernel)
  simp only [Option.any_eq_true, Bool.and_eq_true, decide_eq_true_iff] at htest
  obtain ⟨s', hs', ⟨hcode, hea⟩, hout⟩ := htest
  obtain ⟨b, hb⟩ := ((h s s' hs').stdout hcode).mpr hea
  rw [hout] at hb
  simp at hb

end FavoriteAssignments.Banana
