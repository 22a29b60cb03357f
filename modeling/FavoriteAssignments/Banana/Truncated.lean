import FavoriteAssignments.Banana.SaveState
import FavoriteAssignments.Library.Records

/-! # Truncated saves

The reads of `loadState` are not checked, so a file that ends before the last field replaces the
variables in front of its end. The whole load is one read of one record. -/

namespace FavoriteAssignments.Banana

open Layouts

/-! ## The saved state as a record -/

def cpu := pair int16 <| pair int16 <| pair int16 <| pair int16 <| pair int16 <| pair int16 <|
  pair int16 <| pair int16 registers

def gpu := pair flag <| pair flag <| pair flag <| pair flag <| pair flag <| pair int32 <|
  pair int32 <| pair int32 int32

/-- All that a save holds, in the order of the file. -/
def save := pair cpu <| pair gpu <| pair RAM <| pair flag <| pair flag <| pair int32 double

def BananaCpu.saved (c : BananaCpu) :=
  (c.PC_, c.op_code_, c.reg_a_, c.reg_b_, c.reg_c_, c.shift_value_, c.function_, c.immediate_,
    c.registers_)

def BananaGpu.saved (g : BananaGpu) :=
  (g.duck_enabled_, g.crt_filter_enabled_, g.grayscale_enabled_, g.invert_enabled_,
    g.pastel_enabled_, g.hue_speed_, g.hue_rotation_, g.current_line_, g.current_column_)

def Console.saved (s : Console) :=
  (s.machine.CPU_.saved, s.GPU_.saved, s.machine.data, s.show_fps_, s.paused_, s.target_fps_,
    s.frame_time_)

theorem BananaCpu.loadState_saved (c : BananaCpu) (file : InStream) :
    ((c.loadState file).1.saved, (c.loadState file).2) = read cpu c.saved file := by
  simp only [cpu, saved, read_pair, loadState]

theorem BananaGpu.loadState_saved (g : BananaGpu) (file : InStream) :
    ((g.loadState file).1.saved, (g.loadState file).2) = read gpu g.saved file := by
  simp only [gpu, saved, read_pair, loadState]

theorem BananaCpu.saveState_eq (c : BananaCpu) : c.saveState [] = cpu.bytes c.saved := by
  simp only [saveState, write, List.append_assoc, List.nil_append]
  rfl

theorem BananaGpu.saveState_eq (g : BananaGpu) : g.saveState [] = gpu.bytes g.saved := by
  simp only [saveState, write, List.append_assoc, List.nil_append]
  rfl

theorem BananaCpu.saved_inj {c d : BananaCpu} (h : c.saved = d.saved) : c = d := by
  simp only [saved, Prod.mk.injEq] at h
  obtain ⟨hPC, hop, ha, hb, hc, hshift, hfunction, himmediate, hregisters⟩ := h
  cases c
  simp only at hPC hop ha hb hc hshift hfunction himmediate hregisters
  rw [hPC, hop, ha, hb, hc, hshift, hfunction, himmediate, hregisters]

/-- The custom image is the only variable that is not saved. -/
theorem BananaGpu.eq_of_saved {g k : BananaGpu} (h : g.saved = k.saved)
    (himage : g.img_enabled_ = k.img_enabled_) : g = k := by
  simp only [saved, Prod.mk.injEq] at h
  obtain ⟨hduck, hcrt, hgray, hinvert, hpastel, hspeed, hrotation, hline, hcolumn⟩ := h
  cases g
  simp only at hduck hcrt hgray hinvert hpastel hspeed hrotation hline hcolumn himage
  rw [hduck, hcrt, hgray, hinvert, hpastel, hspeed, hrotation, hline, hcolumn, himage]

namespace Console

variable {s t : Console}

theorem dump_eq_bytes (s : Console) : s.dump = save.bytes s.saved := by
  rw [dump_eq, BananaCpu.saveState_eq, BananaGpu.saveState_eq, List.append_nil]
  rfl

theorem data_setData (m : Machine) (c : BananaCpu) (data : Fin ramSize → BitVec 8) :
    ({ m.setData data with CPU_ := c } : Machine).data = data := by
  funext i
  exact dif_pos i.isLt

/-- The load is one read. -/
theorem restore_saved (s : Console) (file : InStream) :
    (s.restore file).saved = (read save s.saved file).1 := by
  simp only [restore, save, saved, read_pair, ← BananaCpu.loadState_saved,
    ← BananaGpu.loadState_saved, data_setData]

theorem restore_img_enabled_ (s : Console) (file : InStream) :
    (s.restore file).GPU_.img_enabled_ = s.GPU_.img_enabled_ := by
  simp only [restore, BananaGpu.loadState]

theorem sameState_iff :
    SameState s t ↔ s.saved = t.saved ∧ s.GPU_.img_enabled_ = t.GPU_.img_enabled_ := by
  constructor
  · intro h
    have hdata : s.machine.data = t.machine.data := funext fun i => h.RAM_ i i.isLt
    refine ⟨?_, congrArg BananaGpu.img_enabled_ h.GPU_⟩
    rw [saved, saved, h.CPU_, h.GPU_, hdata, h.show_fps_, h.paused_, h.target_fps_, h.frame_time_]
  · rintro ⟨hsaved, himage⟩
    simp only [saved, Prod.mk.injEq] at hsaved
    obtain ⟨hcpu, hgpu, hdata, hshow, hpaused, hfps, htime⟩ := hsaved
    have hRAM : ∀ i < ramSize, s.machine.RAM_ i = t.machine.RAM_ i :=
      fun i hi => congrFun hdata ⟨i, hi⟩
    exact ⟨BananaCpu.saved_inj hcpu, hRAM, BananaGpu.eq_of_saved hgpu himage, hshow, hpaused, hfps,
      htime⟩

/-! ## Which bytes are flags -/

/-- The number of bytes of a save. -/
def saveSize : ℕ := 65651

theorem length_dump (s : Console) : s.dump.length = saveSize := by
  rw [dump_eq_bytes, save.length_bytes]
  rfl

/-- The five flags of the GPU and the two of the console. -/
def isFlag (i : ℕ) : Bool := (80 ≤ i && i < 85) || (65637 ≤ i && i < 65639)

/-- The bytes of a file with every flag that is set written as one. -/
def normalized (file : List (BitVec 8)) : List (BitVec 8) :=
  file.mapIdx fun i b => if isFlag i ∧ b ≠ 0 then 1 else b

def settlesInt16 : Settles int16 := .word 16 2 (by decide)
def settlesInt32 : Settles int32 := .word 32 4 (by decide)

def settlesCpu : Settles cpu :=
  settlesInt16.pair <| settlesInt16.pair <| settlesInt16.pair <| settlesInt16.pair <|
    settlesInt16.pair <| settlesInt16.pair <| settlesInt16.pair <| settlesInt16.pair <|
    settlesInt16.array 32

def settlesGpu : Settles gpu :=
  Settles.flag.pair <| Settles.flag.pair <| Settles.flag.pair <| Settles.flag.pair <|
    Settles.flag.pair <| settlesInt32.pair <| settlesInt32.pair <| settlesInt32.pair settlesInt32

def settlesSave : Settles save :=
  settlesCpu.pair <| settlesGpu.pair <| (Settles.byte.array ramSize).pair <|
    Settles.flag.pair <| Settles.flag.pair <| settlesInt32.pair <| .word 64 8 (by decide)

theorem settlesCpu_byteAt (i : ℕ) (b : BitVec 8) : settlesCpu.byteAt i b = b := by
  simp only [settlesCpu, Settles.pair, Settles.array, settlesInt16, Settles.word, ite_self]

theorem settlesGpu_byteAt (i : ℕ) (b : BitVec 8) :
    settlesGpu.byteAt i b = if i < 5 ∧ b ≠ 0 then 1 else b := by
  have hsize : flag.size = 1 := rfl
  simp only [settlesGpu, Settles.pair, Settles.flag, settlesInt32, Settles.word, ite_self, hsize]
  by_cases hb : b = 0
  · simp [hb]
  · simp only [hb, if_false, ne_eq, not_false_eq_true, and_true]
    split_ifs <;> first | rfl | omega

theorem settlesSave_byteAt (i : ℕ) (b : BitVec 8) :
    settlesSave.byteAt i b = if isFlag i ∧ b ≠ 0 then 1 else b := by
  have hcpu : cpu.size = 80 := rfl
  have hgpu : gpu.size = 21 := rfl
  have hRAM : (array byte ramSize).size = 65536 := rfl
  have hflag : flag.size = 1 := rfl
  simp only [settlesSave, Settles.pair, settlesCpu_byteAt, settlesGpu_byteAt, Settles.array,
    Settles.byte, Settles.flag, settlesInt32, Settles.word, ite_self, hcpu, hgpu, hRAM, hflag,
    isFlag]
  by_cases hb : b = 0
  · simp [hb]
  · simp only [hb, if_false, ne_eq, not_false_eq_true, and_true, Bool.or_eq_true, Bool.and_eq_true,
      decide_eq_true_iff]
    split_ifs <;> first | rfl | omega

theorem normalized_eq (file : List (BitVec 8)) :
    normalized file = file.mapIdx settlesSave.byteAt := by
  apply List.mapIdx_eq_mapIdx_iff.mpr
  intro i hi
  exact (settlesSave_byteAt i _).symm

/-- The flags of a save are zeros and ones already. -/
theorem normalized_take_dump (s : Console) (k : ℕ) : normalized (s.dump.take k) <+: s.dump := by
  have hsettled := settlesSave.mapIdx_bytes s.saved
  rw [← dump_eq_bytes] at hsettled
  have hsplit : s.dump.mapIdx settlesSave.byteAt =
      normalized (s.dump.take k) ++ (s.dump.drop k).mapIdx fun i =>
        settlesSave.byteAt (i + (s.dump.take k).length) := by
    conv_lhs => rw [← List.take_append_drop k s.dump]
    rw [List.mapIdx_append, normalized_eq]
  rw [hsettled] at hsplit
  exact ⟨_, hsplit.symm⟩

/-! ## Files that end early -/

/-- The bytes in front of the end of the file are the present ones, and all others stay. -/
theorem restore_of_lt (s : Console) {file : List (BitVec 8)} (hshort : file.length < saveSize) :
    (s.restore ⟨file, false⟩).saved = save.value (file ++ s.dump.drop file.length) := by
  have hsize : file.length < save.size := hshort
  rw [restore_saved, read_of_lt save s.saved hsize, dump_eq_bytes]

theorem restore_saved_iff (s : Console) {file : List (BitVec 8)} (hshort : file.length < saveSize) :
    (s.restore ⟨file, false⟩).saved = s.saved ↔ normalized file <+: s.dump := by
  have hsize : file.length < save.size := hshort
  rw [restore_saved, settlesSave.read_eq_iff s.saved hsize, normalized_eq, dump_eq_bytes]

theorem saved_print (s : Console) (text : String) :
    ({ s with machine := s.machine.print text } : Console).saved = s.saved := rfl

theorem loadState_eq (s : Console) {disk : Disk} {filename : String} {file : List (BitVec 8)}
    (hfile : disk.files filename = some file) :
    (s.loadState disk filename).saved = (s.restore ⟨file, false⟩).saved ∧
      (s.loadState disk filename).GPU_.img_enabled_ = s.GPU_.img_enabled_ := by
  rw [loadState, hfile]
  dsimp only
  exact ⟨saved_print _ _, restore_img_enabled_ s _⟩

/-- A load from a file that ends before the last field leaves the state as it was exactly when
the file holds the first bytes of a save of that state. -/
theorem loadState_unchanged_iff (s : Console) (disk : Disk) (filename : String)
    (file : List (BitVec 8)) (hfile : disk.files filename = some file)
    (hshort : file.length < saveSize) :
    SameState (s.loadState disk filename) s ↔ normalized file <+: s.dump := by
  obtain ⟨hsaved, himage⟩ := loadState_eq s hfile
  rw [sameState_iff, hsaved, restore_saved_iff s hshort]
  exact and_iff_left himage

/-- A paused program with the duck on: the first 81 bytes of its save, up to the flag of the duck. -/
theorem loadState_unchanged_iff_own_bytes :
    let s : Console := { idle true with
      machine := { (idle true).machine with
        CPU_ := { (idle true).machine.CPU_ with PC_ := 0x8004, registers_ := fun _ => -1 } }
      GPU_ := { (idle true).GPU_ with duck_enabled_ := true }
      paused_ := true }
    (s.dump.take 81).length = 81 ∧
      SameState (s.loadState ⟨fun _ => some (s.dump.take 81), fun _ => true⟩ "snake0.bin") s := by
  intro s
  have hlength : (s.dump.take 81).length = 81 := by
    rw [List.length_take, length_dump]
    rfl
  refine ⟨hlength, (loadState_unchanged_iff s _ "snake0.bin" (s.dump.take 81) rfl ?_).mpr
    (normalized_take_dump s 81)⟩
  rw [hlength]
  decide

/-- The first byte of a save replaces half of the program counter. -/
theorem one_byte_is_loaded :
    ¬ ∀ (s : Console) (disk : Disk) (filename : String) (file : List (BitVec 8)),
      disk.files filename = some file → file.length < saveSize →
        SameState (s.loadState disk filename) s := by
  intro h
  have hsame := h (idle true) ⟨fun _ => some [4], fun _ => true⟩ "snake0.bin" [4] rfl (by decide)
  have hPC := congrArg BananaCpu.PC_ hsame.CPU_
  simp only [loadState, restore, BananaCpu.loadState] at hPC
  exact absurd hPC (by decide)

end Console

end FavoriteAssignments.Banana
