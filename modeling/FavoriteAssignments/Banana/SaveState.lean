import FavoriteAssignments.Banana.Machine
import FavoriteAssignments.Library.Layout

/-! # Saved states

`saveState` and `loadState` of the console, the processor and the GPU. The two lists of the GPU
agree with each other, but leave one of its state variables out. -/

namespace FavoriteAssignments.Banana

open Layouts

/-! ## The state -/

/-- The state variables of `BananaGpu`. -/
structure BananaGpu where
  current_line_ : BitVec 32
  current_column_ : BitVec 32
  img_enabled_ : Bool
  duck_enabled_ : Bool
  crt_filter_enabled_ : Bool
  grayscale_enabled_ : Bool
  invert_enabled_ : Bool
  pastel_enabled_ : Bool
  hue_speed_ : BitVec 32
  hue_rotation_ : BitVec 32

/-- `Console` with its processor, memory and streams in `machine`. The bits of the `double`
`frame_time_` are not looked into. -/
structure Console where
  machine : Machine
  GPU_ : BananaGpu
  show_fps_ : Bool
  paused_ : Bool
  target_fps_ : BitVec 32
  frame_time_ : BitVec 64

/-- The files, and the names for which an `std::ofstream` opens. -/
structure Disk where
  files : String → Option (List (BitVec 8))
  creatable : String → Bool

def Machine.print (m : Machine) (text : String) : Machine :=
  { m with stdout := m.stdout ++ text.toUTF8.toList.map UInt8.toBitVec }

def Machine.printError (m : Machine) (text : String) : Machine :=
  { m with stderr := m.stderr ++ text.toUTF8.toList.map UInt8.toBitVec }

/-! ## Layouts of the members -/

def int16 : Layout (BitVec 16) := word 16 2 (by decide)
def int32 : Layout (BitVec 32) := word 32 4 (by decide)
def double : Layout (BitVec 64) := word 64 8 (by decide)
def registers : Layout (Fin 32 → BitVec 16) := array int16 32
def RAM : Layout (Fin ramSize → BitVec 8) := array byte ramSize

/-- The bytes behind `RAM_.data()`. -/
def Machine.data (m : Machine) : Fin ramSize → BitVec 8 := fun i => m.RAM_ i

/-- The memory with other bytes behind `RAM_.data()`. -/
def Machine.setData (m : Machine) (data : Fin ramSize → BitVec 8) : Machine :=
  { m with RAM_ := fun i => if h : i < ramSize then data ⟨i, h⟩ else m.RAM_ i }

/-! ## The processor -/

def BananaCpu.saveState (c : BananaCpu) (out : List (BitVec 8)) : List (BitVec 8) :=
  let out := write int16 c.PC_ out
  let out := write int16 c.op_code_ out
  let out := write int16 c.reg_a_ out
  let out := write int16 c.reg_b_ out
  let out := write int16 c.reg_c_ out
  let out := write int16 c.shift_value_ out
  let out := write int16 c.function_ out
  let out := write int16 c.immediate_ out
  write registers c.registers_ out

def BananaCpu.loadState (c : BananaCpu) (file : InStream) : BananaCpu × InStream :=
  let (PC_, file) := read int16 c.PC_ file
  let (op_code_, file) := read int16 c.op_code_ file
  let (reg_a_, file) := read int16 c.reg_a_ file
  let (reg_b_, file) := read int16 c.reg_b_ file
  let (reg_c_, file) := read int16 c.reg_c_ file
  let (shift_value_, file) := read int16 c.shift_value_ file
  let (function_, file) := read int16 c.function_ file
  let (immediate_, file) := read int16 c.immediate_ file
  let (registers_, file) := read registers c.registers_ file
  ({ registers_, op_code_, reg_a_, reg_b_, reg_c_, shift_value_, function_, immediate_, PC_ },
    file)

theorem BananaCpu.saveState_append (c : BananaCpu) (out : List (BitVec 8)) :
    c.saveState out = out ++ c.saveState [] := by
  simp only [saveState, write, List.append_assoc, List.nil_append]

theorem BananaCpu.loadState_saveState (c t : BananaCpu) (rest : List (BitVec 8)) :
    t.loadState ⟨c.saveState [] ++ rest, false⟩ = (c, ⟨rest, false⟩) := by
  simp only [loadState, saveState, write, List.append_assoc, List.nil_append, read_bytes]

/-! ## The GPU -/

def BananaGpu.saveState (g : BananaGpu) (out : List (BitVec 8)) : List (BitVec 8) :=
  let out := write flag g.duck_enabled_ out
  let out := write flag g.crt_filter_enabled_ out
  let out := write flag g.grayscale_enabled_ out
  let out := write flag g.invert_enabled_ out
  let out := write flag g.pastel_enabled_ out
  let out := write int32 g.hue_speed_ out
  let out := write int32 g.hue_rotation_ out
  let out := write int32 g.current_line_ out
  write int32 g.current_column_ out

def BananaGpu.loadState (g : BananaGpu) (file : InStream) : BananaGpu × InStream :=
  let (duck_enabled_, file) := read flag g.duck_enabled_ file
  let (crt_filter_enabled_, file) := read flag g.crt_filter_enabled_ file
  let (grayscale_enabled_, file) := read flag g.grayscale_enabled_ file
  let (invert_enabled_, file) := read flag g.invert_enabled_ file
  let (pastel_enabled_, file) := read flag g.pastel_enabled_ file
  let (hue_speed_, file) := read int32 g.hue_speed_ file
  let (hue_rotation_, file) := read int32 g.hue_rotation_ file
  let (current_line_, file) := read int32 g.current_line_ file
  let (current_column_, file) := read int32 g.current_column_ file
  ({ g with
      duck_enabled_, crt_filter_enabled_, grayscale_enabled_, invert_enabled_, pastel_enabled_,
      hue_speed_, hue_rotation_, current_line_, current_column_ },
    file)

theorem BananaGpu.saveState_append (g : BananaGpu) (out : List (BitVec 8)) :
    g.saveState out = out ++ g.saveState [] := by
  simp only [saveState, write, List.append_assoc, List.nil_append]

/-- The custom image stays as it is where the load happens. -/
theorem BananaGpu.loadState_saveState (g t : BananaGpu) (rest : List (BitVec 8)) :
    t.loadState ⟨g.saveState [] ++ rest, false⟩ =
      ({ g with img_enabled_ := t.img_enabled_ }, ⟨rest, false⟩) := by
  simp only [loadState, saveState, write, List.append_assoc, List.nil_append, read_bytes]

/-! ## The console -/

namespace Console

/-- What goes into an open file. -/
def dump (s : Console) : List (BitVec 8) :=
  let out := s.machine.CPU_.saveState []
  let out := s.GPU_.saveState out
  let out := write RAM s.machine.data out
  let out := write flag s.show_fps_ out
  let out := write flag s.paused_ out
  let out := write int32 s.target_fps_ out
  write double s.frame_time_ out

def saveState (s : Console) (disk : Disk) (filename : String) : Console × Disk :=
  if disk.creatable filename then
    ({ s with machine := s.machine.print ("State saved to " ++ filename ++ "\n") },
      { disk with files := Function.update disk.files filename (some s.dump) })
  else
    ({ s with machine := s.machine.printError ("Failed to save state to " ++ filename ++ "\n") },
      disk)

/-- The reads from an open file. -/
def restore (s : Console) (file : InStream) : Console :=
  let (CPU_, file) := s.machine.CPU_.loadState file
  let (GPU_, file) := s.GPU_.loadState file
  let (data, file) := read RAM s.machine.data file
  let (show_fps_, file) := read flag s.show_fps_ file
  let (paused_, file) := read flag s.paused_ file
  let (target_fps_, file) := read int32 s.target_fps_ file
  let (frame_time_, _) := read double s.frame_time_ file
  { machine := { s.machine.setData data with CPU_ := CPU_ }
    GPU_, show_fps_, paused_, target_fps_, frame_time_ }

def loadState (s : Console) (disk : Disk) (filename : String) : Console :=
  match disk.files filename with
  | some file =>
      let s := s.restore ⟨file, false⟩
      { s with machine := s.machine.print ("State loaded from " ++ filename ++ "\n") }
  | none =>
      { s with
        machine := s.machine.printError ("Failed to load state from " ++ filename ++ "\n") }

/-- All state variables agree, the 65536 bytes of the memory included. -/
structure SameState (s t : Console) : Prop where
  CPU_ : s.machine.CPU_ = t.machine.CPU_
  RAM_ : ∀ i < ramSize, s.machine.RAM_ i = t.machine.RAM_ i
  GPU_ : s.GPU_ = t.GPU_
  show_fps_ : s.show_fps_ = t.show_fps_
  paused_ : s.paused_ = t.paused_
  target_fps_ : s.target_fps_ = t.target_fps_
  frame_time_ : s.frame_time_ = t.frame_time_

section RoundTrip

variable (s t : Console) (disk : Disk) (filename : String)

/-- The object that each read returns, with the stream it leaves to the next one. -/
theorem restore_eq {f₀ f₁ f₂ f₃ f₄ f₅ f₆ f₇ : InStream} {c : BananaCpu} {g : BananaGpu}
    {data : Fin ramSize → BitVec 8} {showFps paused : Bool} {fps : BitVec 32} {time : BitVec 64}
    (hcpu : t.machine.CPU_.loadState f₀ = (c, f₁)) (hgpu : t.GPU_.loadState f₁ = (g, f₂))
    (hdata : read RAM t.machine.data f₂ = (data, f₃))
    (hshow : read flag t.show_fps_ f₃ = (showFps, f₄))
    (hpaused : read flag t.paused_ f₄ = (paused, f₅))
    (hfps : read int32 t.target_fps_ f₅ = (fps, f₆))
    (htime : read double t.frame_time_ f₆ = (time, f₇)) :
    t.restore f₀ =
      { machine := { t.machine.setData data with CPU_ := c }, GPU_ := g, show_fps_ := showFps
        paused_ := paused, target_fps_ := fps, frame_time_ := time } := by
  simp only [restore, hcpu, hgpu, hdata, hshow, hpaused, hfps, htime]

theorem dump_eq : s.dump = s.machine.CPU_.saveState [] ++ (s.GPU_.saveState [] ++
    (RAM.bytes s.machine.data ++ (flag.bytes s.show_fps_ ++ (flag.bytes s.paused_ ++
      (int32.bytes s.target_fps_ ++ (double.bytes s.frame_time_ ++ [])))))) := by
  rw [dump, BananaGpu.saveState_append]
  simp only [write, List.append_assoc, List.append_nil]

theorem restore_dump : t.restore ⟨s.dump, false⟩ =
    { s with
      machine := { t.machine.setData s.machine.data with CPU_ := s.machine.CPU_ }
      GPU_ := { s.GPU_ with img_enabled_ := t.GPU_.img_enabled_ } } := by
  rw [dump_eq]
  exact restore_eq t (BananaCpu.loadState_saveState _ _ _) (BananaGpu.loadState_saveState _ _ _)
    (read_bytes _ _ _ _) (read_bytes _ _ _ _) (read_bytes _ _ _ _) (read_bytes _ _ _ _)
    (read_bytes _ _ _ _)

/-- A load after a save restores the saved state but for one variable of the GPU. -/
theorem loadState_saveState (hopen : disk.creatable filename = true) :
    SameState (t.loadState (s.saveState disk filename).2 filename)
      { s with GPU_ := { s.GPU_ with img_enabled_ := t.GPU_.img_enabled_ } } := by
  have hfile : (s.saveState disk filename).2.files filename = some s.dump := by
    rw [saveState, if_pos hopen]
    exact Function.update_self _ _ _
  rw [loadState, hfile]
  dsimp only
  rw [restore_dump]
  constructor
  · rfl
  · intro i hi
    exact dif_pos hi
  · rfl
  · rfl
  · rfl
  · rfl
  · rfl

/-- Everything agrees with the saved state exactly when the custom image was switched on or off
in both states alike. -/
theorem loadState_saveState_iff (hopen : disk.creatable filename = true) :
    SameState (t.loadState (s.saveState disk filename).2 filename) s ↔
      t.GPU_.img_enabled_ = s.GPU_.img_enabled_ := by
  have hload := loadState_saveState s t disk filename hopen
  constructor
  · intro h
    have hgpu := h.GPU_.symm.trans hload.GPU_
    rw [hgpu]
  · intro h
    rwa [h] at hload

end RoundTrip

/-- A console with empty memory, with the custom image shown or not. -/
def idle (image : Bool) : Console where
  machine :=
    { CPU_ :=
        { registers_ := fun _ => 0, op_code_ := 0, reg_a_ := 0, reg_b_ := 0, reg_c_ := 0,
          shift_value_ := 0, function_ := 0, immediate_ := 0, PC_ := 0 }
      RAM_ := fun _ => 0
      stdin := [], stdout := [], stderr := [], exited := false }
  GPU_ :=
    { current_line_ := 0, current_column_ := 0, img_enabled_ := image, duck_enabled_ := false
      crt_filter_enabled_ := false, grayscale_enabled_ := false, invert_enabled_ := false
      pastel_enabled_ := false, hue_speed_ := 0, hue_rotation_ := 0 }
  show_fps_ := false
  paused_ := false
  target_fps_ := 60
  frame_time_ := 0x3F91111111111111

theorem loadState_saveState_iff_paused :
    let disk : Disk := ⟨fun _ => none, fun _ => true⟩
    let s := { idle true with paused_ := true }
    SameState ((idle true).loadState (s.saveState disk "snake0.bin").2 "snake0.bin") s :=
  (loadState_saveState_iff _ _ _ _ rfl).mpr rfl

/-- The image that is switched on after the save is still there after the load. -/
theorem image_not_restored :
    ¬ ∀ (s t : Console) (disk : Disk) (filename : String), disk.creatable filename = true →
      SameState (t.loadState (s.saveState disk filename).2 filename) s := by
  intro h
  have hsame := h (idle false) (idle true) ⟨fun _ => none, fun _ => true⟩ "snake0.bin" rfl
  have hload := loadState_saveState (idle false) (idle true) ⟨fun _ => none, fun _ => true⟩
    "snake0.bin" rfl
  have himage := congrArg BananaGpu.img_enabled_ (hsame.GPU_.symm.trans hload.GPU_)
  exact Bool.noConfusion himage

end Console

end FavoriteAssignments.Banana
