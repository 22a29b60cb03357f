import FavoriteAssignments.Banana.Controller
import FavoriteAssignments.Banana.Display

/-! # The game loop

The loop of `reset`: each frame polls the events, and unless the game is paused runs `loop`
and renders. The frame counter and the sleep depend on the clock and are left out. -/

namespace FavoriteAssignments.Banana

open Transition

/-- The loop that `setup` and `loop` share. -/
inductive Machine.Runs : Machine → Machine → Prop where
  | done {m} (hexited : m.exited = false) (h : m.CPU_.PC_.toNat < kSLUGFileAddress) : Runs m m
  | cycle {m m'} (hexited : m.exited = false) (h : kSLUGFileAddress ≤ m.CPU_.PC_.toNat) :
      Runs m.cycle m' → Runs m m'

/-- `loop`, where it returns. -/
def Machine.loop (m m' : Machine) : Prop :=
  ∃ last, (m.enter kLoopAddress).Runs last ∧ m' = last.leave

namespace Emulator

section Frames

variable (filename_ : List Char) (reciprocal : BitVec 32 → BitVec 64) (filters : Filters)

/-- The body of the game loop, run while the program counter is zero and the window open. -/
inductive Frame : Emulator → List Event → Emulator → Prop where
  | paused {e e'} (events : List Event) (hpc : e.console.machine.CPU_.PC_ = 0)
      (hopen : e.event_ ≠ .SDL_QUIT) (he' : e' = controllerInput filename_ reciprocal e events)
      (hpaused : e'.console.paused_ = true) : Frame e events e'
  | plays {e e' m} (events : List Event) (hpc : e.console.machine.CPU_.PC_ = 0)
      (hopen : e.event_ ≠ .SDL_QUIT) (he' : e' = controllerInput filename_ reciprocal e events)
      (hpaused : e'.console.paused_ = false) (hloop : e'.console.machine.loop m) :
      Frame e events { e' with console := { e'.console with
        machine := m
        GPU_ := (e'.console.GPU_.render filters m).GPU_ } }

/-- The emulator when the game loop begins: the members of `Console` as they are initialised,
and under the names of the ten slots nothing but saved states. -/
structure Started (e : Emulator) : Prop where
  show_fps_ : e.console.show_fps_ = false
  paused_ : e.console.paused_ = false
  target_fps_ : e.console.target_fps_ = 60
  frame_time_ : e.console.frame_time_ = reciprocal 60
  hue_speed_ : e.console.GPU_.hue_speed_ = 0
  disk : ∀ slot file, e.disk.files (getSaveStateFilename filename_ slot) = some file →
    ∃ s : Console, s.SettingsOk reciprocal ∧ file = s.dump

variable {filename_ reciprocal filters} {e e' : Emulator} {events : List Event}

theorem started_ok (h : Started filename_ reciprocal e) : Ok filename_ reciprocal e := by
  obtain ⟨-, -, hfps, htime, hhue, hdisk⟩ := h
  refine ⟨⟨?_, ?_, ?_, by rw [htime, hfps], ?_⟩, hdisk⟩
  · simp [hfps]
  · simp [hfps]
  · simp [hfps]
  · simp [hhue]

theorem frame_ok (h : Ok filename_ reciprocal e)
    (hs : Frame filename_ reciprocal filters e events e') : Ok filename_ reciprocal e' := by
  cases hs with
  | paused _ hpc hopen he' hpaused =>
      subst he'
      exact controllerInput_ok h events
  | plays _ hpc hopen he' hpaused hloop =>
      subst he'
      obtain ⟨hconsole, hdisk⟩ := controllerInput_ok h events
      refine ⟨hconsole.of_eq rfl rfl ?_, hdisk⟩
      simp only [render_eq]

/-- Through any number of frames, with any events, saves and loads and whatever the game
does, the speed stays a multiple of five between 5 and 120, the time of a frame is its
reciprocal, and the speed of the hue filter stays below five. -/
theorem settings_in_range (h : Reachable (Started filename_ reciprocal)
    (Frame filename_ reciprocal filters) Always e) : e.console.SettingsOk reciprocal := by
  have hok := h.invariant (P := Ok filename_ reciprocal) (fun _ => started_ok)
    (fun _ _ _ hok _ hs => frame_ok hok hs)
  exact hok.console

/-! ## Slots over many frames -/

theorem loadState_congr (s : Console) {disk disk' : Disk} {filename : String}
    (h : disk'.files filename = disk.files filename) :
    s.loadState disk' filename = s.loadState disk filename := by
  rw [Console.loadState, Console.loadState, h]

theorem frame_file (slot : Fin 10)
    (h : ∀ event ∈ handled events, event.savesTo slot = false)
    (hs : Frame filename_ reciprocal filters e events e') :
    e'.disk.files (getSaveStateFilename filename_ slot) =
      e.disk.files (getSaveStateFilename filename_ slot) := by
  cases hs with
  | paused _ hpc hopen he' hpaused =>
      subst he'
      exact controllerInput_file slot events h
  | plays _ hpc hopen he' hpaused hloop =>
      subst he'
      exact controllerInput_file slot events h

/-- A state saved in a slot is what a load from that slot restores, after any number of
frames that play on, save to the other slots or load from any, as long as none saves to it
again. -/
theorem load_restores_saved {e₀ : Emulator} {slot : Fin 10}
    (hopen : e₀.disk.creatable (getSaveStateFilename filename_ slot) = true)
    (h : Reachable (· = savesChanger filename_ e₀ (some (.save slot)))
      (Frame filename_ reciprocal filters)
      (fun _ events => ∀ event ∈ handled events, event.savesTo slot = false) e) :
    Console.SameState (savesChanger filename_ e (some (.load slot))).console
      { e₀.console with
        GPU_ := { e₀.console.GPU_ with img_enabled_ := e.console.GPU_.img_enabled_ } } := by
  have hfile : e.disk.files (getSaveStateFilename filename_ slot) =
      (savesChanger filename_ e₀ (some (.save slot))).disk.files
        (getSaveStateFilename filename_ slot) := by
    refine h.invariant (P := fun e => e.disk.files (getSaveStateFilename filename_ slot) = _) ?_ ?_
    · intro s hs
      rw [hs]
    · intro s events s' ih hok hs
      exact (frame_file slot hok hs).trans ih
  have hload := Console.loadState_saveState e₀.console e.console e₀.disk
    (getSaveStateFilename filename_ slot) hopen
  simp only [savesChanger] at hfile ⊢
  rwa [loadState_congr e.console hfile]

/-! ## Pausing -/

/-- While the game is paused and neither loads nor resumes, it stands still: however many
frames go by, only the controller byte of the machine changes. -/
theorem paused_stands_still {e₀ : Emulator} (hpaused : e₀.console.paused_ = true)
    (h : Reachable (· = e₀) (Frame filename_ reciprocal filters) (fun _ events =>
      ∀ event ∈ handled events, event.loads = false ∧ event.pauses = false) e) :
    e.console.paused_ = true ∧ e.console.machine.CPU_ = e₀.console.machine.CPU_ ∧
      ∀ i ≠ kControllerDataAddress, e.console.machine.RAM_ i = e₀.console.machine.RAM_ i := by
  refine h.invariant (P := fun e => e.console.paused_ = true ∧
    e.console.machine.CPU_ = e₀.console.machine.CPU_ ∧
      ∀ i ≠ kControllerDataAddress, e.console.machine.RAM_ i = e₀.console.machine.RAM_ i) ?_ ?_
  · intro s hs
    rw [hs]
    exact ⟨hpaused, rfl, fun _ _ => rfl⟩
  · intro s events s' ih hok hs
    obtain ⟨hstill, hcpu, hram⟩ := ih
    have hkept := controllerInput_paused filename_ reciprocal s events hok
    obtain ⟨-, hcpu', hram'⟩ := controllerInput_buttons filename_ reciprocal s events
      fun event hmem => (hok event hmem).1
    cases hs with
    | paused _ hpc hopen he' hpaused' =>
        subst he'
        exact ⟨hpaused', hcpu'.trans hcpu, fun i hi => (hram' i hi).trans (hram i hi)⟩
    | plays _ hpc hopen he' hpaused' hloop =>
        subst he'
        rw [hkept, hstill] at hpaused'
        exact Bool.noConfusion hpaused'

end Frames

/-! ## One frame -/

/-- A console with empty memory and no files, paused or not. -/
def fresh (paused_ : Bool) : Emulator where
  console := { Console.idle false with paused_ }
  disk := ⟨fun _ => none, fun _ => true⟩
  event_ := .other

/-- The sixtieth of a second whatever the speed. -/
def sixtieth (_ : BitVec 32) : BitVec 64 := 0x3F91111111111111

/-- The events of a frame that pauses the game and asks for a higher speed. -/
def pauseAndSpeedUp : List Event :=
  [.SDL_KEYDOWN .SDLK_p ⟨false, false, false⟩, .SDL_KEYDOWN .SDLK_EQUALS ⟨false, false, false⟩]

theorem settings_in_range_paused : ∃ e : Emulator,
    Reachable (Started [] sixtieth) (Frame [] sixtieth .none) Always e ∧
      e.console.target_fps_ = 65 ∧ e.console.SettingsOk sixtieth := by
  have start : Reachable (Started [] sixtieth) (Frame [] sixtieth .none) Always (fresh false) :=
    .start ⟨rfl, rfl, rfl, rfl, rfl, by simp [fresh]⟩
  have frame := start.next trivial (.paused pauseAndSpeedUp rfl (by decide) rfl rfl)
  exact ⟨_, frame, rfl, settings_in_range frame⟩

theorem load_restores_saved_paused : ∃ e : Emulator,
    e.console.target_fps_ = 65 ∧
      (savesChanger [] e (some (.load 3))).console.target_fps_ = 60 := by
  have start : Reachable (· = savesChanger [] (fresh false) (some (.save 3)))
      (Frame [] sixtieth .none)
      (fun _ events => ∀ event ∈ handled events, event.savesTo 3 = false)
      (savesChanger [] (fresh false) (some (.save 3))) := .start rfl
  have frame := start.next (by decide) (.paused pauseAndSpeedUp rfl (by decide) rfl rfl)
  have hload := load_restores_saved rfl frame
  exact ⟨_, rfl, hload.target_fps_⟩

theorem paused_stands_still_faster : ∃ e : Emulator,
    e.console.target_fps_ = 65 ∧ e.console.paused_ = true ∧
      e.console.machine.CPU_ = (fresh true).console.machine.CPU_ := by
  have start : Reachable (· = fresh true) (Frame [] sixtieth .none)
      (fun _ events => ∀ event ∈ handled events, event.loads = false ∧ event.pauses = false)
      (fresh true) := .start rfl
  have frame := start.next (by decide)
    (.paused [.SDL_KEYDOWN .SDLK_EQUALS ⟨false, false, false⟩] rfl (by decide) rfl rfl)
  have hstill := paused_stands_still rfl frame
  exact ⟨_, rfl, hstill.1, hstill.2.1⟩

end Emulator

end FavoriteAssignments.Banana
