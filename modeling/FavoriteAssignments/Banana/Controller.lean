import FavoriteAssignments.Banana.SaveState
import Mathlib.Data.List.TakeWhile

/-! # The controller

`controllerInput` with its three switches: the buttons of the controller byte, the filters
and the speed, the saved states. -/

namespace FavoriteAssignments.Banana

/-! ## Events -/

/-- The keys that one of the switches names. -/
inductive Key where
  | SDLK_a | SDLK_b | SDLK_COMMA | SDLK_PERIOD | SDLK_UP | SDLK_DOWN | SDLK_LEFT | SDLK_RIGHT
  | SDLK_digit (slot : Fin 10)
  | SDLK_x | SDLK_EQUALS | SDLK_MINUS | SDLK_p | SDLK_s | SDLK_l
  | other (sym : ℤ)
  deriving DecidableEq

/-- `SDL_GetKeyboardState` at the scancodes that are looked at. -/
structure Keyboard where
  SDL_SCANCODE_F : Bool
  SDL_SCANCODE_S : Bool
  SDL_SCANCODE_L : Bool
  deriving DecidableEq

/-- An event with the keyboard as it is when the event is handled. -/
inductive Event where
  | SDL_KEYDOWN (sym : Key) (keyboard : Keyboard)
  | SDL_KEYUP (sym : Key)
  | SDL_QUIT
  | other
  deriving DecidableEq

/-- The `CONTROLLER_*_MASK` of a button. -/
def Key.mask : Key → Option (BitVec 8)
  | .SDLK_a => some 0x80
  | .SDLK_b => some 0x40
  | .SDLK_COMMA => some 0x20
  | .SDLK_PERIOD => some 0x10
  | .SDLK_UP => some 0x08
  | .SDLK_DOWN => some 0x04
  | .SDLK_LEFT => some 0x02
  | .SDLK_RIGHT => some 0x01
  | _ => none

/-! ## The GPU's switches -/

namespace BananaGpu

def toggleImage (g : BananaGpu) : BananaGpu := { g with img_enabled_ := !g.img_enabled_ }

def toggleDuckSkin (g : BananaGpu) : BananaGpu := { g with duck_enabled_ := !g.duck_enabled_ }

def toggleCRTFilter (g : BananaGpu) : BananaGpu :=
  { g with crt_filter_enabled_ := !g.crt_filter_enabled_ }

def toggleGrayScaleFilter (g : BananaGpu) : BananaGpu :=
  { g with grayscale_enabled_ := !g.grayscale_enabled_ }

def toggleInvertFilter (g : BananaGpu) : BananaGpu :=
  { g with invert_enabled_ := !g.invert_enabled_ }

def togglePastelFilter (g : BananaGpu) : BananaGpu :=
  { g with pastel_enabled_ := !g.pastel_enabled_ }

/-- Without the line it prints. -/
def toggleHueFilter (g : BananaGpu) : BananaGpu :=
  { g with hue_speed_ := (g.hue_speed_ + 1).srem 5 }

end BananaGpu

/-! ## The switches of `controllerInput` -/

/-- `filename_.substr(0, filename_.find_last_of('.'))`. -/
def stem (filename_ : List Char) : List Char :=
  if '.' ∈ filename_ then
    (filename_.reverse.dropWhile (· != '.')).tail.reverse
  else filename_

def getSaveStateFilename (filename_ : List Char) (slot : Fin 10) : String :=
  String.ofList (stem filename_) ++ "savestate" ++ toString slot.val ++ ".bin"

namespace Console

/-- An assignment to `RAM_[kControllerDataAddress]`. -/
def setController (s : Console) (data : BitVec 8) : Console :=
  { s with machine := { s.machine with
      RAM_ := Function.update s.machine.RAM_ kControllerDataAddress data } }

def controller (s : Console) : BitVec 8 := s.machine.RAM_ kControllerDataAddress

/-- The first two switches. -/
def buttons (s : Console) : Event → Console
  | .SDL_KEYDOWN sym _ =>
      match sym.mask with
      | some mask => s.setController (s.controller ||| mask)
      | none => s
  | .SDL_KEYUP sym =>
      match sym.mask with
      | some mask => s.setController (s.controller &&& ~~~mask)
      | none => s
  | _ => s

def withGpu (s : Console) (f : BananaGpu → BananaGpu) : Console := { s with GPU_ := f s.GPU_ }

def print (s : Console) (text : String) : Console := { s with machine := s.machine.print text }

/-- The switch of the filters and the speed; `reciprocal` is `1.0 / target_fps_`. -/
def settingsChanger (reciprocal : BitVec 32 → BitVec 64) (s : Console) : Event → Console
  | .SDL_KEYDOWN (.SDLK_digit slot) keyboard =>
      if keyboard.SDL_SCANCODE_F then
        match slot with
        | 1 => s.withGpu .toggleCRTFilter
        | 2 => s.withGpu .toggleGrayScaleFilter
        | 3 => s.withGpu .toggleInvertFilter
        | 4 =>
            let s := s.withGpu .toggleHueFilter
            s.print ("Hue Shift Speed: " ++ toString s.GPU_.hue_speed_.toInt ++ "\n")
        | 5 => s.withGpu .togglePastelFilter
        | 6 => s.withGpu .toggleDuckSkin
        | _ => s
      else s
  | .SDL_KEYDOWN .SDLK_x _ => s.withGpu .toggleImage
  | .SDL_KEYDOWN .SDLK_EQUALS _ =>
      let target_fps_ := if (s.target_fps_ + 5).sle 120 then s.target_fps_ + 5 else s.target_fps_
      { s with show_fps_ := true, target_fps_, frame_time_ := reciprocal target_fps_ }
  | .SDL_KEYDOWN .SDLK_MINUS _ =>
      let target_fps_ := if (1#32).slt (s.target_fps_ - 5) then s.target_fps_ - 5 else s.target_fps_
      { s with show_fps_ := true, target_fps_, frame_time_ := reciprocal target_fps_ }
  | .SDL_KEYDOWN .SDLK_p _ =>
      if s.paused_ then { s.print "Game Resumed!\n" with paused_ := false }
      else { s.print "Game Paused!\n" with paused_ := true }
  | _ => s

end Console

/-- The switch over the saved states asks for at most one of the two. -/
inductive SlotAction where
  | save (slot : Fin 10)
  | load (slot : Fin 10)
  deriving DecidableEq

def Event.slotAction : Event → Option SlotAction
  | .SDL_KEYDOWN .SDLK_s _ => some (.save 0)
  | .SDL_KEYDOWN .SDLK_l _ => some (.load 0)
  | .SDL_KEYDOWN (.SDLK_digit slot) keyboard =>
      if keyboard.SDL_SCANCODE_S then some (.save slot)
      else if keyboard.SDL_SCANCODE_L then some (.load slot)
      else none
  | _ => none

def Event.loads (event : Event) : Bool :=
  match event.slotAction with
  | some (.load _) => true
  | _ => false

def Event.pauses : Event → Bool
  | .SDL_KEYDOWN .SDLK_p _ => true
  | _ => false

def Event.savesTo (slot : Fin 10) (event : Event) : Bool := event.slotAction == some (.save slot)

/-- The console, the files and the last event that was polled. -/
structure Emulator where
  console : Console
  disk : Disk
  event_ : Event

namespace Emulator

section Input

variable (filename_ : List Char) (reciprocal : BitVec 32 → BitVec 64)

def savesChanger (e : Emulator) : Option SlotAction → Emulator
  | some (.save slot) =>
      let (console, disk) := e.console.saveState e.disk (getSaveStateFilename filename_ slot)
      { e with console, disk }
  | some (.load slot) =>
      { e with console := e.console.loadState e.disk (getSaveStateFilename filename_ slot) }
  | none => e

/-- The body of the loop. -/
def handle (e : Emulator) (event : Event) : Emulator :=
  savesChanger filename_
    { e with console := (e.console.buttons event).settingsChanger reciprocal event }
    event.slotAction

/-- `controllerInput` on the events that are pending. -/
def controllerInput (e : Emulator) : List Event → Emulator
  | [] => e
  | event :: pending =>
      if event = .SDL_QUIT then { e with event_ := event }
      else controllerInput (handle filename_ reciprocal { e with event_ := event } event) pending

end Input

end Emulator

/-! ## The controller byte -/

/-- Whether a key is down after an event. -/
def Event.holds (key : Key) (held : Bool) : Event → Bool
  | .SDL_KEYDOWN sym _ => held || sym == key
  | .SDL_KEYUP sym => held && sym != key
  | _ => held

/-- Whether the bit of a button is set. -/
def Console.pressed (s : Console) (mask : BitVec 8) : Bool := s.controller &&& mask == mask

/-- Each button has a bit of its own. -/
theorem masks_disjoint {key key' : Key} {mask mask' : BitVec 8} (h : key.mask = some mask)
    (h' : key'.mask = some mask') (hne : key' ≠ key) : mask' &&& mask = 0 := by
  cases key <;> cases key' <;> simp only [Key.mask, Option.some.injEq, reduceCtorEq] at h h' <;>
    subst h h' <;> first | exact absurd rfl hne | rfl

theorem zero_ne_mask {key : Key} {mask : BitVec 8} (h : key.mask = some mask) : 0#8 ≠ mask := by
  cases key <;> simp only [Key.mask, Option.some.injEq, reduceCtorEq] at h <;> subst h <;> decide

section Bits

variable {w : ℕ} (c : BitVec w) {m m' : BitVec w}

theorem or_and_of_disjoint (h : m' &&& m = 0) : (c ||| m') &&& m = c &&& m := by
  rw [BitVec.and_or_distrib_right, h]
  simp

theorem and_not_and_of_disjoint (h : m' &&& m = 0) : c &&& ~~~m' &&& m = c &&& m := by
  ext i hi
  have hbit : (m'[i] && m[i]) = false := by
    have := congrArg (fun x : BitVec w => x[i]) h
    simpa using this
  simp only [BitVec.getElem_and, BitVec.getElem_not]
  cases hm : m[i] <;> cases hm' : m'[i] <;> simp_all

theorem or_and_self_right : (c ||| m) &&& m = m := by
  ext i hi
  simp +contextual

theorem and_not_and_self : c &&& ~~~m &&& m = 0 := by
  ext i hi
  simp

end Bits

namespace Console

variable {s : Console} {key : Key} {mask : BitVec 8}

theorem controller_setController (data : BitVec 8) : (s.setController data).controller = data := by
  simp [controller, setController]

theorem pressed_buttons (event : Event) (h : key.mask = some mask) :
    (s.buttons event).pressed mask = event.holds key (s.pressed mask) := by
  cases event with
  | SDL_KEYDOWN sym keyboard =>
      by_cases hkey : sym = key
      · subst hkey
        simp [buttons, h, pressed, controller_setController, or_and_self_right, Event.holds]
      · cases hsym : sym.mask with
        | none => simp [buttons, hsym, Event.holds, hkey]
        | some mask' =>
            simp [buttons, hsym, pressed, controller_setController, Event.holds, hkey,
              or_and_of_disjoint _ (masks_disjoint h hsym hkey)]
  | SDL_KEYUP sym =>
      by_cases hkey : sym = key
      · subst hkey
        simp [buttons, h, pressed, controller_setController, and_not_and_self, Event.holds,
          zero_ne_mask h]
      · cases hsym : sym.mask with
        | none => simp [buttons, hsym, Event.holds, hkey]
        | some mask' =>
            simp [buttons, hsym, pressed, controller_setController, Event.holds, hkey,
              and_not_and_of_disjoint _ (masks_disjoint h hsym hkey)]
  | SDL_QUIT => rfl
  | other => rfl

/-- What the later switches leave alone. -/
structure SameMemory (s t : Console) : Prop where
  CPU_ : t.machine.CPU_ = s.machine.CPU_
  RAM_ : t.machine.RAM_ = s.machine.RAM_

theorem buttons_elsewhere (s : Console) (event : Event) :
    (s.buttons event).machine.CPU_ = s.machine.CPU_ ∧
      ∀ i ≠ kControllerDataAddress, (s.buttons event).machine.RAM_ i = s.machine.RAM_ i := by
  cases event with
  | SDL_KEYDOWN sym keyboard =>
      cases hsym : sym.mask <;> simp +contextual [buttons, hsym, setController]
  | SDL_KEYUP sym =>
      cases hsym : sym.mask <;> simp +contextual [buttons, hsym, setController]
  | SDL_QUIT => exact ⟨rfl, fun _ _ => rfl⟩
  | other => exact ⟨rfl, fun _ _ => rfl⟩

theorem settingsChanger_memory (reciprocal : BitVec 32 → BitVec 64) (s : Console)
    (event : Event) : SameMemory s (s.settingsChanger reciprocal event) := by
  unfold settingsChanger
  split
  · split
    · split <;> exact ⟨rfl, rfl⟩
    · exact ⟨rfl, rfl⟩
  · exact ⟨rfl, rfl⟩
  · exact ⟨rfl, rfl⟩
  · exact ⟨rfl, rfl⟩
  · split <;> exact ⟨rfl, rfl⟩
  · exact ⟨rfl, rfl⟩

theorem saveState_memory (s : Console) (disk : Disk) (filename : String) :
    SameMemory s (s.saveState disk filename).1 := by
  unfold saveState
  split <;> exact ⟨rfl, rfl⟩

end Console

namespace Emulator

variable {filename_ : List Char} {reciprocal : BitVec 32 → BitVec 64}

/-- The events that one call of `controllerInput` handles. -/
def handled (events : List Event) : List Event := events.takeWhile (· ≠ .SDL_QUIT)

variable (filename_ reciprocal) in
theorem handle_memory (e : Emulator) {event : Event} (h : event.loads = false) :
    Console.SameMemory (e.console.buttons event) (handle filename_ reciprocal e event).console := by
  have hsettings := Console.settingsChanger_memory reciprocal (e.console.buttons event) event
  unfold handle savesChanger
  cases haction : event.slotAction with
  | none => exact hsettings
  | some action =>
      cases action with
      | save slot =>
          have hsave := Console.saveState_memory
            ((e.console.buttons event).settingsChanger reciprocal event) e.disk
            (getSaveStateFilename filename_ slot)
          exact ⟨hsave.CPU_.trans hsettings.CPU_, hsave.RAM_.trans hsettings.RAM_⟩
      | load slot => simp [Event.loads, haction] at h

theorem handled_cons {event : Event} (h : event ≠ .SDL_QUIT) (pending : List Event) :
    handled (event :: pending) = event :: handled pending := by
  simp [handled, h]

variable (filename_ reciprocal) in
/-- After a batch of events without a load the controller byte says which buttons are down,
each by the last of its own events, and nothing else in the machine has changed. -/
theorem controllerInput_buttons (e : Emulator) (events : List Event)
    (h : ∀ event ∈ handled events, event.loads = false) :
    let e' := controllerInput filename_ reciprocal e events
    (∀ key mask, key.mask = some mask → e'.console.pressed mask =
      (handled events).foldl (Event.holds key) (e.console.pressed mask)) ∧
    e'.console.machine.CPU_ = e.console.machine.CPU_ ∧
    ∀ i ≠ kControllerDataAddress, e'.console.machine.RAM_ i = e.console.machine.RAM_ i := by
  induction events generalizing e with
  | nil => exact ⟨fun _ _ _ => rfl, rfl, fun _ _ => rfl⟩
  | cons event pending ih =>
      by_cases hquit : event = .SDL_QUIT
      · subst hquit
        exact ⟨fun _ _ _ => rfl, rfl, fun _ _ => rfl⟩
      · rw [handled_cons hquit] at h ⊢
        have hmemory := handle_memory filename_ reciprocal { e with event_ := event }
          (h event List.mem_cons_self)
        obtain ⟨hcpu, hram⟩ := Console.buttons_elsewhere e.console event
        obtain ⟨hkeys, hcpu', hram'⟩ := ih
          (handle filename_ reciprocal { e with event_ := event } event)
          fun event' hmem => h event' (List.mem_cons_of_mem _ hmem)
        simp only [controllerInput, hquit, if_false]
        refine ⟨?_, hcpu'.trans (hmemory.CPU_.trans hcpu), ?_⟩
        · intro key mask hmask
          rw [hkeys key mask hmask, List.foldl_cons, ← Console.pressed_buttons event hmask]
          simp only [Console.pressed, Console.controller, hmemory.RAM_]
        · intro i hi
          rw [hram' i hi, hmemory.RAM_, hram i hi]

end Emulator

/-! ## Pausing -/

namespace Console

theorem buttons_paused (s : Console) (event : Event) :
    (s.buttons event).paused_ = s.paused_ := by
  unfold buttons
  split
  · split <;> rfl
  · split <;> rfl
  · rfl

theorem settingsChanger_paused (reciprocal : BitVec 32 → BitVec 64) (s : Console) {event : Event}
    (h : event.pauses = false) : (s.settingsChanger reciprocal event).paused_ = s.paused_ := by
  cases event with
  | SDL_KEYDOWN sym keyboard =>
      cases sym with
      | SDLK_digit slot =>
          simp only [settingsChanger]
          split
          · split <;> rfl
          · rfl
      | SDLK_p => simp [Event.pauses] at h
      | _ => rfl
  | _ => rfl

end Console

namespace Emulator

theorem controllerInput_paused (filename_ : List Char) (reciprocal : BitVec 32 → BitVec 64)
    (e : Emulator) (events : List Event)
    (h : ∀ event ∈ handled events, event.loads = false ∧ event.pauses = false) :
    (controllerInput filename_ reciprocal e events).console.paused_ = e.console.paused_ := by
  induction events generalizing e with
  | nil => rfl
  | cons event pending ih =>
      by_cases hquit : event = .SDL_QUIT
      · simp [controllerInput, hquit]
      · rw [handled_cons hquit] at h
        obtain ⟨hload, hpause⟩ := h event List.mem_cons_self
        simp only [controllerInput, hquit, if_false]
        rw [ih _ fun event' hmem => h event' (List.mem_cons_of_mem _ hmem),
          ← Console.buttons_paused e.console event,
          ← Console.settingsChanger_paused reciprocal (e.console.buttons event) hpause]
        unfold handle savesChanger
        cases haction : event.slotAction with
        | none => rfl
        | some action =>
            cases action with
            | save slot =>
                simp only [Console.saveState]
                split <;> rfl
            | load slot => simp [Event.loads, haction] at hload

end Emulator

/-! ## Speed and filters -/

/-- What the keys keep of the speed and the hue filter. -/
structure Console.SettingsOk (reciprocal : BitVec 32 → BitVec 64) (s : Console) : Prop where
  low : 5 ≤ s.target_fps_.toNat
  high : s.target_fps_.toNat ≤ 120
  step : s.target_fps_.toNat % 5 = 0
  frame_time_ : s.frame_time_ = reciprocal s.target_fps_
  hue_speed_ : s.GPU_.hue_speed_.toNat < 5

namespace Console

variable {reciprocal : BitVec 32 → BitVec 64} {s t : Console}

theorem SettingsOk.of_eq (h : s.SettingsOk reciprocal) (hfps : t.target_fps_ = s.target_fps_)
    (htime : t.frame_time_ = s.frame_time_) (hhue : t.GPU_.hue_speed_ = s.GPU_.hue_speed_) :
    t.SettingsOk reciprocal := by
  obtain ⟨h1, h2, h3, h4, h5⟩ := h
  exact ⟨hfps ▸ h1, hfps ▸ h2, hfps ▸ h3, htime.trans (h4.trans (by rw [hfps])), hhue ▸ h5⟩

theorem toInt_of_small {x : BitVec 32} (h : x.toNat < 1000) : x.toInt = x.toNat :=
  BitVec.toInt_eq_toNat_of_lt (by omega)

theorem SettingsOk.setSpeed (h : s.SettingsOk reciprocal) {target_fps_ : BitVec 32}
    (hlow : 5 ≤ target_fps_.toNat) (hhigh : target_fps_.toNat ≤ 120)
    (hstep : target_fps_.toNat % 5 = 0) :
    SettingsOk reciprocal
      { s with show_fps_ := true, target_fps_, frame_time_ := reciprocal target_fps_ } :=
  ⟨hlow, hhigh, hstep, rfl, h.hue_speed_⟩

theorem SettingsOk.faster (h : s.SettingsOk reciprocal) (keyboard : Keyboard) :
    (s.settingsChanger reciprocal (.SDL_KEYDOWN .SDLK_EQUALS keyboard)).SettingsOk reciprocal := by
  obtain ⟨h1, h2, h3, -, -⟩ := id h
  have hadd : (s.target_fps_ + 5).toNat = s.target_fps_.toNat + 5 := by
    rw [BitVec.toNat_add]
    exact Nat.mod_eq_of_lt (show s.target_fps_.toNat + 5 < 2 ^ 32 by omega)
  simp only [settingsChanger]
  split
  · next hle =>
      rw [BitVec.sle_iff_toInt_le, toInt_of_small (by omega)] at hle
      have hle' : ((s.target_fps_ + 5).toNat : ℤ) ≤ 120 := hle
      exact h.setSpeed (by omega) (by omega) (by omega)
  · exact h.setSpeed h1 h2 h3

theorem SettingsOk.slower (h : s.SettingsOk reciprocal) (keyboard : Keyboard) :
    (s.settingsChanger reciprocal (.SDL_KEYDOWN .SDLK_MINUS keyboard)).SettingsOk reciprocal := by
  obtain ⟨h1, h2, h3, -, -⟩ := id h
  have hsub : (s.target_fps_ - 5).toNat = s.target_fps_.toNat - 5 :=
    BitVec.toNat_sub_of_le (BitVec.le_def.mpr h1)
  simp only [settingsChanger]
  split
  · next hlt =>
      rw [BitVec.slt_iff_toInt_lt, toInt_of_small (x := s.target_fps_ - 5) (by omega)] at hlt
      have hlt' : (1 : ℤ) < ((s.target_fps_ - 5).toNat : ℤ) := hlt
      exact h.setSpeed (by omega) (by omega) (by omega)
  · exact h.setSpeed h1 h2 h3

theorem toggleHueFilter_lt {g : BananaGpu} (h : g.hue_speed_.toNat < 5) :
    g.toggleHueFilter.hue_speed_.toNat < 5 := by
  have hall : ∀ n < 5, ((BitVec.ofNat 32 n + 1).srem 5).toNat < 5 := by decide
  have hspeed : g.hue_speed_ = BitVec.ofNat 32 g.hue_speed_.toNat := by simp
  rw [BananaGpu.toggleHueFilter, hspeed]
  exact hall _ h

theorem settingsChanger_ok (h : s.SettingsOk reciprocal) (event : Event) :
    (s.settingsChanger reciprocal event).SettingsOk reciprocal := by
  cases event with
  | SDL_KEYDOWN sym keyboard =>
      cases sym with
      | SDLK_digit slot =>
          simp only [settingsChanger]
          split
          · split
            · exact h.of_eq rfl rfl rfl
            · exact h.of_eq rfl rfl rfl
            · exact h.of_eq rfl rfl rfl
            · obtain ⟨h1, h2, h3, h4, h5⟩ := h
              exact ⟨h1, h2, h3, h4, toggleHueFilter_lt h5⟩
            · exact h.of_eq rfl rfl rfl
            · exact h.of_eq rfl rfl rfl
            · exact h
          · exact h
      | SDLK_x => exact h.of_eq rfl rfl rfl
      | SDLK_EQUALS => exact h.faster keyboard
      | SDLK_MINUS => exact h.slower keyboard
      | SDLK_p =>
          simp only [settingsChanger]
          split <;> exact h.of_eq rfl rfl rfl
      | _ => exact h
  | _ => exact h

theorem buttons_ok (h : s.SettingsOk reciprocal) (event : Event) :
    (s.buttons event).SettingsOk reciprocal := by
  unfold buttons
  split
  · split <;> exact h.of_eq rfl rfl rfl
  · split <;> exact h.of_eq rfl rfl rfl
  · exact h

end Console

namespace Emulator

variable {filename_ : List Char} {reciprocal : BitVec 32 → BitVec 64} {e : Emulator}

/-- The settings are in range, in the console and in the saved states of this game. -/
structure Ok (filename_ : List Char) (reciprocal : BitVec 32 → BitVec 64) (e : Emulator) :
    Prop where
  console : e.console.SettingsOk reciprocal
  disk : ∀ slot file, e.disk.files (getSaveStateFilename filename_ slot) = some file →
    ∃ s : Console, s.SettingsOk reciprocal ∧ file = s.dump

theorem savesChanger_ok (h : Ok filename_ reciprocal e) (action : Option SlotAction) :
    Ok filename_ reciprocal (savesChanger filename_ e action) := by
  cases action with
  | none => exact h
  | some action =>
      cases action with
      | save slot =>
          simp only [savesChanger, Console.saveState]
          split
          · refine ⟨h.console.of_eq rfl rfl rfl, fun slot' file hfile => ?_⟩
            dsimp only at hfile
            by_cases hname : getSaveStateFilename filename_ slot' =
                getSaveStateFilename filename_ slot
            · rw [hname, Function.update_self] at hfile
              exact ⟨e.console, h.console, (Option.some.inj hfile).symm⟩
            · rw [Function.update_of_ne hname] at hfile
              exact h.disk slot' file hfile
          · exact ⟨h.console.of_eq rfl rfl rfl, h.disk⟩
      | load slot =>
          simp only [savesChanger, Console.loadState]
          split
          · next file hfile =>
              obtain ⟨s, hs, hdump⟩ := h.disk slot file hfile
              have hrestored : (e.console.restore ⟨file, false⟩).SettingsOk reciprocal := by
                rw [hdump, Console.restore_dump]
                exact hs.of_eq rfl rfl rfl
              exact ⟨hrestored.of_eq rfl rfl rfl, h.disk⟩
          · exact ⟨h.console.of_eq rfl rfl rfl, h.disk⟩

theorem handle_ok (h : Ok filename_ reciprocal e) (event : Event) :
    Ok filename_ reciprocal (handle filename_ reciprocal e event) :=
  savesChanger_ok
    (e := { e with console := (e.console.buttons event).settingsChanger reciprocal event })
    ⟨Console.settingsChanger_ok (Console.buttons_ok h.console event) event, h.disk⟩ _

theorem controllerInput_ok (h : Ok filename_ reciprocal e) (events : List Event) :
    Ok filename_ reciprocal (controllerInput filename_ reciprocal e events) := by
  induction events generalizing e with
  | nil => exact h
  | cons event pending ih =>
      simp only [controllerInput]
      split
      · exact ⟨h.console, h.disk⟩
      · exact ih (handle_ok (e := { e with event_ := event }) ⟨h.console, h.disk⟩ event)

/-! ## Slots -/

theorem getSaveStateFilename_injective : Function.Injective (getSaveStateFilename filename_) := by
  intro slot slot' h
  have hdigits : ∀ i j : Fin 10, (toString i.val).toList = (toString j.val).toList → i = j := by
    decide
  have hlist := congrArg String.toList h
  simp only [getSaveStateFilename, String.toList_append] at hlist
  exact hdigits _ _ (List.append_cancel_left (List.append_cancel_right hlist))

theorem savesChanger_file (slot : Fin 10) {action : Option SlotAction}
    (h : action ≠ some (.save slot)) :
    (savesChanger filename_ e action).disk.files (getSaveStateFilename filename_ slot) =
      e.disk.files (getSaveStateFilename filename_ slot) := by
  cases action with
  | none => rfl
  | some action =>
      cases action with
      | save slot' =>
          have hname :
              getSaveStateFilename filename_ slot ≠ getSaveStateFilename filename_ slot' := by
            intro hname
            exact h (by rw [getSaveStateFilename_injective hname])
          simp only [savesChanger, Console.saveState]
          split
          · exact Function.update_of_ne hname _ _
          · rfl
      | load slot' => rfl

theorem controllerInput_file (slot : Fin 10) (events : List Event)
    (h : ∀ event ∈ handled events, event.savesTo slot = false) :
    (controllerInput filename_ reciprocal e events).disk.files
        (getSaveStateFilename filename_ slot) =
      e.disk.files (getSaveStateFilename filename_ slot) := by
  induction events generalizing e with
  | nil => rfl
  | cons event pending ih =>
      simp only [controllerInput]
      split
      · rfl
      · next hquit =>
          rw [handled_cons hquit] at h
          rw [ih fun event' hmem => h event' (List.mem_cons_of_mem _ hmem)]
          refine savesChanger_file slot ?_
          simpa [Event.savesTo] using h event List.mem_cons_self

end Emulator

end FavoriteAssignments.Banana
