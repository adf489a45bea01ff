import Chip8.Proofs.Iterations
import Chip8.Proofs.KeyWait
import Chip8.Proofs.Quitting

/-!
# Time that passes in a pause

While a session does not run, its events reach the keypad and the mode only, unless they restart the
program, and neither metronome moves. A key that was awaited goes to its register if it is pressed
then. The time of such a turn is not looked at at all, so two scripts that differ only in it lead
to the same report: the same pictures, notices and ending.
-/
namespace Chip8

namespace Event

def isPress (e : Event) : Bool :=
  match e.request? with
  | some (.pad _ down) => down
  | _ => false

end Event

namespace Machine

/-- What keys can do to a machine on which no instruction runs; `pressed` says whether one of them
goes down. -/
structure Untouched (pressed : Bool) (m m' : Machine) : Prop where
  pc : m'.pc = m.pc
  index : m'.index = m.index
  memory : m'.memory = m.memory
  stack : m'.stack = m.stack
  delay : m'.delay = m.delay
  sound : m'.sound = m.sound
  raster : m'.raster = m.raster
  dialect : m'.dialect = m.dialect
  stream : m'.stream = m.stream
  awaiting : ∀ x, m'.awaiting = some x → m.awaiting = some x
  register : ∀ x, m'.register x ≠ m.register x → m.awaiting = some x ∧ pressed = true

theorem Untouched.refl (pressed : Bool) (m : Machine) : m.Untouched pressed m where
  pc := rfl
  index := rfl
  memory := rfl
  stack := rfl
  delay := rfl
  sound := rfl
  raster := rfl
  dialect := rfl
  stream := rfl
  awaiting _ h := h
  register _ h := absurd rfl h

theorem Untouched.trans {p q : Bool} {m₁ m₂ m₃ : Machine} (h : m₁.Untouched p m₂)
    (h' : m₂.Untouched q m₃) : m₁.Untouched (p || q) m₃ where
  pc := h'.pc.trans h.pc
  index := h'.index.trans h.index
  memory := h'.memory.trans h.memory
  stack := h'.stack.trans h.stack
  delay := h'.delay.trans h.delay
  sound := h'.sound.trans h.sound
  raster := h'.raster.trans h.raster
  dialect := h'.dialect.trans h.dialect
  stream := h'.stream.trans h.stream
  awaiting x hx := h.awaiting x (h'.awaiting x hx)
  register x hx := by
    by_cases hsame : m₂.register x = m₁.register x
    · obtain ⟨hawait, hq⟩ := h'.register x (hsame ▸ hx)
      exact ⟨h.awaiting x hawait, by simp [hq]⟩
    · obtain ⟨hawait, hp⟩ := h.register x hsame
      exact ⟨hawait, by simp [hp]⟩

theorem untouched_latch (m : Machine) (key : UInt8) (down : Bool) :
    m.Untouched down (m.latch key down) := by
  by_cases hkey : key.toNat < 16
  · cases down with
    | false =>
      rw [latch_release m hkey]
      exact { Untouched.refl false m with }
    | true =>
      cases ha : m.awaiting with
      | none =>
        rw [latch_press_of_idle ha hkey]
        exact { Untouched.refl true m with }
      | some x =>
        rw [latch_press_of_waiting ha hkey]
        refine { Untouched.refl true m with awaiting := ?_, register := fun y hy => ⟨?_, rfl⟩ }
        · intro y hy
          cases hy
        · by_cases hxy : x.val = y.val
          · rw [ha, Fin.ext hxy]
          · simp [register, hxy] at hy
  · rw [latch_of_no_key m hkey]
    exact .refl down m

end Machine

namespace Session

theorem untouched_handle (s : Session) {e : Event} (he : e.asksToRestart = false) :
    s.machine.Untouched e.isPress (s.handle e).machine := by
  rw [machine_handle, Event.isPress]
  match hq : e.request? with
  | some (.pad k down) => exact s.machine.untouched_latch _ down
  | some .restart => simp [(Event.asksToRestart_iff e).2 hq] at he
  | some .pauseOrResume | some .quit | none => exact .refl false s.machine

theorem untouched_handleAll (s : Session) {es : List Event}
    (hes : ∀ e ∈ es, e.asksToRestart = false) :
    s.machine.Untouched (es.any Event.isPress) (s.handleAll es).machine := by
  induction es generalizing s with
  | nil => exact .refl false s.machine
  | cons e es ih =>
    have hfirst := s.untouched_handle (hes e List.mem_cons_self)
    exact hfirst.trans (ih (s.handle e) fun e' he' => hes e' (List.mem_cons_of_mem e he'))

/-- A turn looks at the time of its frame only if the session runs. -/
theorem turn_congr {s : Session} {f g : Frame} (hevents : g.events = f.events)
    (hnanos : (s.handleAll f.events).mode = .running → g.nanos = f.nanos) (patience : Nat) :
    s.turn g patience = s.turn f patience := by
  by_cases hr : (s.handleAll f.events).mode = .running
  · have hgf : g = f := by rw [Frame.mk.injEq]; exact ⟨hnanos hr, hevents⟩
    rw [hgf]
  · rw [turn_of_still hr, turn_of_still (hevents ▸ hr), hevents]

end Session

namespace Host

variable {h : Host}

/-- The iterations that a run begins, the last of which may fail or quit. -/
def begun (h : Host) (drawn : Nat) (s : Session) : List Frame → List Iteration
  | [] => []
  | f :: fs =>
      let t := h.turn ⟨s, f⟩
      let picture := t.session.machine.raster
      ⟨s, f⟩ ::
        if t.collapse = none ∧ h.outage? drawn picture = none ∧ t.session.mode ≠ .quit then
          h.begun (drawn + picture.boxes.length) t.session fs
        else []

theorem begun_of_shown {s : Session} {f : Frame} {drawn : Nat}
    (hc : (s.turn f h.patience).collapse = none)
    (ho : h.outage? drawn (s.turn f h.patience).session.machine.raster = none)
    (hm : (s.turn f h.patience).session.mode ≠ .quit) (fs : List Frame) :
    h.begun drawn s (f :: fs) = ⟨s, f⟩ ::
      h.begun (drawn + (s.turn f h.patience).session.machine.raster.boxes.length)
        (s.turn f h.patience).session fs := by
  simp [begun, turn, hc, ho, hm]

/-- Frames that agree in their events, and in their time where the session runs, are played alike.
The frames that follow are the same for both. -/
theorem play_congr {fs gs : List Frame} (rest : List Frame) (drawn : Nat) (pending : List Notice)
    (s : Session) (hevents : gs.map Frame.events = fs.map Frame.events)
    (hnanos : ∀ i g, (i, g) ∈ (h.begun drawn s (fs ++ rest)).zip gs → i.runs = true →
      g.nanos = i.frame.nanos) :
    h.play drawn pending s (gs ++ rest) = h.play drawn pending s (fs ++ rest) := by
  induction fs generalizing gs drawn pending s with
  | nil =>
    obtain rfl : gs = [] := by simpa using hevents
    rfl
  | cons f fs ih =>
    cases gs with
    | nil => cases hevents
    | cons g gs =>
      obtain ⟨hfirst, hrest⟩ := List.cons.inj hevents
      have hturn : s.turn g h.patience = s.turn f h.patience := by
        apply Session.turn_congr hfirst
        intro hr
        exact hnanos ⟨s, f⟩ g (by simp [begun]) (Iteration.runs_iff.2 hr)
      cases hc : (s.turn f h.patience).collapse with
      | some c => simp [play_cons, hturn, hc]
      | none =>
        cases ho : h.outage? drawn (s.turn f h.patience).session.machine.raster with
        | some o => simp [play_cons, hturn, hc, ho]
        | none =>
          by_cases hq : (s.turn f h.patience).session.mode = .quit
          · simp [play_cons, hturn, hc, ho, hq]
          · have hbegun := begun_of_shown hc ho hq (fs ++ rest)
            simp only [List.cons_append, play_cons, hturn, hc, ho, if_neg hq]
            rw [ih _ _ _ hrest fun i g' hmem => hnanos i g' (by
              rw [List.cons_append, hbegun]
              exact List.mem_cons_of_mem _ hmem)]

/-- A turn in which the session does not run, and whose events do not restart the program, moves
neither metronome and leaves the machine but for its keypad: of the registers only one that awaited
a key can change, and only if a key is pressed. Scripts with the same events, and with the same time
in every iteration of the run in which the session runs, have the same report. -/
theorem paused_time_has_no_effect (h : Host) (rom : Rom) (m : Machine) (hertz : Nat)
    (frames : List Frame) :
    (∀ i : Iteration, i.runs = false → (∀ e ∈ i.frame.events, e.asksToRestart = false) →
        i.session.machine.Untouched (i.frame.events.any Event.isPress)
            (h.turn i).session.machine ∧
          (h.turn i).session.cpu = i.session.cpu ∧
          (h.turn i).session.timers = i.session.timers) ∧
      ∀ frames' : List Frame, frames'.map Frame.events = frames.map Frame.events →
        (∀ i f, (i, f) ∈ (h.begun 0 (.start rom m hertz) (frames ++ [.closing])).zip frames' →
          i.runs = true → f.nanos = i.frame.nanos) →
        h.run rom m hertz frames' = h.run rom m hertz frames := by
  constructor
  · intro i hstill hevents
    obtain ⟨notices, hturn⟩ := turn_of_not_runs (h := h) hstill
    obtain ⟨hcpu, htimers, _, _⟩ := metronomes_of_not_runs (h := h) hstill
    refine ⟨?_, hcpu, htimers⟩
    rw [hturn]
    exact i.session.untouched_handleAll hevents
  · intro frames' hevents hnanos
    unfold run
    split
    · rfl
    · exact play_congr [.closing] 0 _ _ hevents hnanos

/-- Five or seven seconds between two presses of Space come to the same. -/
theorem paused_time_has_no_effect_between_spaces :
    let h : Host := ⟨none, 0⟩
    let m := Machine.start .spin .modern (.seeded 0)
    let space : Event := .keyDown (some .space) false
    let script (nanos : Nat) : List Frame := [⟨0, [space]⟩, ⟨nanos, []⟩, ⟨20000000, [space]⟩]
    h.run .spin m 540 (script 7000000000) = h.run .spin m 540 (script 5000000000) := by
  intro h m space script
  obtain ⟨_, hsame⟩ := paused_time_has_no_effect h .spin m 540 (script 5000000000)
  refine hsame (script 7000000000) rfl fun i f hmem hruns => ?_
  clear_value m
  let paused : Session := { Session.start .spin m 540 with mode := .paused }
  obtain ⟨rest, hbegun⟩ : ∃ rest,
      h.begun 0 (.start .spin m 540) (script 5000000000 ++ [.closing]) =
        ⟨.start .spin m 540, ⟨0, [space]⟩⟩ :: ⟨paused, ⟨5000000000, []⟩⟩ ::
          ⟨paused, ⟨20000000, [space]⟩⟩ :: rest := by
    simp only [script, List.cons_append, List.nil_append]
    rw [begun_of_shown rfl (outage?_of_none rfl _ _) Mode.noConfusion,
      begun_of_shown rfl (outage?_of_none rfl _ _) Mode.noConfusion]
    exact ⟨_, rfl⟩
  simp only [hbegun, script, List.zip_cons_cons, List.zip_nil_right, List.mem_cons, Prod.mk.injEq,
    List.not_mem_nil, or_false] at hmem
  rcases hmem with ⟨rfl, _⟩ | ⟨rfl, _⟩ | ⟨rfl, rfl⟩
  · cases hruns
  · cases hruns
  · rfl

end Host

end Chip8
