import Chip8.Proofs.KeyWait
import Chip8.Proofs.Quitting

/-!
# The keypad and the keyboard

Each key of the pad belongs to one key of the keyboard. A key is held if it was pressed, by
auto-repeat or not, and since then neither released nor taken back by a restart. Throughout a run
the keys down on the keypad are those held on the keyboard: no instruction, tick, pause or other
event moves one. The machine of a session is reachable all the while, so what holds of reachable
machines holds of it.
-/
namespace Chip8

namespace KeyCode

/-- The keyboard keys in the order of the keys of the pad. -/
def pads : Vector KeyCode 16 :=
  #v[.x, .digit1, .digit2, .digit3, .q, .w, .e, .a, .s, .d, .z, .c, .digit4, .r, .f, .v]

def ofPad (k : Fin 16) : KeyCode := pads.get k

theorem pad?_ofPad (k : Fin 16) : (ofPad k).pad? = some k := by
  revert k
  decide

theorem pad?_eq_some_iff {code : KeyCode} {k : Fin 16} : code.pad? = some k ↔ code = ofPad k := by
  constructor
  · intro h
    cases code <;> cases h <;> rfl
  · rintro rfl
    exact pad?_ofPad k

theorem ofPad_injective {j k : Fin 16} (h : ofPad j = ofPad k) : j = k := by
  have hj := pad?_ofPad j
  rw [h, pad?_ofPad k] at hj
  exact (Option.some.inj hj).symm

end KeyCode

namespace Event

theorem request?_keyDown_ofPad (k : Fin 16) (repeated : Bool) :
    (keyDown (some (.ofPad k)) repeated).request? = some (.pad k true) := by
  simp [request?, KeyCode.pad?_ofPad]

theorem request?_keyUp_ofPad (k : Fin 16) :
    (keyUp (some (.ofPad k))).request? = some (.pad k false) := by
  simp [request?, KeyCode.pad?_ofPad]

theorem eq_of_request?_pad {e : Event} {k : Fin 16} {down : Bool}
    (h : e.request? = some (.pad k down)) :
    (down = true ∧ ∃ repeated, e = .keyDown (some (.ofPad k)) repeated) ∨
      (down = false ∧ e = .keyUp (some (.ofPad k))) := by
  match e with
  | .keyDown (some code) repeated =>
    cases hpad : code.pad? with
    | none =>
      simp only [request?, hpad] at h
      split at h
      · cases h
      · cases code <;> cases h
    | some j =>
      obtain ⟨rfl, rfl⟩ : j = k ∧ true = down := by simpa [request?, hpad] using h
      exact .inl ⟨rfl, repeated, by rw [KeyCode.pad?_eq_some_iff.1 hpad]⟩
  | .keyUp (some code) =>
    obtain ⟨j, hpad, hj⟩ := Option.map_eq_some_iff.1 h
    cases hj
    exact .inr ⟨rfl, by rw [KeyCode.pad?_eq_some_iff.1 hpad]⟩
  | .keyDown none _ | .keyUp none | .quit | .other => cases h

def leaves (e : Event) (k : Fin 16) (down : Bool) : Bool :=
  match e.request? with
  | some (.pad j state) => if j = k then state else down
  | some .restart => false
  | _ => down

theorem leaves_iff (e : Event) (k : Fin 16) (down : Bool) :
    e.leaves k down = true ↔
      (∃ repeated, e = .keyDown (some (.ofPad k)) repeated) ∨
        (down = true ∧ e ≠ .keyUp (some (.ofPad k)) ∧ e.asksToRestart = false) := by
  have hrestart := e.asksToRestart_iff
  match hq : e.request? with
  | some (.pad j state) =>
    have hno : e.asksToRestart = false := by simpa [hq] using hrestart
    have hne (hjk : j ≠ k) : KeyCode.ofPad j ≠ .ofPad k :=
      fun h => hjk (KeyCode.ofPad_injective h)
    rcases eq_of_request?_pad hq with ⟨rfl, repeated, rfl⟩ | ⟨rfl, rfl⟩
    · by_cases hjk : j = k
      · simp [leaves, request?_keyDown_ofPad, hjk]
      · simp [leaves, hq, hjk, hno, hne hjk]
    · by_cases hjk : j = k
      · simp [leaves, request?_keyUp_ofPad, hjk]
      · simp [leaves, hq, hjk, hno, hne hjk]
  | some .restart =>
    have hyes : e.asksToRestart = true := hrestart.2 hq
    have hpress : ∀ repeated, e ≠ .keyDown (some (.ofPad k)) repeated := by
      rintro repeated rfl
      simp [request?_keyDown_ofPad] at hq
    simp [leaves, hq, hyes, hpress]
  | some .pauseOrResume | some .quit | none =>
    -- The event is none of the three that move the key.
    have hno : e.asksToRestart = false := by simpa [hq] using hrestart
    have hpress : ∀ repeated, e ≠ .keyDown (some (.ofPad k)) repeated := by
      rintro repeated rfl
      simp [request?_keyDown_ofPad] at hq
    have hrelease : e ≠ .keyUp (some (.ofPad k)) := by
      rintro rfl
      simp [request?_keyUp_ofPad] at hq
    simp [leaves, hq, hno, hpress, hrelease]

/-- The key was pressed, and since then neither released nor taken back by a restart. -/
def Held (code : KeyCode) (past : List Event) : Prop :=
  ∃ before repeated after, past = before ++ .keyDown (some code) repeated :: after ∧
    ∀ e ∈ after, e ≠ .keyUp (some code) ∧ e.asksToRestart = false

theorem not_held_nil (code : KeyCode) : ¬ Held code [] := by
  rintro ⟨before, repeated, after, hsplit, _⟩
  simp at hsplit

theorem held_concat {code : KeyCode} {past : List Event} {e : Event} :
    Held code (past ++ [e]) ↔
      (∃ repeated, e = .keyDown (some code) repeated) ∨
        (Held code past ∧ e ≠ .keyUp (some code) ∧ e.asksToRestart = false) := by
  constructor
  · rintro ⟨before, repeated, after, hsplit, hafter⟩
    rcases List.eq_nil_or_concat after with rfl | ⟨after, last, rfl⟩
    · obtain ⟨_, he⟩ := List.append_inj' hsplit rfl
      exact .inl ⟨repeated, List.head_eq_of_cons_eq he⟩
    · have hlast : past ++ [e] = (before ++ .keyDown (some code) repeated :: after) ++ [last] := by
        rw [hsplit]
        simp
      obtain ⟨hpast, he⟩ := List.append_inj' hlast rfl
      rw [List.head_eq_of_cons_eq he]
      refine .inr ⟨⟨before, repeated, after, hpast, fun e' he' => ?_⟩, hafter last (by simp)⟩
      exact hafter e' (by simp [he'])
  · rintro (⟨repeated, rfl⟩ | ⟨⟨before, repeated, after, rfl, hafter⟩, he⟩)
    · exact ⟨past, repeated, [], rfl, by simp⟩
    · refine ⟨before, repeated, after ++ [e], by simp, fun e' he' => ?_⟩
      rcases List.mem_append.1 he' with hmem | hmem
      · exact hafter e' hmem
      · rwa [List.mem_singleton.1 hmem]

end Event

namespace Machine

theorem keypad_latch (m : Machine) {key : UInt8} (h : key.toNat < 16) (down : Bool) :
    (m.latch key down).keypad = m.keypad.set key.toNat down := by
  cases down with
  | false => rw [latch_release m h]
  | true =>
    cases ha : m.awaiting with
    | none => rw [latch_press_of_idle ha h]
    | some x => rw [latch_press_of_waiting ha h]

theorem toNat_key (k : Fin 16) : (UInt8.ofNat k.val).toNat = k.val := by
  have := k.isLt
  simp only [UInt8.toNat_ofNat']
  omega

theorem isDown_latch (m : Machine) (j k : Fin 16) (down : Bool) :
    (m.latch (UInt8.ofNat j.val) down).isDown k = if j = k then down else m.isDown k := by
  have hj := toNat_key j
  simp [isDown, keypad_latch m (hj.symm ▸ j.isLt), hj, Vector.getElem_set, Fin.ext_iff]

theorem keypad_step {m m' : Machine} (h : m.step = .ok m') : m'.keypad = m.keypad := by
  rcases step_eq_ok_iff.1 h with ⟨_, rfl⟩ | ⟨_, i, _, rfl⟩
  · rfl
  · exact keypad_effect m i

theorem Reachable.of_step {m m' : Machine} (hm : m.Reachable) (h : m.step = .ok m') :
    m'.Reachable := by
  have hafter := hm.after .step
  rwa [Operation.after_step_of_ok h] at hafter

end Machine

namespace Session

theorem isDown_handle (s : Session) (e : Event) (k : Fin 16) :
    (s.handle e).machine.isDown k = e.leaves k (s.machine.isDown k) := by
  rw [machine_handle, Event.leaves]
  match e.request? with
  | some (.pad j down) => exact s.machine.isDown_latch j k down
  | some .restart => exact Vector.getElem_replicate k.isLt
  | some .pauseOrResume | some .quit | none => rfl

theorem reachable_handle {s : Session} (h : s.machine.Reachable) (e : Event) :
    (s.handle e).machine.Reachable := by
  rw [machine_handle]
  match e.request? with
  | some (.pad j down) => exact h.after (.latch _ down)
  | some .restart => exact .start s.rom _ _
  | some .pauseOrResume | some .quit | none => exact h

end Session

namespace Burst

/-- What every step keeps is kept by a burst. -/
theorem invariant_run {P : Machine → Prop} (hstep : ∀ m m', m.step = .ok m' → P m → P m')
    {fuel : Nat} {b b' : Burst} {v : Verdict} (h : run fuel b = some (b', v)) (hb : P b.machine) :
    P b'.machine := by
  induction fuel generalizing b with
  | zero => cases h
  | succ fuel ih =>
    rcases b.round_cases with ⟨_, hr⟩ | ⟨_, _, hr⟩ | ⟨_, _, f, _, hr⟩ | ⟨_, _, m, hm, hr⟩
    · rw [run_of_over hr] at h
      cases h
      exact hb
    · rw [run_of_over hr] at h
      cases h
      exact hb
    · rw [run_of_over hr] at h
      cases h
      exact hb
    · rw [run_of_again hr] at h
      exact ih h (hstep _ _ hm hb)

end Burst

namespace Session

/-- What every step and every tick keeps is kept while time passes, also if the turn fails. -/
theorem invariant_elapse {P : Machine → Prop} (hstep : ∀ m m', m.step = .ok m' → P m → P m')
    (htick : ∀ m, P m → P m.countDown) {s : Session} (hs : P s.machine) (micros patience : Nat) :
    P (s.elapse micros patience).session.machine := by
  have hticks : ∀ n m, P m → P (Nat.repeat Machine.countDown n m) := by
    intro n m hm
    induction n with
    | zero => exact hm
    | succ n ih => exact htick _ ih
  cases hb : Burst.ofMachine s.machine (s.cpu.add micros) patience with
  | none => simpa [elapse, hb] using hs
  | some r =>
    obtain ⟨b, v⟩ := r
    have hburst : P b.machine := Burst.invariant_run hstep hb hs
    cases v with
    | fatal f => simpa [elapse, hb] using hburst
    | running | paused =>
      simp only [elapse, hb, settle]
      exact hticks _ _ hburst

structure Tracks (s : Session) (past : List Event) : Prop where
  reachable : s.machine.Reachable
  isDown_iff : ∀ k, s.machine.isDown k = true ↔ Event.Held (.ofPad k) past

variable {s : Session} {past : List Event}

theorem tracks_start (rom : Rom) (d : Dialect) (stream : ByteStream) (hertz : Nat) :
    (start rom (.start rom d stream) hertz).Tracks [] where
  reachable := .start rom d stream
  isDown_iff k := by
    have hup : (Machine.start rom d stream).isDown k = false := Vector.getElem_replicate k.isLt
    simp [start, hup, Event.not_held_nil]

theorem Tracks.handle (h : s.Tracks past) (e : Event) : (s.handle e).Tracks (past ++ [e]) where
  reachable := reachable_handle h.reachable e
  isDown_iff k := by rw [isDown_handle, Event.leaves_iff, Event.held_concat, h.isDown_iff]

theorem Tracks.handleAll (h : s.Tracks past) (es : List Event) :
    (s.handleAll es).Tracks (past ++ es) := by
  induction es generalizing s past with
  | nil => rwa [List.append_nil]
  | cons e es ih =>
    have hrest := ih (h.handle e)
    rwa [List.append_assoc] at hrest

theorem Tracks.elapse (h : s.Tracks past) (micros patience : Nat) :
    (s.elapse micros patience).session.Tracks past := by
  have hkept := invariant_elapse
    (P := fun m => m.Reachable ∧ m.keypad = s.machine.keypad)
    (fun m m' hstep hm => ⟨hm.1.of_step hstep, (Machine.keypad_step hstep).trans hm.2⟩)
    (fun m hm => ⟨hm.1.after .countDown, hm.2⟩) ⟨h.reachable, rfl⟩ micros patience
  refine ⟨hkept.1, fun k => ?_⟩
  rw [← h.isDown_iff, Machine.isDown, hkept.2]
  rfl

/-- A turn leaves the keypad as the keyboard is, whether the session runs in it or not. -/
theorem Tracks.turn (h : s.Tracks past) (f : Frame) (patience : Nat) :
    (s.turn f patience).session.Tracks (past ++ f.events) := by
  by_cases hr : (s.handleAll f.events).mode = .running
  · rw [turn_of_running hr]
    exact (h.handleAll f.events).elapse f.micros patience
  · rw [turn_of_still hr]
    exact h.handleAll f.events

end Session

end Chip8
