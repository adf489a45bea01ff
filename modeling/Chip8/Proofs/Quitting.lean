import Chip8.Proofs.BurstTime
import Chip8.Report

/-!
# The end of a run

Closing the window and pressing Escape ask to quit. Of all the events a frame can hold only a
restart takes such a request back, since it sets the session running whatever its mode was; a pause
leaves it alone. So a run that meets no fault and no outage ends with the first frame in which a
request to quit stands, that is, no restart comes after it. This is the first frame with any request
to quit exactly if a request stands in that frame.
-/
namespace Chip8

namespace Event

def asksToQuit : Event → Bool
  | .quit => true
  | .keyDown (some .escape) false => true
  | _ => false

def asksToRestart : Event → Bool
  | .keyDown (some .f5) false => true
  | _ => false

theorem asksToQuit_iff (e : Event) :
    e.asksToQuit = true ↔ e = .quit ∨ e.request? = some .quit := by
  cases e with
  | keyDown key repeated =>
    cases key with
    | none => simp [asksToQuit, request?]
    | some code =>
      cases code <;> cases repeated <;> simp [asksToQuit, request?, KeyCode.pad?, KeyCode.control?]
  | keyUp key => cases key <;> simp [asksToQuit, request?]
  | _ => simp [asksToQuit, request?]

theorem asksToRestart_iff (e : Event) :
    e.asksToRestart = true ↔ e.request? = some .restart := by
  cases e with
  | keyDown key repeated =>
    cases key with
    | none => simp [asksToRestart, request?]
    | some code =>
      cases code <;> cases repeated <;>
        simp [asksToRestart, request?, KeyCode.pad?, KeyCode.control?]
  | keyUp key => cases key <;> simp [asksToRestart, request?]
  | _ => simp [asksToRestart, request?]

def quitStands : List Event → Bool
  | [] => false
  | e :: es => e.asksToQuit && !es.any asksToRestart || quitStands es

theorem quitStands_iff {es : List Event} :
    quitStands es = true ↔
      ∃ before e after, es = before ++ e :: after ∧ e.asksToQuit = true ∧
        ∀ e' ∈ after, e'.asksToRestart = false := by
  induction es with
  | nil => simp [quitStands]
  | cons a es ih =>
    simp only [quitStands, Bool.or_eq_true, Bool.and_eq_true, Bool.not_eq_true', ih,
      List.any_eq_false]
    constructor
    · rintro (⟨ha, hr⟩ | ⟨before, e, after, rfl, he, hr⟩)
      · exact ⟨[], a, es, rfl, ha, by simpa using hr⟩
      · exact ⟨a :: before, e, after, rfl, he, hr⟩
    · rintro ⟨before, e, after, hes, he, hr⟩
      cases before with
      | nil =>
        obtain ⟨rfl, rfl⟩ := List.cons.inj hes
        exact .inl ⟨he, by simpa using hr⟩
      | cons b before =>
        obtain ⟨rfl, rfl⟩ := List.cons.inj hes
        exact .inr ⟨before, e, after, rfl, he, hr⟩

end Event

namespace Frame

def asksToQuit (f : Frame) : Bool := f.events.any Event.asksToQuit

def quits (f : Frame) : Bool := Event.quitStands f.events

theorem asksToQuit_of_quits {f : Frame} (h : f.quits = true) : f.asksToQuit = true := by
  obtain ⟨before, e, after, hes, he, _⟩ := Event.quitStands_iff.1 h
  rw [asksToQuit, hes, List.any_eq_true]
  exact ⟨e, by simp, he⟩

end Frame

namespace Session

theorem mode_obey_eq_quit_iff (s : Session) (q : Request) :
    (s.obey q).mode = .quit ↔ q = .quit ∨ s.mode = .quit ∧ q ≠ .restart := by
  cases q with
  | pauseOrResume => cases h : s.mode <;> simp [obey, Mode.toggle, h]
  | _ => simp [obey]

theorem mode_handle_eq_quit_iff (s : Session) (e : Event) :
    (s.handle e).mode = .quit ↔
      e.asksToQuit = true ∨ s.mode = .quit ∧ ¬ e.asksToRestart = true := by
  rw [Event.asksToQuit_iff, Event.asksToRestart_iff, handle]
  cases h : e.request? with
  | some q =>
    have he : e ≠ .quit := by
      rintro rfl
      cases h
    simp [mode_obey_eq_quit_iff, he]
  | none => by_cases he : e = .quit <;> simp [he]

theorem mode_handleAll_eq_quit_iff (s : Session) (es : List Event) :
    (s.handleAll es).mode = .quit ↔
      Event.quitStands es = true ∨ s.mode = .quit ∧ es.any Event.asksToRestart = false := by
  induction es generalizing s with
  | nil => simp [handleAll, Event.quitStands]
  | cons e es ih =>
    have hcons : s.handleAll (e :: es) = (s.handle e).handleAll es := rfl
    rw [hcons, ih, mode_handle_eq_quit_iff]
    simp only [Event.quitStands, List.any_cons, Bool.or_eq_true, Bool.and_eq_true,
      Bool.not_eq_true', Bool.or_eq_false_iff, Bool.not_eq_true]
    grind

/-- A turn neither stalls nor changes the period, and it quits if and only if the frame does. -/
theorem turn_cases {s : Session} (hp : 0 < s.cpu.period) (hm : s.mode ≠ .quit) (f : Frame)
    (patience : Nat) :
    ((s.turn f patience).session.mode = .quit ↔ f.quits = true) ∧
      (s.turn f patience).session.cpu.period = s.cpu.period ∧
      ((s.turn f patience).collapse = none ∨
        ∃ fault, (s.turn f patience).collapse = some (.fault fault)) := by
  have hquit : (s.handleAll f.events).mode = .quit ↔ f.quits = true := by
    simp [mode_handleAll_eq_quit_iff, hm, Frame.quits]
  by_cases hr : (s.handleAll f.events).mode = .running
  · have hheard : 0 < (s.handleAll f.events).cpu.period := by rwa [cpu_handleAll]
    obtain ⟨hmode, hperiod, hc⟩ := elapse_cases hheard hr f.micros patience
    have hf : ¬ f.quits = true := by
      rw [← hquit, hr]
      exact Mode.noConfusion
    rw [turn_of_running hr]
    exact ⟨iff_of_false hmode hf, by rw [hperiod, cpu_handleAll], hc⟩
  · rw [turn_of_still hr]
    exact ⟨hquit, by rw [cpu_handleAll], .inl rfl⟩

end Session

namespace Host

theorem play_of_collapse {h : Host} {s : Session} {f : Frame} {c : Collapse}
    (hc : (s.turn f h.patience).collapse = some c) (drawn : Nat) (pending : List Notice)
    (fs : List Frame) : (h.play drawn pending s (f :: fs)).ending = .collapse c := by
  simp [play_cons, hc, Report.ended]

/-- A frame that is played to its end is shown; the run is over if the session quits. -/
theorem play_of_shown {h : Host} {s : Session} {f : Frame} {drawn : Nat}
    (hc : (s.turn f h.patience).collapse = none)
    (ho : h.outage? drawn (s.turn f h.patience).session.machine.raster = none)
    (pending : List Notice) (fs : List Frame) :
    h.play drawn pending s (f :: fs) =
      .cons ⟨(s.turn f h.patience).session.machine.raster.strokes,
          pending ++ (s.turn f h.patience).notices.toList⟩
        (if (s.turn f h.patience).session.mode = .quit then .ended [] .quit
         else h.play (drawn + (s.turn f h.patience).session.machine.raster.boxes.length) []
          (s.turn f h.patience).session fs) := by
  simp only [play_cons, hc, ho]

theorem play_of_outage {h : Host} {s : Session} {f : Frame} {drawn : Nat} {o : Outage}
    (hc : (s.turn f h.patience).collapse = none)
    (ho : h.outage? drawn (s.turn f h.patience).session.machine.raster = some o)
    (pending : List Notice) (fs : List Frame) :
    (h.play drawn pending s (f :: fs)).ending = .outage o := by
  simp [play_cons, hc, ho, Report.ended]

theorem play_of_second_quits {h : Host} {s : Session} {f g : Frame} (hno : h.outage = none)
    (hf : (s.turn f h.patience).collapse = none ∧ (s.turn f h.patience).session.mode ≠ .quit)
    (hg : ((s.turn f h.patience).session.turn g h.patience).collapse = none ∧
      ((s.turn f h.patience).session.turn g h.patience).session.mode = .quit)
    (drawn : Nat) (pending : List Notice) (fs : List Frame) :
    (h.play drawn pending s (f :: g :: fs)).ending = .quit ∧
      (h.play drawn pending s (f :: g :: fs)).showings.length = 2 := by
  rw [play_of_shown hf.1 (outage?_of_none hno _ _), if_neg hf.2,
    play_of_shown hg.1 (outage?_of_none hno _ _), if_pos hg.2]
  exact ⟨rfl, rfl⟩

theorem play_ends_with_first_quit {h : Host} {s : Session} {fs : List Frame} {drawn : Nat}
    {pending : List Notice} (hp : 0 < s.cpu.period) (hm : s.mode ≠ .quit)
    (hq : ∃ f ∈ fs, f.quits = true)
    (hfault : ∀ fault, (h.play drawn pending s fs).ending ≠ .collapse (.fault fault))
    (houtage : ∀ o, (h.play drawn pending s fs).ending ≠ .outage o) :
    (h.play drawn pending s fs).ending = .quit ∧
      (h.play drawn pending s fs).showings.length = fs.findIdx Frame.quits + 1 := by
  induction fs generalizing s drawn pending with
  | nil => simp at hq
  | cons f fs ih =>
    obtain ⟨hmode, hperiod, hc | ⟨fault, hc⟩⟩ := Session.turn_cases hp hm f h.patience
    · cases ho : h.outage? drawn (s.turn f h.patience).session.machine.raster with
      | some o => exact absurd (play_of_outage hc ho pending fs) (houtage o)
      | none =>
        have hplay := play_of_shown hc ho pending fs
        cases hf : f.quits with
        | true =>
          rw [if_pos (hmode.2 hf)] at hplay
          simp [hplay, Report.cons, Report.ended, List.findIdx_cons, hf]
        | false =>
          have hm' : ¬ (s.turn f h.patience).session.mode = .quit := by simp [hmode, hf]
          rw [if_neg hm'] at hplay
          rw [hplay] at hfault houtage ⊢
          have hq' : ∃ g ∈ fs, g.quits = true := by simpa [hf] using hq
          obtain ⟨hend, hlength⟩ := ih (hperiod ▸ hp) hm' hq' hfault houtage
          exact ⟨hend, by simp [Report.cons, List.findIdx_cons, hf, hlength]⟩
    · exact absurd (play_of_collapse hc drawn pending fs) (hfault fault)

theorem exists_quits_closing (frames : List Frame) :
    ∃ f ∈ frames ++ [Frame.closing], f.quits = true :=
  ⟨.closing, by simp, rfl⟩

theorem findIdx_eq_findIdx_iff {script : List Frame} :
    script.findIdx Frame.quits = script.findIdx Frame.asksToQuit ↔
      ∀ f, script.find? Frame.asksToQuit = some f → f.quits = true := by
  induction script with
  | nil => simp
  | cons f fs ih =>
    cases ha : f.asksToQuit with
    | false =>
      have hq : f.quits = false := by
        cases hq : f.quits with
        | false => rfl
        | true => simp [Frame.asksToQuit_of_quits hq] at ha
      simpa [List.findIdx_cons, ha, hq] using ih
    | true =>
      cases hq : f.quits <;> simp [List.findIdx_cons, ha, hq]

/-- A run that meets no fault and no outage shows the frames up to the first in which a request to
quit has no restart after it, and it ends there. This is the first frame with any request to quit
if and only if that frame has a request with no restart after it. -/
theorem run_ends_with_first_standing_quit {h : Host} {rom : Rom} {m : Machine} {hertz : Nat}
    {frames : List Frame} (hclock : 1 ≤ hertz ∧ hertz ≤ 1000000)
    (hfault : ∀ fault, (h.run rom m hertz frames).ending ≠ .collapse (.fault fault))
    (houtage : ∀ o, (h.run rom m hertz frames).ending ≠ .outage o) :
    (h.run rom m hertz frames).ending = .quit ∧
      (h.run rom m hertz frames).showings.length =
        (frames ++ [Frame.closing]).findIdx Frame.quits + 1 ∧
      ((h.run rom m hertz frames).showings.length =
          (frames ++ [Frame.closing]).findIdx Frame.asksToQuit + 1 ↔
        ∀ f, (frames ++ [Frame.closing]).find? Frame.asksToQuit = some f →
          ∃ before e after, f.events = before ++ e :: after ∧ e.asksToQuit = true ∧
            ∀ e' ∈ after, e'.asksToRestart = false) := by
  have hrun : h.run rom m hertz frames =
      h.play 0 [.running hertz] (.start rom m hertz) (frames ++ [.closing]) := by
    cases ho : h.outage with
    | none => simp only [run, ho]
    | some o =>
      cases o with
      | startup stage reason => simp [run, ho, Report.ended] at houtage
      | fill number reason => simp only [run, ho]
  rw [hrun] at hfault houtage ⊢
  obtain ⟨hend, hlength⟩ := play_ends_with_first_quit
    (Metronome.period_ofFrequency_pos hclock.2) Mode.noConfusion (exists_quits_closing frames)
    hfault houtage
  refine ⟨hend, hlength, ?_⟩
  rw [hlength, Nat.add_right_cancel_iff, findIdx_eq_findIdx_iff]
  simp only [Frame.quits, Event.quitStands_iff]

/-- Escape between two presses of Space ends the run in the second of four frames. -/
theorem run_ends_with_escape_between_pauses :
    let rom := Rom.spin
    let frames : List Frame :=
      [⟨0, [.keyDown (some .f5) false]⟩,
        ⟨0, [.keyDown (some .space) false, .keyDown (some .escape) false,
          .keyDown (some .space) false]⟩,
        ⟨0, [.quit]⟩]
    let r := run ⟨none, 0⟩ rom (.start rom .modern (.seeded 0)) 540 frames
    r.ending = .quit ∧ r.showings.length = 2 := by
  intro rom frames r
  have hr : r.ending = .quit ∧ r.showings.length = 2 := by
    simp only [r, run, frames, List.cons_append, List.nil_append]
    exact play_of_second_quits rfl ⟨rfl, by decide⟩ ⟨rfl, rfl⟩ _ _ _
  have hfault : ∀ fault, r.ending ≠ .collapse (.fault fault) := by simp [hr.1]
  have houtage : ∀ o, r.ending ≠ .outage o := by simp [hr.1]
  obtain ⟨hend, hlength, _⟩ := run_ends_with_first_standing_quit (by decide) hfault houtage
  exact ⟨hend, hlength⟩

/-- A restart after a request to quit in the same frame keeps the run going: two frames are shown,
and the first of them asks to quit. -/
theorem quit_lost_to_restart :
    let rom := Rom.spin
    let frames : List Frame := [⟨0, [.quit, .keyDown (some .f5) false]⟩]
    let r := run ⟨none, 0⟩ rom (.start rom .modern (.seeded 0)) 540 frames
    r.ending = .quit ∧ r.showings.length = 2 ∧
      (frames ++ [Frame.closing]).findIdx Frame.asksToQuit + 1 = 1 := by
  intro rom frames r
  have hr : r.ending = .quit ∧ r.showings.length = 2 := by
    simp only [r, run, frames, List.cons_append, List.nil_append]
    exact play_of_second_quits rfl ⟨rfl, by decide⟩ ⟨rfl, rfl⟩ _ _ _
  exact ⟨hr.1, hr.2, rfl⟩

end Host

end Chip8
