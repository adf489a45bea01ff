import Mathlib.Data.List.Basic
import Chip8.Proofs.PausedTime
import Chip8.Proofs.PictureViews
import Chip8.Proofs.Replay

/-!
# Runs that are cut short while painting

Boxes are counted over a whole run. If the box with a given number cannot be filled, the run is the
one without an outage as long as fewer boxes are filled in it. Otherwise it ends with the picture
that the box belongs to: this one is not shown, and those before it are shown as ever.

More generally, whatever a run breaks off with, of the iterations it has begun it shows those that
do not fail and no other.
-/
namespace Chip8

namespace Showing

def boxes (s : Showing) : List Raster.Box := s.strokes.filterMap Raster.Stroke.box?

def filled : List Showing → Nat
  | [] => 0
  | s :: ss => s.boxes.length + filled ss

theorem boxes_of_raster (r : Raster) (notices : List Notice) :
    boxes ⟨r.strokes, notices⟩ = r.boxes := r.filterMap_box?_strokes

theorem filled_cons (s : Showing) (ss : List Showing) :
    filled (s :: ss) = s.boxes.length + filled ss := rfl

theorem filled_take_le {i j : Nat} (h : i ≤ j) (ss : List Showing) :
    filled (ss.take i) ≤ filled (ss.take j) := by
  induction ss generalizing i j with
  | nil => simp
  | cons s ss ih =>
    cases i with
    | zero => exact Nat.zero_le _
    | succ i =>
      cases j with
      | zero => omega
      | succ j =>
        rw [List.take_succ_cons, List.take_succ_cons, filled_cons, filled_cons]
        exact Nat.add_le_add_left (ih (Nat.le_of_succ_le_succ h)) _

end Showing

namespace Report

/-- With `drawn` boxes filled before and an outage at box `n`, a run that would have the report `r`
has the report `r'`: the outage is not reached, or it comes with the showing after the first `k`. -/
def Truncates (drawn n : Nat) (o : Outage) (r r' : Report) : Prop :=
  (drawn + Showing.filled r.showings < n ∧ r' = r) ∨
    ∃ k shown, r.showings[k]? = some shown ∧ drawn + Showing.filled (r.showings.take k) < n ∧
      n ≤ drawn + Showing.filled (r.showings.take (k + 1)) ∧
      r' = ⟨some .standard, r.showings.take k, shown.notices, .outage o⟩

variable {drawn n : Nat} {o : Outage} {r r' : Report} {s : Showing}

theorem truncates_ended (hn : drawn < n) (notices : List Notice) (e : Ending) :
    Truncates drawn n o (.ended notices e) (.ended notices e) :=
  .inl ⟨hn, rfl⟩

theorem truncates_of_struck (hn : drawn < n) (h : n ≤ drawn + s.boxes.length) :
    Truncates drawn n o (.cons s r) (.ended s.notices (.outage o)) := by
  refine .inr ⟨0, s, rfl, hn, ?_, rfl⟩
  rw [cons, List.take_succ_cons, Showing.filled_cons]
  exact Nat.le_trans h (Nat.add_le_add_left (Nat.le_add_right _ _) _)

theorem Truncates.cons (h : Truncates (drawn + s.boxes.length) n o r r') :
    Truncates drawn n o (.cons s r) (.cons s r') := by
  rcases h with ⟨htotal, rfl⟩ | ⟨k, shown, hget, hbefore, hafter, rfl⟩
  · refine .inl ⟨?_, rfl⟩
    rwa [Report.cons, Showing.filled_cons, ← Nat.add_assoc]
  · refine .inr ⟨k + 1, shown, hget, ?_, ?_, rfl⟩
    · rwa [Report.cons, List.take_succ_cons, Showing.filled_cons, ← Nat.add_assoc]
    · rwa [Report.cons, List.take_succ_cons, Showing.filled_cons, ← Nat.add_assoc]

end Report

namespace Host

variable {patience n drawn : Nat} {reason : String}

theorem outage?_fill_of_le {r : Raster} (hn : drawn < n) (h : n ≤ drawn + r.boxes.length) :
    outage? ⟨some (.fill n reason), patience⟩ drawn r = some (.fill n reason) := by
  rcases fill_cases ⟨some (.fill n reason), patience⟩ drawn r.boxes with
    ⟨_, _, hout, _, _, hfill⟩ | ⟨hclear, _⟩
  · cases hout
    simp only [outage?, hfill]
  · have hmissed := hclear n reason rfl
    omega

theorem outage?_fill_of_lt {r : Raster} (h : drawn + r.boxes.length < n) :
    outage? ⟨some (.fill n reason), patience⟩ drawn r = none := by
  rcases fill_cases ⟨some (.fill n reason), patience⟩ drawn r.boxes with
    ⟨_, _, hout, _, hle, _⟩ | ⟨_, hfill⟩
  · cases hout
    omega
  · simp only [outage?, hfill]

/-- The box that cannot be filled is that of some picture, or the frames do not get so far. -/
theorem truncates_play (hn : drawn < n) (pending : List Notice) (s : Session) (fs : List Frame) :
    Report.Truncates drawn n (.fill n reason) (play ⟨none, patience⟩ drawn pending s fs)
      (play ⟨some (.fill n reason), patience⟩ drawn pending s fs) := by
  induction fs generalizing drawn pending s with
  | nil => exact Report.truncates_ended hn _ _
  | cons f fs ih =>
    cases hc : (s.turn f patience).collapse with
    | some c =>
      simp only [play_cons, hc]
      exact Report.truncates_ended hn _ _
    | none =>
      let picture := (s.turn f patience).session.machine.raster
      let notices := pending ++ (s.turn f patience).notices.toList
      have hboxes := congrArg List.length (Showing.boxes_of_raster picture notices)
      rw [play_of_shown (h := ⟨none, patience⟩) hc (outage?_of_none rfl drawn picture)]
      -- Up to this picture the two runs agree; the box is one of its own, or they go on alike.
      by_cases hle : n ≤ drawn + picture.boxes.length
      · have hout : outage? ⟨some (.fill n reason), patience⟩ drawn picture =
            some (.fill n reason) := outage?_fill_of_le hn hle
        simp only [play_cons, hc, picture, hout]
        apply Report.truncates_of_struck (s := ⟨picture.strokes, notices⟩) hn
        rwa [hboxes]
      · have hlt := Nat.not_le.1 hle
        rw [play_of_shown (h := ⟨some (.fill n reason), patience⟩) hc (outage?_fill_of_lt hlt)]
        apply Report.Truncates.cons
        rw [hboxes]
        by_cases hq : (s.turn f patience).session.mode = .quit
        · simp only [if_pos hq]
          exact Report.truncates_ended hlt _ _
        · simp only [if_neg hq]
          exact ih hlt _ _

def Fails (h : Host) (drawn : Nat) (i : Iteration) : Prop :=
  (h.turn i).collapse ≠ none ∨ h.outage? drawn (h.turn i).session.machine.raster ≠ none

/-- For a run through the iterations `is`, begun when `drawn` boxes are filled: the report has one
showing for each iteration that does not fail, and none for one that fails. -/
def ShowsUnlessFailed (h : Host) (drawn : Nat) (is : List Iteration) (r : Report) : Prop :=
  r.showings.length ≤ is.length ∧
    ∀ k i, is[k]? = some i →
      let before := drawn + Showing.filled (r.showings.take k)
      (h.Fails before i → r.showings[k]? = none ∧ r.ending ≠ .quit) ∧
        (¬ h.Fails before i →
          ∃ shown, r.showings[k]? = some shown ∧ shown.strokes = h.strokes i)

variable {h : Host} {i : Iteration}

theorem showsUnlessFailed_nil (drawn : Nat) (notices : List Notice) (e : Ending) :
    h.ShowsUnlessFailed drawn [] (.ended notices e) :=
  ⟨Nat.le_refl 0, fun k i hi => by simp at hi⟩

theorem showsUnlessFailed_of_fails (hi : h.Fails drawn i) (notices : List Notice) {e : Ending}
    (he : e ≠ .quit) : h.ShowsUnlessFailed drawn [i] (.ended notices e) := by
  refine ⟨Nat.zero_le _, fun k j hj => ?_⟩
  cases k with
  | zero =>
    cases hj
    exact ⟨fun _ => ⟨rfl, he⟩, fun hfine => absurd hi hfine⟩
  | succ k => simp at hj

theorem ShowsUnlessFailed.cons {s : Showing} {is : List Iteration} {r : Report}
    (hi : ¬ h.Fails drawn i) (hs : s.strokes = h.strokes i)
    (hr : h.ShowsUnlessFailed (drawn + s.boxes.length) is r) :
    h.ShowsUnlessFailed drawn (i :: is) (.cons s r) := by
  obtain ⟨hlength, hrest⟩ := hr
  refine ⟨Nat.succ_le_succ hlength, fun k j hj => ?_⟩
  cases k with
  | zero =>
    cases hj
    exact ⟨fun hfails => absurd hfails hi, fun _ => ⟨s, rfl, hs⟩⟩
  | succ k =>
    have htail := hrest k j hj
    rwa [Nat.add_assoc] at htail

/-- The iterations that are begun are shown up to one that fails. -/
theorem showsUnlessFailed_play (drawn : Nat) (pending : List Notice) (s : Session)
    (fs : List Frame) :
    h.ShowsUnlessFailed drawn (h.begun drawn s fs) (h.play drawn pending s fs) := by
  induction fs generalizing drawn pending s with
  | nil => exact showsUnlessFailed_nil drawn pending .quit
  | cons f fs ih =>
    cases hc : (s.turn f h.patience).collapse with
    | some c =>
      have hfails : h.Fails drawn ⟨s, f⟩ := .inl (by simp [turn, hc])
      simp only [play_cons, begun, turn, hc, reduceCtorEq, false_and, if_false]
      exact showsUnlessFailed_of_fails hfails _ Ending.noConfusion
    | none =>
      cases ho : h.outage? drawn (s.turn f h.patience).session.machine.raster with
      | some o =>
        have hfails : h.Fails drawn ⟨s, f⟩ := .inr (by simp [turn, ho])
        simp only [play_cons, begun, turn, hc, ho, reduceCtorEq, false_and, and_false, if_false]
        exact showsUnlessFailed_of_fails hfails _ Ending.noConfusion
      | none =>
        have hfine : ¬ h.Fails drawn ⟨s, f⟩ := by simp [Fails, turn, hc, ho]
        rw [play_of_shown hc ho]
        by_cases hq : (s.turn f h.patience).session.mode = .quit
        · simp only [begun, turn, hc, ho, hq, ne_eq, not_true, and_false, if_false, if_true]
          exact .cons hfine rfl (showsUnlessFailed_nil _ _ _)
        · rw [begun_of_shown hc ho hq, if_neg hq]
          apply ShowsUnlessFailed.cons hfine rfl
          rw [Showing.boxes_of_raster]
          exact ih _ _ _

theorem ending_play_of_sound (hno : h.outage = none) (drawn : Nat) (pending : List Notice)
    {s : Session} (hp : 0 < s.cpu.period) (hm : s.mode ≠ .quit) (fs : List Frame) :
    (h.play drawn pending s fs).ending = .quit ∨
      ∃ f, (h.play drawn pending s fs).ending = .collapse (.fault f) := by
  induction fs generalizing drawn pending s with
  | nil => exact .inl rfl
  | cons f fs ih =>
    obtain ⟨_, hperiod, hc | ⟨fault, hc⟩⟩ := Session.turn_cases hp hm f h.patience
    · rw [play_of_shown hc (outage?_of_none hno drawn _)]
      by_cases hq : (s.turn f h.patience).session.mode = .quit
      · rw [if_pos hq]
        exact .inl rfl
      · rw [if_neg hq]
        exact ih _ _ (hperiod ▸ hp) hq
    · exact .inr ⟨fault, play_of_collapse hc drawn pending fs⟩

theorem run_eq_play (hstart : ∀ stage reason, h.outage ≠ some (.startup stage reason)) (rom : Rom)
    (m : Machine) (hertz : Nat) (frames : List Frame) :
    h.run rom m hertz frames =
      h.play 0 [.running hertz] (.start rom m hertz) (frames ++ [.closing]) := by
  unfold run
  split
  · rename_i stage reason ho
    exact absurd ho (hstart stage reason)
  · rfl

/-- If the box with number `n` cannot be filled, a run in which fewer boxes are filled does not
change. Otherwise the run ends with that outage, and it shows what it would have shown before the
first picture by which `n` boxes are filled. No iteration that fails, for this or another reason,
is shown. -/
theorem drawing_outage_truncates (rom : Rom) (m : Machine) (hertz : Nat)
    (hclock : 1 ≤ hertz ∧ hertz ≤ 1000000) (frames : List Frame) (patience n : Nat) (hn : 1 ≤ n)
    (reason : String) :
    let sound := run ⟨none, patience⟩ rom m hertz frames
    let broken := run ⟨some (.fill n reason), patience⟩ rom m hertz frames
    (sound.ending = .quit ∨ ∃ f, sound.ending = .collapse (.fault f)) ∧
      (Showing.filled sound.showings < n → broken = sound) ∧
      (n ≤ Showing.filled sound.showings →
        ∃ j, 1 ≤ j ∧ j ≤ sound.showings.length ∧
          n ≤ Showing.filled (sound.showings.take j) ∧
          (∀ i < j, Showing.filled (sound.showings.take i) < n) ∧
          broken.ending = .outage (.fill n reason) ∧
          (Outage.fill n reason).context = "error drawing to canvas" ∧
          broken.showings = sound.showings.take (j - 1)) ∧
      ∀ h : Host, (∀ stage why, h.outage ≠ some (.startup stage why)) →
        h.ShowsUnlessFailed 0 (h.begun 0 (.start rom m hertz) (frames ++ [.closing]))
          (h.run rom m hertz frames) := by
  intro sound broken
  have hsound : sound = _ := run_eq_play (by simp) rom m hertz frames
  have hbroken : broken = _ := run_eq_play (by simp) rom m hertz frames
  have htruncates : Report.Truncates 0 n (.fill n reason) sound broken := by
    rw [hsound, hbroken]
    exact truncates_play hn _ _ _
  refine ⟨?_, fun hfew => ?_, fun hmany => ?_, fun h hstart => ?_⟩
  · rw [hsound]
    exact ending_play_of_sound rfl 0 _ (Metronome.period_ofFrequency_pos hclock.2)
      Mode.noConfusion _
  · rcases htruncates with ⟨_, hsame⟩ | ⟨k, _, hget, _, hreached, _⟩
    · exact hsame
    · -- An outage that is reached takes `n` boxes, more than there are.
      have hk : k + 1 ≤ sound.showings.length := (List.getElem?_eq_some_iff.1 hget).1
      have hle := Showing.filled_take_le hk sound.showings
      rw [List.take_length] at hle
      omega
  · rcases htruncates with ⟨htotal, _⟩ | ⟨k, shown, hget, hbefore, hreached, hcut⟩
    · omega
    · rw [Nat.zero_add] at hbefore hreached
      have hk : k < sound.showings.length := (List.getElem?_eq_some_iff.1 hget).1
      refine ⟨k + 1, Nat.succ_pos k, hk, hreached, fun i hi => ?_, ?_, rfl, ?_⟩
      · exact Nat.lt_of_le_of_lt (Showing.filled_take_le (Nat.le_of_lt_succ hi) _) hbefore
      · rw [hcut]
      · rw [hcut]
        rfl
  · rw [run_eq_play hstart]
    exact showsUnlessFailed_play 0 _ _ _

/-- One cell is lit throughout, so every picture has one box. If the second box cannot be filled,
the picture of the first frame is shown and that of the closing frame is not. -/
theorem drawing_outage_truncates_at_second_box :
    let m : Machine :=
      { Machine.start .spin .modern (.seeded 0) with raster := Raster.blank.light (Raster.cell 0 0) }
    let sound := run ⟨none, 0⟩ .spin m 540 [⟨0, []⟩]
    let broken := run ⟨some (.fill 2 "no device"), 0⟩ .spin m 540 [⟨0, []⟩]
    sound.ending = .quit ∧ sound.showings.length = 2 ∧
      broken.ending = .outage (.fill 2 "no device") ∧
      broken.showings = sound.showings.take 1 ∧ broken.showings.length = 1 := by
  intro m sound broken
  have hspins : m.Spins := ⟨rfl, rfl, rfl⟩
  have hboxes : m.raster.boxes = [.ofCell (Raster.cell 0 0)] :=
    congrArg (List.map _) (Raster.lit_blank_light _)
  clear_value m
  have htime : (Session.start .spin m 540).OnTime 1851 0 := ⟨rfl, rfl, rfl⟩
  have hsound : sound = _ := run_eq_play (by simp) .spin m 540 [⟨0, []⟩]
  obtain ⟨hend, hlength, hshown⟩ :=
    play_of_unhindered (h := ⟨none, 0⟩) rfl (by decide) htime (by simp)
      (Machine.unhindered_replay_of_spins hspins 1851 0 [⟨0, []⟩]) 0 [.running 540]
  rw [← hsound] at hend hlength hshown
  have hbox : ∀ k ≤ 1, ∃ shown, sound.showings[k]? = some shown ∧ shown.boxes.length = 1 := by
    intro k hk
    obtain ⟨shown, hget, hstrokes⟩ := hshown k hk
    rw [List.take_succ_cons, List.take_nil] at hstrokes
    have hsame : shown.strokes = m.raster.strokes := hstrokes
    refine ⟨shown, hget, ?_⟩
    rw [Showing.boxes, hsame, Raster.filterMap_box?_strokes, hboxes]
    rfl
  obtain ⟨a, b, hab⟩ := List.length_eq_two.1 hlength
  rw [hab] at hbox
  obtain ⟨_, ⟨rfl⟩, ha⟩ := hbox 0 (by decide)
  obtain ⟨_, ⟨rfl⟩, hb⟩ := hbox 1 (by decide)
  have hfirst : Showing.filled (sound.showings.take 1) = 1 := by
    rw [hab]
    exact ha
  have hfilled : Showing.filled sound.showings = 2 := by
    rw [hab, Showing.filled_cons, ha, Showing.filled_cons, hb]
    rfl
  obtain ⟨_, _, hcut, _⟩ :=
    drawing_outage_truncates .spin m 540 (by decide) [⟨0, []⟩] 0 2 (by decide) "no device"
  obtain ⟨j, hj, hle, hreached, _, hbroken, _, hleft⟩ := hcut (Nat.le_of_eq hfilled.symm)
  -- The first picture has too few boxes to be the one that is cut.
  have hne : j ≠ 1 := by
    rintro rfl
    have hreached' : 2 ≤ Showing.filled (sound.showings.take 1) := hreached
    omega
  have hle' : j ≤ 2 := Nat.le_trans hle (Nat.le_of_eq hlength)
  obtain rfl : j = 2 := by omega
  have hshowings : broken.showings = sound.showings.take 1 := hleft
  exact ⟨hend, hlength, hbroken, hshowings, by rw [hshowings, hab]; rfl⟩

end Host

end Chip8
