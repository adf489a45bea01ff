import Chip8.RasterViews
import Chip8.Session

/-!
# Reports of whole runs

The host opens a window, then takes the session from turn to turn and shows the picture at the end
of each. The run ends with the turn that quits, with a fault of the machine or with an outage of
the host: when it starts up, or when it fills a box. A turn that fails shows nothing. When the
frames are used up the window is closed.
-/
namespace Chip8

/-- The steps of a host's start, in order. -/
inductive Stage where
  | system
  | video
  | window
  | renderer
  | events
  deriving DecidableEq, Repr

inductive Outage where
  | startup (stage : Stage) (reason : String)
  /-- The box with this number, counted from one over the whole run, cannot be filled. -/
  | fill (number : Nat) (reason : String)
  deriving DecidableEq, Repr

namespace Outage

def context : Outage → String
  | .startup .system _ => "failed to initialize SDL context"
  | .startup .video _ => "failed to initialize video subsystem"
  | .startup .window _ => "error creating window"
  | .startup .renderer _ => "error creating window canvas"
  | .startup .events _ => "error obtaining the event pump"
  | .fill .. => "error drawing to canvas"

def reason : Outage → String
  | .startup _ reason => reason
  | .fill _ reason => reason

def message (o : Outage) : String := o.context ++ ": SDL error: " ++ o.reason

/-- Whether the window was there when the outage came. -/
def leavesWindow : Outage → Bool
  | .startup .system _ | .startup .video _ | .startup .window _ => false
  | _ => true

/-- Whether the outage comes with the given box of the run. -/
def strikes (box : Nat) : Outage → Bool
  | .startup .. => false
  | .fill number _ => number == box

end Outage

structure Window where
  title : String
  width : Nat
  height : Nat
  deriving DecidableEq, Repr

namespace Window

def standard : Window where
  title := "CHIP-8"
  width := Raster.width * Raster.zoom
  height := Raster.height * Raster.zoom

end Window

inductive Ending where
  | quit
  | collapse (c : Collapse)
  | outage (o : Outage)
  deriving DecidableEq, Repr

namespace Collapse

def message : Collapse → String
  | .fault f => "emulation failed: " ++ f.message
  | .stall => "emulation failed: the clock leaves the machine no end"

end Collapse

/-- A picture as it was painted, with the notices since the one before. -/
structure Showing where
  strokes : List Raster.Stroke
  notices : List Notice

structure Report where
  window : Option Window
  showings : List Showing
  /-- The notices after the last showing. -/
  rest : List Notice
  ending : Ending

/-- The circumstances of a run: what breaks, and how many rounds a burst without end may take. -/
structure Host where
  outage : Option Outage
  patience : Nat

namespace Report

def ended (notices : List Notice) (e : Ending) : Report := ⟨some .standard, [], notices, e⟩

def cons (s : Showing) (r : Report) : Report := { r with showings := s :: r.showings }

end Report

namespace Host

/-- Fills the boxes one after the other up to one that cannot be filled. Of the run `drawn` boxes
are filled before, and the result says how many are filled after. -/
-- Irreducible, since a picture's boxes take all of its cells to unfold.
@[irreducible] def fill (h : Host) : Nat → List Raster.Box → Except Outage Nat
  | drawn, [] => .ok drawn
  | drawn, _ :: bs =>
      match h.outage.filter (Outage.strikes (drawn + 1)) with
      | some o => .error o
      | none => h.fill (drawn + 1) bs

/-- Takes a session through frames; `drawn` boxes are filled and `pending` notices not yet shown. -/
def play (h : Host) (drawn : Nat) (pending : List Notice) (s : Session) : List Frame → Report
  | [] => .ended pending .quit
  | f :: fs =>
      let t := s.turn f h.patience
      let notices := pending ++ t.notices.toList
      let picture := t.session.machine.raster
      match t.collapse with
      | some c => .ended notices (.collapse c)
      | none =>
          match h.fill drawn picture.boxes with
          | .error o => .ended notices (.outage o)
          | .ok drawn =>
              .cons ⟨picture.strokes, notices⟩
                (if t.session.mode = .quit then .ended [] .quit
                 else h.play drawn [] t.session fs)

/-- A whole run, from the opening of the window on. -/
def run (h : Host) (rom : Rom) (m : Machine) (hertz : Nat) (frames : List Frame) : Report :=
  match h.outage with
  | some (.startup stage reason) =>
      let o := Outage.startup stage reason
      { Report.ended [] (.outage o) with window := if o.leavesWindow then some .standard else none }
  | _ => h.play 0 [.running hertz] (.start rom m hertz) (frames ++ [.closing])

/-- The boxes are filled up to the one with the number of the outage, or all of them are. -/
theorem fill_cases (h : Host) (drawn : Nat) (bs : List Raster.Box) :
    (∃ n reason, h.outage = some (.fill n reason) ∧ drawn < n ∧ n ≤ drawn + bs.length ∧
        h.fill drawn bs = .error (.fill n reason)) ∨
      ((∀ n reason, h.outage = some (.fill n reason) → n ≤ drawn ∨ drawn + bs.length < n) ∧
        h.fill drawn bs = .ok (drawn + bs.length)) := by
  induction bs generalizing drawn with
  | nil => exact .inr ⟨fun n _ _ => (Nat.lt_or_ge drawn n).symm, by rw [fill]; rfl⟩
  | cons b bs ih =>
    cases hstruck : h.outage.filter (Outage.strikes (drawn + 1)) with
    | some o =>
      obtain ⟨hout, hnumber⟩ := Option.filter_eq_some_iff.1 hstruck
      cases o with
      | startup stage reason => simp [Outage.strikes] at hnumber
      | fill n reason =>
        obtain rfl : n = drawn + 1 := by simpa [Outage.strikes] using hnumber
        refine .inl ⟨_, reason, hout, Nat.lt_succ_self drawn, ?_, by simp only [fill, hstruck]⟩
        simp only [List.length_cons]
        omega
    | none =>
      have hother : ∀ n reason, h.outage = some (.fill n reason) → n ≠ drawn + 1 := by
        rintro n reason hout rfl
        simp [hout, Outage.strikes] at hstruck
      simp only [fill, hstruck, List.length_cons]
      rcases ih (drawn + 1) with ⟨n, reason, hout, hlt, hle, hfill⟩ | ⟨hclear, hfill⟩
      · exact .inl ⟨n, reason, hout, by omega, by omega, hfill⟩
      · refine .inr ⟨fun n reason hout => ?_, by rw [hfill]; congr 1; omega⟩
        have hne := hother n reason hout
        have hout' := hclear n reason hout
        omega

theorem fill_of_none {h : Host} (hno : h.outage = none) (drawn : Nat) (bs : List Raster.Box) :
    h.fill drawn bs = .ok (drawn + bs.length) := by
  rcases h.fill_cases drawn bs with ⟨_, _, hout, _⟩ | ⟨_, hfill⟩
  · simp [hno] at hout
  · exact hfill

theorem eq_of_fill {h : Host} {drawn filled : Nat} {bs : List Raster.Box}
    (hok : h.fill drawn bs = .ok filled) : filled = drawn + bs.length := by
  rcases h.fill_cases drawn bs with ⟨_, _, _, _, _, hfill⟩ | ⟨_, hfill⟩
  · simp [hfill] at hok
  · simpa [hfill] using hok.symm

/-- The outage that comes while a picture is painted after `drawn` boxes. -/
def outage? (h : Host) (drawn : Nat) (r : Raster) : Option Outage :=
  match h.fill drawn r.boxes with
  | .ok _ => none
  | .error o => some o

theorem outage?_of_none {h : Host} (hno : h.outage = none) (drawn : Nat) (r : Raster) :
    h.outage? drawn r = none := by
  simp only [outage?, fill_of_none hno]

/-- A turn in terms of the outage that its picture meets. -/
theorem play_cons (h : Host) (drawn : Nat) (pending : List Notice) (s : Session) (f : Frame)
    (fs : List Frame) :
    h.play drawn pending s (f :: fs) =
      let t := s.turn f h.patience
      let notices := pending ++ t.notices.toList
      let picture := t.session.machine.raster
      match t.collapse with
      | some c => .ended notices (.collapse c)
      | none =>
          match h.outage? drawn picture with
          | some o => .ended notices (.outage o)
          | none =>
              .cons ⟨picture.strokes, notices⟩
                (if t.session.mode = .quit then .ended [] .quit
                 else h.play (drawn + picture.boxes.length) [] t.session fs) := by
  rw [play]
  cases hfill : h.fill drawn (s.turn f h.patience).session.machine.raster.boxes with
  | error o => simp only [outage?, hfill]
  | ok filled => simp only [outage?, hfill, eq_of_fill hfill]

end Host

end Chip8
