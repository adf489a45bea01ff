import Chip8.Proofs.KeyWait
import Chip8.Proofs.Quitting
import Chip8.Proofs.Timekeeping

/-!
# Runs as replays of operations

A script whose events are pad keys, or none the session attends to, can be replayed on a bare
machine: in each frame the keys in order, then one step for each period of the processor that ends
within the frame, then one tick for each period of the timers, the time being counted from the
start of the run. If the replay meets no fault and no wait for a key, the run shows after each
frame what the replay has drawn by then. A session that gets there owes both metronomes the
remainder of the time that has passed, which is why no beat is lost between two frames.
-/
namespace Chip8

namespace Event

def isPadOrIgnored (e : Event) : Bool :=
  match e.request? with
  | some (.pad _ _) => true
  | some _ => false
  | none => e != .quit

def latch? (e : Event) : Option Operation :=
  match e.request? with
  | some (.pad k down) => some (.latch (UInt8.ofNat k.val) down)
  | _ => none

end Event

namespace Frame

/-- The operations for a frame that begins when `past` microseconds have passed. -/
def operations (period past : Nat) (f : Frame) : List Operation :=
  f.events.filterMap Event.latch? ++
    (List.replicate ((past + f.micros) / period - past / period) .step ++
      List.replicate ((past + f.micros) / 16666 - past / 16666) .countDown)

def replay (period : Nat) : Nat → List Frame → List Operation
  | _, [] => []
  | past, f :: fs => f.operations period past ++ replay period (past + f.micros) fs

theorem mem_replay {op : Operation} (period past : Nat) (frames : List Frame)
    (h : op ∈ replay period past frames) :
    op = .step ∨ op = .countDown ∨ ∃ key down, op = .latch key down := by
  induction frames generalizing past with
  | nil => cases h
  | cons f fs ih =>
    simp only [replay, operations, List.mem_append, List.mem_filterMap, List.mem_replicate] at h
    rcases h with (⟨e, _, he⟩ | ⟨_, rfl⟩ | ⟨_, rfl⟩) | h
    · unfold Event.latch? at he
      split at he
      · cases he
        exact .inr (.inr ⟨_, _, rfl⟩)
      · cases he
    · exact .inl rfl
    · exact .inr (.inl rfl)
    · exact ih _ h

end Frame

namespace Machine

/-- None of the operations, one after the other, is a step that fails, and the machine waits for no
key before, between and after them. -/
structure Unhindered (m : Machine) (ops : List Operation) : Prop where
  idle : ∀ before after, ops = before ++ after → (m.afterAll before).isWaiting = false
  steps : ∀ before after, ops = before ++ .step :: after → ∃ m', (m.afterAll before).step = .ok m'

variable {m : Machine} {before after ops : List Operation}

theorem Unhindered.not_waiting (h : m.Unhindered ops) : m.isWaiting = false := h.idle [] ops rfl

theorem Unhindered.left (h : m.Unhindered (before ++ after)) : m.Unhindered before where
  idle b a hsplit := h.idle b (a ++ after) (by rw [hsplit, List.append_assoc])
  steps b a hsplit := h.steps b (a ++ after) (by rw [hsplit, List.append_assoc]; rfl)

theorem Unhindered.right (h : m.Unhindered (before ++ after)) :
    (m.afterAll before).Unhindered after where
  idle b a hsplit := by
    rw [← afterAll_append]
    exact h.idle (before ++ b) a (by rw [hsplit, List.append_assoc])
  steps b a hsplit := by
    rw [← afterAll_append]
    exact h.steps (before ++ b) a (by rw [hsplit, List.append_assoc])

/-- An unhindered step leads on to where the other operations are unhindered. -/
theorem Unhindered.of_step (h : m.Unhindered (.step :: ops)) :
    ∃ m', m.step = .ok m' ∧ m'.Unhindered ops ∧ m.afterAll (.step :: ops) = m'.afterAll ops := by
  obtain ⟨m', hstep⟩ := h.steps [] ops rfl
  have hafter : Operation.step.after m = m' := Operation.after_step_of_ok hstep
  have hsplit : m.Unhindered ([.step] ++ ops) := h
  have hrest : (Operation.step.after m).Unhindered ops := hsplit.right
  exact ⟨m', hstep, hafter ▸ hrest, by rw [afterAll_cons, hafter]⟩

end Machine

namespace Burst

/-- An unhindered machine makes one step for each whole period, and the remainder is left. -/
theorem run_of_unhindered {n : Nat} {b : Burst} (hp : 0 < b.cpu.period)
    (hn : b.cpu.pending / b.cpu.period = n) (h : b.machine.Unhindered (List.replicate n .step))
    (patience : Nat) :
    ∃ cycles notices, run (n + 1 + patience) b = some
      (⟨b.machine.afterAll (List.replicate n .step),
        ⟨b.cpu.period, b.cpu.pending % b.cpu.period⟩, cycles, notices⟩, .running) := by
  induction n generalizing b with
  | zero =>
    have hlt := (Nat.div_eq_zero_iff_lt hp).1 hn
    have hround : b.round = .over b .running := by
      simp [round, h.not_waiting, Metronome.beat?_of_lt hlt]
    rw [Nat.add_right_comm, run_of_over hround, Nat.mod_eq_of_lt hlt]
    exact ⟨b.cycles, b.notices, rfl⟩
  | succ n ih =>
    have hle : b.cpu.period ≤ b.cpu.pending := Nat.le_of_not_lt fun hlt => by
      rw [Nat.div_eq_of_lt hlt] at hn
      cases hn
    obtain ⟨m, hstep, hrest, hafter⟩ := h.of_step
    let b' : Burst := ⟨m, ⟨b.cpu.period, b.cpu.pending - b.cpu.period⟩, b.cycles + 1,
      b.notices ++ b.machine.stepNotices⟩
    have hround : b.round = .again b' := by
      simp [b', round, h.not_waiting, Metronome.beat?_of_le hle, cycle, hstep]
    have hn' : b'.cpu.pending / b'.cpu.period = n := by
      have hd := Nat.div_eq_sub_div hp hle
      simp only [b']
      omega
    obtain ⟨cycles, notices, hrun⟩ := ih (b := b') hp hn' hrest
    have hmod : b'.cpu.pending % b'.cpu.period = b.cpu.pending % b.cpu.period :=
      (Nat.mod_eq_sub_mod hle).symm
    rw [Nat.add_right_comm, run_of_again hround, hrun, hmod, List.replicate_succ, hafter]
    exact ⟨cycles, notices, rfl⟩

end Burst

namespace Metronome

theorem div_mod_add {period : Nat} (hp : 0 < period) (past micros : Nat) :
    (past % period + micros) / period = (past + micros) / period - past / period := by
  rw [← div_add_mod_add_div hp past micros, Nat.add_sub_cancel_left]

end Metronome

namespace Session

variable {s : Session}

theorem handle_of_pad {e : Event} (h : e.isPadOrIgnored = true) :
    s.handle e = { s with machine := s.machine.afterAll e.latch?.toList } := by
  unfold Event.isPadOrIgnored at h
  unfold handle Event.latch?
  match hq : e.request? with
  | some (.pad k down) => rfl
  | none =>
    have hne : e ≠ .quit := by simpa [hq] using h
    rw [if_neg hne]
    rfl
  | some .pauseOrResume | some .restart | some .quit => simp [hq] at h

theorem handleAll_of_pad {es : List Event} (h : ∀ e ∈ es, e.isPadOrIgnored = true) :
    s.handleAll es = { s with machine := s.machine.afterAll (es.filterMap Event.latch?) } := by
  induction es generalizing s with
  | nil => rfl
  | cons e es ih =>
    have hcons : s.handleAll (e :: es) = (s.handle e).handleAll es := rfl
    rw [hcons, handle_of_pad (h e List.mem_cons_self),
      ih fun e' he' => h e' (List.mem_cons_of_mem e he'), Machine.afterAll_filterMap_cons]

/-- The session runs, and each metronome has what is left of the time since the start when its
whole periods are taken off. -/
structure OnTime (s : Session) (period past : Nat) : Prop where
  running : s.mode = .running
  cpu : s.cpu = ⟨period, past % period⟩
  timers : s.timers = ⟨16666, past % 16666⟩

/-- Unhindered steps take a session on time through any number of microseconds: one step for each
period of the processor that ends in them, then one tick for each of the timers. -/
theorem elapse_of_unhindered {period past micros : Nat} (hs : s.OnTime period past)
    (hp : 0 < period)
    (h : s.machine.Unhindered
      (List.replicate ((past + micros) / period - past / period) .step)) (patience : Nat) :
    (s.elapse micros patience).collapse = none ∧
      (s.elapse micros patience).session.OnTime period (past + micros) ∧
      (s.elapse micros patience).session.machine =
        s.machine.afterAll
          (List.replicate ((past + micros) / period - past / period) .step ++
            List.replicate ((past + micros) / 16666 - past / 16666) .countDown) := by
  let cpu := s.cpu.add micros
  have hcpu : cpu = ⟨period, past % period + micros⟩ := by
    simp only [cpu, hs.cpu, Metronome.add]
  have hdue : cpu.pending / cpu.period = (past + micros) / period - past / period := by
    rw [hcpu]
    exact Metronome.div_mod_add hp past micros
  have hleft : cpu.pending % cpu.period = (past + micros) % period := by
    rw [hcpu]
    exact Nat.mod_add_mod past period micros
  have htimers : (s.timers.add micros).drain =
      ((past + micros) / 16666 - past / 16666, ⟨16666, (past + micros) % 16666⟩) := by
    have hpos : 0 < (s.timers.add micros).period := by simp [hs.timers]
    rw [Metronome.drain_eq hpos, hs.timers]
    simp only [Metronome.add, Metronome.div_mod_add (by decide : 0 < 16666), Nat.mod_add_mod]
  obtain ⟨cycles, notices, hrun⟩ :=
    Burst.run_of_unhindered (b := .start s.machine cpu) (by rw [hcpu]; exact hp) hdue h patience
  have hburst : Burst.ofMachine s.machine cpu patience = some
      (⟨s.machine.afterAll (List.replicate ((past + micros) / period - past / period) .step),
        ⟨period, (past + micros) % period⟩, cycles, notices⟩, .running) := by
    rw [Burst.ofMachine, Burst.fuel, hdue, hrun, ← hleft, hcpu]
    rfl
  simp only [elapse, hburst, settle, htimers, Machine.repeat_countDown, cpu,
    Machine.afterAll_append]
  exact ⟨trivial, ⟨hs.running, rfl, rfl⟩, trivial⟩

/-- A frame whose operations are unhindered takes a session on time to the end of the frame, with
the machine that the operations lead to. -/
theorem turn_of_unhindered {period past : Nat} {f : Frame} (hs : s.OnTime period past)
    (hp : 0 < period) (hevents : ∀ e ∈ f.events, e.isPadOrIgnored = true)
    (h : s.machine.Unhindered (f.operations period past)) (patience : Nat) :
    (s.turn f patience).collapse = none ∧
      (s.turn f patience).session.OnTime period (past + f.micros) ∧
      (s.turn f patience).session.machine = s.machine.afterAll (f.operations period past) := by
  have hheard := handleAll_of_pad (s := s) hevents
  have hmode : (s.handleAll f.events).mode = .running := by rw [hheard, hs.running]
  have htime : (s.handleAll f.events).OnTime period past := by
    rw [hheard]
    exact ⟨hs.running, hs.cpu, hs.timers⟩
  have hsteps : (s.handleAll f.events).machine.Unhindered
      (List.replicate ((past + f.micros) / period - past / period) .step) := by
    rw [hheard]
    exact h.right.left
  obtain ⟨hcollapse, hlater, hmachine⟩ := elapse_of_unhindered htime hp hsteps patience
  rw [turn_of_running hmode]
  refine ⟨hcollapse, hlater, hmachine.trans ?_⟩
  rw [Frame.operations, Machine.afterAll_append s.machine, hheard]

end Session

namespace Machine

variable {m : Machine}

/-- The machine stands at the jump to itself, with any keys down. -/
structure Spins (m : Machine) : Prop where
  memory : m.memory = Rom.spin.image
  pc : m.pc = 512
  awaiting : m.awaiting = none

theorem step_of_spins (h : m.Spins) : m.step = .ok m := by
  have hstart : m.word = (start .spin m.dialect m.stream).word := by
    simp only [word, here, h.memory, h.pc]
    rfl
  have hword : m.word = 0x1200 := hstart.trans (word_start _ _ _)
  have hfetch : m.fetch = .ok (.jump (.ofNat 512)) := fetch_eq_ok_iff.2 ⟨by rw [hword]; rfl, rfl⟩
  have hrun : m.run (.jump (.ofNat 512)) = m := by
    have hpc : (Address.ofNat 512).toWord = m.pc := h.pc.symm
    simp only [run, next, effect, hpc]
  exact step_eq_ok_iff.2 (.inr ⟨isWaiting_eq_false_iff.2 h.awaiting, _, hfetch, hrun.symm⟩)

theorem spins_latch (h : m.Spins) (key : UInt8) (down : Bool) : (m.latch key down).Spins := by
  by_cases hkey : key.toNat < 16
  · cases down with
    | true =>
      rw [latch_press_of_idle h.awaiting hkey]
      exact ⟨h.memory, h.pc, h.awaiting⟩
    | false =>
      rw [latch_release m hkey]
      exact ⟨h.memory, h.pc, h.awaiting⟩
  · rwa [latch_of_no_key m hkey]

theorem spins_afterAll (h : m.Spins) {ops : List Operation}
    (hops : ∀ op ∈ ops, op = .step ∨ op = .countDown ∨ ∃ key down, op = .latch key down) :
    (m.afterAll ops).Spins := by
  induction ops generalizing m with
  | nil => exact h
  | cons op ops ih =>
    have hfirst : (op.after m).Spins := by
      rcases hops op List.mem_cons_self with rfl | rfl | ⟨key, down, rfl⟩
      · rwa [Operation.after_step_of_ok (step_of_spins h)]
      · exact ⟨h.memory, h.pc, h.awaiting⟩
      · exact spins_latch h key down
    exact ih hfirst fun op' hop' => hops op' (List.mem_cons_of_mem op hop')

/-- Whatever the script, nothing hinders a machine that jumps to itself. -/
theorem unhindered_replay_of_spins (h : m.Spins) (period past : Nat) (frames : List Frame) :
    m.Unhindered (Frame.replay period past frames) := by
  have hspins : ∀ before after, Frame.replay period past frames = before ++ after →
      (m.afterAll before).Spins := by
    intro before after hsplit
    apply spins_afterAll h
    intro op hop
    apply Frame.mem_replay period past frames
    rw [hsplit]
    exact List.mem_append_left after hop
  refine ⟨fun before after hsplit => ?_, fun before after hsplit => ?_⟩
  · exact isWaiting_eq_false_iff.2 (hspins before after hsplit).awaiting
  · exact ⟨_, step_of_spins (hspins before _ hsplit)⟩

end Machine

namespace Raster

theorem fill_mem_strokes_iff (r : Raster) (c : Cell) :
    Stroke.fill (.ofCell c) ∈ r.strokes ↔ r.isLit c = true := by
  constructor
  · intro hmem
    simp only [strokes, boxes, lit, List.mem_append, List.mem_map, List.mem_filter] at hmem
    rcases hmem with hmem | ⟨b, ⟨d, ⟨_, hlit⟩, rfl⟩, hfill⟩
    · simp at hmem
    · rwa [← Box.ofCell_injective (Stroke.fill.inj hfill)]
  · intro hlit
    have hc : c ∈ r.lit := List.mem_filter.2 ⟨List.mem_finRange c, hlit⟩
    exact List.mem_append_right _ (List.mem_map_of_mem (List.mem_map_of_mem hc))

end Raster

namespace Host

variable {h : Host}

theorem play_closing (hno : h.outage = none) (s : Session) (drawn : Nat) (pending : List Notice) :
    h.play drawn pending s [.closing] =
      .cons ⟨s.machine.raster.strokes, pending⟩ (.ended [] .quit) := by
  have hturn : s.turn .closing h.patience = ⟨{ s with mode := .quit }, 0, 0, #[], none⟩ := rfl
  rw [play_of_shown (by rw [hturn]) (outage?_of_none hno drawn _), hturn]
  simp

/-- Each frame shows what the replay has drawn by then, and the closing one shows it once more. -/
theorem play_of_unhindered (hno : h.outage = none) {period past : Nat} (hp : 0 < period)
    {s : Session} (hs : s.OnTime period past) {frames : List Frame}
    (hevents : ∀ f ∈ frames, ∀ e ∈ f.events, e.isPadOrIgnored = true)
    (hreplay : s.machine.Unhindered (Frame.replay period past frames)) (drawn : Nat)
    (pending : List Notice) :
    let r := h.play drawn pending s (frames ++ [.closing])
    r.ending = .quit ∧ r.showings.length = frames.length + 1 ∧
      ∀ k, k ≤ frames.length → ∃ shown, r.showings[k]? = some shown ∧
        shown.strokes =
          (s.machine.afterAll (Frame.replay period past (frames.take (k + 1)))).raster.strokes := by
  induction frames generalizing s past drawn pending with
  | nil =>
    rw [List.nil_append, play_closing hno]
    refine ⟨rfl, rfl, fun k hk => ?_⟩
    obtain rfl : k = 0 := Nat.le_zero.1 hk
    exact ⟨_, rfl, rfl⟩
  | cons f fs ih =>
    obtain ⟨hcollapse, hlater, hmachine⟩ :=
      Session.turn_of_unhindered hs hp (hevents f List.mem_cons_self) hreplay.left h.patience
    have hgoes : ¬ (s.turn f h.patience).session.mode = .quit := by
      rw [hlater.running]
      exact Mode.noConfusion
    have hrest : (s.turn f h.patience).session.machine.Unhindered
        (Frame.replay period (past + f.micros) fs) := by
      rw [hmachine]
      exact hreplay.right
    obtain ⟨hend, hlength, hshown⟩ :=
      ih hlater (fun g hg => hevents g (List.mem_cons_of_mem f hg)) hrest
        (drawn + (s.turn f h.patience).session.machine.raster.boxes.length) []
    rw [List.cons_append, play_of_shown hcollapse (outage?_of_none hno drawn _), if_neg hgoes]
    refine ⟨hend, congrArg Nat.succ hlength, fun k hk => ?_⟩
    cases k with
    | zero =>
      refine ⟨_, rfl, ?_⟩
      simp only [List.take_succ_cons, List.take_zero, Frame.replay, List.append_nil, hmachine]
    | succ k =>
      obtain ⟨shown, hget, hstrokes⟩ := hshown k (Nat.le_of_succ_le_succ hk)
      refine ⟨shown, hget, ?_⟩
      rw [hstrokes, hmachine, List.take_succ_cons, Frame.replay, Machine.afterAll_append]

/-- A run without an outage, through frames of pad keys and ignored events, quits in the end and
shows one picture for each frame and one for the closing of the window. If the replay of the script
on the bare machine is unhindered, the cells painted in a frame are those lit in the replay once
that frame has been replayed. -/
theorem run_refines_replay (hno : h.outage = none) (rom : Rom) (m : Machine) (hertz : Nat)
    (hp : 0 < 1000000 / hertz) (frames : List Frame)
    (hevents : ∀ f ∈ frames, ∀ e ∈ f.events, e.isPadOrIgnored = true)
    (hreplay : m.Unhindered (Frame.replay (1000000 / hertz) 0 frames)) :
    let r := h.run rom m hertz frames
    r.ending = .quit ∧ r.showings.length = frames.length + 1 ∧
      ∀ k, k ≤ frames.length → ∃ shown, r.showings[k]? = some shown ∧
        let drawn := (m.afterAll (Frame.replay (1000000 / hertz) 0 (frames.take (k + 1)))).raster
        shown.strokes = drawn.strokes ∧
          ∀ c, .fill (.ofCell c) ∈ shown.strokes ↔ drawn.isLit c = true := by
  have hhertz : 1 ≤ hertz := by
    rcases Nat.eq_zero_or_pos hertz with rfl | hpos
    · simp at hp
    · exact hpos
  have hstart : (Session.start rom m hertz).OnTime (1000000 / hertz) 0 := by
    refine ⟨rfl, ?_, rfl⟩
    rw [← Metronome.period_ofFrequency hhertz, Nat.zero_mod]
    rfl
  have hrun : h.run rom m hertz frames =
      h.play 0 [.running hertz] (.start rom m hertz) (frames ++ [.closing]) := by
    simp only [run, hno]
  obtain ⟨hend, hlength, hshown⟩ :=
    play_of_unhindered hno hp hstart hevents hreplay 0 [.running hertz]
  rw [hrun]
  refine ⟨hend, hlength, fun k hk => ?_⟩
  obtain ⟨shown, hget, hstrokes⟩ := hshown k hk
  refine ⟨shown, hget, hstrokes, fun c => ?_⟩
  rw [hstrokes]
  exact Raster.fill_mem_strokes_iff _ c

/-- Q is held through ten milliseconds of a jump to itself and released in the next twenty: the run
quits after three pictures, and the second has the cells lit after sixteen steps and a tick. -/
theorem run_refines_replay_of_spin :
    let rom := Rom.spin
    let m := Machine.start rom .modern (.seeded 0)
    let frames : List Frame :=
      [⟨10000000, [.keyDown (some .q) false]⟩, ⟨20000000, [.other, .keyUp (some .q)]⟩]
    let r := run ⟨none, 0⟩ rom m 540 frames
    let ops := .latch 4 true :: List.replicate 5 .step ++
      .latch 4 false :: List.replicate 11 .step ++ [.countDown]
    r.ending = .quit ∧ r.showings.length = 3 ∧ ∃ shown, r.showings[1]? = some shown ∧
      ∀ c, .fill (.ofCell c) ∈ shown.strokes ↔ (m.afterAll ops).raster.isLit c = true := by
  intro rom m frames r ops
  have hspins : m.Spins := ⟨rfl, rfl, rfl⟩
  clear_value m
  obtain ⟨hend, hlength, hshown⟩ := run_refines_replay (h := ⟨none, 0⟩) rfl rom m 540
    (by decide) frames (by decide) (Machine.unhindered_replay_of_spins hspins _ _ _)
  have hops : Frame.replay (1000000 / 540) 0 (frames.take 2) = ops := rfl
  obtain ⟨shown, hget, _, hcells⟩ := hshown 1 (by decide)
  simp only [hops] at hcells
  exact ⟨hend, hlength, shown, hget, hcells⟩

end Host

end Chip8
