import Chip8.Proofs.Iterations

/-!
# The operations of a turn

What a turn does to the machine can be written down as a list of operations: the keys and restarts
among its events, a step for each of its cycles and a count-down for each tick of its timers. The
counters of a turn therefore count what is done, a step that fails included. Such a step is the last
one of its turn; if the session runs and the turn is completed, there is one if and only if the
session is paused by it.
-/
namespace Chip8

namespace Machine

/-- So many steps are tried on the first machine and lead to the second. None is tried while the
machine waits for a key, and the last of them may fail. -/
inductive Tries : Machine → Nat → Machine → Option Fault → Prop where
  | rest (m : Machine) : Tries m 0 m none
  | step {m m₁ m' : Machine} {n : Nat} {fault? : Option Fault} (hw : m.isWaiting = false)
      (hs : m.step = .ok m₁) (h : Tries m₁ n m' fault?) : Tries m (n + 1) m' fault?
  | fault {m : Machine} {f : Fault} (hf : m.step = .error f) : Tries m 1 m (some f)

theorem Tries.afterAll_eq {m m' : Machine} {n : Nat} {fault? : Option Fault}
    (h : m.Tries n m' fault?) : m.afterAll (List.replicate n .step) = m' := by
  induction h with
  | rest m => rfl
  | step _ hs _ ih => rw [List.replicate_succ, afterAll_cons, Operation.after_step_of_ok hs, ih]
  | fault hf => exact Operation.after_step_of_error hf

theorem Tries.eq_of_error {m m' : Machine} {n : Nat} {fault? : Option Fault} {f : Fault}
    (hf : m.step = .error f) (h : m.Tries n m' fault?) : m' = m := by
  cases h with
  | rest => rfl
  | step _ hs _ =>
    rw [hf] at hs
    cases hs
  | fault _ => rfl

theorem repeat_countDown (m : Machine) (n : Nat) :
    Nat.repeat countDown n m = m.afterAll (List.replicate n .countDown) := by
  induction n with
  | zero => rfl
  | succ n ih =>
    rw [List.replicate_succ', afterAll_append, ← ih]
    rfl

theorem afterAll_filterMap_cons (m : Machine) (f : Event → Option Operation) (e : Event)
    (es : List Event) :
    m.afterAll ((e :: es).filterMap f) = (m.afterAll (f e).toList).afterAll (es.filterMap f) := by
  cases he : f e with
  | none => rw [List.filterMap_cons_none he]; rfl
  | some op => rw [List.filterMap_cons_some he]; rfl

end Machine

namespace Burst

/-- A burst that ends has tried a step for each of its cycles. -/
theorem tries_of_run {fuel : Nat} {b b' : Burst} {v : Verdict} (h : run fuel b = some (b', v)) :
    ∃ n fault?, b'.cycles = b.cycles + n ∧ b.machine.Tries n b'.machine fault? ∧
      v = fault?.elim .running .ofFault := by
  induction fuel generalizing b with
  | zero => cases h
  | succ fuel ih =>
    rcases b.round_cases with
      ⟨_, hr⟩ | ⟨_, _, hr⟩ | ⟨_, _, f, hf, hr⟩ | ⟨hw, _, m, hm, hr⟩
    · rw [run_of_over hr] at h
      cases h
      exact ⟨0, none, rfl, .rest _, rfl⟩
    · rw [run_of_over hr] at h
      cases h
      exact ⟨0, none, rfl, .rest _, rfl⟩
    · rw [run_of_over hr] at h
      cases h
      exact ⟨1, some f, rfl, .fault hf, rfl⟩
    · rw [run_of_again hr] at h
      obtain ⟨n, fault?, hcycles, htries, hv⟩ := ih h
      exact ⟨n + 1, fault?, by simp only [hcycles]; omega, .step hw hm htries, hv⟩

theorem tries_of_ofMachine {m : Machine} {cpu : Metronome} {patience : Nat} {b : Burst}
    {v : Verdict} (h : ofMachine m cpu patience = some (b, v)) :
    ∃ fault?, m.Tries b.cycles b.machine fault? ∧ v = fault?.elim .running .ofFault := by
  obtain ⟨n, fault?, hcycles, htries, hv⟩ := tries_of_run h
  obtain rfl : n = b.cycles := by rw [hcycles]; exact (Nat.zero_add n).symm
  exact ⟨fault?, htries, hv⟩

end Burst

namespace Operation

def isStep : Operation → Bool
  | .step => true
  | _ => false

def isCountDown : Operation → Bool
  | .countDown => true
  | _ => false

end Operation

namespace Event

def operation? (rom : Rom) (e : Event) : Option Operation :=
  match e.request? with
  | some (.pad k down) => some (.latch (UInt8.ofNat k.val) down)
  | some .restart => some (.restart rom.bytes)
  | _ => none

theorem of_operation? {rom : Rom} {e : Event} {op : Operation} (h : e.operation? rom = some op) :
    (∃ key down, op = .latch key down) ∨ ∃ bytes, op = .restart bytes := by
  unfold operation? at h
  split at h
  · cases h
    exact .inl ⟨_, _, rfl⟩
  · cases h
    exact .inr ⟨_, rfl⟩
  · cases h

end Event

namespace Session

theorem machine_handle_eq (s : Session) (e : Event) :
    (s.handle e).machine = s.machine.afterAll (e.operation? s.rom).toList := by
  have hrom : Rom.ofBytes s.rom.bytes = .ok s.rom := dif_pos s.rom.size_le
  rw [machine_handle, Event.operation?]
  match e.request? with
  | some (.pad k down) => rfl
  | some .restart => exact (Operation.after_restart_of_ok hrom).symm
  | some .pauseOrResume | some .quit | none => rfl

theorem machine_handleAll (s : Session) (es : List Event) :
    (s.handleAll es).machine = s.machine.afterAll (es.filterMap (Event.operation? s.rom)) := by
  induction es generalizing s with
  | nil => rfl
  | cons e es ih =>
    have hrom : (s.handle e).rom = s.rom := s.rom_handleAll [e]
    have hall : s.handleAll (e :: es) = (s.handle e).handleAll es := rfl
    rw [hall, ih, hrom, machine_handle_eq, Machine.afterAll_filterMap_cons]

end Session

/-- What the counters of a turn say of its machine, once the events are handled. If the session does
not run, the machine stays as it is. Otherwise a step is tried for each cycle, then the timers tick,
and the session is paused if the last step failed. -/
inductive Iteration.Accounts (i : Iteration) (t : Turn) : Prop where
  | still (hr : i.runs = false) (hmachine : t.session.machine = i.heard.machine)
      (hcycles : t.cycles = 0) (hticks : t.ticks = 0)
  | moved (hr : i.runs = true) (m : Machine) (fault? : Option Fault)
      (htries : i.heard.machine.Tries t.cycles m fault?)
      (hmachine : t.session.machine = Nat.repeat Machine.countDown t.ticks m)
      (hmode : t.session.mode = if fault?.isSome then .paused else .running)

namespace Host

variable {h : Host} {i : Iteration}

theorem accounts_turn (hc : (h.turn i).collapse = none) : i.Accounts (h.turn i) := by
  cases hr : i.runs with
  | false =>
    obtain ⟨notices, ht⟩ := turn_of_not_runs (h := h) hr
    rw [ht]
    exact .still hr rfl rfl rfl
  | true =>
    obtain ⟨notices, ht⟩ := turn_of_runs (h := h) hr
    rw [ht] at hc ⊢
    obtain ⟨b, v, hb, hv, hmachine, _, hcycles, _⟩ := Session.elapse_of_collapse_none hc
    obtain ⟨fault?, htries, hverdict⟩ := Burst.tries_of_ofMachine hb
    rw [← hcycles] at htries
    refine .moved hr b.machine fault? htries hmachine ?_
    cases fault? with
    | none =>
      rcases hv with ⟨_, hmode⟩ | ⟨hpaused, _⟩
      · exact hmode.trans (Iteration.runs_iff.1 hr)
      · cases hverdict.symm.trans hpaused
    | some f =>
      rcases hv with ⟨hrunning, _⟩ | ⟨_, hmode⟩
      · exact absurd (hverdict.symm.trans hrunning) (Verdict.ofFault_ne_running f)
      · exact hmode

def operations (h : Host) (i : Iteration) : List Operation :=
  i.frame.events.filterMap (Event.operation? i.session.rom) ++
    (List.replicate (h.turn i).cycles .step ++ List.replicate (h.turn i).ticks .countDown)

/-- A turn that does not fail leads to the machine that its operations lead to. -/
theorem machine_turn (hc : (h.turn i).collapse = none) :
    (h.turn i).session.machine = i.session.machine.afterAll (h.operations i) := by
  rw [operations, Machine.afterAll_append, ← Session.machine_handleAll, Machine.afterAll_append,
    ← Machine.repeat_countDown]
  cases accounts_turn hc with
  | still _ hmachine hcycles hticks =>
    rw [hmachine, hcycles, hticks]
    rfl
  | moved _ m fault? htries hmachine _ =>
    rw [hmachine, ← htries.afterAll_eq]
    rfl

theorem machine_iterations {s : Session} {fs : List Frame} {last : Iteration}
    (hc : ∀ i ∈ h.iterations s fs, (h.turn i).collapse = none)
    (hlast : (h.iterations s fs).getLast? = some last) :
    (h.turn last).session.machine =
      s.machine.afterAll ((h.iterations s fs).flatMap h.operations) := by
  induction fs generalizing s with
  | nil => cases hlast
  | cons f fs ih =>
    have hfirst := machine_turn (hc ⟨s, f⟩ List.mem_cons_self)
    rw [iterations, List.getLast?_cons, Option.some.injEq] at hlast
    rw [iterations, List.flatMap_cons, Machine.afterAll_append, ← hfirst]
    cases hrest : (h.iterations (h.turn ⟨s, f⟩).session fs).getLast? with
    | none =>
      obtain rfl : ⟨s, f⟩ = last := by simpa [hrest] using hlast
      rw [List.getLast?_eq_none_iff.1 hrest]
      rfl
    | some i =>
      obtain rfl : i = last := by simpa [hrest] using hlast
      exact ih (fun j hj => hc j (List.mem_cons_of_mem _ hj)) hrest

/-- Of the operations of a turn those that no event can ask for are its steps and its ticks. -/
theorem countP_operations (h : Host) (i : Iteration) {p : Operation → Bool}
    (hlatch : ∀ key down, p (.latch key down) = false)
    (hrestart : ∀ bytes, p (.restart bytes) = false) :
    (h.operations i).countP p =
      (if p .step then (h.turn i).cycles else 0) +
        if p .countDown then (h.turn i).ticks else 0 := by
  have hevents : (i.frame.events.filterMap (Event.operation? i.session.rom)).countP p = 0 := by
    rw [List.countP_eq_zero]
    intro op hop
    obtain ⟨e, _, he⟩ := List.mem_filterMap.1 hop
    rcases Event.of_operation? he with ⟨key, down, rfl⟩ | ⟨bytes, rfl⟩
    · simp [hlatch]
    · simp [hrestart]
  rw [operations, List.countP_append, hevents, Nat.zero_add, List.countP_append,
    List.countP_replicate, List.countP_replicate]

theorem ticks_eq_countP (h : Host) (i : Iteration) :
    (h.turn i).ticks = (h.operations i).countP Operation.isCountDown := by
  rw [h.countP_operations i (p := Operation.isCountDown) (fun _ _ => rfl) fun _ => rfl]
  simp [Operation.isCountDown]

theorem cycles_eq_countP (h : Host) (i : Iteration) :
    (h.turn i).cycles = (h.operations i).countP Operation.isStep := by
  rw [h.countP_operations i (p := Operation.isStep) (fun _ _ => rfl) fun _ => rfl]
  simp [Operation.isStep]

end Host

end Chip8
