import Chip8.Proofs.KeyLatch

/-!
# Auto-repeat

A keyboard repeats a key as long as it is held. The control keys and the keys without a meaning are
deaf to that. A pad key that is repeated is down already, and then no key is awaited, so nothing is
delivered and the keypad stays as it is. Hence a script may be rid of all auto-repeats without a
trace in the report, provided that each one of a pad key is one of a key that is held.
-/
namespace Chip8

namespace Event

def isRepeat : Event → Bool
  | .keyDown _ repeated => repeated
  | _ => false

/-- With the events `past` before, each auto-repeat of a pad key is one of a key that is held. -/
def RepeatsHeld (past es : List Event) : Prop :=
  ∀ before code after, es = before ++ .keyDown (some code) true :: after →
    code.pad?.isSome = true → Held code (past ++ before)

variable {past es : List Event} {e : Event}

theorem RepeatsHeld.head (h : RepeatsHeld past (e :: es)) {code : KeyCode}
    (he : e = .keyDown (some code) true) (hpad : code.pad?.isSome = true) : Held code past := by
  have hheld := h [] code es (by rw [he]; rfl) hpad
  rwa [List.append_nil] at hheld

theorem RepeatsHeld.tail (h : RepeatsHeld past (e :: es)) : RepeatsHeld (past ++ [e]) es := by
  intro before code after hsplit hpad
  have hheld := h (e :: before) code after (by rw [hsplit]; rfl) hpad
  rwa [List.append_assoc]

theorem RepeatsHeld.left {fs : List Event} (h : RepeatsHeld past (es ++ fs)) :
    RepeatsHeld past es := by
  intro before code after hsplit hpad
  exact h before code (after ++ fs) (by rw [hsplit]; simp) hpad

theorem RepeatsHeld.right {fs : List Event} (h : RepeatsHeld past (es ++ fs)) :
    RepeatsHeld (past ++ es) fs := by
  intro before code after hsplit hpad
  have hheld := h (es ++ before) code after (by rw [hsplit]; simp) hpad
  rwa [List.append_assoc]

end Event

namespace Frame

def dropRepeats (f : Frame) : Frame :=
  { f with events := f.events.filter fun e => !e.isRepeat }

end Frame

namespace Machine

/-- A key that is down can be pressed again without effect: while one is down none is awaited. -/
theorem latch_of_isDown {m : Machine} (hm : m.Reachable) {k : Fin 16} (h : m.isDown k = true) :
    m.latch (UInt8.ofNat k.val) true = m ∧ m.latchNotices (UInt8.ofNat k.val) true = [] := by
  have hk := toNat_key k
  have hkey : (UInt8.ofNat k.val).toNat < 16 := hk.symm ▸ k.isLt
  have hidle : m.awaiting = none := by
    cases ha : m.awaiting with
    | none => rfl
    | some x =>
      have hup := hm.keysUp (by simp [isWaiting, ha]) k
      simp [h] at hup
  have hset : m.keypad.set (UInt8.ofNat k.val).toNat true = m.keypad := by
    have hdown : m.keypad[k.val] = true := h
    simp only [hk]
    rw [← hdown, Vector.set_getElem_self]
  refine ⟨?_, ?_⟩
  · rw [latch_press_of_idle hidle hkey, hset]
  · simp only [latchNotices, if_pos hkey, hidle]

end Machine

namespace Session

variable {s : Session} {past : List Event}

/-- An auto-repeat goes by unnoticed, if it is none of a pad key that is up. -/
theorem handle_of_repeat (hs : s.Tracks past) {e : Event} (hrepeat : e.isRepeat = true)
    (hheld : ∀ code, e = .keyDown (some code) true → code.pad?.isSome = true →
      Event.Held code past) :
    s.handle e = s ∧ s.handleNotices e = [] := by
  match e with
  | .keyDown none true => exact ⟨rfl, rfl⟩
  | .keyDown (some code) true =>
    cases hpad : code.pad? with
    | none =>
      have hq : (Event.keyDown (some code) true).request? = none := by
        simp [Event.request?, hpad]
      simp [handle, handleNotices, hq]
    | some k =>
      have hcode := KeyCode.pad?_eq_some_iff.1 hpad
      have hdown : s.machine.isDown k = true :=
        (hs.isDown_iff k).2 (hcode ▸ hheld code rfl (by simp [hpad]))
      obtain ⟨hlatch, hnotices⟩ := Machine.latch_of_isDown hs.reachable hdown
      have hq : (Event.keyDown (some code) true).request? = some (.pad k true) := by
        simp [Event.request?, hpad]
      simp [handle, handleNotices, hq, obey, obeyNotices, hlatch, hnotices]
  | .keyDown _ false | .keyUp _ | .quit | .other => cases hrepeat

theorem handleAll_filter_repeats (hs : s.Tracks past) {es : List Event}
    (hes : Event.RepeatsHeld past es) :
    s.handleAll (es.filter fun e => !e.isRepeat) = s.handleAll es ∧
      s.handleAllNotices (es.filter fun e => !e.isRepeat) = s.handleAllNotices es := by
  induction es generalizing s past with
  | nil => exact ⟨rfl, rfl⟩
  | cons e es ih =>
    obtain ⟨hsession, hnotices⟩ := ih (hs.handle e) hes.tail
    cases hrepeat : e.isRepeat with
    | false =>
      simp only [List.filter_cons, hrepeat, Bool.not_false, if_true]
      exact ⟨hsession, congrArg (s.handleNotices e ++ ·) hnotices⟩
    | true =>
      obtain ⟨hsame, hsilent⟩ := handle_of_repeat hs hrepeat fun code he hpad => hes.head he hpad
      have hall : s.handleAll (e :: es) = (s.handle e).handleAll es := rfl
      simp only [List.filter_cons, hrepeat, Bool.not_true, Bool.false_eq_true, if_false, hall,
        handleAllNotices, hsilent, List.nil_append]
      rw [hsame] at hsession hnotices ⊢
      exact ⟨hsession, hnotices⟩

theorem turn_dropRepeats (hs : s.Tracks past) {f : Frame}
    (hf : Event.RepeatsHeld past f.events) (patience : Nat) :
    s.turn f.dropRepeats patience = s.turn f patience := by
  obtain ⟨hsession, hnotices⟩ := handleAll_filter_repeats hs hf
  have hmicros : f.dropRepeats.micros = f.micros := rfl
  have hevents : f.dropRepeats.events = f.events.filter fun e => !e.isRepeat := rfl
  simp only [turn, hevents, hsession, hnotices, hmicros]

end Session

namespace Host

theorem play_dropRepeats (h : Host) {frames : List Frame} (rest : List Frame) (drawn : Nat)
    (pending : List Notice) {s : Session} {past : List Event} (hs : s.Tracks past)
    (hframes : Event.RepeatsHeld past (frames.flatMap Frame.events)) :
    h.play drawn pending s (frames.map Frame.dropRepeats ++ rest) =
      h.play drawn pending s (frames ++ rest) := by
  induction frames generalizing s past drawn pending with
  | nil => rfl
  | cons f fs ih =>
    rw [List.flatMap_cons] at hframes
    have hturn := Session.turn_dropRepeats hs hframes.left h.patience
    have htracks := hs.turn f h.patience
    simp only [List.map_cons, List.cons_append, play_cons, hturn, ih _ _ htracks hframes.right]

/-- Taking all auto-repeats out of a script, those of the pad keys, of the control keys and of all
others, changes nothing in the report of the run, if each one of a pad key comes after a press of
that key, by auto-repeat or not, without a release of it and a restart in between. -/
theorem run_dropRepeats (h : Host) (rom : Rom) (d : Dialect) (stream : ByteStream) (hertz : Nat)
    (frames : List Frame) (hframes : Event.RepeatsHeld [] (frames.flatMap Frame.events)) :
    h.run rom (.start rom d stream) hertz (frames.map Frame.dropRepeats) =
      h.run rom (.start rom d stream) hertz frames := by
  unfold run
  split
  · rfl
  · exact h.play_dropRepeats [.closing] 0 _ (Session.tracks_start rom d stream hertz) hframes

/-- Q is pressed in a program that awaits a key and repeated twice, then Space is repeated. -/
theorem run_dropRepeats_of_held_key :
    let h : Host := ⟨none, 0⟩
    let rom : Rom := ⟨#[0xF0, 0x0A], by decide⟩
    let m := Machine.start rom .modern (.seeded 0)
    let q (repeated : Bool) : Event := .keyDown (some .q) repeated
    h.run rom m 540
        [⟨20000000, [.keyUp (some .q), q false]⟩, ⟨20000000, []⟩, ⟨20000000, []⟩] =
      h.run rom m 540
        [⟨20000000, [.keyUp (some .q), q false]⟩, ⟨20000000, [q true, q true]⟩,
          ⟨20000000, [.keyDown (some .space) true]⟩] := by
  intro h rom m q
  apply run_dropRepeats h rom .modern (.seeded 0) 540
    [⟨20000000, [.keyUp (some .q), q false]⟩, ⟨20000000, [q true, q true]⟩,
      ⟨20000000, [.keyDown (some .space) true]⟩]
  intro before code after hsplit hpad
  match before with
  | [] | [_] => simp [q] at hsplit
  | a :: b :: before =>
    simp only [List.flatMap_cons, List.flatMap_nil, List.cons_append, List.nil_append,
      List.cons.injEq] at hsplit
    obtain ⟨rfl, rfl, hrest⟩ := hsplit
    have hmem (e : Event) (he : e ∈ before ++ .keyDown (some code) true :: after) :
        e = q true ∨ e = .keyDown (some .space) true := by
      rw [← hrest] at he
      simpa using he
    have hcode : code = .q := by
      rcases hmem (.keyDown (some code) true) (by simp) with hq | hspace
      · simpa [q] using hq
      · obtain rfl : code = .space := by simpa using hspace
        cases hpad
    subst hcode
    refine ⟨[.keyUp (some .q)], false, before, rfl, fun e he => ?_⟩
    rcases hmem e (List.mem_append_left _ he) with rfl | rfl <;> decide

end Host

end Chip8
