import Lispico.Core.RegistrationReplay

/-!
# Aborting a registration leaves the host's writes

`Abort` leaves the bindings and the configuration fields of the replay, unless a deletion by the
host was lost: it found a name that the operation had deleted, and no other write of the host
came after it.
-/

namespace Lispico

namespace Core

section

variable {T : Type}

structure ConfigBefore (T : Type) where
  prior : T
  recorded : Bool
  foreign : Bool

/-- `write` on the before-image of a field that holds `cur`. -/
def ConfigBefore.write (c : ConfigBefore T) (op : Bool) (cur : T) : ConfigBefore T :=
  if !op then { c with foreign := true }
  else if !c.recorded || c.foreign then ⟨cur, true, false⟩
  else c

def ConfigBefore.owned (c : ConfigBefore T) : Bool := c.recorded && !c.foreign

structure ConfigField (T : Type) where
  cur : T
  before : ConfigBefore T

namespace ConfigField

def start [Inhabited T] (f : ConfigField T) : ConfigField T := ⟨f.cur, default, false, false⟩

/-- The field is set, by the operation or by the host, while a registration runs or not. -/
def set (f : ConfigField T) (running op : Bool) (v : T) : ConfigField T :=
  ⟨v, if running then f.before.write op f.cur else f.before⟩

/-- `Abort` for a field. -/
def abort (f : ConfigField T) : ConfigField T :=
  if f.before.owned then { f with cur := f.before.prior } else f

def Tracks (f : ConfigField T) (host : T) : Prop :=
  if f.before.owned then f.before.prior = host else f.cur = host

theorem tracks_start [Inhabited T] (f : ConfigField T) : f.start.Tracks f.cur := rfl

variable {f : ConfigField T} {host : T}

theorem Tracks.set_op (h : f.Tracks host) (v : T) : (f.set true true v).Tracks host := by
  unfold Tracks at *
  cases hrec : f.before.recorded <;> cases hfor : f.before.foreign <;>
    simp_all [set, ConfigBefore.write, ConfigBefore.owned]

theorem tracks_set_host (f : ConfigField T) (v : T) : (f.set true false v).Tracks v := by
  simp [Tracks, set, ConfigBefore.write, ConfigBefore.owned]

theorem Tracks.set (h : f.Tracks host) (op : Bool) (v : T) :
    (f.set true op v).Tracks (if op then host else v) := by
  cases op with
  | true => exact h.set_op v
  | false => exact tracks_set_host f v

theorem Tracks.abort (h : f.Tracks host) : f.abort.cur = host := by
  unfold Tracks at h
  unfold ConfigField.abort
  split
  · rename_i howned
    rwa [if_pos howned] at h
  · rename_i howned
    rwa [if_neg howned] at h

end ConfigField

end

/-- A root environment with its configuration: the evaluator, the meter of its retained
capacity and the lazy layer. -/
structure Root (V E M L : Type) where
  env : Env V
  eval : ConfigField E
  retainedMeter : ConfigField M
  lazyLayer : ConfigField L

namespace Root

section

variable {V E M L : Type}

/-- A write to a root, through the view that it names or directly. -/
inductive Write (V E M L : Type) where
  | env (w : Env.Write V)
  | setEvaluator (via : Option Nat) (eval : E)
  | setRetainedMeter (via : Option Nat) (meter : M)
  | setLazyLayer (via : Option Nat) (layer : L)

def Write.unregistered : Write V E M L → Bool
  | .env w => w.unregistered
  | _ => true

/-- `Abort`. A restored field counts like a restored binding. -/
def abort (r : Root V E M L) (id : Nat) : Root V E M L :=
  if r.env.reg.any fun reg => reg.id == id then
    let env := (r.env.abort id).1
    let restored := r.eval.before.owned || r.retainedMeter.before.owned ||
      r.lazyLayer.before.owned
    let env := if restored && env.newNameGen == r.env.newNameGen then
        { env with newNameGen := env.newNameGen + 1, macroEpoch := env.macroEpoch + 1 }
      else env
    ⟨env, r.eval.abort, r.retainedMeter.abort, r.lazyLayer.abort⟩
  else r

structure Replay (V E M L : Type) where
  env : Env V
  eval : E
  retainedMeter : M
  lazyLayer : L

/-- The replay of the host's writes begins where the operation does, without limits. -/
def replay (r : Root V E M L) : Replay V E M L :=
  ⟨{ r.env with reg := none, maxRetainedBytes := 0, maxRetainedSlots := 0 }, r.eval.cur,
    r.retainedMeter.cur, r.lazyLayer.cur⟩

structure Lockstep (id : Nat) (r : Root V E M L) (p : Replay V E M L)
    (lost : RegistrationKey → Bool) : Prop where
  env : Env.Lockstep id r.env p.env lost
  eval : r.eval.Tracks p.eval
  retainedMeter : r.retainedMeter.Tracks p.retainedMeter
  lazyLayer : r.lazyLayer.Tracks p.lazyLayer

variable {id : Nat} {r : Root V E M L} {p : Replay V E M L} {lost : RegistrationKey → Bool}

variable (h : Lockstep id r p lost)

include h

theorem Lockstep.running : r.env.reg.isSome = true := by
  have hreg := h.env.running
  cases hsome : r.env.reg with
  | none =>
    rw [hsome] at hreg
    cases hreg
  | some reg => rfl

theorem Lockstep.abort :
    (∀ k, (r.abort id).env.getCanonical k = p.env.getCanonical k ↔ lost k = false) ∧
      (r.abort id).eval.cur = p.eval ∧ (r.abort id).retainedMeter.cur = p.retainedMeter ∧
      (r.abort id).lazyLayer.cur = p.lazyLayer := by
  obtain ⟨reg, hreg, hid⟩ := Option.map_eq_some_iff.1 h.env.running
  subst hid
  have hactive : (r.env.reg.any fun r => r.id == reg.id) = true := by simp [hreg]
  have henv : ∀ k, (r.abort reg.id).env.getCanonical k =
      (r.env.abort reg.id).1.getCanonical k := by
    intro k
    unfold Root.abort
    rw [if_pos hactive]
    dsimp only
    split <;> rfl
  refine ⟨fun k => ?_, ?_, ?_, ?_⟩
  · rw [henv, ← Env.keyState_binding, Env.abort_keyState hreg]
    exact (h.env.tracks k).aborted
  · unfold Root.abort
    rw [if_pos hactive]
    exact h.eval.abort
  · unfold Root.abort
    rw [if_pos hactive]
    exact h.retainedMeter.abort
  · unfold Root.abort
    rw [if_pos hactive]
    exact h.lazyLayer.abort

variable [Inhabited E] [Inhabited M] [Inhabited L]

def beginRegistration (r : Root V E M L) : Except String (Root V E M L) := do
  let env ← r.env.beginRegistration
  return ⟨env, r.eval.start, r.retainedMeter.start, r.lazyLayer.start⟩

omit h in
theorem lockstep_start {r' : Root V E M L} (hbegin : r.beginRegistration = .ok r') :
    Lockstep r.env.nextReg r' r.replay fun _ => false := by
  unfold beginRegistration at hbegin
  rw [Lib.except_bind_eq_ok_iff] at hbegin
  obtain ⟨env, henv, hbegin⟩ := hbegin
  cases hbegin
  unfold Env.beginRegistration at henv
  cases hreg : r.env.reg with
  | some reg =>
    rw [hreg] at henv
    cases henv
  | none =>
    rw [hreg] at henv
    cases henv
    refine ⟨⟨rfl, ⟨rfl, le_rfl, le_rfl⟩, fun k => ?_⟩, ConfigField.tracks_start _,
      ConfigField.tracks_start _, ConfigField.tracks_start _⟩
    exact KeyState.tracks_start (by simp [Env.keyState])

variable [ValueShallowBytes V]

def Write.apply (r : Root V E M L) : Write V E M L → Root V E M L
  | .env .beginRegistration =>
    match r.beginRegistration with
    | .ok r' => r'
    | .error _ => r
  | .env (.abort id) => r.abort id
  | .env w => { r with env := w.apply r.env }
  | .setEvaluator via eval =>
    { r with eval := r.eval.set r.env.reg.isSome (r.env.on via) eval }
  | .setRetainedMeter via meter =>
    { r with retainedMeter := r.retainedMeter.set r.env.reg.isSome (r.env.on via) meter }
  | .setLazyLayer via layer =>
    { r with lazyLayer := r.lazyLayer.set r.env.reg.isSome (r.env.on via) layer }

def Write.replayed (r : Root V E M L) (p : Replay V E M L) : Write V E M L → Replay V E M L
  | .env w => { p with env := w.replayed r.env p.env }
  | .setEvaluator via eval => { p with eval := if r.env.on via then p.eval else eval }
  | .setRetainedMeter via meter =>
    { p with retainedMeter := if r.env.on via then p.retainedMeter else meter }
  | .setLazyLayer via layer =>
    { p with lazyLayer := if r.env.on via then p.lazyLayer else layer }

/-- The keys whose last write by the host is a lost deletion, after a write. -/
def Write.lostAfter (r : Root V E M L) (lost : RegistrationKey → Bool) :
    Write V E M L → RegistrationKey → Bool
  | .env w => w.lostAfter r.env lost
  | _ => lost

def run (r : Root V E M L) (ws : List (Write V E M L)) : Root V E M L :=
  ws.foldl (fun r w => w.apply r) r

def replayAll (r : Root V E M L) (p : Replay V E M L) : List (Write V E M L) → Replay V E M L
  | [] => p
  | w :: ws => replayAll (w.apply r) (w.replayed r p) ws

def lostAll (r : Root V E M L) (lost : RegistrationKey → Bool) :
    List (Write V E M L) → RegistrationKey → Bool
  | [] => lost
  | w :: ws => lostAll (w.apply r) (w.lostAfter r lost) ws

omit h in
theorem Write.apply_env (r : Root V E M L) {w : Env.Write V} (h : w.unregistered = true) :
    (Write.env w : Write V E M L).apply r = { r with env := w.apply r.env } := by
  cases w <;> first | rfl | cases h

theorem Lockstep.apply (w : Write V E M L) (hplain : w.unregistered = true) :
    Lockstep id (w.apply r) (w.replayed r p) (w.lostAfter r lost) := by
  have hrunning := h.running
  cases w with
  | env w =>
    rw [Write.apply_env r hplain]
    exact ⟨h.env.apply w hplain, h.eval, h.retainedMeter, h.lazyLayer⟩
  | setEvaluator via eval =>
    refine ⟨h.env, ?_, h.retainedMeter, h.lazyLayer⟩
    simp only [Write.apply, hrunning]
    exact h.eval.set (r.env.on via) eval
  | setRetainedMeter via meter =>
    refine ⟨h.env, h.eval, ?_, h.lazyLayer⟩
    simp only [Write.apply, hrunning]
    exact h.retainedMeter.set (r.env.on via) meter
  | setLazyLayer via layer =>
    refine ⟨h.env, h.eval, h.retainedMeter, ?_⟩
    simp only [Write.apply, hrunning]
    exact h.lazyLayer.set (r.env.on via) layer

theorem Lockstep.run (ws : List (Write V E M L)) (hplain : ∀ w ∈ ws, w.unregistered = true) :
    Lockstep id (r.run ws) (r.replayAll p ws) (r.lostAll lost ws) := by
  induction ws generalizing r p lost with
  | nil => exact h
  | cons w ws ih =>
    exact ih (h.apply w (hplain w (.head _))) fun w hw => hplain w (.tail _ hw)

omit h

/-- `Abort` leaves what the host's writes alone leave, exactly if no deletion of the host is
lost. -/
theorem abort_leaves_host_writes_iff {r r' : Root V E M L} (hbegin : r.beginRegistration = .ok r')
    (ws : List (Write V E M L)) (hplain : ∀ w ∈ ws, w.unregistered = true) :
    ((∀ k, ((r'.run ws).abort r.env.nextReg).env.getCanonical k =
        (r'.replayAll r.replay ws).env.getCanonical k) ∧
      ((r'.run ws).abort r.env.nextReg).eval.cur = (r'.replayAll r.replay ws).eval ∧
      ((r'.run ws).abort r.env.nextReg).retainedMeter.cur =
        (r'.replayAll r.replay ws).retainedMeter ∧
      ((r'.run ws).abort r.env.nextReg).lazyLayer.cur = (r'.replayAll r.replay ws).lazyLayer) ↔
      ∀ k, r'.lostAll (fun _ => false) ws k = false := by
  obtain ⟨hbindings, heval, hmeter, hlazy⟩ := ((lockstep_start hbegin).run ws hplain).abort
  constructor
  · intro h k
    exact (hbindings k).1 (h.1 k)
  · intro h
    exact ⟨fun k => (hbindings k).2 (h k), heval, hmeter, hlazy⟩

end

/-- A root with the value `x`, and three numbers for its configuration. -/
def rootX : Root String Nat Nat Nat :=
  ⟨Env.sourceX "1", ⟨1, 0, false, false⟩, ⟨2, 0, false, false⟩, ⟨3, 0, false, false⟩⟩

def rootX' : Root String Nat Nat Nat := (Write.env .beginRegistration).apply rootX

/-- The operation and the host write a name and a field one after the other, and the operation
deletes the name. -/
def writesX : List (Write String Nat Nat Nat) :=
  [.env (Env.setX (some 0) "2"), .setEvaluator (some 0) 7, .env (Env.setX none "3"),
    .setLazyLayer none 8, .setLazyLayer (some 0) 9, .env (.delete (some 0) "x")]

theorem abort_leaves_host_writes_interleaved :
    rootX.beginRegistration = .ok rootX' ∧ (∀ w ∈ writesX, w.unregistered = true) ∧
      (∀ k, rootX'.lostAll (fun _ => false) writesX k = false) ∧
      ((rootX'.run writesX).abort rootX.env.nextReg).lazyLayer.cur =
        (rootX'.replayAll rootX.replay writesX).lazyLayer ∧
      ∀ k, ((rootX'.run writesX).abort rootX.env.nextReg).env.getCanonical k =
        (rootX'.replayAll rootX.replay writesX).env.getCanonical k := by
  have hbegin : rootX.beginRegistration = .ok rootX' := rfl
  have hplain : ∀ w ∈ writesX, w.unregistered = true := by decide
  have hlost : ∀ k, rootX'.lostAll (fun _ => false) writesX k = false := by
    intro k
    simp only [writesX, lostAll, Write.lostAfter]
    rw [Env.Write.lostAfter, if_neg]
    · simp [Env.Write.lostAfter, Env.Write.loses, Env.setX]
    · rw [Bool.and_eq_true, not_and_or]
      exact .inl (by decide +kernel)
  have hall := (abort_leaves_host_writes_iff hbegin writesX hplain).2 hlost
  exact ⟨hbegin, hplain, hlost, hall.2.2.2, hall.1⟩

/-- The host deletes a name that the operation has deleted: `Abort` brings it back. -/
theorem host_deletion_lost :
    ((rootX'.run [.env (.delete (some 0) "x"), .env (.delete none "x")]).abort
        0).env.getCanonical ⟨"x", false⟩ = some ("1", false) ∧
      (rootX'.replayAll rootX.replay
        [.env (.delete (some 0) "x"), .env (.delete none "x")]).env.getCanonical ⟨"x", false⟩ =
        none := by
  decide +kernel

end Root

end Core

end Lispico
