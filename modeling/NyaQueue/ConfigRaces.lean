import NyaQueue.Broker
import NyaQueue.Lib.Runs
import NyaQueue.Lib.Threads

/-!
# Calls of `ApplyConfig` at the same time

`ApplyConfig` loads the current snapshot, makes a new one that reuses parts of it,
and stores that without looking again at what is current by then.  Each load and
each store is one step here, and any number of calls and readers take theirs in
any order.
-/

set_option autoImplicit false

namespace NyaQueue

/-- The codec and the gate are those of the config. -/
structure ConfigSnapshot.SelfConsistent (lib : CodecLibrary) (snap : ConfigSnapshot) : Prop where
  codec : snap.codec = newCodec lib snap.cfg.compressionType
  gate : snap.gate = if 0 < snap.cfg.numIOGoroutines then snap.cfg.numIOGoroutines else 4

/-- The snapshot that `ApplyConfig` makes from the one it has loaded. -/
def ConfigSnapshot.next (lib : CodecLibrary) (old : ConfigSnapshot) (cfg : Config) :
    ConfigSnapshot where
  cfg := cfg
  codec :=
    if cfg.compressionType ≠ old.cfg.compressionType then newCodec lib cfg.compressionType
    else old.codec
  gate :=
    if cfg.numIOGoroutines ≠ old.cfg.numIOGoroutines then newGate cfg.numIOGoroutines
    else old.gate

theorem newGate_eq (n : Int) : newGate n = if 0 < n then n else 4 := by
  unfold newGate
  by_cases positive : 0 < n
  · rw [if_neg (by omega), if_pos positive]
  · rw [if_pos (by omega), if_neg positive]

theorem new_selfConsistent (lib : CodecLibrary) (cfg : Config) (offsetStore : Option OffsetStore) :
    (Broker.new lib cfg offsetStore).snap.SelfConsistent lib :=
  ⟨rfl, newGate_eq cfg.numIOGoroutines⟩

theorem ConfigSnapshot.SelfConsistent.next {lib : CodecLibrary} {old : ConfigSnapshot}
    (consistent : old.SelfConsistent lib) (cfg : Config) :
    (old.next lib cfg).SelfConsistent lib := by
  refine ⟨?_, ?_⟩
  · simp only [ConfigSnapshot.next]
    split
    · rfl
    · rename_i same
      rw [consistent.codec, not_ne_iff.mp same]
  · have gate : (old.next lib cfg).gate = newGate cfg.numIOGoroutines := by
      simp only [ConfigSnapshot.next]
      split
      · rfl
      · rename_i same
        rw [consistent.gate, ← newGate_eq, not_ne_iff.mp same]
    exact gate.trans (newGate_eq cfg.numIOGoroutines)

/-- A call of `ApplyConfig`: what it was called with, what it has loaded and what
it has returned. -/
structure ApplyCall where
  cfg : Config
  loaded : Option ConfigSnapshot
  returned : Option (Except (List RuleError) Unit)

/-- A call that is to publish nothing: its config is not valid, or is that of the
snapshot it has loaded. -/
def ApplyCall.Void (call : ApplyCall) : Prop :=
  (∃ errors, call.cfg.validate = .error errors) ∨ ∃ old, call.loaded = some old ∧ old.cfg = call.cfg

inductive ConfigEvent where
  | apply (cfg : Config)
  | advance (i : Nat)
  /-- a publish or a consume loads the snapshot -/
  | read

structure ConfigRun where
  snap : ConfigSnapshot
  calls : List ApplyCall
  /-- the snapshots stored since the broker was made, with the call that stored them -/
  published : List (Nat × ConfigSnapshot)
  /-- what the readers have loaded -/
  seen : List ConfigSnapshot

namespace ConfigRun

def start (lib : CodecLibrary) (cfg : Config) : ConfigRun where
  snap := (Broker.new lib cfg none).snap
  calls := []
  published := []
  seen := []

/-- The next step of call `i`: the validation and the load, or the store. -/
def advance (lib : CodecLibrary) (s : ConfigRun) (i : Nat) (call : ApplyCall) : ConfigRun :=
  match call.returned, call.loaded with
  | some _, _ => s
  | none, none =>
      match call.cfg.validate with
      | .error errors =>
          { s with calls := s.calls.set i { call with returned := some (.error errors) } }
      | .ok () => { s with calls := s.calls.set i { call with loaded := some s.snap } }
  | none, some old =>
      let calls := s.calls.set i { call with returned := some (.ok ()) }
      if old.cfg = call.cfg then { s with calls := calls }
      else
        let snap := old.next lib call.cfg
        { s with snap := snap, calls := calls, published := (i, snap) :: s.published }

def step (lib : CodecLibrary) (s : ConfigRun) : ConfigEvent → ConfigRun
  | .apply cfg => { s with calls := s.calls ++ [⟨cfg, none, none⟩] }
  | .advance i =>
      match s.calls[i]? with
      | none => s
      | some call => s.advance lib i call
  | .read => { s with seen := s.snap :: s.seen }

theorem apply_alone (lib : CodecLibrary) (s : ConfigRun) (b : Broker) (current : s.snap = b.snap)
    (cfg : Config) :
    let i := s.calls.length
    let s' := Runs.final (step lib) s [.apply cfg, .advance i, .advance i]
    s'.snap = (Broker.applyConfig lib b cfg).2.snap ∧
      (s'.calls[i]?.bind fun call => call.returned) = some (Broker.applyConfig lib b cfg).1 := by
  cases valid : cfg.validate with
  | error errors => simp [Runs.final, step, advance, Broker.applyConfig, valid, current]
  | ok =>
    by_cases same : b.snap.cfg = cfg
    · simp [Runs.final, step, advance, Broker.applyConfig, valid, current, same]
    · simp [Runs.final, step, advance, Broker.applyConfig, valid, current, same,
        ConfigSnapshot.next]

/-! ## Every run -/

/-- Every snapshot that is or was current has the codec and the gate of its config,
and the calls that are to publish nothing have not. -/
structure Consistent (lib : CodecLibrary) (s : ConfigRun) : Prop where
  current : s.snap.SelfConsistent lib
  published : ∀ entry ∈ s.published, entry.2.SelfConsistent lib
  seen : ∀ snap ∈ s.seen, snap.SelfConsistent lib
  void : ∀ (i : Nat) (call : ApplyCall), s.calls[i]? = some call → call.Void →
    ∀ snap, (i, snap) ∉ s.published

/-- What is known of a call that has published. -/
structure Publisher (call : ApplyCall) : Prop where
  valid : call.cfg.validate = .ok ()
  changed : ∃ old, call.loaded = some old ∧ old.cfg ≠ call.cfg
  returned : call.returned ≠ none

structure Inv (lib : CodecLibrary) (s : ConfigRun) : Prop where
  current : s.snap.SelfConsistent lib
  published : ∀ entry ∈ s.published, entry.2.SelfConsistent lib
  seen : ∀ snap ∈ s.seen, snap.SelfConsistent lib
  loaded : ∀ (i : Nat) (call : ApplyCall), s.calls[i]? = some call → ∀ old, call.loaded = some old →
    old.SelfConsistent lib ∧ call.cfg.validate = .ok ()
  publisher : ∀ i snap, (i, snap) ∈ s.published → ∃ call, s.calls[i]? = some call ∧ Publisher call

section Step

variable {lib : CodecLibrary} {s : ConfigRun}

theorem Inv.consistent (inv : Inv lib s) : Consistent lib s := by
  refine ⟨inv.current, inv.published, inv.seen, ?_⟩
  intro i call here void snap member
  obtain ⟨call', here', publisher⟩ := inv.publisher i snap member
  cases here.symm.trans here'
  rcases void with ⟨errors, invalid⟩ | ⟨old, loaded, same⟩
  · rw [publisher.valid] at invalid
    cases invalid
  · obtain ⟨old', loaded', different⟩ := publisher.changed
    cases loaded.symm.trans loaded'
    exact different same

theorem inv_start (lib : CodecLibrary) (cfg : Config) : Inv lib (start lib cfg) where
  current := new_selfConsistent lib cfg none
  published _ member := by cases member
  seen _ member := by cases member
  loaded i call here := by simp [start] at here
  publisher _ _ member := by cases member

theorem Inv.apply (inv : Inv lib s) (cfg : Config) : Inv lib (s.step lib (.apply cfg)) := by
  refine ⟨inv.current, inv.published, inv.seen, ?_, ?_⟩
  · intro i call here old loaded
    have earlier : call ≠ ⟨cfg, none, none⟩ := by
      rintro rfl
      cases loaded
    exact inv.loaded i call ((Threads.get_concat earlier).mp here) old loaded
  · intro i snap member
    obtain ⟨call, here, publisher⟩ := inv.publisher i snap member
    obtain ⟨inside, -⟩ := List.getElem?_eq_some_iff.mp here
    exact ⟨call, (List.getElem?_append_left inside).trans here, publisher⟩

theorem Inv.set (inv : Inv lib s) {i : Nat} {call after : ApplyCall}
    (here : s.calls[i]? = some call) (running : call.returned = none)
    (loaded : ∀ old, after.loaded = some old →
      old.SelfConsistent lib ∧ after.cfg.validate = .ok ()) :
    Inv lib { s with calls := s.calls.set i after } := by
  refine ⟨inv.current, inv.published, inv.seen, ?_, ?_⟩
  · intro j call' there
    rcases Threads.of_set there with ⟨-, rfl⟩ | ⟨-, before⟩
    · exact loaded
    · exact inv.loaded j call' before
  · intro j snap member
    obtain ⟨call', there, publisher⟩ := inv.publisher j snap member
    have other : j ≠ i := by
      rintro rfl
      cases here.symm.trans there
      exact publisher.returned running
    exact ⟨call', (List.getElem?_set_ne (Ne.symm other)).trans there, publisher⟩

theorem Inv.advance (inv : Inv lib s) {i : Nat} {call : ApplyCall}
    (here : s.calls[i]? = some call) : Inv lib (s.advance lib i call) := by
  obtain ⟨cfg, loaded, returned⟩ := call
  unfold ConfigRun.advance
  rcases returned with _ | result
  · rcases loaded with _ | old
    · dsimp only
      cases valid : cfg.validate with
      | error errors =>
        refine inv.set here rfl fun old impossible => ?_
        cases impossible
      | ok =>
        refine inv.set here rfl fun old current => ?_
        cases current
        exact ⟨inv.current, valid⟩
    · obtain ⟨consistent, valid⟩ := inv.loaded i _ here old rfl
      have kept : Inv lib { s with calls := s.calls.set i ⟨cfg, some old, some (.ok ())⟩ } :=
        inv.set here rfl (inv.loaded i ⟨cfg, some old, none⟩ here)
      dsimp only
      split
      · exact kept
      · rename_i different
        refine ⟨consistent.next cfg, ?_, kept.seen, kept.loaded, ?_⟩
        · rw [List.forall_mem_cons]
          exact ⟨consistent.next cfg, kept.published⟩
        · intro j snap member
          rcases List.mem_cons.mp member with own | before
          · cases own
            exact ⟨_, Threads.set_self here _, valid, ⟨old, rfl, different⟩, by simp⟩
          · exact kept.publisher j snap before
  · exact inv

theorem Inv.step (inv : Inv lib s) (e : ConfigEvent) : Inv lib (s.step lib e) := by
  cases e with
  | apply cfg => exact inv.apply cfg
  | advance i =>
    simp only [ConfigRun.step]
    split
    · exact inv
    · rename_i call here
      exact inv.advance here
  | read =>
    refine ⟨inv.current, inv.published, ?_, inv.loaded, inv.publisher⟩
    simp only [ConfigRun.step, List.forall_mem_cons]
    exact ⟨inv.current, inv.seen⟩

end Step

/-- In every interleaving, every snapshot has the codec and the gate of its config,
and a call with an invalid config or the config it finds publishes nothing. -/
theorem snapshots_self_consistent (lib : CodecLibrary) (cfg : Config) (events : List ConfigEvent) :
    ∀ s ∈ Runs.states (step lib) (start lib cfg) events, Consistent lib s := by
  intro s member
  have keep : ∀ s e, Inv lib s → Inv lib (s.step lib e) := fun s e inv => inv.step e
  exact (Runs.invariant_of_step keep events _ (inv_start lib cfg) s member).consistent

/-- A call asks for another compression and one for more goroutines; both load the
first snapshot, and a reader comes between their stores. -/
def overlapping : List ConfigEvent :=
  [.apply { defaultConfig with compressionType := 1 },
    .apply { defaultConfig with numIOGoroutines := 9 },
    .advance 0, .advance 1, .advance 0, .read, .advance 1]

theorem snapshots_self_consistent_overlapping :
    let s := Runs.final (step sampleLibrary) (start sampleLibrary defaultConfig) overlapping
    s.published.map (fun entry => (entry.1, entry.2.gate)) = [(1, 9), (0, 4)] ∧
    Consistent sampleLibrary s :=
  ⟨by decide +kernel, snapshots_self_consistent sampleLibrary defaultConfig overlapping _
    (Runs.final_mem_states _ overlapping _)⟩

end ConfigRun

end NyaQueue
