import AerOS.Proof.Futex.Wakes

namespace AerOS.Proof.Futex
open Lib AerOS.Futex Function List

variable {entry : Entry} {event : Event} {sequence : Nat} {result : Result}
variable {live : UInt64 → Bool} {task : UInt64} {s : System}

theorem waiting_snoc (log : List Event) (event : Event) :
    waiting (log ++ [event]) = replay (waiting log) event := by
  simp [waiting]

theorem mem_replay {entries : List Entry} (h : entry ∈ replay entries event) :
    (∃ word bitset, event = .queued entry.sequence word bitset ∧ entry.woken = false) ∨
      ∃ old ∈ entries, old.sequence = entry.sequence ∧ ∀ result, event ≠ .returned entry.sequence result := by
  cases event with
  | queued sequence word bitset =>
    rcases mem_append.mp h with old | new
    · exact .inr ⟨entry, old, rfl, by simp⟩
    obtain rfl := mem_singleton.mp new
    exact .inl ⟨word, bitset, rfl, rfl⟩
  | woke word bitset _ woken =>
    obtain ⟨old, member, rfl⟩ := mem_map.mp h
    exact .inr ⟨old, member, by split <;> rfl, by simp⟩
  | moved word moved =>
    obtain ⟨old, member, rfl⟩ := mem_map.mp h
    exact .inr ⟨old, member, by split <;> rfl, by simp⟩
  | returned sequence result =>
    obtain ⟨member, other⟩ := mem_filter.mp h
    refine .inr ⟨entry, member, rfl, ?_⟩
    intro _ same
    cases same
    simp at other

theorem queued_append {log new : List Event} (h : ∃ word bitset, .queued sequence word bitset ∈ log) :
    ∃ word bitset, .queued sequence word bitset ∈ log ++ new := by
  obtain ⟨word, bitset, queued⟩ := h
  exact ⟨word, bitset, mem_append_left _ queued⟩

theorem queued_of_waiting {log : List Event} (accepted : Accepted log) (h : entry ∈ waiting log) :
    ∃ word bitset, .queued entry.sequence word bitset ∈ log := by
  induction accepted generalizing entry with
  | nil => cases h
  | snoc _ _ ih =>
    rw [waiting_snoc] at h
    rcases mem_replay h with ⟨word, bitset, rfl, -⟩ | ⟨_, member, same, -⟩
    · exact ⟨word, bitset, by simp⟩
    rw [← same]
    exact queued_append (ih member)

theorem woken_snoc {log : List Event} : Woken (log ++ [event]) sequence ↔
      Woken log sequence ∨ ∃ word bitset count woken, event = .woke word bitset count woken ∧ sequence ∈ woken := by
  constructor
  · rintro ⟨word, bitset, count, woken, member, listed⟩
    rcases mem_append.mp member with old | new
    · exact .inl ⟨word, bitset, count, woken, old, listed⟩
    · exact .inr ⟨word, bitset, count, woken, (mem_singleton.mp new).symm, listed⟩
  · rintro (⟨word, bitset, count, woken, member, listed⟩ | ⟨word, bitset, count, woken, rfl, listed⟩)
    · exact ⟨word, bitset, count, woken, mem_append_left _ member, listed⟩
    · exact ⟨word, bitset, count, woken, by simp, listed⟩

theorem woken_snoc_other {log : List Event}
    (h : ∀ word bitset count woken, event ≠ .woke word bitset count woken) :
    Woken (log ++ [event]) sequence ↔ Woken log sequence := by
  rw [woken_snoc, or_iff_left]
  rintro ⟨word, bitset, count, woken, eq, -⟩
  exact h word bitset count woken eq

theorem waiting_of_woke {log : List Event} {word : Key} {bitset : UInt32} {count : Nat} {woken : List Nat}
    (fits : Fits log (.woke word bitset count woken)) (member : sequence ∈ woken) :
    ∃ entry ∈ waiting log, entry.sequence = sequence := by
  rw [fits] at member
  obtain ⟨entry, taken, rfl⟩ := mem_map.mp member
  exact ⟨entry, (mem_filter.mp (mem_of_mem_take taken)).1, rfl⟩

theorem queued_of_woken {log : List Event} (accepted : Accepted log) (h : Woken log sequence) :
    ∃ word bitset, .queued sequence word bitset ∈ log := by
  induction accepted with
  | nil =>
    obtain ⟨_, _, _, _, member, _⟩ := h
    cases member
  | snoc before fits ih =>
    rcases woken_snoc.mp h with earlier | ⟨word, bitset, _, _, rfl, listed⟩
    · exact queued_append (ih earlier)
    obtain ⟨_, member, rfl⟩ := waiting_of_woke fits listed
    exact queued_append (queued_of_waiting before member)

theorem waiting_woken {log : List Event} (accepted : Accepted log) (h : entry ∈ waiting log) :
    entry.woken = true ↔ Woken log entry.sequence := by
  induction accepted generalizing entry with
  | nil => cases h
  | @snoc log event before fits ih =>
    rw [waiting_snoc] at h
    cases event with
    | queued sequence word bitset =>
      rw [woken_snoc_other (by intros; exact Event.noConfusion)]
      rcases mem_append.mp h with old | new
      · exact ih old
      obtain rfl := mem_singleton.mp new
      have fresh : ¬Woken log sequence := by
        intro woken
        obtain ⟨word, bitset, queued⟩ := queued_of_woken before woken
        have := fits sequence word bitset queued
        omega
      exact ⟨fun woken => (Bool.false_ne_true woken).elim, fun woken => (fresh woken).elim⟩
    | woke word bitset count woken =>
      obtain ⟨old, member, rfl⟩ := mem_map.mp h
      rw [woken_snoc]
      by_cases taken : old.sequence ∈ woken
      · rw [if_pos taken]
        exact ⟨fun _ => .inr ⟨word, bitset, count, woken, rfl, taken⟩, fun _ => rfl⟩
      rw [if_neg taken, ih member, or_iff_left]
      rintro ⟨_, _, _, _, eq, listed⟩
      cases eq
      exact taken listed
    | moved word moved =>
      rw [woken_snoc_other (by intros; exact Event.noConfusion)]
      obtain ⟨old, member, rfl⟩ := mem_map.mp h
      have was := ih member
      split <;> exact was
    | returned sequence _ =>
      rw [woken_snoc_other (by intros; exact Event.noConfusion)]
      exact ih (mem_filter.mp h).1

theorem returned_queued {log : List Event} (accepted : Accepted log)
    (h : .returned sequence result ∈ log) : ∃ word bitset, .queued sequence word bitset ∈ log := by
  induction accepted with
  | nil => cases h
  | snoc before fits ih =>
    rcases mem_append.mp h with old | new
    · exact queued_append (ih old)
    obtain rfl := mem_singleton.mp new
    obtain ⟨_, member, rfl, -⟩ := fits
    exact queued_append (queued_of_waiting before member)

theorem returned_not_waiting {log : List Event} (accepted : Accepted log)
    (h : .returned sequence result ∈ log) (member : entry ∈ waiting log) : entry.sequence ≠ sequence := by
  induction accepted generalizing entry with
  | nil => cases h
  | snoc before fits ih =>
    rw [waiting_snoc] at member
    rcases mem_append.mp h with old | new
    · rcases mem_replay member with ⟨word, bitset, rfl, -⟩ | ⟨_, was, same, -⟩
      · obtain ⟨word', bitset', queued⟩ := returned_queued before old
        have := fits sequence word' bitset' queued
        omega
      · rw [← same]
        exact ih old was
    obtain rfl := mem_singleton.mp new
    rcases mem_replay member with ⟨word, bitset, eq, -⟩ | ⟨-, -, -, other⟩
    · cases eq
    rintro rfl
    exact other result rfl

theorem returned_zero {log : List Event} (accepted : Accepted log)
    (h : .returned sequence result ∈ log) : result = .ok 0 ↔ Woken log sequence := by
  induction accepted with
  | nil => cases h
  | @snoc log event before fits ih =>
    rw [woken_snoc]
    rcases mem_append.mp h with old | new
    · -- a wake after the return cannot take it any more
      have late : ¬∃ word bitset count woken, event = .woke word bitset count woken ∧ sequence ∈ woken := by
        rintro ⟨word, bitset, count, woken, rfl, listed⟩
        obtain ⟨entry, member, same⟩ := waiting_of_woke fits listed
        exact returned_not_waiting before old member same
      rw [ih old, or_iff_left late]
    obtain rfl := mem_singleton.mp new
    obtain ⟨entry, member, rfl, zero⟩ := fits
    rw [zero, waiting_woken before member, or_iff_left]
    rintro ⟨_, _, _, _, eq, -⟩
    cases eq

theorem returned_once {log : List Event} (accepted : Accepted log) (sequence : Nat) :
    log.countP (Event.returnsFor sequence) ≤ 1 := by
  induction accepted with
  | nil => simp
  | @snoc log event before fits _ =>
    rw [countP_append, countP_singleton]
    split
    · rename_i returns
      cases event with
      | returned s _ =>
        obtain rfl : s = sequence := by simpa [Event.returnsFor] using returns
        obtain ⟨_, member, same, -⟩ := fits
        have none : log.countP (Event.returnsFor s) = 0 := by
          rw [countP_eq_zero]
          intro earlier inLog returnsEarlier
          cases earlier with
          | returned s' _ =>
            obtain rfl : s' = s := by simpa [Event.returnsFor] using returnsEarlier
            exact returned_not_waiting before inLog member same
          | queued => cases returnsEarlier
          | woke => cases returnsEarlier
          | moved => cases returnsEarlier
        omega
      | queued => cases returns
      | woke => cases returns
      | moved => cases returns
    · omega

structure Good (table : Table) (log : List Event) : Prop where
  tracks : Tracks table (waiting log)
  accepted : Accepted log
  numbered : ∀ sequence word bitset, .queued sequence word bitset ∈ log → sequence ≤ table.sequence

theorem Good.wake {table : Table} {log : List Event} (good : Good table log)
    (alive : AllLive live table) (word : Key) (bitset : UInt32) (count : Nat) :
    Good (wake live word bitset count table).2
        (log ++ [.woke word bitset count (Futex.wake live word bitset count table).1]) ∧
      SameHolders table (Futex.wake live word bitset count table).2 := by
  obtain ⟨woken, tracks, same⟩ := wake_spec word bitset count good.tracks alive
  refine ⟨⟨?_, .snoc good.accepted woken, ?_⟩, same⟩
  · rw [waiting_snoc]
    exact tracks
  intro sequence word bitset queued
  rw [same.last]
  exact good.numbered sequence word bitset (by simpa using queued)

theorem Good.move {table : Table} {log : List Event} (good : Good table log) (live : UInt64 → Bool)
    (source target : Key) (slots : List Slot) (count : Nat) :
    Good (moveWaiters live source target slots count table).2
        (log ++ [.moved target (moveWaiters live source target slots count table).1]) ∧
      SameHolders table (moveWaiters live source target slots count table).2 := by
  obtain ⟨were, tracks, same⟩ := moveWaiters_spec live source target slots count good.tracks
  refine ⟨⟨?_, .snoc good.accepted were, ?_⟩, same⟩
  · rw [waiting_snoc]
    exact tracks
  intro sequence word bitset queued
  rw [same.last]
  exact good.numbered sequence word bitset (by simpa using queued)

inductive Outcome (table : Table) (log : List Event) (task : UInt64) : Effect → Prop
  | returned (result : Result) (events : List Event) (memory : Futex.Memory) (after : Table)
      (good : Good after (log ++ events)) (same : SameHolders table after) :
      Outcome table log task ⟨.returned result, events, memory, after⟩
  | blocked (slot : Slot) (limit : Option Nat) (next : After) (events : List Event) (memory : Futex.Memory) (waiter : Waiter)
      (free : (table.waiters slot).used = false) (used : waiter.used = true) (isTask : waiter.task = task)
      (good : Good ⟨update table.waiters slot waiter, table.sequence + 1⟩ (log ++ events)) :
      Outcome table log task
        ⟨.blocked slot limit next, events, memory, ⟨update table.waiters slot waiter, table.sequence + 1⟩⟩
  | panicked (events : List Event) (memory : Futex.Memory) (after : Table) :
      Outcome table log task ⟨.panicked, events, memory, after⟩

theorem Outcome.ite {table : Table} {log : List Event} {c : Prop} [Decidable c] {e f : Effect}
    (yes : Outcome table log task e) (no : Outcome table log task f) :
    Outcome table log task (if c then e else f) := by
  by_cases h : c
  · rwa [if_pos h]
  · rwa [if_neg h]

section
variable {env : Env} {table : Table} {log : List Event} (good : Good table log) (alive : AllLive env.live table)
  (a : Arguments) (word : Key)
include good

theorem fail_outcome (errno : Nat) : Outcome table log env.task (.fail env table errno) :=
  .returned _ [] _ table (by rwa [append_nil]) (.refl table)

include alive

theorem wait_outcome : Outcome table log env.task (wait env a word table) := by
  unfold wait
  dsimp only
  generalize (if (a.operation &&& 0x7f == 9) = true then a.value3.toUInt32 else allBits) = bitset
  split
  · exact fail_outcome good 22
  split
  · exact fail_outcome good 14
  split
  · exact fail_outcome good 11
  split
  · exact fail_outcome good _
  rename_i limit _
  rcases enqueue_cases alive env.task word bitset 0 0 with full | ⟨slot, free, queued⟩ | overflow
  · rw [full]
    exact fail_outcome good 12
  · rw [queued]
    refine .blocked slot limit _ _ _ _ free rfl rfl ⟨?_, ?_, ?_⟩
    · rw [waiting_snoc]
      exact good.tracks.fill free _ rfl rfl rfl
    · refine .snoc good.accepted ?_
      intro earlier word bitset before
      exact Nat.lt_succ_of_le (good.numbered earlier word bitset before)
    intro sequence word bitset logged
    rcases mem_append.mp logged with old | new
    · exact Nat.le_succ_of_le (good.numbered sequence word bitset old)
    cases mem_singleton.mp new
    exact le_rfl
  · rw [overflow]
    exact .panicked _ _ _

theorem wakeCall_outcome : Outcome table log env.task (wakeCall env a word table) := by
  unfold wakeCall
  dsimp only
  generalize (if a.operation &&& 0x7f = 10 then a.value3.toUInt32 else allBits) = bitset
  split
  · exact fail_outcome good 22
  obtain ⟨after, same⟩ := good.wake alive word _ (countOf a.value)
  exact .returned _ _ _ _ after same

theorem requeue_outcome (target : Key) (wakeCount moveCount : Nat) :
    Outcome table log env.task (requeue env word target wakeCount moveCount table) := by
  obtain ⟨between, sameWaiters⟩ := good.wake alive word allBits wakeCount
  obtain ⟨after, same⟩ := between.move env.live word target (finRange waiterCount) moveCount
  refine .returned _ _ _ _ ?_ (sameWaiters.trans same)
  rw [append_assoc] at after
  exact after

theorem requeueCall_outcome : Outcome table log env.task (requeueCall env a word table) := by
  unfold requeueCall
  split
  · exact fail_outcome good _
  split
  · split
    · exact fail_outcome good 14
    · split
      · exact requeue_outcome good alive word _ _ _
      · exact fail_outcome good 11
  · exact requeue_outcome good alive word _ _ _

theorem wakeOp_outcome : Outcome table log env.task (wakeOp env a word table) := by
  unfold wakeOp
  split
  · exact fail_outcome good _
  dsimp only
  split
  · exact fail_outcome good 14
  split
  · exact fail_outcome good 38
  split
  · exact fail_outcome good 14
  split
  · exact .returned _ [] _ table (by rwa [append_nil]) (.refl table)
  obtain ⟨between, sameFirst⟩ := good.wake alive word allBits (countOf a.value)
  split
  · obtain ⟨after, same⟩ := between.wake (alive.same sameFirst) (key env a.operation a.address2) allBits
      (countOf a.timeout)
    refine .returned _ _ _ _ ?_ (sameFirst.trans same)
    rw [append_assoc] at after
    exact after
  · exact .returned _ _ _ _ between sameFirst

theorem operate_outcome (plain : a.operation &&& 0x7f ∉ ([6, 7, 8] : List UInt64)) :
    Outcome table log env.task (operate env a table) := by
  simp only [mem_cons, not_mem_nil, or_false, not_or] at plain
  refine .ite (fail_outcome good 22) (.ite (fail_outcome good 22) (.ite (fail_outcome good 14) ?_))
  refine .ite (wait_outcome good alive a _) (.ite (wakeCall_outcome good alive a _) ?_)
  refine .ite (requeueCall_outcome good alive a _) (.ite (wakeOp_outcome good alive a _) ?_)
  rw [if_neg plain.1, if_neg plain.2.1, if_neg plain.2.2]
  exact fail_outcome good 38

end

structure Inv (s : System) : Prop where
  good : Good s.table s.log
  holder : ∀ task call, s.calls task = some call →
    (s.table.waiters call.slot).used = true ∧ (s.table.waiters call.slot).task = task ∧
      (s.table.waiters call.slot).sequence = call.sequence
  caller : ∀ slot, (s.table.waiters slot).used = true →
    ∃ call, s.calls (s.table.waiters slot).task = some call ∧ call.slot = slot

theorem inv_start : Inv .start := by
  refine ⟨⟨tracks_empty, .nil, ?_⟩, ?_, ?_⟩
  · intro _ _ _ queued
    cases queued
  · intro _ _ blocked
    cases blocked
  · intro _ used
    cases used

theorem Inv.seats (inv : Inv s) : Seats Call.slot Call.sequence s.table.waiters s.calls := ⟨inv.holder, inv.caller⟩

theorem Inv.perform (inv : Inv s) (idle : s.calls task = none) {effect : Effect}
    (outcome : Outcome s.table s.log task effect) : Inv (perform s task effect) := by
  cases outcome with
  | returned _ events memory after good same =>
    have seats := inv.seats.same same
    exact ⟨good, seats.holder, seats.caller⟩
  | panicked events memory after => exact ⟨inv.good, inv.holder, inv.caller⟩
  | blocked slot limit _ events memory waiter free used isTask good =>
    have number : (update s.table.waiters slot waiter slot).sequence = waiter.sequence := by rw [update_self]
    have seats := inv.seats.take (c := ⟨slot, limit, waiter.sequence⟩) idle free used isTask rfl
    simp only [Futex.perform, number]
    exact ⟨good, seats.holder, seats.caller⟩

theorem Inv.finish {s : System} (inv : Inv s) {task : UInt64} {call : Call} (blocked : s.calls task = some call)
    {result : Result} (zero : result = .ok 0 ↔ (s.table.waiters call.slot).woken = true) :
    Inv { s with
      table := dequeue call.slot s.table
      calls := update s.calls task none
      log := s.log ++ [.returned call.sequence result] } := by
  obtain ⟨used, isTask, number⟩ := inv.holder task call blocked
  have seats := inv.seats.leave blocked
  refine ⟨⟨?_, ?_, ?_⟩, seats.holder, seats.caller⟩
  · rw [waiting_snoc, ← number]
    exact inv.good.tracks.clear used
  · exact .snoc inv.good.accepted ⟨_, inv.good.tracks.listed call.slot used, number, zero⟩
  · intro sequence word bitset queued
    exact inv.good.numbered sequence word bitset (by simpa using queued)

theorem Inv.allLive (inv : Inv s)
    (alive : ∀ task, (s.calls task).isSome → live task = true) : AllLive live s.table := by
  intro slot used
  obtain ⟨_, blocked, -⟩ := inv.caller slot used
  exact alive _ (by simp [blocked])

theorem step_inv (s : System) (label : Label) (inv : Inv s) (allowed : Allowed s label) : Inv (step s label) := by
  cases label with
  | call _ arguments =>
    simp only [step]
    split
    · exact inv
    rename_i runs
    simp only [Bool.or_eq_true, not_or, Option.not_isSome_iff_eq_none] at runs
    exact inv.perform runs.2 (operate_outcome inv.good (inv.allLive allowed.2) arguments allowed.1)
  | resume task _ _ =>
    simp only [step]
    cases blocked : s.calls task with
    | none => exact inv
    | some call =>
      dsimp only
      unfold blockTurn
      by_cases woken : (s.table.waiters call.slot).woken = true
      · rw [if_pos woken]
        exact inv.finish blocked (by simp [woken])
      rw [if_neg woken]
      split_ifs
      · exact inv.finish blocked (by simp [woken])
      · exact inv.finish blocked (by simp [woken])
      · exact inv

theorem Inv.accounting (inv : Inv s) : Accounting s := by
  have accepted := inv.good.accepted
  refine ⟨accepted, returned_once accepted, fun _ _ => returned_zero accepted, ?_, ?_, ?_⟩
  · intro entry member
    obtain ⟨slot, used, rfl⟩ := inv.good.tracks.held entry member
    obtain ⟨call, blocked, rfl⟩ := inv.caller slot used
    exact ⟨_, call, blocked, (inv.holder _ call blocked).2.2.symm⟩
  · intro task call blocked
    obtain ⟨used, -, number⟩ := inv.holder task call blocked
    exact ⟨_, inv.good.tracks.listed call.slot used, number⟩
  intro task call blocked woken _ _
  obtain ⟨used, -, number⟩ := inv.holder task call blocked
  have marked : (s.table.waiters call.slot).woken = true := by
    refine (waiting_woken accepted (inv.good.tracks.listed call.slot used)).mpr ?_
    rw [toEntry, number]
    exact woken
  simp [step, blocked, blockTurn, marked]

theorem futex_accounting (labels : List Label) (allowed : Run.Along step Allowed .start labels) :
    Accounting (Run.final step .start labels) :=
  (Run.final_of_along step_inv inv_start allowed).accounting

def exampleEnv (task : UInt64) : Env where
  task := task
  group := 1
  now := 0
  wall := 0
  live := fun _ => true
  accessible := fun _ => true
  readWord := fun _ => some 0
  writable := fun _ => true
  timespec := fun _ => none
  sharedPhysical := fun _ => none
  boosted := fun _ => 0

def exampleRun : List Label :=
  [.call (exampleEnv 2) ⟨16, 0, 0, 0, 0, 0⟩, .call (exampleEnv 3) ⟨16, 1, 1, 0, 0, 0⟩, .resume 2 true 5]

theorem exampleRun_accounting : .returned 1 (.ok 0) ∈ (Run.final step .start exampleRun).log ∧
      Accounting (Run.final step .start exampleRun) := by
  refine ⟨by decide +kernel, futex_accounting exampleRun ?_⟩
  exact ⟨⟨by decide, fun _ _ => rfl⟩, ⟨by decide, fun _ _ => rfl⟩, trivial, trivial⟩

theorem slots_held_by_waits (labels : List Label) (allowed : Run.Along step Allowed .start labels) :
    Run.Throughout step SlotsHeld .start labels := by
  refine Run.throughout_of_along step_inv (fun s inv slot => ⟨fun used => ?_, ?_⟩) inv_start allowed
  · obtain ⟨call, waits, rfl⟩ := inv.caller slot used
    refine ⟨_, ⟨call, waits, rfl⟩, ?_⟩
    rintro task ⟨other, waits', same⟩
    rw [← same]
    exact (inv.holder task other waits').2.1.symm
  · rintro ⟨task, ⟨call, waits, rfl⟩, -⟩
    exact (inv.holder task call waits).1

theorem exampleRun_slots_held : Run.Throughout step SlotsHeld .start exampleRun :=
  slots_held_by_waits exampleRun ⟨⟨by decide, fun _ _ => rfl⟩, ⟨by decide, fun _ _ => rfl⟩, trivial, trivial⟩

end AerOS.Proof.Futex
