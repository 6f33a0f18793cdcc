import AerOS.Proof.Futex.LockRuns

namespace AerOS.Proof.Futex.Lock
open Lib Function AerOS.Futex.Lock
open AerOS.Futex hiding Label step

variable {waited : Bool} {label : Label} {sequence : Nat} {slot : Slot} {s' : State} {owner word : UInt32}
variable {task : UInt64}
variable {limit : Option Nat} {live : UInt64 → Bool}

structure Line (s : State) : Prop where
  queued : ∀ slot, (s.table.waiters slot).used = true → (s.table.waiters slot).woken = false →
    (s.table.waiters slot).owner = s.word &&& tidMask ∧ s.live s.owner = true ∧
      s.word &&& tidMask ≠ (s.table.waiters slot).task.toUInt32
  handed : ∀ slot, (s.table.waiters slot).used = true → (s.table.waiters slot).woken = true →
    (s.table.waiters slot).task.toUInt32 = s.word &&& tidMask
  holding : ∀ task, s.live task = true → s.holds task = true →
    task.toUInt32 = s.word &&& tidMask ∧ s.blocked task = none

section
variable {group address : UInt64} {s : State}

theorem task_eq (small : SmallIds s.live) {t u : UInt64} (aliveT : s.live t = true) (aliveU : s.live u = true)
    (same : t.toUInt32 = u.toUInt32) : t = u :=
  toUInt32_inj (small t aliveT).2 (small u aliveU).2 same

theorem Line.of_unused (unused : ∀ slot, (s.table.waiters slot).used = false)
    (holding : ∀ task, s.live task = true → s.holds task = true →
      task.toUInt32 = s.word &&& tidMask ∧ s.blocked task = none) : Line s := by
  refine ⟨?_, ?_, holding⟩
  · intro slot used
    simp [unused slot] at used
  · intro slot used
    simp [unused slot] at used

theorem not_ownerless (small : SmallIds s.live) (alive : s.live task = true)
    (named : task.toUInt32 = s.word &&& tidMask) : ¬(s.word &&& tidMask = 0 ∨ s.live s.owner = false) := by
  rintro (zero | dead)
  · rw [← named] at zero
    exact toUInt32_ne_zero (small task alive) zero
  · rw [State.owner, ← named, toUInt64_toUInt32 (small task alive).2, alive] at dead
    cases dead

namespace Line
variable (line : Line s) (base : Base group address s.table s.live s.blocked) (small : SmallIds s.live)
include line base small

theorem unused_of_ownerless (ownerless : s.word &&& tidMask = 0 ∨ s.live s.owner = false) (slot : Slot) :
    (s.table.waiters slot).used = false := by
  refine Bool.eq_false_iff.mpr fun used => ?_
  cases woken : (s.table.waiters slot).woken with
  | false =>
    obtain ⟨owner, alive, -⟩ := line.queued slot used woken
    rcases ownerless with zero | dead
    · exact base.owned slot used (by rw [owner, zero])
    · rw [alive] at dead
      cases dead
  | true => exact not_ownerless small (base.allLive slot used) (line.handed slot used woken) ownerless

theorem asleep_of_owner (idle : s.blocked task = none) (alive : s.live task = true)
    (owns : s.word &&& tidMask = task.toUInt32) (used : (s.table.waiters slot).used = true) :
    (s.table.waiters slot).woken = false := by
  refine Bool.eq_false_iff.mpr fun woken => ?_
  have named := line.handed slot used woken
  exact base.ne_idle idle used (task_eq small (base.allLive slot used) alive (named.trans owns))

theorem taken (alive : s.live task = true)
    (names : word &&& tidMask = task.toUInt32) (ownerless : s.word &&& tidMask = 0 ∨ s.live s.owner = false)
    (idle : s.blocked task = none) : Line { s with word := word, holds := update s.holds task true } := by
  have unused := line.unused_of_ownerless base small ownerless
  refine .of_unused unused ?_
  intro other aliveOther holds
  by_cases here : other = task
  · subst here
    exact ⟨names.symm, idle⟩
  · simp only [update_of_ne here] at holds
    exact absurd ownerless (not_ownerless small aliveOther (line.holding other aliveOther holds).1)

end Line

theorem Line.reword (line : Line s) (same : word &&& tidMask = s.word &&& tidMask) :
    Line { s with word := word } := by
  refine ⟨?_, ?_, ?_⟩
  · intro slot used asleep
    simp only [State.owner, same]
    exact line.queued slot used asleep
  · intro slot used woken
    simp only [same]
    exact line.handed slot used woken
  · intro task alive holds
    simp only [same]
    exact line.holding task alive holds

theorem Line.leave (line : Line s) (task : UInt64) (b : Blocked) : Line (leave s task b) := by
  refine ⟨?_, ?_, ?_⟩
  · intro slot used asleep
    obtain ⟨-, used, same⟩ := dequeue_used used
    simp only [Lock.leave, same] at asleep ⊢
    exact line.queued slot used asleep
  · intro slot used woken
    obtain ⟨-, used, same⟩ := dequeue_used used
    simp only [Lock.leave, same] at woken ⊢
    exact line.handed slot used woken
  intro other alive holds
  obtain ⟨named, idle⟩ := line.holding other alive holds
  refine ⟨named, ?_⟩
  by_cases here : other = task
  · subst here
    simp [Lock.leave]
  · simpa [Lock.leave, here] using idle

theorem Line.enqueue (line : Line s) (free : (s.table.waiters slot).used = false)
    (alive : s.live s.owner = true) (other : s.word &&& tidMask ≠ task.toUInt32) (bitset : UInt32) (saved : Int)
    (limit : Option Nat) :
    Line
      { s with
        table :=
          ⟨update s.table.waiters slot (newWaiter s.table task (group, address) bitset (s.word &&& tidMask) saved),
            s.table.sequence + 1⟩
        word := s.word ||| waitersBit
        blocked := update s.blocked task (some ⟨slot, limit, s.table.sequence + 1⟩) } := by
  have same := masked_or_waiters s.word
  refine ⟨?_, ?_, ?_⟩
  · intro j used asleep
    by_cases here : j = slot
    · subst here
      simp only [State.owner, same, update_self, newWaiter, true_and]
      exact ⟨alive, other⟩
    · simp only [State.owner, same, update_of_ne here] at used asleep ⊢
      exact line.queued j used asleep
  · intro j used woken
    by_cases here : j = slot
    · subst here
      simp [newWaiter] at woken
    · simp only [same, update_of_ne here] at used woken ⊢
      exact line.handed j used woken
  · intro thread aliveThread holds
    obtain ⟨named, idle⟩ := line.holding thread aliveThread holds
    simp only [same]
    refine ⟨named, ?_⟩
    -- the thread that queues is not the one the word names
    have ne : thread ≠ task := by
      rintro rfl
      exact other named.symm
    rw [update_of_ne ne]
    exact idle

theorem Line.already (line : Line s) (owns : s.word &&& tidMask = task.toUInt32)
    (idle : s.blocked task = none) : Line { s with holds := update s.holds task true } := by
  refine ⟨line.queued, line.handed, ?_⟩
  intro other alive holds
  by_cases here : other = task
  · subst here
    exact ⟨owns.symm, idle⟩
  · simp only [update_of_ne here] at holds
    exact line.holding other alive holds

theorem LockOutcome.line (line : Line s) (base : Base group address s.table s.live s.blocked) (small : SmallIds s.live)
    (idle : s.blocked task = none)
    (runs : s.live task = true) (outcome : LockOutcome group address s task limit waited s') : Line s' := by
  cases outcome with
  | taken _ free ownerless =>
    rw [update_none idle]
    refine line.taken base small runs ?_ ownerless idle
    rw [or_masked, or_masked, free, waiters_masked, UInt32.or_zero, UInt32.or_zero, toUInt32_masked (small task runs).2]
  | already owns _ =>
    rw [update_none idle]
    exact line.already owns idle
  | refused word same =>
    rw [update_none idle]
    exact line.reword same
  | queued _ saved free _ alive other => exact line.enqueue free alive other allBits saved limit
  | panicked word same other =>
    rw [update_none idle]
    have reworded := line.reword same
    exact ⟨reworded.queued, reworded.handed, reworded.holding⟩

theorem field_of_owner (owns : s.owner = task) : s.word &&& tidMask = task.toUInt32 := by
  rw [← owns, State.owner, UInt32.toUInt32_toUInt64]

section
variable (line : Line s) (base : Base group address s.table s.live s.blocked) (small : SmallIds s.live)
  (idle : s.blocked task = none) (runs : s.live task = true)
include line base small idle runs

theorem Line.free (owns : s.word &&& tidMask = task.toUInt32)
    (alone : oldest (Waiter.waitsFor s.live (group, address) task.toUInt32) s.table = none) :
    Line { s with word := 0, holds := update s.holds task false } := by
  have unused (slot : Slot) : (s.table.waiters slot).used = false := by
    refine Bool.eq_false_iff.mpr fun used => ?_
    have asleep := line.asleep_of_owner base small idle runs owns used
    have waits := base.waitsFor used asleep ((line.queued slot used asleep).1.trans owns)
    rw [oldest_none alone slot] at waits
    cases waits
  refine .of_unused unused ?_
  intro other alive holds
  by_cases here : other = task
  · simp [here] at holds
  simp only [update_of_ne here] at holds
  have named := (line.holding other alive holds).1
  exact absurd (task_eq small alive runs (named.trans owns)) here

theorem Line.handOver (owns : s.word &&& tidMask = task.toUInt32)
    (first : oldest (Waiter.waitsFor s.live (group, address) task.toUInt32) s.table = some slot) {bits : UInt32}
    (free : bits &&& tidMask = 0) : Line (handOver s address task slot bits) := by
  obtain ⟨usedFirst, -, -⟩ := waitsFor_spec (oldest_some first).1
  have alive := base.allLive slot usedFirst
  have same := passOn_sameHolders s.table address task.toUInt32 (s.table.waiters slot).task.toUInt32 slot
  have names : ((s.table.waiters slot).task.toUInt32 ||| bits) &&& tidMask = (s.table.waiters slot).task.toUInt32 := by
    rw [or_masked, free, UInt32.or_zero, toUInt32_masked (small _ alive).2]
  have ownerNow : (Lock.handOver s address task slot bits).owner = (s.table.waiters slot).task := by
    rw [State.owner, Lock.handOver, names, toUInt64_toUInt32 (small _ alive).2]
  have wordNow : (Lock.handOver s address task slot bits).word &&& tidMask =
      (s.table.waiters slot).task.toUInt32 := names
  refine ⟨?_, ?_, ?_⟩
  · intro j used asleep
    have usedJ : (s.table.waiters j).used = true := by rwa [← same.used j]
    have wasAsleep := line.asleep_of_owner base small idle runs owns usedJ
    have other : j ≠ slot := by
      rintro rfl
      simp [Lock.handOver, passOn_waiters] at asleep
    have relabelled : ((Lock.handOver s address task slot bits).table.waiters j) =
        { s.table.waiters j with owner := (s.table.waiters slot).task.toUInt32 } := by
      have recorded := (line.queued j usedJ wasAsleep).1.trans owns
      simp [Lock.handOver, passOn_waiters, other, usedJ, wasAsleep, recorded, (base.word j usedJ).2.1]
    rw [relabelled, ownerNow, wordNow]
    refine ⟨rfl, alive, ?_⟩
    intro eq
    exact other (base.slot_unique usedJ usedFirst (task_eq small (base.allLive j usedJ) alive eq.symm))
  · intro j used woken
    have usedJ : (s.table.waiters j).used = true := by rwa [← same.used j]
    have wasAsleep := line.asleep_of_owner base small idle runs owns usedJ
    rw [wordNow]
    by_cases here : j = slot
    · rw [here]
      exact congrArg UInt64.toUInt32 (same.task slot)
    simp only [Lock.handOver, passOn_waiters, here, if_false] at woken
    split at woken
    · simp [wasAsleep] at woken
    · simp [wasAsleep] at woken
  · intro other aliveOther holds
    by_cases here : other = task
    · simp [Lock.handOver, here] at holds
    simp only [Lock.handOver, update_of_ne here] at holds
    have named := (line.holding other aliveOther holds).1
    exact absurd (task_eq small aliveOther runs (named.trans owns)) here

theorem Line.exit (abandoned : Abandoned task.toUInt32 s.word word)
    (notAwaited : ∀ slot, (s.table.waiters slot).used = true → (s.table.waiters slot).woken = false →
      (s.table.waiters slot).owner ≠ task.toUInt32) :
    Line { s with word := word, live := update s.live task false } := by
  have others {other : UInt64} (alive : update s.live task false other = true) :
      other ≠ task ∧ s.live other = true := by
    by_cases here : other = task
    · simp [here] at alive
    · exact ⟨here, by rwa [update_of_ne here] at alive⟩
  by_cases owns : s.word &&& tidMask = task.toUInt32
  · have unused (slot : Slot) : (s.table.waiters slot).used = false := by
      refine Bool.eq_false_iff.mpr fun used => ?_
      have asleep := line.asleep_of_owner base small idle runs owns used
      exact notAwaited slot used asleep ((line.queued slot used asleep).1.trans owns)
    refine .of_unused unused ?_
    intro other alive holds
    obtain ⟨ne, alive⟩ := others alive
    have named := (line.holding other alive holds).1
    exact absurd (task_eq small alive runs (named.trans owns)) ne
  · obtain rfl : word = s.word := by
      rcases abandoned with same | ⟨named, -⟩
      · exact same
      · exact absurd named owns
    refine ⟨?_, line.handed, ?_⟩
    · intro slot used asleep
      obtain ⟨recorded, alive, other⟩ := line.queued slot used asleep
      have ne : s.owner ≠ task := fun same => owns (field_of_owner same)
      refine ⟨recorded, ?_, other⟩
      show update s.live task false s.owner = true
      rw [update_of_ne ne]
      exact alive
    · intro other alive holds
      exact line.holding other (others alive).2 holds

end

theorem Moved.line (moved : Moved group address s label s') (line : Line s)
    (base : Base group address s.table s.live s.blocked) (small : SmallIds s.live) (guard : NotAwaited s label) :
    Line s' := by
  cases moved with
  | nothing => exact line
  | locks _ idle runs outcome => exact outcome.line line base small idle runs
  | tries _ idle runs free =>
    exact line.taken base small runs (toUInt32_masked (small _ runs).2) (.inl (by rw [free]; rfl)) idle
  | unlocks idle runs owns alone => exact line.free base small idle runs owns alone
  | hands idle runs owns first free => exact line.handOver base small idle runs owns first free
  | @leaves task b _ waits _ => exact line.leave task b
  | @returns task b _ _ waits _ outcome =>
    exact outcome.line (s := leave s task b) (line.leave task b) (base.leave waits) small (update_self ..)
      (base.alive task b waits)
  | exits idle runs abandoned => exact line.exit base small idle runs abandoned guard

structure Inv (group address : UInt64) (s : State) : Prop where
  base : Base group address s.table s.live s.blocked
  line : Line s
  small : SmallIds s.live

theorem Inv.preserved (inv : Inv group address s) (guard : NotAwaited s label) :
    Inv group address (step group address s label) := by
  have moved := step_moved inv.base inv.small label
  exact ⟨moved.base inv.base inv.small, moved.line inv.line inv.base inv.small guard, moved.small inv.small⟩

def sleeping (s : State) : Finset Slot :=
  Finset.univ.filter fun slot => (s.table.waiters slot).used = true ∧ (s.table.waiters slot).woken = false

theorem mem_sleeping :
    slot ∈ sleeping s ↔ (s.table.waiters slot).used = true ∧ (s.table.waiters slot).woken = false := by
  simp [sleeping]

theorem Inv.waits_slot (inv : Inv group address s) (waits : s.Waits task sequence) :
    ∃ b, s.blocked task = some b ∧ b.sequence = sequence ∧ (s.table.waiters b.slot).used = true ∧
      (s.table.waiters b.slot).woken = false ∧ (s.table.waiters b.slot).task = task ∧
      (s.table.waiters b.slot).sequence = sequence := by
  obtain ⟨b, blocked, rfl, asleep⟩ := waits
  obtain ⟨used, isTask, number⟩ := inv.base.holder task b blocked
  exact ⟨b, blocked, rfl, used, asleep, isTask, number⟩

theorem Inv.unlock (inv : Inv group address s) (env : Env) (runs : s.runs env.task = true)
    (owns : s.owner = env.task) (waits : s.Waits task sequence) :
    ∃ slot ∈ sleeping s, (∀ j ∈ sleeping s, (s.table.waiters slot).sequence ≤ (s.table.waiters j).sequence) ∧
      ∃ bits, bits &&& tidMask = 0 ∧ step group address s (.unlock env) = handOver s address env.task slot bits := by
  obtain ⟨-, _, idle⟩ := runs_spec runs
  have field := field_of_owner owns
  have waitsFor {j : Slot} (member : j ∈ sleeping s) :
      (s.table.waiters j).waitsFor s.live (group, address) env.task.toUInt32 = true := by
    obtain ⟨used, asleep⟩ := mem_sleeping.mp member
    exact inv.base.waitsFor used asleep ((inv.line.queued j used asleep).1.trans field)
  have stepped : step group address s (.unlock env) =
      s.perform address env.task false (unlockPi (s.view group address env) address s.table) := by
    simp only [Lock.step, runs, if_true]
  rcases unlock_cases group address idle with ⟨-, other⟩ | ⟨-, ⟨alone, -⟩ | ⟨slot, bits, first, free, handed⟩⟩
  · exact absurd field other
  · obtain ⟨b, -, -, used, asleep, -⟩ := inv.waits_slot waits
    have found := waitsFor (mem_sleeping.mpr ⟨used, asleep⟩)
    rw [oldest_none alone b.slot] at found
    cases found
  obtain ⟨satisfies, least⟩ := oldest_some first
  obtain ⟨used, asleep, -⟩ := waitsFor_spec satisfies
  refine ⟨slot, mem_sleeping.mpr ⟨used, asleep⟩, ?_, bits, free, stepped.trans handed⟩
  intro j member
  exact least j (waitsFor member)

theorem handOver_used (task : UInt64) (slot j : Slot) (bits : UInt32) :
    ((handOver s address task slot bits).table.waiters j).used = (s.table.waiters j).used :=
  (passOn_sameHolders s.table address _ _ slot).used j

theorem handOver_woken (task : UInt64) (slot j : Slot) (bits : UInt32) :
    ((handOver s address task slot bits).table.waiters j).woken =
      if j = slot then true else (s.table.waiters j).woken := by
  simp only [handOver, passOn_waiters]
  split_ifs <;> rfl

theorem Inv.wakes_oldest (inv : Inv group address s) (guard : NotAwaited s label) :
    WakesOldest group address s label := by
  cases label with
  | lock => trivial
  | tryLock => trivial
  | resume => trivial
  | unlock env =>
    intro runs owns task sequence oldest
    obtain ⟨slot, member, least, _, -, stepped⟩ := inv.unlock env runs owns oldest.1
    obtain ⟨b, blocked, number, used, asleep, -, _⟩ := inv.waits_slot oldest.1
    obtain ⟨usedSlot, asleepSlot⟩ := mem_sleeping.mp member
    obtain ⟨c, blockedC, rfl⟩ := inv.base.caller slot usedSlot
    -- both are the oldest, so they are one
    have earlier := oldest.2 _ c.sequence ⟨c, blockedC, rfl, asleepSlot⟩
    have later := least b.slot (mem_sleeping.mpr ⟨used, asleep⟩)
    have numberC := (inv.base.holder _ c blockedC).2.2
    have same : b.slot = c.slot := inv.base.distinct _ _ used usedSlot (by omega)
    rw [stepped]
    exact ⟨b, blocked, number, by rw [handOver_woken, if_pos same]⟩
  | exit env _ =>
    intro runs owns task sequence oldest
    obtain ⟨b, -, -, used, asleep, -⟩ := inv.waits_slot oldest.1
    exact absurd ((inv.line.queued b.slot used asleep).1.trans (field_of_owner owns)) (guard b.slot used asleep)

def anyEnv (task : UInt64) : Env where
  task := task
  group := 0
  now := 0
  wall := 0
  live := fun _ => false
  accessible := fun _ => true
  readWord := fun _ => none
  writable := fun _ => false
  timespec := fun _ => none
  sharedPhysical := fun _ => none
  boosted := fun _ => 0

theorem Inv.owner_returns (inv : Inv group address s) (up : s.panicked = false)
    (waits : s.Waits task sequence) : ∃ labels, Inv group address (Run.final (step group address) s labels) ∧
      (Run.final (step group address) s labels).Waits task sequence ∧
      (Run.final (step group address) s labels).runs (Run.final (step group address) s labels).owner = true ∧
      (sleeping (Run.final (step group address) s labels)).card ≤ (sleeping s).card := by
  obtain ⟨b, blocked, number, used, asleep, _, _⟩ := inv.waits_slot waits
  obtain ⟨_, aliveOwner, other⟩ := inv.line.queued b.slot used asleep
  cases ownerBlocked : s.blocked s.owner with
  | none => exact ⟨[], inv, waits, by simp [Run.final, State.runs, up, aliveOwner, ownerBlocked], le_rfl⟩
  | some c =>
    obtain ⟨usedC, taskC, -⟩ := inv.base.holder s.owner c ownerBlocked
    have field := field_of_owner (rfl : s.owner = s.owner)
    have wokenC : (s.table.waiters c.slot).woken = true := by
      by_contra h
      have asleepC : (s.table.waiters c.slot).woken = false := by simpa using h
      exact (inv.line.queued c.slot usedC asleepC).2.2 (by rw [taskC]; exact field)
    have outcome := resume_woken inv.base up (anyEnv s.owner) ownerBlocked wokenC false
    have next : Inv group address (step group address s (.resume (anyEnv s.owner) false)) := inv.preserved trivial
    have apart : b.slot ≠ c.slot := by
      intro same
      rw [same, wokenC] at asleep
      cases asleep
    have notOwner : task ≠ s.owner := by
      rintro rfl
      rw [ownerBlocked, Option.some.injEq] at blocked
      exact apart (by rw [blocked])
    refine ⟨[.resume (anyEnv s.owner) false], next, ?_⟩
    simp only [Run.final, List.foldl_cons, List.foldl_nil]
    generalize step group address s (.resume (anyEnv s.owner) false) = s' at *
    have facts : s'.table = dequeue c.slot s.table ∧ s'.blocked = update s.blocked s.owner none ∧
        s'.live = s.live ∧ s'.panicked = false ∧ s'.word &&& tidMask = s.word &&& tidMask := by
      cases outcome with
      | taken _ free ownerless => exact absurd ownerless (not_ownerless inv.small aliveOwner field.symm)
      | already _ _ => exact ⟨rfl, update_idem .., rfl, up, rfl⟩
      | refused word same => exact ⟨rfl, update_idem .., rfl, up, same⟩
      | queued slot _ free _ _ other => exact absurd field other
      | panicked word same other => exact absurd field other
    obtain ⟨table', blocked', live', up', word'⟩ := facts
    refine ⟨⟨b, ?_, number, ?_⟩, ?_, Finset.card_le_card ?_⟩
    · rw [blocked', update_of_ne notOwner]
      exact blocked
    · rw [table']
      simpa [dequeue, apart] using asleep
    · have owner' : s'.owner = s.owner := by rw [State.owner, word', State.owner]
      rw [State.runs, owner', live', blocked', up']
      simp [aliveOwner]
    intro j member
    obtain ⟨usedJ, asleepJ⟩ := mem_sleeping.mp member
    rw [table'] at usedJ asleepJ
    obtain ⟨-, usedJ, same⟩ := dequeue_used usedJ
    rw [same] at asleepJ
    exact mem_sleeping.mpr ⟨usedJ, asleepJ⟩

theorem final_append (labels more : List Label) :
    Run.final (step group address) (Run.final (step group address) s labels) more =
      Run.final (step group address) s (labels ++ more) := by
  simp [Run.final]

theorem Inv.reached (n : Nat) (inv : Inv group address s) (up : s.panicked = false) (few : (sleeping s).card ≤ n)
    (waits : s.Waits task sequence) :
    ∃ labels, (Run.final (step group address) s labels).Woken task sequence := by
  induction n generalizing s with
  | zero =>
    obtain ⟨b, -, -, used, asleep, -⟩ := inv.waits_slot waits
    have member : b.slot ∈ sleeping s := mem_sleeping.mpr ⟨used, asleep⟩
    rw [Finset.card_eq_zero.mp (Nat.le_zero.mp few)] at member
    cases member
  | succ n ih =>
    obtain ⟨first, inv', waits', runs, card⟩ := inv.owner_returns up waits
    generalize reach : Run.final (step group address) s first = s' at inv' waits' runs card
    obtain ⟨slot, member, -, bits, -, stepped⟩ := inv'.unlock (anyEnv s'.owner) runs rfl waits'
    obtain ⟨b, blocked, number, used, asleep, -⟩ := inv'.waits_slot waits'
    have next : Inv group address (step group address s' (.unlock (anyEnv s'.owner))) := inv'.preserved trivial
    rw [stepped] at next
    by_cases turn : b.slot = slot
    · refine ⟨first ++ [.unlock (anyEnv s'.owner)], ?_⟩
      rw [← final_append, reach]
      simp only [Run.final, List.foldl_cons, List.foldl_nil, stepped]
      exact ⟨b, blocked, number, by rw [handOver_woken, if_pos turn]⟩
    have fewer : (sleeping (handOver s' address (anyEnv s'.owner).task slot bits)).card ≤ n := by
      have subset : sleeping (handOver s' address (anyEnv s'.owner).task slot bits) ⊆ (sleeping s').erase slot := by
        intro j inside
        obtain ⟨usedJ, asleepJ⟩ := mem_sleeping.mp inside
        rw [handOver_used] at usedJ
        rw [handOver_woken] at asleepJ
        split at asleepJ
        · cases asleepJ
        · rename_i other
          exact Finset.mem_erase.mpr ⟨other, mem_sleeping.mpr ⟨usedJ, asleepJ⟩⟩
      have := Finset.card_le_card subset
      rw [Finset.card_erase_of_mem member] at this
      omega
    have stillWaits : (handOver s' address (anyEnv s'.owner).task slot bits).Waits task sequence :=
      ⟨b, blocked, number, by rw [handOver_woken, if_neg turn]; exact asleep⟩
    obtain ⟨more, woken⟩ := ih next (runs_spec runs).1 fewer stillWaits
    refine ⟨first ++ .unlock (anyEnv s'.owner) :: more, ?_⟩
    rw [← final_append, reach]
    simpa only [Run.final, List.foldl_cons, stepped] using woken

theorem Inv.safe (inv : Inv group address s) : Safe group address s := by
  refine ⟨?_, ?_⟩
  · intro t u aliveT aliveU holdsT holdsU
    have namedT := (inv.line.holding t aliveT holdsT).1
    have namedU := (inv.line.holding u aliveU holdsU).1
    exact task_eq inv.small aliveT aliveU (namedT.trans namedU.symm)
  · intro up _ _ _ waits
    exact inv.reached _ up le_rfl waits

theorem inv_start (small : SmallIds live) : Inv group address (start live) := by
  refine ⟨base_start, .of_unused (fun _ => rfl) ?_, small⟩
  intro _ _ holds
  cases holds

end

/-- The lock is exclusive and strands nobody in runs where no thread exits that a sleeping thread waits for. -/
theorem lock_safe_of_notAwaited (group address : UInt64) (live : UInt64 → Bool) (small : SmallIds live)
    (labels : List Label) (guard : Run.Along (step group address) NotAwaited (start live) labels) :
    Run.Throughout (step group address) (Safe group address) (start live) labels ∧
      Run.Along (step group address) (WakesOldest group address) (start live) labels := by
  have keeps (s : State) (label : Label) (inv : Inv group address s) (guard : NotAwaited s label) :
      Inv group address (step group address s label) := inv.preserved guard
  exact ⟨Run.throughout_of_along keeps (fun s inv => inv.safe) (inv_start small) guard,
    Run.along_of_along keeps (fun s label inv guard => inv.wakes_oldest guard) (inv_start small) guard⟩

def twoThreads : UInt64 → Bool := fun task => task == 1 || task == 2

theorem smallIds_twoThreads : SmallIds twoThreads := by
  intro _ alive
  simp only [twoThreads, Bool.or_eq_true, beq_iff_eq] at alive
  rcases alive with rfl | rfl <;> decide

def ownerUnlocks : List Label :=
  [.lock (anyEnv 1) 0 false, .lock (anyEnv 2) 0 false, .unlock (anyEnv 1), .resume (anyEnv 2) false,
    .exit (anyEnv 1) none]

theorem ownerUnlocks_safe : (Run.final (step 1 16) (start twoThreads) ownerUnlocks).holds 2 = true ∧
      Run.Throughout (step 1 16) (Safe 1 16) (start twoThreads) ownerUnlocks := by
  refine ⟨by decide +kernel, (lock_safe_of_notAwaited 1 16 twoThreads smallIds_twoThreads ownerUnlocks ?_).1⟩
  exact ⟨trivial, trivial, trivial, trivial, by unfold NotAwaited; decide +kernel, trivial⟩

/-! ## The death of an owner

A thread that waits for an owner that has died is never woken: `robust_cleanup` wakes plain waiters only, and no
thread that unlocks later is the owner it is recorded with. -/

section
variable {group address : UInt64} {s : State}

structure Stuck (s : State) (sequence : Nat) (owner : UInt32) : Prop where
  asleep : ∀ slot, (s.table.waiters slot).used = true → (s.table.waiters slot).sequence = sequence →
    (s.table.waiters slot).woken = false ∧ (s.table.waiters slot).owner = owner
  gone : ∀ task, s.live task = true → task.toUInt32 ≠ owner
  past : sequence ≤ s.table.sequence

theorem LockOutcome.stuck (stuck : Stuck s sequence owner)
    (outcome : LockOutcome group address s task limit waited s') : Stuck s' sequence owner := by
  cases outcome with
  | taken _ free _ => exact ⟨stuck.asleep, stuck.gone, stuck.past⟩
  | already _ _ => exact ⟨stuck.asleep, stuck.gone, stuck.past⟩
  | refused word same => exact ⟨stuck.asleep, stuck.gone, stuck.past⟩
  | panicked word same other => exact ⟨stuck.asleep, stuck.gone, stuck.past⟩
  | queued slot _ free _ _ other =>
    refine ⟨?_, stuck.gone, Nat.le_succ_of_le stuck.past⟩
    intro j used number
    by_cases here : j = slot
    · have := stuck.past
      simp [here, newWaiter] at number
      omega
    · simp only [update_of_ne here] at used number ⊢
      exact stuck.asleep j used number

theorem Stuck.leave (stuck : Stuck s sequence owner) (task : UInt64) (b : Blocked) :
    Stuck (leave s task b) sequence owner := by
  refine ⟨?_, stuck.gone, stuck.past⟩
  intro j used number
  obtain ⟨-, used, same⟩ := dequeue_used used
  simp only [Lock.leave, same] at number ⊢
  exact stuck.asleep j used number

theorem Stuck.handOver (stuck : Stuck s sequence owner) (runs : s.live task = true)
    (first : oldest (Waiter.waitsFor s.live (group, address) task.toUInt32) s.table = some slot) (bits : UInt32) :
    Stuck (handOver s address task slot bits) sequence owner := by
  have same := passOn_sameHolders s.table address task.toUInt32 (s.table.waiters slot).task.toUInt32 slot
  obtain ⟨_, -, waitsFirst⟩ := waitsFor_spec (oldest_some first).1
  have elsewhere := stuck.gone task runs
  refine ⟨?_, stuck.gone, stuck.past⟩
  intro j used number
  rw [handOver_used] at used
  have number := (same.sequence j).symm.trans number
  obtain ⟨asleep, recorded⟩ := stuck.asleep j used number
  have ne : j ≠ slot := by
    rintro rfl
    exact elsewhere (waitsFirst.symm.trans recorded)
  simp [Lock.handOver, passOn_waiters, ne, recorded, asleep, Ne.symm elsewhere]

theorem Moved.stuck (moved : Moved group address s label s')
    (stuck : Stuck s sequence owner) : Stuck s' sequence owner := by
  cases moved with
  | nothing => exact stuck
  | locks _ idle runs outcome => exact outcome.stuck stuck
  | tries _ idle runs free => exact ⟨stuck.asleep, stuck.gone, stuck.past⟩
  | unlocks idle runs owns _ => exact ⟨stuck.asleep, stuck.gone, stuck.past⟩
  | hands idle runs owns first free => exact stuck.handOver runs first _
  | @leaves task b _ waits asleep => exact stuck.leave task b
  | @returns task b _ _ waits _ outcome => exact outcome.stuck (stuck.leave task b)
  | exits idle runs _ =>
    refine ⟨stuck.asleep, ?_, stuck.past⟩
    intro other alive
    refine stuck.gone other ?_
    by_contra dead
    simp [update_apply, dead] at alive

theorem Stuck.never_woken (stuck : Stuck s sequence owner)
    (base : Base group address s.table s.live s.blocked) (small : SmallIds s.live) (labels : List Label)
    (task : UInt64) : ¬(Run.final (step group address) s labels).Woken task sequence := by
  induction labels generalizing s with
  | nil =>
    rintro ⟨b, blocked, number, woken⟩
    obtain ⟨used, -, atSlot⟩ := base.holder task b blocked
    have asleep := (stuck.asleep b.slot used (atSlot.trans number)).1
    change (s.table.waiters b.slot).woken = true at woken
    rw [asleep] at woken
    cases woken
  | cons label labels ih =>
    have moved := step_moved base small label
    exact ih (moved.stuck stuck) (moved.base base small) (moved.small small)

end

theorem final_base (group address : UInt64) (small : SmallIds live) (labels : List Label) :
    Base group address (Run.final (step group address) (start live) labels).table
        (Run.final (step group address) (start live) labels).live
        (Run.final (step group address) (start live) labels).blocked ∧
      SmallIds (Run.final (step group address) (start live) labels).live ∧
      ∀ task, (Run.final (step group address) (start live) labels).live task = true → live task = true := by
  let inv (s : State) : Prop :=
    Base group address s.table s.live s.blocked ∧ SmallIds s.live ∧ ∀ task, s.live task = true → live task = true
  have keeps (s : State) (label : Label) (h : inv s) : inv (step group address s label) := by
    have moved := step_moved h.1 h.2.1 label
    exact ⟨moved.base h.1 h.2.1, moved.small h.2.1, fun task alive => h.2.2 task (moved.live_le alive)⟩
  exact Run.final_invariant keeps labels (s := start live) ⟨base_start, small, fun _ alive => alive⟩

def listOfLock : RobustList := ⟨8, 16, 0, 0, fun _ => some 8⟩

/-- Thread one takes the lock, thread two waits for it, and thread one exits. -/
def ownerDies : List Label :=
  [.lock (anyEnv 1) 0 false, .lock (anyEnv 2) 0 false, .exit (anyEnv 1) (some listOfLock)]

theorem stuck_ownerDies : Stuck (Run.final (step 1 16) (start twoThreads) ownerDies) 1 1 := by
  refine ⟨by decide +kernel, ?_, by decide +kernel⟩
  intro task alive
  have was := (final_base 1 16 smallIds_twoThreads ownerDies).2.2 task alive
  simp only [twoThreads, Bool.or_eq_true, beq_iff_eq] at was
  rcases was with rfl | rfl
  · have dead : (Run.final (step 1 16) (start twoThreads) ownerDies).live 1 = false := by decide +kernel
    rw [dead] at alive
    cases alive
  · decide

theorem owner_death_strands : ¬Safe 1 16 (Run.final (step 1 16) (start twoThreads) ownerDies) := by
  intro safe
  obtain ⟨base, small, -⟩ := final_base 1 16 smallIds_twoThreads ownerDies
  have waits : (Run.final (step 1 16) (start twoThreads) ownerDies).Waits 2 1 :=
    ⟨⟨⟨0, by decide⟩, none, 1⟩, by decide +kernel, rfl, by decide +kernel⟩
  have ownerless : (Run.final (step 1 16) (start twoThreads) ownerDies).Ownerless := .inl (by decide +kernel)
  obtain ⟨labels, woken⟩ := safe.served (by decide +kernel) ownerless 2 1 waits
  exact stuck_ownerDies.never_woken base small labels 2 woken

end AerOS.Proof.Futex.Lock
