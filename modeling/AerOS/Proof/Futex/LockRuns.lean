import AerOS.Proof.Futex.Wakes
import AerOS.Spec.FutexLock

namespace AerOS.Proof.Futex.Lock
open Function AerOS.Futex.Lock Option
open AerOS.Futex hiding Label step

variable {table : Table} {tid word : UInt32}
variable {list : RobustList} {memory : Futex.Memory} {before : UInt32}

section
variable {t u : UInt64}

theorem toUInt32_masked (small : t.toNat < 2 ^ 30) : t.toUInt32 &&& tidMask = t.toUInt32 := by
  apply UInt32.toNat_inj.mp
  have mask : tidMask.toNat = 2 ^ 30 - 1 := rfl
  rw [UInt32.toNat_and, mask, Nat.and_two_pow_sub_one_eq_mod, UInt64.toNat_toUInt32]
  omega

theorem toUInt64_toUInt32 (small : t.toNat < 2 ^ 30) : t.toUInt32.toUInt64 = t := by
  apply UInt64.toNat_inj.mp
  rw [UInt32.toNat_toUInt64, UInt64.toNat_toUInt32]
  omega

theorem toUInt32_inj (smallT : t.toNat < 2 ^ 30) (smallU : u.toNat < 2 ^ 30) (h : t.toUInt32 = u.toUInt32) :
    t = u := by
  rw [← toUInt64_toUInt32 smallT, h, toUInt64_toUInt32 smallU]

theorem waiters_masked (w : UInt32) : w &&& waitersBit &&& tidMask = 0 := by
  rw [UInt32.and_assoc, show waitersBit &&& tidMask = 0 by decide, UInt32.and_zero]

theorem or_masked (a b : UInt32) : (a ||| b) &&& tidMask = (a &&& tidMask) ||| (b &&& tidMask) := by
  apply UInt32.toNat_inj.mp
  simp only [UInt32.toNat_and, UInt32.toNat_or]
  exact Nat.and_or_distrib_right ..

theorem masked_or_waiters (w : UInt32) : (w ||| waitersBit) &&& tidMask = w &&& tidMask := by
  rw [or_masked, show waitersBit &&& tidMask = 0 by decide, UInt32.or_zero]

end

section
variable {group address : UInt64} {s : State} {env : Env}

theorem view_word : (s.view group address env).readWord address = some s.word := by
  simp [State.view]

theorem view_writable : (s.view group address env).writable address = true := by
  simp [State.view]

inductive LockOutcome (group address : UInt64) (s : State) (task : UInt64) (limit : Option Nat) (waited : Bool) :
    State → Prop
  | taken (kept : UInt32) (free : kept &&& tidMask = 0) (ownerless : s.word &&& tidMask = 0 ∨ s.live s.owner = false) :
      LockOutcome group address s task limit waited
        { s with
          word := task.toUInt32 ||| kept ||| (s.word &&& waitersBit)
          blocked := update s.blocked task none
          holds := update s.holds task true }
  | already (owns : s.word &&& tidMask = task.toUInt32) (after : waited = true) :
      LockOutcome group address s task limit waited
        { s with blocked := update s.blocked task none, holds := update s.holds task true }
  | refused (word : UInt32) (same : word &&& tidMask = s.word &&& tidMask) :
      LockOutcome group address s task limit waited
        { s with word := word, blocked := update s.blocked task none }
  | queued (slot : Slot) (saved : Int) (free : (s.table.waiters slot).used = false) (owned : s.word &&& tidMask ≠ 0)
      (alive : s.live s.owner = true) (other : s.word &&& tidMask ≠ task.toUInt32) :
      LockOutcome group address s task limit waited
        { s with
          table :=
            ⟨update s.table.waiters slot
              (newWaiter s.table task (group, address) allBits (s.word &&& tidMask) saved), s.table.sequence + 1⟩
          word := s.word ||| waitersBit
          blocked := update s.blocked task (some ⟨slot, limit, s.table.sequence + 1⟩) }
  | panicked (word : UInt32) (same : word &&& tidMask = s.word &&& tidMask)
      (other : s.word &&& tidMask ≠ task.toUInt32) : LockOutcome group address s task limit waited
        { s with word := word, blocked := update s.blocked task none, panicked := true }

theorem lockTurn_outcome (alive : AllLive s.live s.table) (limit : Option Nat) (waited : Bool) :
    LockOutcome group address s env.task limit waited
      (s.perform address env.task true (lockTurn (s.view group address env) address limit waited s.table)) := by
  unfold lockTurn
  rw [view_word]
  dsimp only
  split
  · rename_i ownerless
    rw [view_writable, if_pos rfl]
    have free : (if s.word &&& tidMask = 0 then (0 : UInt32) else ownerDied) &&& tidMask = 0 := by
      split <;> decide
    simp only [State.perform, update_self, getD_some, if_true]
    exact .taken _ free (by simpa [State.view, State.owner] using ownerless)
  rename_i owned
  simp only [State.view, Bool.not_eq_true', not_or, Bool.not_eq_false] at owned
  split
  · rename_i mine
    split
    · rename_i after
      simp only [State.perform, view_word, getD_some, if_true]
      exact .already mine after
    · simp only [State.perform, Effect.fail, view_word, getD_some, reduceCtorEq, if_false]
      exact .refused s.word rfl
  rename_i other
  simp only [view_writable, Bool.not_true, Bool.false_eq_true, if_false]
  have same := masked_or_waiters s.word
  have viewAlive : AllLive (s.view group address env).live s.table := alive
  rcases enqueue_cases viewAlive (s.view group address env).task
      ((s.view group address env).group, address) allBits (s.word &&& tidMask)
      ((s.view group address env).boosted (s.word &&& tidMask).toUInt64) with full | ⟨slot, free, queued⟩ | overflow
  · rw [full]
    simp only [State.perform, update_self, getD_some, reduceCtorEq, if_false]
    exact .refused _ same
  · rw [queued]
    simp only [State.perform, update_self, getD_some]
    exact .queued slot _ free owned.1 owned.2 other
  · rw [overflow]
    simp only [State.perform, update_self, getD_some]
    exact .panicked _ same other

theorem update_none {f : UInt64 → Option Blocked} {t : UInt64} (h : f t = none) : update f t none = f := by
  rw [← h, update_eq_self]

theorem perform_fail {t : UInt64} (idle : s.blocked t = none) (takes : Bool) (errno : Nat) :
    s.perform address t takes (.fail (s.view group address env) s.table errno) = s := by
  simp only [State.perform, Effect.fail, view_word, getD_some, reduceCtorEq, if_false, update_none idle]

variable (group address) in
theorem lock_outcome (alive : AllLive s.live s.table) (idle : s.blocked env.task = none) (timeout : UInt64)
    (realtime : Bool) : ∃ limit, LockOutcome group address s env.task limit false
      (s.perform address env.task true (lockPi (s.view group address env) address timeout realtime s.table)) := by
  unfold lockPi
  split
  · refine ⟨none, ?_⟩
    have same : LockOutcome group address s env.task none false { s with blocked := update s.blocked env.task none } :=
      .refused s.word rfl
    rw [update_none idle] at same
    rw [perform_fail idle]
    exact same
  · exact ⟨_, lockTurn_outcome alive _ false⟩

variable (group address) in
theorem tryLock_cases (idle : s.blocked env.task = none) :
    s.perform address env.task true (tryLockPi (s.view group address env) address s.table) = s ∨
      s.word = 0 ∧ s.perform address env.task true (tryLockPi (s.view group address env) address s.table) =
        { s with word := env.task.toUInt32, holds := update s.holds env.task true } := by
  unfold tryLockPi
  rw [view_word]
  dsimp only
  split
  · rename_i zero
    right
    refine ⟨zero, ?_⟩
    rw [view_writable, if_pos rfl]
    simp only [State.perform, update_self, getD_some, if_true, update_none idle]
    rfl
  left
  split
  · exact perform_fail idle _ _
  · exact perform_fail idle _ _

def handOver (s : State) (address : UInt64) (task : UInt64) (slot : Slot) (bits : UInt32) : State :=
  let next := (s.table.waiters slot).task.toUInt32
  { s with
    table := passOn address task.toUInt32 next (mark slot s.table)
    word := next ||| bits
    holds := update s.holds task false }

variable (group address) in
theorem unlock_cases (idle : s.blocked env.task = none) :
    s.perform address env.task false (unlockPi (s.view group address env) address s.table) = s ∧
        s.word &&& tidMask ≠ env.task.toUInt32 ∨ s.word &&& tidMask = env.task.toUInt32 ∧
        (oldest (Waiter.waitsFor s.live (group, address) env.task.toUInt32) s.table = none ∧
            s.perform address env.task false (unlockPi (s.view group address env) address s.table) =
              { s with word := 0, holds := update s.holds env.task false } ∨
          ∃ slot bits, oldest (Waiter.waitsFor s.live (group, address) env.task.toUInt32) s.table = some slot ∧
            bits &&& tidMask = 0 ∧
            s.perform address env.task false (unlockPi (s.view group address env) address s.table) =
              handOver s address env.task slot bits) := by
  unfold unlockPi
  rw [view_word]
  dsimp only
  split
  · rename_i other
    exact .inl ⟨perform_fail idle _ _, other⟩
  rename_i mine
  refine .inr ⟨not_not.mp mine, ?_⟩
  rw [view_writable, if_pos rfl]
  cases found : oldest (Waiter.waitsFor s.live (group, address) env.task.toUInt32) s.table with
  | none =>
    refine .inl ⟨rfl, ?_⟩
    simp only [State.view, found, State.perform, update_self, getD_some, if_true, update_none idle]
  | some slot =>
    refine .inr ⟨slot, if 1 < (List.finRange waiterCount).countP fun slot =>
      (s.table.waiters slot).waitsFor s.live (group, address) env.task.toUInt32 then waitersBit else 0, rfl, ?_, ?_⟩
    · split <;> decide
    · simp only [State.view, found, State.perform, update_self, getD_some, if_true, update_none idle,
        handOver]
      rfl

theorem wake_of_owned {live : UInt64 → Bool}
    (owned : ∀ slot, (table.waiters slot).used = true → (table.waiters slot).owner ≠ 0) (word : Key) (bitset : UInt32)
    (count : Nat) : wake live word bitset count table = ([], table) := by
  cases count with
  | zero => rfl
  | succ count =>
    rw [wake]
    split
    · rfl
    rename_i slot found
    have satisfies := (oldest_some found).1
    simp only [Waiter.waitsOn, Bool.and_eq_true, beq_iff_eq] at satisfies
    exact absurd satisfies.1.1.1.1.2 (owned slot satisfies.1.1.1.1.1.1)

def Abandoned (tid before after : UInt32) : Prop :=
  after = before ∨ before &&& tidMask = tid ∧ after &&& tidMask = 0

section
variable (owned : ∀ slot, (table.waiters slot).used = true → (table.waiters slot).owner ≠ 0)
include owned

theorem abandon_spec (entry : UInt64) (here : memory address = some word)
    (nonzero : tid ≠ 0) (so : Abandoned tid before word) :
    (abandon env list tid entry memory table).2 = table ∧
      ∃ after, (abandon env list tid entry memory table).1 address = some after ∧ Abandoned tid before after := by
  unfold abandon
  dsimp only
  split
  · exact ⟨rfl, word, here, so⟩
  rename_i found present
  split
  · exact ⟨rfl, word, here, so⟩
  rename_i held
  split
  · have written : ∃ after, update memory (entry + list.offset)
        (some ((found &&& waitersBit) ||| ownerDied)) address = some after ∧ Abandoned tid before after := by
      by_cases same : address = entry + list.offset
      · refine ⟨_, by rw [same, update_self], ?_⟩
        have : found = word := by
          rw [← same, here] at present
          exact (some.inj present).symm
        subst this
        rcases so with rfl | ⟨-, cleared⟩
        · refine .inr ⟨not_not.mp held, ?_⟩
          rw [or_masked, waiters_masked, show ownerDied &&& tidMask = 0 by decide, UInt32.or_zero]
        · rw [cleared, not_not] at held
          exact absurd held.symm nonzero
      · exact ⟨word, by rw [update_of_ne same, here], so⟩
    split
    · rw [wake_of_owned owned]
      exact ⟨rfl, written⟩
    · exact ⟨rfl, written⟩
  · exact ⟨rfl, word, here, so⟩

theorem walkRobust_spec (turns : Nat) (entry : UInt64)
    (here : memory address = some word) (nonzero : tid ≠ 0) (so : Abandoned tid before word) :
    (walkRobust env list tid turns entry memory table).2 = table ∧
      ∃ after, (walkRobust env list tid turns entry memory table).1 address = some after ∧
        Abandoned tid before after := by
  induction turns generalizing entry memory word with
  | zero => exact ⟨rfl, word, here, so⟩
  | succ turns ih =>
    rw [walkRobust]
    split
    · exact ⟨rfl, word, here, so⟩
    generalize visited : (if entry ≠ list.pending then abandon env list tid entry memory table else (memory, table)) =
      result
    have spec : result.2 = table ∧ ∃ after, result.1 address = some after ∧ Abandoned tid before after := by
      rw [← visited]
      split
      · exact abandon_spec owned entry here nonzero so
      · exact ⟨rfl, word, here, so⟩
    obtain ⟨_, _⟩ := result
    obtain ⟨rfl, after, there, still⟩ := spec
    dsimp only
    split
    · exact ⟨rfl, after, there, still⟩
    · exact ih _ there still

end

theorem robustCleanup_spec
    (owned : ∀ slot, (table.waiters slot).used = true → (table.waiters slot).owner ≠ 0) (list : RobustList)
    (here : env.readWord address = some word) (nonzero : tid ≠ 0) :
    (robustCleanup env list tid table).2 = table ∧
      ∃ after, (robustCleanup env list tid table).1 address = some after ∧ Abandoned tid word after := by
  unfold robustCleanup
  generalize walked : walkRobust env list tid robustLimit list.first env.readWord table = result
  have spec : result.2 = table ∧ ∃ after, result.1 address = some after ∧ Abandoned tid word after := by
    rw [← walked]
    exact walkRobust_spec owned robustLimit list.first here nonzero (.inl rfl)
  obtain ⟨_, _⟩ := result
  obtain ⟨rfl, after, there, still⟩ := spec
  dsimp only
  split
  · exact abandon_spec owned _ there nonzero still
  · exact ⟨rfl, after, there, still⟩

variable (group address) in
theorem exit_cases (owned : ∀ slot, (s.table.waiters slot).used = true → (s.table.waiters slot).owner ≠ 0)
    (nonzero : env.task.toUInt32 ≠ 0) (list : Option RobustList) :
    ∃ word, Abandoned env.task.toUInt32 s.word word ∧
      exit group address s env list = { s with word := word, live := update s.live env.task false } := by
  cases list with
  | none =>
    refine ⟨s.word, .inl rfl, ?_⟩
    simp only [exit, view_word, getD_some]
  | some list =>
    have here : (s.view group address env).readWord address = some s.word := view_word
    obtain ⟨sameTable, word, there, abandoned⟩ := robustCleanup_spec owned list here nonzero
    refine ⟨word, abandoned, ?_⟩
    simp only [exit, there, sameTable, getD_some]

end

variable {waited : Bool} {slot : Slot} {s' : State} {owner : UInt32} {task : UInt64}
variable {b : Blocked} {limit : Option Nat} {label : Label}

structure Base (group address : UInt64) (table : Table) (live : UInt64 → Bool) (blocked : UInt64 → Option Blocked) :
    Prop where
  caller : ∀ slot, (table.waiters slot).used = true →
    ∃ b, blocked (table.waiters slot).task = some b ∧ b.slot = slot
  holder : ∀ task b, blocked task = some b → (table.waiters b.slot).used = true ∧
    (table.waiters b.slot).task = task ∧ (table.waiters b.slot).sequence = b.sequence
  alive : ∀ task b, blocked task = some b → live task = true
  word : ∀ slot, (table.waiters slot).used = true →
    (table.waiters slot).group = group ∧ (table.waiters slot).address = address ∧ (table.waiters slot).owner ≠ 0
  bound : ∀ slot, (table.waiters slot).used = true → (table.waiters slot).sequence ≤ table.sequence
  distinct : ∀ i j, (table.waiters i).used = true → (table.waiters j).used = true →
    (table.waiters i).sequence = (table.waiters j).sequence → i = j

section
variable {group address : UInt64} {table : Table} {live : UInt64 → Bool} {blocked : UInt64 → Option Blocked}

theorem base_start : Base group address .empty live (fun _ => none) := by
  refine ⟨?_, ?_, ?_, ?_, ?_, ?_⟩
  · intro slot used
    cases used
  · intro task b waits
    cases waits
  · intro task b waits
    cases waits
  · intro slot used
    cases used
  · intro slot used
    cases used
  · intro i j used
    cases used

namespace Base
variable (base : Base group address table live blocked)
include base

theorem seats : Seats Blocked.slot Blocked.sequence table.waiters blocked := ⟨base.holder, base.caller⟩

theorem numbered : Numbered table := ⟨base.bound, base.distinct⟩

theorem allLive : AllLive live table := by
  intro slot used
  obtain ⟨b, waits, -⟩ := base.caller slot used
  exact base.alive _ b waits

theorem owned (slot : Slot) (used : (table.waiters slot).used = true) : (table.waiters slot).owner ≠ 0 :=
  (base.word slot used).2.2

theorem ne_idle (idle : blocked task = none) (used : (table.waiters slot).used = true) :
    (table.waiters slot).task ≠ task := by
  rintro rfl
  obtain ⟨b, waits, -⟩ := base.caller slot used
  rw [idle] at waits
  cases waits

theorem slot_unique {i j : Slot} (usedI : (table.waiters i).used = true) (usedJ : (table.waiters j).used = true)
    (same : (table.waiters i).task = (table.waiters j).task) : i = j := by
  obtain ⟨b, waitsI, rfl⟩ := base.caller i usedI
  obtain ⟨c, waitsJ, rfl⟩ := base.caller j usedJ
  rw [same, waitsJ, some.injEq] at waitsI
  rw [waitsI]

theorem enqueue (idle : blocked task = none) (runs : live task = true)
    (free : (table.waiters slot).used = false) {bitset : UInt32} (owned : owner ≠ 0) (saved : Int)
    (limit : Option Nat) : Base group address
      ⟨update table.waiters slot (newWaiter table task (group, address) bitset owner saved), table.sequence + 1⟩ live
      (update blocked task (some ⟨slot, limit, table.sequence + 1⟩)) := by
  have seats := base.seats.take (c := ⟨slot, limit, table.sequence + 1⟩)
    (w := newWaiter table task (group, address) bitset owner saved) idle free rfl rfl rfl
  have numbered := @Numbered.fill slot table (newWaiter table task (group, address) bitset owner saved) base.numbered rfl
  refine ⟨seats.caller, seats.holder, ?_, ?_, numbered.bound, numbered.distinct⟩
  · intro other b waits
    by_cases here : other = task
    · rw [here]
      exact runs
    · rw [update_of_ne here] at waits
      exact base.alive other b waits
  · intro j used
    by_cases here : j = slot
    · subst here
      simpa [newWaiter] using owned
    · simp only [update_of_ne here] at used ⊢
      exact base.word j used

theorem leave (waits : blocked task = some b) :
    Base group address (dequeue b.slot table) live (update blocked task none) := by
  have seats := base.seats.leave waits
  have numbered := base.numbered.clear b.slot
  refine ⟨seats.caller, seats.holder, ?_, ?_, numbered.bound, numbered.distinct⟩
  · intro other c waitsC
    by_cases here : other = task
    · subst here
      simp at waitsC
    · rw [update_of_ne here] at waitsC
      exact base.alive other c waitsC
  · intro j used
    obtain ⟨-, used, same⟩ := dequeue_used used
    rw [same]
    exact base.word j used

theorem relabel {after : Table} (same : SameHolders table after)
    (word : ∀ slot, (table.waiters slot).used = true → (after.waiters slot).group = (table.waiters slot).group ∧
      (after.waiters slot).address = (table.waiters slot).address ∧ (after.waiters slot).owner ≠ 0) :
    Base group address after live blocked := by
  have seats := base.seats.same same
  refine ⟨seats.caller, seats.holder, base.alive, ?_, ?_, ?_⟩
  · intro slot used
    rw [same.used] at used
    obtain ⟨group, address, owned⟩ := word slot used
    rw [group, address]
    exact ⟨(base.word slot used).1, (base.word slot used).2.1, owned⟩
  · intro slot used
    rw [same.used] at used
    rw [same.sequence, same.last]
    exact base.bound slot used
  intro i j usedI usedJ eq
  rw [same.used] at usedI usedJ
  rw [same.sequence, same.sequence] at eq
  exact base.distinct i j usedI usedJ eq

theorem exit (idle : blocked task = none) : Base group address table (update live task false) blocked := by
  refine ⟨base.caller, base.holder, ?_, base.word, base.bound, base.distinct⟩
  intro other b waits
  have ne : other ≠ task := by
    rintro rfl
    rw [idle] at waits
    cases waits
  rw [update_of_ne ne]
  exact base.alive other b waits

end Base

end

def leave (s : State) (task : UInt64) (b : Blocked) : State :=
  { s with table := dequeue b.slot s.table, blocked := update s.blocked task none }

section
variable {group address : UInt64} {s : State}

theorem perform_leave (task : UInt64) (b : Blocked) (takes : Bool) (effect : Effect) :
    (leave s task b).perform address task takes effect = s.perform address task takes effect := by
  simp only [State.perform, leave]
  cases effect.reply <;> simp only [update_idem]

inductive Moved (group address : UInt64) (s : State) : Label → State → Prop
  | nothing (label : Label) : Moved group address s label s
  | locks {task : UInt64} {limit : Option Nat} {s' : State} (label : Label) (idle : s.blocked task = none)
      (runs : s.live task = true) (outcome : LockOutcome group address s task limit false s') :
      Moved group address s label s'
  | tries {task : UInt64} (label : Label) (idle : s.blocked task = none) (runs : s.live task = true)
      (free : s.word = 0) :
      Moved group address s label { s with word := task.toUInt32, holds := update s.holds task true }
  | unlocks {env : Env} (idle : s.blocked env.task = none) (runs : s.live env.task = true)
      (owns : s.word &&& tidMask = env.task.toUInt32)
      (alone : oldest (Waiter.waitsFor s.live (group, address) env.task.toUInt32) s.table = none) :
      Moved group address s (.unlock env) { s with word := 0, holds := update s.holds env.task false }
  | hands {env : Env} {slot : Slot} {bits : UInt32} (idle : s.blocked env.task = none)
      (runs : s.live env.task = true) (owns : s.word &&& tidMask = env.task.toUInt32)
      (first : oldest (Waiter.waitsFor s.live (group, address) env.task.toUInt32) s.table = some slot)
      (free : bits &&& tidMask = 0) :
      Moved group address s (.unlock env) (handOver s address env.task slot bits)
  | leaves {task : UInt64} {b : Blocked} (label : Label) (waits : s.blocked task = some b)
      (asleep : (s.table.waiters b.slot).woken = false) : Moved group address s label (leave s task b)
  | returns {task : UInt64} {b : Blocked} {s' : State} (label : Label) (waits : s.blocked task = some b)
      (woken : (s.table.waiters b.slot).woken = true)
      (outcome : LockOutcome group address (leave s task b) task b.limit true s') : Moved group address s label s'
  | exits {env : Env} {list : Option RobustList} {word : UInt32} (idle : s.blocked env.task = none)
      (runs : s.live env.task = true) (abandoned : Abandoned env.task.toUInt32 s.word word) :
      Moved group address s (.exit env list) { s with word := word, live := update s.live env.task false }

theorem runs_spec (h : s.runs task = true) :
    s.panicked = false ∧ s.live task = true ∧ s.blocked task = none := by
  simpa [State.runs, and_assoc] using h

theorem toUInt32_ne_zero {t : UInt64} (h : t ≠ 0 ∧ t.toNat < 2 ^ 30) : t.toUInt32 ≠ 0 := by
  intro zero
  exact h.1 (toUInt32_inj h.2 (by decide) zero)

theorem resume_woken (base : Base group address s.table s.live s.blocked) (up : s.panicked = false) (env : Env)
    (waits : s.blocked env.task = some b) (woken : (s.table.waiters b.slot).woken = true)
    (interrupted : Bool) : LockOutcome group address (leave s env.task b) env.task b.limit true
      (step group address s (.resume env interrupted)) := by
  simp only [step, waits, up, Bool.false_eq_true, if_false, resume, blockTurn, woken, if_true]
  rw [← perform_leave env.task b]
  exact lockTurn_outcome (base.leave waits).allLive b.limit true

theorem step_moved (base : Base group address s.table s.live s.blocked) (small : SmallIds s.live) (label : Label) :
    Moved group address s label (step group address s label) := by
  cases label with
  | lock env timeout realtime =>
    simp only [step]
    split
    · rename_i runs
      obtain ⟨-, alive, idle⟩ := runs_spec runs
      obtain ⟨_, outcome⟩ := lock_outcome group address base.allLive idle timeout realtime
      exact .locks _ idle alive outcome
    · exact .nothing _
  | tryLock env =>
    simp only [step]
    split
    · rename_i runs
      obtain ⟨-, alive, idle⟩ := runs_spec runs
      rcases tryLock_cases group address idle with same | ⟨free, taken⟩
      · rw [same]
        exact .nothing _
      · rw [taken]
        exact .tries _ idle alive free
    · exact .nothing _
  | unlock env =>
    simp only [step]
    split
    · rename_i runs
      obtain ⟨-, alive, idle⟩ := runs_spec runs
      rcases unlock_cases group address idle with
        ⟨same, -⟩ | ⟨owns, ⟨alone, freed⟩ | ⟨slot, bits, first, free, handed⟩⟩
      · rw [same]
        exact .nothing _
      · rw [freed]
        exact .unlocks idle alive owns alone
      · rw [handed]
        exact .hands idle alive owns first free
    · exact .nothing _
  | resume env interrupted =>
    cases waits : s.blocked env.task with
    | none =>
      simp only [step, waits]
      exact .nothing _
    | some b =>
      cases up : s.panicked with
      | true =>
        simp only [step, waits, up, if_true]
        exact .nothing _
      | false =>
        cases woken : (s.table.waiters b.slot).woken with
        | true => exact .returns _ waits woken (resume_woken base up env waits woken interrupted)
        | false =>
          have left : Moved group address s (.resume env interrupted) (leave s env.task b) := .leaves _ waits woken
          rw [leave, up] at left
          simp only [step, waits, up, Bool.false_eq_true, if_false, resume, blockTurn, woken]
          split_ifs
          · exact left
          · exact left
          · exact .nothing _
  | exit env list =>
    simp only [step]
    split
    · rename_i runs
      obtain ⟨-, alive, idle⟩ := runs_spec runs
      obtain ⟨_, abandoned, eq⟩ :=
        exit_cases group address base.owned (toUInt32_ne_zero (small _ alive)) list
      rw [eq]
      exact .exits idle alive abandoned
    · exact .nothing _

theorem passOn_waiters (table : Table) (address : UInt64) (me next : UInt32) (slot j : Slot) :
    ((passOn address me next (mark slot table)).waiters j) =
      if j = slot then { table.waiters j with woken := true }
      else if (table.waiters j).used && !(table.waiters j).woken && (table.waiters j).owner == me &&
          (table.waiters j).address == address then { table.waiters j with owner := next }
      else table.waiters j := by
  by_cases here : j = slot
  · subst here
    simp [passOn, mark]
  · simp [passOn, mark, here]

theorem passOn_sameHolders (table : Table) (address : UInt64) (me next : UInt32) (slot : Slot) :
    SameHolders table (passOn address me next (mark slot table)) := by
  refine ⟨?_, ?_, ?_, rfl⟩ <;> intro j <;> rw [passOn_waiters] <;> split_ifs <;> rfl

theorem waitsFor_spec {live : UInt64 → Bool} {waiter : Waiter}
    (h : waiter.waitsFor live (group, address) owner = true) :
    waiter.used = true ∧ waiter.woken = false ∧ waiter.owner = owner := by
  simp only [Waiter.waitsFor, Bool.and_eq_true, Bool.not_eq_true', beq_iff_eq] at h
  exact ⟨h.1.1.1.1.1, h.1.1.1.1.2, h.1.1.1.2⟩

theorem Base.waitsFor (base : Base group address s.table s.live s.blocked)
    (used : (s.table.waiters slot).used = true) (asleep : (s.table.waiters slot).woken = false)
    (waits : (s.table.waiters slot).owner = owner) :
    (s.table.waiters slot).waitsFor s.live (group, address) owner = true := by
  obtain ⟨isGroup, isAddress, -⟩ := base.word slot used
  simp [Waiter.waitsFor, used, asleep, waits, isGroup, isAddress, base.allLive slot used]

theorem Base.handOver (base : Base group address s.table s.live s.blocked) (small : SmallIds s.live)
    {bits : UInt32} (used : (s.table.waiters slot).used = true) :
    Base group address (handOver s address task slot bits).table s.live s.blocked := by
  have next := toUInt32_ne_zero (small _ (base.allLive slot used))
  refine base.relabel (passOn_sameHolders _ _ _ _ _) ?_
  intro j usedJ
  have owned := base.owned j usedJ
  simp only [Lock.handOver, passOn_waiters]
  split_ifs
  · exact ⟨rfl, rfl, owned⟩
  · exact ⟨rfl, rfl, next⟩
  · exact ⟨rfl, rfl, owned⟩

theorem LockOutcome.base (base : Base group address s.table s.live s.blocked)
    (idle : s.blocked task = none) (runs : s.live task = true)
    (outcome : LockOutcome group address s task limit waited s') :
    Base group address s'.table s'.live s'.blocked := by
  cases outcome with
  | taken _ free _ => simpa only [update_none idle] using base
  | already _ _ => simpa only [update_none idle] using base
  | refused word same => simpa only [update_none idle] using base
  | queued _ saved free owned _ other => exact base.enqueue idle runs free owned saved limit
  | panicked word same other => simpa only [update_none idle] using base

theorem Moved.base (moved : Moved group address s label s')
    (base : Base group address s.table s.live s.blocked) (small : SmallIds s.live) :
    Base group address s'.table s'.live s'.blocked := by
  cases moved with
  | nothing => exact base
  | locks _ idle runs outcome => exact outcome.base base idle runs
  | tries _ idle runs free => exact base
  | unlocks idle runs owns _ => exact base
  | hands idle runs owns first free => exact base.handOver small (waitsFor_spec (oldest_some first).1).1
  | leaves _ waits _ => exact base.leave waits
  | @returns task b _ _ waits _ outcome =>
    exact outcome.base (s := leave s task b) (base.leave waits) (update_self ..) (base.alive task b waits)
  | exits idle runs _ => exact base.exit idle

theorem LockOutcome.live (outcome : LockOutcome group address s task limit waited s') : s'.live = s.live := by
  cases outcome <;> rfl

theorem Moved.live_le (moved : Moved group address s label s')
    {task : UInt64} (alive : s'.live task = true) : s.live task = true := by
  cases moved with
  | nothing => exact alive
  | locks _ idle runs outcome => rwa [outcome.live] at alive
  | tries _ idle runs free => exact alive
  | unlocks idle runs owns _ => exact alive
  | hands idle runs owns _ free => exact alive
  | leaves _ waits _ => exact alive
  | returns _ waits _ outcome => rwa [outcome.live] at alive
  | exits idle runs _ =>
    by_contra dead
    simp [update_apply, dead] at alive

theorem Moved.small (moved : Moved group address s label s') (small : SmallIds s.live) : SmallIds s'.live :=
  fun task alive => small task (moved.live_le alive)

end

end AerOS.Proof.Futex.Lock
