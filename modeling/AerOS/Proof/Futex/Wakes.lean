import AerOS.Spec.Futex

namespace AerOS.Proof.Futex
open AerOS.Futex Function List
variable {slot : Slot} {g : Entry → Entry}

def toEntry (waiter : Waiter) : Entry := ⟨waiter.sequence, (waiter.group, waiter.address), waiter.bitset, waiter.woken⟩

structure Tracks (table : Table) (entries : List Entry) : Prop where
  listed : ∀ slot : Slot, (table.waiters slot).used = true → toEntry (table.waiters slot) ∈ entries
  held : ∀ entry ∈ entries, ∃ slot : Slot, (table.waiters slot).used = true ∧ toEntry (table.waiters slot) = entry
  plain : ∀ slot : Slot, (table.waiters slot).used = true → (table.waiters slot).owner = 0
  distinct : ∀ i j : Slot, (table.waiters i).used = true → (table.waiters j).used = true →
    (table.waiters i).sequence = (table.waiters j).sequence → i = j
  sorted : entries.Pairwise fun a b => a.sequence < b.sequence
  bound : ∀ entry ∈ entries, entry.sequence ≤ table.sequence

structure Numbered (table : Table) : Prop where
  bound : ∀ slot, (table.waiters slot).used = true → (table.waiters slot).sequence ≤ table.sequence
  distinct : ∀ i j, (table.waiters i).used = true → (table.waiters j).used = true →
    (table.waiters i).sequence = (table.waiters j).sequence → i = j

theorem Numbered.fill {table : Table} {waiter : Waiter} (numbered : Numbered table)
    (next : waiter.sequence = table.sequence + 1) :
    Numbered ⟨update table.waiters slot waiter, table.sequence + 1⟩ := by
  refine ⟨?_, ?_⟩
  · intro j used
    by_cases here : j = slot
    · subst here
      simp [next]
    · simp only [update_of_ne here] at used ⊢
      exact Nat.le_succ_of_le (numbered.bound j used)
  · intro i j usedI usedJ same
    by_cases left : i = slot <;> by_cases right : j = slot
    · rw [left, right]
    · simp only [left, update_self, update_of_ne right, next] at same usedJ
      have := numbered.bound j usedJ
      omega
    · simp only [right, update_self, update_of_ne left, next] at same usedI
      have := numbered.bound i usedI
      omega
    · simp only [update_of_ne left, update_of_ne right] at usedI usedJ same
      exact numbered.distinct i j usedI usedJ same

theorem dequeue_used {table : Table} {j : Slot} (used : ((dequeue slot table).waiters j).used = true) :
    j ≠ slot ∧ (table.waiters j).used = true ∧ (dequeue slot table).waiters j = table.waiters j := by
  by_cases here : j = slot
  · simp [dequeue, here, Waiter.empty] at used
  have same : (dequeue slot table).waiters j = table.waiters j := update_of_ne here _ _
  exact ⟨here, same ▸ used, same⟩

theorem Numbered.clear {table : Table} (numbered : Numbered table) (slot : Slot) :
    Numbered (dequeue slot table) := by
  refine ⟨?_, ?_⟩
  · intro j used
    obtain ⟨-, used, same⟩ := dequeue_used used
    rw [same]
    exact numbered.bound j used
  · intro i j usedI usedJ eq
    obtain ⟨-, usedI, sameI⟩ := dequeue_used usedI
    obtain ⟨-, usedJ, sameJ⟩ := dequeue_used usedJ
    rw [sameI, sameJ] at eq
    exact numbered.distinct i j usedI usedJ eq

theorem tracks_empty : Tracks .empty [] := by
  have unused (slot : Slot) : (Table.empty.waiters slot).used = false := rfl
  refine ⟨?_, by simp, ?_, ?_, .nil, by simp⟩
  · intro slot used
    simp [unused] at used
  · intro slot used
    simp [unused] at used
  · intro i j used
    simp [unused] at used

namespace Tracks
variable {table : Table} {entries : List Entry} (tracks : Tracks table entries)
include tracks

theorem numbered : Numbered table := ⟨fun slot used => tracks.bound _ (tracks.listed slot used), tracks.distinct⟩

theorem fill (free : (table.waiters slot).used = false) (waiter : Waiter) (used : waiter.used = true)
    (plain : waiter.owner = 0) (next : waiter.sequence = table.sequence + 1) :
    Tracks ⟨update table.waiters slot waiter, table.sequence + 1⟩ (entries ++ [toEntry waiter]) := by
  have elsewhere (j : Slot) (usedJ : (update table.waiters slot waiter j).used = true) (other : j ≠ slot) :
      (table.waiters j).used = true := by
    rwa [update_of_ne other] at usedJ
  refine ⟨?_, ?_, ?_, (tracks.numbered.fill next).distinct, ?_, ?_⟩
  · intro j usedJ
    by_cases here : j = slot
    · subst here
      simp
    · simp [here, tracks.listed j (elsewhere j usedJ here)]
  · intro entry member
    rcases mem_append.mp member with old | new
    · obtain ⟨j, usedJ, eq⟩ := tracks.held entry old
      have other : j ≠ slot := by
        rintro rfl
        rw [free] at usedJ
        cases usedJ
      exact ⟨j, by simp [other, usedJ, eq]⟩
    obtain rfl := mem_singleton.mp new
    exact ⟨slot, by simp [used]⟩
  · intro j usedJ
    by_cases here : j = slot
    · subst here
      simp [plain]
    · simp [here, tracks.plain j (elsewhere j usedJ here)]
  · rw [pairwise_append]
    refine ⟨tracks.sorted, pairwise_singleton _ _, ?_⟩
    intro a ha b hb
    obtain rfl := mem_singleton.mp hb
    have := tracks.bound a ha
    show a.sequence < waiter.sequence
    omega
  · intro entry member
    rcases mem_append.mp member with old | new
    · have := tracks.bound entry old
      simp only
      omega
    · obtain rfl := mem_singleton.mp new
      exact next.le

theorem differs {j : Slot} (usedJ : (table.waiters j).used = true) (used : (table.waiters slot).used = true)
    (other : j ≠ slot) : (table.waiters j).sequence ≠ (table.waiters slot).sequence :=
  fun same => other (tracks.distinct j slot usedJ used same)

theorem clear (used : (table.waiters slot).used = true) :
    Tracks (dequeue slot table) (entries.filter fun entry => entry.sequence != (table.waiters slot).sequence) := by
  refine ⟨?_, ?_, ?_, (tracks.numbered.clear slot).distinct, tracks.sorted.filter _, ?_⟩
  · intro j usedJ
    obtain ⟨other, usedJ, same⟩ := dequeue_used usedJ
    rw [same]
    have differs := tracks.differs usedJ used other
    simpa [toEntry, differs] using tracks.listed j usedJ
  · intro entry member
    obtain ⟨old, differs⟩ := mem_filter.mp member
    obtain ⟨j, usedJ, rfl⟩ := tracks.held entry old
    have other : j ≠ slot := by
      rintro rfl
      simp [toEntry] at differs
    exact ⟨j, by simp [dequeue, other, usedJ]⟩
  · intro j usedJ
    obtain ⟨-, usedJ, same⟩ := dequeue_used usedJ
    rw [same]
    exact tracks.plain j usedJ
  · intro entry member
    exact tracks.bound entry (mem_filter.mp member).1

end Tracks

def change (g : Entry → Entry) (numbers : List Nat) (entries : List Entry) : List Entry :=
  entries.map fun entry => if entry.sequence ∈ numbers then g entry else entry

def setWoken (entry : Entry) : Entry := { entry with woken := true }

def setWord (word : Key) (entry : Entry) : Entry := { entry with word := word }

theorem change_nil (g : Entry → Entry) (entries : List Entry) : change g [] entries = entries := by
  simp [change]

theorem change_cons (keeps : ∀ entry, (g entry).sequence = entry.sequence)
    (twice : ∀ entry, g (g entry) = g entry) (number : Nat) (numbers : List Nat) (entries : List Entry) :
    change g numbers (change g [number] entries) = change g (number :: numbers) entries := by
  simp only [change, map_map]
  apply map_congr_left
  intro entry _
  simp only [comp_apply, mem_cons]
  by_cases here : entry.sequence = number
  · simp only [here, if_true, true_or, keeps]
    split
    · exact twice entry
    · rfl
  · simp [here]

theorem Tracks.edit {table : Table} {entries : List Entry} (tracks : Tracks table entries)
    (used : (table.waiters slot).used = true) {waiter : Waiter}
    (keeps : ∀ entry, (g entry).sequence = entry.sequence) (stillUsed : waiter.used = true)
    (plain : waiter.owner = 0) (same : waiter.sequence = (table.waiters slot).sequence)
    (edited : toEntry waiter = g (toEntry (table.waiters slot))) :
    Tracks { table with waiters := update table.waiters slot waiter }
      (change g [(table.waiters slot).sequence] entries) := by
  have atSlot (j : Slot) : (update table.waiters slot waiter j).used = (table.waiters j).used ∧
      (update table.waiters slot waiter j).sequence = (table.waiters j).sequence ∧
      toEntry (update table.waiters slot waiter j) =
        if j = slot then g (toEntry (table.waiters j)) else toEntry (table.waiters j) := by
    by_cases here : j = slot
    · subst here
      simp [stillUsed, used, same, edited]
    · simp [here]
  have image {j : Slot} (usedJ : (table.waiters j).used = true) :
      (if (toEntry (table.waiters j)).sequence ∈ [(table.waiters slot).sequence] then g (toEntry (table.waiters j))
        else toEntry (table.waiters j)) = toEntry (update table.waiters slot waiter j) := by
    rw [(atSlot j).2.2]
    by_cases here : j = slot
    · simp [here, toEntry]
    have differs := tracks.differs usedJ used here
    simp [here, toEntry, differs]
  refine ⟨?_, ?_, ?_, ?_, ?_, ?_⟩
  · intro j usedJ
    rw [(atSlot j).1] at usedJ
    exact mem_map.mpr ⟨_, tracks.listed j usedJ, image usedJ⟩
  · intro entry member
    obtain ⟨old, oldMember, rfl⟩ := mem_map.mp member
    obtain ⟨j, usedJ, rfl⟩ := tracks.held old oldMember
    exact ⟨j, by simp only [atSlot, usedJ], (image usedJ).symm⟩
  · intro j usedJ
    by_cases here : j = slot
    · subst here
      simpa using plain
    simp only [here, update_of_ne, ne_eq, not_false_eq_true] at usedJ ⊢
    exact tracks.plain j usedJ
  · intro i j usedI usedJ eq
    simp only [atSlot] at usedI usedJ eq
    exact tracks.distinct i j usedI usedJ eq
  · rw [change, pairwise_map]
    refine tracks.sorted.imp ?_
    intro a b less
    split <;> split <;> simpa [keeps] using less
  · intro entry member
    obtain ⟨old, oldMember, rfl⟩ := mem_map.mp member
    have := tracks.bound old oldMember
    split
    · rw [keeps]
      exact this
    · exact this

variable {live : UInt64 → Bool}
variable {p : Waiter → Bool} {entry : Entry}

structure SameHolders (table after : Table) : Prop where
  used : ∀ slot, (after.waiters slot).used = (table.waiters slot).used
  task : ∀ slot, (after.waiters slot).task = (table.waiters slot).task
  sequence : ∀ slot, (after.waiters slot).sequence = (table.waiters slot).sequence
  last : after.sequence = table.sequence

theorem SameHolders.refl (table : Table) : SameHolders table table :=
  ⟨fun _ => rfl, fun _ => rfl, fun _ => rfl, rfl⟩

theorem SameHolders.trans {a b c : Table} (ab : SameHolders a b) (bc : SameHolders b c) : SameHolders a c :=
  ⟨fun slot => (bc.used slot).trans (ab.used slot), fun slot => (bc.task slot).trans (ab.task slot),
    fun slot => (bc.sequence slot).trans (ab.sequence slot), bc.last.trans ab.last⟩

theorem sameHolders_update (table : Table) (slot : Slot) {waiter : Waiter}
    (used : waiter.used = (table.waiters slot).used) (task : waiter.task = (table.waiters slot).task)
    (sequence : waiter.sequence = (table.waiters slot).sequence) :
    SameHolders table { table with waiters := update table.waiters slot waiter } := by
  refine ⟨?_, ?_, ?_, rfl⟩ <;> intro j <;> by_cases here : j = slot
  · subst here; simpa using used
  · simp [here]
  · subst here; simpa using task
  · simp [here]
  · subst here; simpa using sequence
  · simp [here]

structure Seats {C : Type} (seat : C → Slot) (number : C → Nat) (waiters : Slot → Waiter) (calls : UInt64 → Option C) :
    Prop where
  holder : ∀ task c, calls task = some c → (waiters (seat c)).used = true ∧ (waiters (seat c)).task = task ∧
    (waiters (seat c)).sequence = number c
  caller : ∀ slot, (waiters slot).used = true → ∃ c, calls (waiters slot).task = some c ∧ seat c = slot

namespace Seats
variable {C : Type} {seat : C → Slot} {number : C → Nat} {waiters : Slot → Waiter} {calls : UInt64 → Option C} {c : C}
  {task : UInt64} (seats : Seats seat number waiters calls)
include seats

theorem take {w : Waiter} (idle : calls task = none) (free : (waiters (seat c)).used = false)
    (used : w.used = true) (isTask : w.task = task) (isNumber : w.sequence = number c) :
    Seats seat number (update waiters (seat c) w) (update calls task (some c)) := by
  obtain ⟨holder, caller⟩ := seats
  constructor
  all_goals simp only [update_apply]
  · grind
  · grind

theorem leave (blocked : calls task = some c) :
    Seats seat number (update waiters (seat c) .empty) (update calls task none) := by
  obtain ⟨holder, caller⟩ := seats
  have own := holder task c blocked
  constructor
  all_goals simp only [update_apply]
  · grind
  · grind [Waiter.empty]

end Seats

theorem Seats.same {C : Type} {seat : C → Slot} {number : C → Nat} {calls : UInt64 → Option C} {table after : Table}
    (same : SameHolders table after) (seats : Seats seat number table.waiters calls) :
    Seats seat number after.waiters calls := by
  refine ⟨?_, ?_⟩
  · simpa only [same.used, same.task, same.sequence] using seats.holder
  · simpa only [same.used, same.task] using seats.caller

def AllLive (live : UInt64 → Bool) (table : Table) : Prop :=
  ∀ slot, (table.waiters slot).used = true → live (table.waiters slot).task = true

theorem AllLive.same {after : Table} (h : AllLive live table)
    (same : SameHolders table after) : AllLive live after := by
  intro slot used
  rw [same.used] at used
  rw [same.task]
  exact h slot used

theorem dropGone_eq (alive : AllLive live table) : dropGone live table.waiters = table.waiters := by
  funext slot
  unfold dropGone
  by_cases used : (table.waiters slot).used = true
  · simp [alive slot used]
  · simp [used]

theorem freeSlot_some {waiters : Slot → Waiter} (h : freeSlot waiters = some slot) :
    (waiters slot).used = false := by
  simpa using find?_some h

def newWaiter (table : Table) (task : UInt64) (word : Key) (bitset owner : UInt32) (savedNice : Int) : Waiter :=
  ⟨true, word.1, word.2, bitset, task, false, owner, savedNice, table.sequence + 1⟩

theorem enqueue_cases (alive : AllLive live table) (task : UInt64) (word : Key)
    (bitset owner : UInt32) (savedNice : Int) :
    enqueue live task word bitset owner savedNice table = (.full, table) ∨
      (∃ slot, (table.waiters slot).used = false ∧ enqueue live task word bitset owner savedNice table =
          (.queued slot,
            ⟨update table.waiters slot (newWaiter table task word bitset owner savedNice), table.sequence + 1⟩)) ∨
      enqueue live task word bitset owner savedNice table = (.overflow, table) := by
  unfold enqueue
  rw [dropGone_eq alive]
  dsimp only
  cases free : freeSlot table.waiters with
  | none => exact .inl rfl
  | some slot =>
    dsimp only
    split
    · exact .inr (.inl ⟨slot, freeSlot_some free, rfl⟩)
    · exact .inr (.inr rfl)

theorem oldest_none (h : oldest p table = none) (slot : Slot) : p (table.waiters slot) = false := by
  have empty := argmin_eq_none.mp h
  rw [filter_eq_nil_iff] at empty
  simpa using empty slot (mem_finRange slot)

theorem oldest_some (h : oldest p table = some slot) : p (table.waiters slot) = true ∧
      ∀ j, p (table.waiters j) = true → (table.waiters slot).sequence ≤ (table.waiters j).sequence := by
  constructor
  · have member := argmin_mem (Option.mem_def.mpr h)
    exact (mem_filter.mp member).2
  intro j satisfies
  have member : j ∈ (finRange waiterCount).filter fun slot => p (table.waiters slot) :=
    mem_filter.mpr ⟨mem_finRange j, satisfies⟩
  exact le_of_mem_argmin (f := fun slot => (table.waiters slot).sequence) member (Option.mem_def.mpr h)

theorem eq_cons_of_least
    (sorted : entries.Pairwise fun a b => a.sequence < b.sequence) (member : entry ∈ entries)
    (least : ∀ other ∈ entries, entry.sequence ≤ other.sequence) : ∃ tail, entries = entry :: tail := by
  cases entries with
  | nil => cases member
  | cons head tail =>
    rcases mem_cons.mp member with rfl | later
    · exact ⟨tail, rfl⟩
    have less := (pairwise_cons.mp sorted).1 entry later
    have := least head mem_cons_self
    omega

theorem waitsOn_eligible (tracks : Tracks table entries)
    (alive : AllLive live table) (word : Key) (bitset : UInt32) (slot : Slot) :
    ((table.waiters slot).waitsOn live word && (table.waiters slot).bitset &&& bitset != 0) = true ↔
      (table.waiters slot).used = true ∧ (toEntry (table.waiters slot)).eligible word bitset = true := by
  by_cases used : (table.waiters slot).used = true
  · have runs := alive slot used
    have plain := tracks.plain slot used
    simp [Waiter.waitsOn, Entry.eligible, toEntry, used, plain, runs, Prod.ext_iff, and_assoc]
  · simp [Waiter.waitsOn, used]

theorem filter_change_woken (entries : List Entry) (number : Nat) (word : Key) (bitset : UInt32) :
    (change setWoken [number] entries).filter (Entry.eligible word bitset) =
      (entries.filter (Entry.eligible word bitset)).filter fun entry => entry.sequence != number := by
  have stays (entry : Entry) :
      (if entry.sequence ∈ [number] then setWoken entry else entry).eligible word bitset =
        ((entry.sequence != number) && entry.eligible word bitset) := by
    by_cases here : entry.sequence = number <;> simp [here, setWoken, Entry.eligible]
  rw [change, filter_map, filter_filter]
  simp only [comp_def, stays]
  conv_rhs => rw [← map_id' (filter _ entries)]
  apply map_congr_left
  intro entry member
  have other : entry.sequence ≠ number := by
    have := (mem_filter.mp member).2
    simp only [Bool.and_eq_true, bne_iff_ne] at this
    exact this.1
  simp [other]

theorem filter_tail {tail : List Entry}
    (sorted : (entry :: tail).Pairwise fun a b => a.sequence < b.sequence) :
    (entry :: tail).filter (fun other => other.sequence != entry.sequence) = tail := by
  rw [filter_cons_of_neg (by simp), filter_eq_self]
  intro other member
  have := (pairwise_cons.mp sorted).1 other member
  simp
  omega

theorem mark_tracks (tracks : Tracks table entries) (used : (table.waiters slot).used = true) :
    Tracks (mark slot table) (change setWoken [(table.waiters slot).sequence] entries) :=
  tracks.edit used (fun _ => rfl) used (tracks.plain slot used) rfl rfl

theorem mark_sameHolders (slot : Slot) (table : Table) : SameHolders table (mark slot table) :=
  sameHolders_update table slot rfl rfl rfl

theorem wake_spec (word : Key) (bitset : UInt32) (count : Nat)
    (tracks : Tracks table entries) (alive : AllLive live table) : (wake live word bitset count table).1 =
        ((entries.filter (Entry.eligible word bitset)).take count).map Entry.sequence ∧
      Tracks (wake live word bitset count table).2
        (change setWoken (wake live word bitset count table).1 entries) ∧
      SameHolders table (wake live word bitset count table).2 := by
  induction count generalizing table entries with
  | zero => exact ⟨by simp [wake], by simpa [wake, change_nil] using tracks, .refl _⟩
  | succ count ih =>
    rw [wake]
    split
    · rename_i none
      have empty : entries.filter (Entry.eligible word bitset) = [] := by
        rw [filter_eq_nil_iff]
        intro entry member chosen
        obtain ⟨slot, used, rfl⟩ := tracks.held entry member
        have found := (waitsOn_eligible tracks alive word bitset slot).mpr ⟨used, chosen⟩
        rw [oldest_none none slot] at found
        cases found
      exact ⟨by simp [empty], by simpa [change_nil] using tracks, .refl _⟩
    rename_i slot found
    obtain ⟨satisfies, least⟩ := oldest_some found
    obtain ⟨used, chosen⟩ := (waitsOn_eligible tracks alive word bitset slot).mp satisfies
    -- the waiter found stands at the front of the eligible part of the queue
    have front : ∃ tail, entries.filter (Entry.eligible word bitset) = toEntry (table.waiters slot) :: tail := by
      refine eq_cons_of_least (tracks.sorted.filter _) (mem_filter.mpr ⟨tracks.listed slot used, chosen⟩) ?_
      intro other member
      obtain ⟨member, chosenOther⟩ := mem_filter.mp member
      obtain ⟨j, usedJ, rfl⟩ := tracks.held other member
      exact least j ((waitsOn_eligible tracks alive word bitset j).mpr ⟨usedJ, chosenOther⟩)
    obtain ⟨tail, front⟩ := front
    have left : (change setWoken [(table.waiters slot).sequence] entries).filter (Entry.eligible word bitset) =
        tail := by
      rw [filter_change_woken, front]
      exact filter_tail (front ▸ tracks.sorted.filter _)
    obtain ⟨woken, after, same⟩ := ih (mark_tracks tracks used) (alive.same (mark_sameHolders slot table))
    refine ⟨?_, ?_, (mark_sameHolders slot table).trans same⟩
    · rw [left] at woken
      simp [front, woken, toEntry]
    rw [change_cons (g := setWoken) (fun _ => rfl) (fun _ => rfl)] at after
    exact after

theorem moveTo_sameHolders (slot : Slot) (word : Key) (table : Table) : SameHolders table (moveTo slot word table) :=
  sameHolders_update table slot rfl rfl rfl

theorem moveWaiters_spec (live : UInt64 → Bool) (source target : Key) (slots : List Slot) (count : Nat)
    (tracks : Tracks table entries) : (∀ number ∈ (moveWaiters live source target slots count table).1,
        ∃ entry ∈ entries, entry.sequence = number ∧ entry.woken = false) ∧
      Tracks (moveWaiters live source target slots count table).2
        (change (setWord target) (moveWaiters live source target slots count table).1 entries) ∧
      SameHolders table (moveWaiters live source target slots count table).2 := by
  induction slots generalizing count table entries with
  | nil => exact ⟨by simp [moveWaiters], by simpa [moveWaiters, change_nil] using tracks, .refl _⟩
  | cons slot slots ih =>
    cases count with
    | zero => exact ⟨by simp [moveWaiters], by simpa [moveWaiters, change_nil] using tracks, .refl _⟩
    | succ count =>
      rw [moveWaiters]
      split
      · rename_i waits
        simp only [Waiter.waitsOn, Bool.and_eq_true, Bool.not_eq_true'] at waits
        obtain ⟨⟨⟨⟨⟨used, idle⟩, plain⟩, -⟩, -⟩, -⟩ := waits
        have moved : Tracks (moveTo slot target table)
            (change (setWord target) [(table.waiters slot).sequence] entries) :=
          tracks.edit used (fun _ => rfl) used (tracks.plain slot used) rfl rfl
        obtain ⟨were, after, same⟩ := ih count moved
        refine ⟨?_, ?_, (moveTo_sameHolders slot target table).trans same⟩
        · intro number member
          rcases mem_cons.mp member with rfl | later
          · exact ⟨_, tracks.listed slot used, rfl, idle⟩
          obtain ⟨entry, changed, rfl, asleep⟩ := were number later
          obtain ⟨old, oldMember, rfl⟩ := mem_map.mp changed
          refine ⟨old, oldMember, ?_, ?_⟩
          · split <;> rfl
          revert asleep
          split <;> exact id
        · rw [change_cons (g := setWord target) (fun _ => rfl) (fun _ => rfl)] at after
          exact after
      · exact ih (count + 1) tracks

end AerOS.Proof.Futex
