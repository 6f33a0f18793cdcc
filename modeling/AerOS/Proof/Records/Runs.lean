import AerOS.Proof.Records.Locks

namespace AerOS.Proof.Records
open AerOS.Records Lib Multiset

variable {kind : LockKind} {span : Span} {after before records : Table}
variable {call : Call} {pid : Nat} {locks : LockMap}

theorem run_request (wf : WellFormed (held records)) (h : call.request = some (span, kind)) :
    span.start < span.stop ∧ Outcome span kind records (call.run records).1 (call.run records).2 ∧
      ∀ locks, call.effect locks = locks.assign span kind.mode := by
  cases call with
  | releaseProcess => simp [Call.request] at h
  | releaseOpenFile => simp [Call.request] at h
  | command fd pid number flock interrupted _ =>
    cases flock with
    | none => simp [Call.request] at h
    | some flock =>
      have request := h
      simp only [Call.request] at h
      cases range : spanOf fd pid number flock with
      | error _ => simp [range] at h
      | ok _ =>
        simp only [range] at h
        split_ifs at h with get
        obtain ⟨kind', hk, eq⟩ := Option.map_eq_some_iff.mp h
        obtain ⟨rfl, rfl⟩ := Prod.mk.inj eq
        have proper := spanOf_proper range
        refine ⟨proper, ?_, fun locks => ?_⟩
        · simp only [Call.run, command, range, get, ↓reduceIte, hk]
          exact setLock_outcome _ interrupted pid kind' proper wf
        · simp only [Call.effect, request]

theorem run_other (records : Table) (h : call.request = none) :
    (∃ pid file, call.run records = (.zero, releaseProcess pid file records) ∧
      ∀ locks, call.effect locks = locks.drop pid file) ∨
    ((call.run records).2 = records ∧ ∀ locks, call.effect locks = locks) := by
  cases call with
  | releaseProcess pid file => exact .inl ⟨pid, file, rfl, fun _ => rfl⟩
  | releaseOpenFile handle => exact .inl ⟨openFile ||| handle, none, rfl, fun _ => rfl⟩
  | command fd pid number flock _ _ =>
    refine .inr ⟨?_, fun locks => by simp only [Call.effect, h]⟩
    cases flock with
    | none => rfl
    | some flock =>
      simp only [Call.request] at h
      simp only [Call.run, command]
      cases range : spanOf fd pid number flock with
      | error _ => rfl
      | ok _ =>
        simp only [range] at h ⊢
        split_ifs at h ⊢
        · rfl
        · rfl
        · rw [Option.map_eq_none_iff.mp h]

theorem held_release (pid : Nat) (file : Option Nat) (records : Table) :
    held (releaseProcess pid file records) =
      (held records).filter fun r => ¬ (r.owner = pid ∧ file.all (r.file == ·) = true) := by
  rw [releaseProcess, held, Slots.bag_map_clear _ _ _ rfl]
  apply filter_congr
  intro r hr
  simp [held_used hr]

theorem WellFormed.filter {m : Multiset Record} (wf : WellFormed m) (p : Record → Prop)
    [DecidablePred p] : WellFormed (m.filter p) :=
  ⟨fun r hr => wf.nonempty r (mem_of_mem_filter hr), Slots.pairwise_filter p wf.apart⟩

theorem lockOf_release (wf : WellFormed (held records)) (pid : Nat)
    (file : Option Nat) (name owner byte : Nat) : lockOf (releaseProcess pid file records) name owner byte =
      if owner = pid ∧ file.all (name == ·) = true then none else lockOf records name owner byte := by
  have wf' : WellFormed (held (releaseProcess pid file records)) := by
    rw [held_release]
    exact wf.filter _
  split_ifs with released
  · rw [lockOf_eq_none_iff wf']
    rintro write ⟨r, hr, rfl, rfl, -⟩
    rw [held_release] at hr
    exact (mem_filter.mp hr).2 released
  refine lockOf_congr wf wf' fun write => ?_
  rw [held_release]
  constructor
  · rintro ⟨r, hr, rest⟩
    exact ⟨r, mem_of_mem_filter hr, rest⟩
  rintro ⟨r, hr, rfl, rfl, rest⟩
  exact ⟨r, mem_filter.mpr ⟨hr, released⟩, rfl, rfl, rest⟩

theorem step_wellFormed (s : State) (call : Call) (wf : WellFormed (held s.records)) :
    WellFormed (held (s.step call).records) := by
  change WellFormed (held (call.run s.records).2)
  cases request : call.request with
  | some _ =>
    obtain ⟨proper, outcome, -⟩ := run_request wf request
    exact outcome.wellFormed proper wf
  | none =>
    rcases run_other s.records request with ⟨_, _, run, -⟩ | ⟨same, -⟩
    · rw [run, held_release]
      exact wf.filter _
    · rwa [same]

theorem locksCorrect_iff {s : State} (wf : WellFormed (held s.records)) : LocksCorrect s ↔
      ∀ file owner byte, lockOf s.records file owner byte = s.locks file owner byte := by
  refine ⟨LocksCorrect.last, fun last => ⟨?_, last, ?_⟩⟩
  · intro i j ne used used' file owner
    exact (Slots.pairwise_bag Record.used).mp wf.apart i j ne used used' file (.inl owner)
  intro file byte owner _ ne writing
  rw [lockOf_eq_none_iff wf]
  rintro _ ⟨q, hq, rfl, rfl, _, _, -⟩
  obtain ⟨r, hr, fileR, rfl, _, _, writes⟩ := (lockOf_eq_some_iff wf).mp writing
  obtain ⟨_, i, eqR⟩ := (Slots.mem_bag Record.used).mp hr
  obtain ⟨_, j, eqQ⟩ := (Slots.mem_bag Record.used).mp hq
  have slots : i ≠ j := by
    rintro rfl
    exact ne (by rw [← eqR, ← eqQ])
  have := (Slots.pairwise_bag Record.used).mp wf.apart i j slots (by rwa [eqR]) (by rwa [eqQ])
  rw [eqR, eqQ] at this
  have := this fileR (.inr (.inl writes))
  omega

theorem lockOf_granted (wf : WellFormed (held before)) (wf' : WellFormed (held after))
    (bag : held after = (if kind = .unlock then 0 else {newRecord span pid kind}) +
      (held before).bind (cut span)) (file owner byte : Nat) : lockOf after file owner byte =
      if Covers span file owner byte then kind.mode else lockOf before file owner byte := by
  have cutOnly : ∀ write, Holds ((held before).bind (cut span)) file owner byte write ↔ _ :=
    fun write => holds_cut fun _ => held_used
  split_ifs with covered
  · cases kind with
    | unlock =>
      rw [if_pos rfl, zero_add] at bag
      rw [LockKind.mode, lockOf_eq_none_iff wf', bag]
      exact fun write h => ((cutOnly write).mp h).2 covered
    | read | write =>
      rw [LockKind.mode, lockOf_eq_some_iff wf', bag]
      obtain ⟨rfl, rfl, lower, upper⟩ := covered
      exact ⟨_, mem_cons_self _ _, rfl, rfl, lower, upper, rfl⟩
  refine lockOf_congr wf wf' fun write => ?_
  have old := cutOnly write
  rw [bag]
  constructor
  · rintro ⟨r, hr, hfile, howner, lower, upper, hwrite⟩
    rcases mem_add.mp hr with new | kept
    · split_ifs at new with unlock
      · simp at new
      · rw [mem_singleton.mp new] at hfile howner lower upper
        exact absurd ⟨hfile.symm, howner.symm, lower, upper⟩ covered
    · exact (old.mp ⟨r, kept, hfile, howner, lower, upper, hwrite⟩).1
  · intro h
    obtain ⟨r, hr, rest⟩ := old.mpr ⟨h, covered⟩
    exact ⟨r, mem_add.mpr (.inr hr), rest⟩

theorem fit_of_granted (bag : held after = (if kind = .unlock then 0 else {newRecord span pid kind}) +
      (held before).bind (cut span)) : leftOver before span + (if kind = .unlock then 0 else 1) ≤
      freeSlots before + (overlapped before span).length := by
  have count := card_held_cut before span
  have bound : (held after).card ≤ recordCount := Slots.card_bag_le Record.used after
  have total := congrArg card bag
  rw [card_add] at total
  split_ifs at total ⊢ with unlock
  · omega
  rw [card_singleton] at total
  omega

theorem not_fit_of_lost (wf : WellFormed (held before)) (lost : Lost span before after)
    (spilled : kind = .unlock → Spilled span before after) :
    ¬ leftOver before span + (if kind = .unlock then 0 else 1) ≤
      freeSlots before + (overlapped before span).length := by
  split_ifs with unlock
  · have := (spilled unlock).not_fit wf
    omega
  rcases lost with spilled | ⟨bag, full⟩
  · have := spilled.not_fit wf
    omega
  have count := card_held_cut before span
  rw [← bag, full] at count
  omega

theorem Outcome.correct_iff {reply : Reply} (proper : span.start < span.stop) (wf : WellFormed (held before))
    (last : ∀ file owner byte, lockOf before file owner byte = locks file owner byte)
    (h : Outcome span kind before reply after) : (∀ file owner byte, lockOf after file owner byte =
      (if reply = .zero then locks.assign span kind.mode else locks) file owner byte) ↔
    (Clear before span kind → overlapped before span ≠ [] →
      leftOver before span + (if kind = .unlock then 0 else 1) ≤
        freeSlots before + (overlapped before span).length) := by
  have wf' := h.wellFormed proper wf
  cases h with
  | refused _ failed blocked =>
    rw [if_neg failed]
    exact ⟨fun _ clear => absurd clear blocked, fun _ => last⟩
  | granted _ _ clear bag =>
    refine ⟨fun _ _ _ => fit_of_granted bag, fun _ file owner byte => ?_⟩
    rw [lockOf_granted wf wf' bag, last]
    rfl
  | lost _ _ clear lost spilled =>
    rw [if_neg (by simp)]
    have full := not_fit_of_lost wf lost spilled
    constructor
    · intro same _ meets
      exfalso
      obtain ⟨r, hr, hits⟩ := overlapped_ne_nil.mp meets
      obtain ⟨was, gone⟩ := lost.byte proper wf hr hits
      have := (lockOf_eq_none_iff wf').mpr gone
      rw [same, ← last, (lockOf_eq_some_iff wf).mpr was] at this
      exact absurd this (by simp)
    intro fits file owner byte
    have untouched : ∀ r ∈ held before, target span r = false := by
      intro r hr
      by_contra hits
      exact full (fits clear (overlapped_ne_nil.mpr ⟨r, hr, by simpa using hits⟩))
    rcases lost with ⟨r, _, bag, hits, -⟩ | ⟨bag, -⟩
    · rw [untouched r (by simp [bag])] at hits
      exact absurd hits Bool.false_ne_true
    rw [← last]
    refine lockOf_congr wf wf' fun _ => ?_
    rw [bag, bind_cut_of_outside untouched]

theorem run_correct_iff (call : Call) (wf : WellFormed (held records))
    (last : ∀ file owner byte, lockOf records file owner byte = locks file owner byte) :
    (∀ file owner byte, lockOf (call.run records).2 file owner byte =
      (if (call.run records).1 = .zero then call.effect locks else locks) file owner byte) ↔
    Fits records call := by
  simp only [Fits]
  cases request : call.request with
  | some _ =>
    obtain ⟨proper, outcome, effect⟩ := run_request wf request
    simp only [effect]
    exact outcome.correct_iff proper wf last
  | none =>
    refine ⟨fun _ => trivial, fun _ file owner byte => ?_⟩
    rcases run_other records request with ⟨_, _, run, effect⟩ | ⟨same, effect⟩
    · rw [run, if_pos rfl, effect, lockOf_release wf, last]
      rfl
    · rw [same, effect, ite_self, last]

theorem step_correct_iff (s : State) (call : Call) (wf : WellFormed (held s.records))
    (correct : LocksCorrect s) : LocksCorrect (s.step call) ↔ Fits s.records call := by
  rw [locksCorrect_iff (step_wellFormed s call wf)]
  exact run_correct_iff call wf ((locksCorrect_iff wf).mp correct)

theorem initial_held : held State.initial.records = 0 := by decide

theorem initial_wellFormed : WellFormed (held State.initial.records) := by
  exact WellFormed.zero

/-- The locks are right after every call of a run exactly when every call finds room for what it
leaves of its owner's locks. -/
theorem locks_correct_iff_fits (calls : List Call) :
    Run.Throughout State.step LocksCorrect State.initial calls ↔
      Run.Along State.step (fun s call => Fits s.records call) State.initial calls := by
  refine Run.throughout_iff_along step_wellFormed step_correct_iff calls initial_wellFormed ?_
  refine (locksCorrect_iff initial_wellFormed).mpr fun _ _ _ => ?_
  rw [(lockOf_eq_none_iff initial_wellFormed).mpr]
  · rfl
  rintro _ ⟨r, hr, -⟩
  rw [initial_held] at hr
  simp at hr

/-- A call that fails leaves every owner's locked bytes as they were exactly when it found room for
what it leaves of its owner's locks. -/
theorem failed_call_keeps_locks_iff_fits (calls : List Call) (call : Call) (code : Nat)
    (failed : (call.run (Run.final State.step State.initial calls).records).1 = .errno code) :
    (∀ file owner byte,
      lockOf (call.run (Run.final State.step State.initial calls).records).2 file owner byte =
        lockOf (Run.final State.step State.initial calls).records file owner byte) ↔
      Fits (Run.final State.step State.initial calls).records call := by
  have wf := Run.final_invariant step_wellFormed calls initial_wellFormed
  rw [← run_correct_iff call wf fun _ _ _ => rfl, failed, if_neg (by simp)]

/-- This holds in every run, also after calls that have found no room for what they leave. -/
theorem write_locks_exclusive (calls : List Call) :
    Exclusive (Run.final State.step State.initial calls).records := by
  intro file byte owner other writes holds
  have wf := Run.final_invariant step_wellFormed calls initial_wellFormed
  have correct := (locksCorrect_iff (s := ⟨_, lockOf _⟩) wf).mpr fun _ _ _ => rfl
  by_contra ne
  exact holds (correct.exclusive file byte owner other ne writes)

theorem conflict_isSome_iff {records : Table} {span : Span} {write : Bool} (wf : WellFormed (held records))
    (proper : span.start < span.stop) :
    (conflict records span.file span.owner span.start span.stop write).isSome ↔
      ∃ owner byte mode, owner ≠ span.owner ∧ span.start ≤ byte ∧ byte < span.stop ∧
        lockOf records span.file owner byte = some mode ∧ (write = true ∨ mode = true) := by
  simp only [lockOf_eq_some_iff wf, conflict, List.find?_isSome, conflicts_iff]
  constructor
  · rintro ⟨r, mem, used, file, other, low, high, strong⟩
    have member : r ∈ held records := by simp [Slots.bag, mem, used]
    have nonempty := wf.nonempty r member
    exact ⟨r.owner, max r.start span.start, r.write, other, by omega, by omega,
      ⟨r, member, file, rfl, by omega, by omega, rfl⟩, strong⟩
  · rintro ⟨_, byte, _, other, low, high, ⟨r, member, file, rfl, start, stop, rfl⟩, strong⟩
    obtain ⟨used, _, eq⟩ := (Slots.mem_bag Record.used).mp member
    exact ⟨r, by rw [← eq]; simp, used, file, other, by omega, by omega, strong⟩

/-- `F_GETLK` answers that the range is free exactly when no other owner has a lock on one of its bytes that stands
against the one asked for. -/
theorem getLock_exact (calls : List Call) (fd : ProcessFd) (pid number : Nat) (flock : Flock) (span : Span)
    (asked : spanOf fd pid number flock = .ok span) :
    ∃ answer, getLock fd pid number flock (Run.final State.step State.initial calls).records = .ok answer ∧
      (answer.kind ≠ 2 ↔ ∃ owner byte mode, owner ≠ span.owner ∧ span.start ≤ byte ∧ byte < span.stop ∧
        lockOf (Run.final State.step State.initial calls).records span.file owner byte = some mode ∧
          (flock.kind = 1 ∨ mode = true)) := by
  have wf := Run.final_invariant step_wellFormed calls initial_wellFormed
  have known := @conflict_isSome_iff _ span (decide (flock.kind = 1)) wf (spanOf_proper asked)
  simp only [decide_eq_true_eq] at known
  refine ⟨_, by rw [getLock, asked]; rfl, ?_⟩
  rw [← known]
  cases conflict _ span.file span.owner span.start span.stop (flock.kind = 1) with
  | none => simp [report]
  | some r => cases write : r.write <;> simp [report, write]

def writeLock (offset length : Int) : Call :=
  .command ⟨3, some 1, .ok 0, .ok 0⟩ 1 6 (some ⟨1, 0, offset, length, 0⟩) false true

def dropLock (offset length : Int) : Call :=
  .command ⟨3, some 1, .ok 0, .ok 0⟩ 1 6 (some ⟨2, 0, offset, length, 0⟩) false true

def contendedLock : Call := .command ⟨4, some 1, .ok 0, .ok 0⟩ 2 6 (some ⟨1, 0, 5, 10, 0⟩) false true

theorem contended_lock_keeps_locks :
    (contendedLock.run (Run.final State.step State.initial [writeLock 0 10]).records).1 = .errno 11 ∧
      ∀ file owner byte,
        lockOf (contendedLock.run (Run.final State.step State.initial [writeLock 0 10]).records).2
          file owner byte =
        lockOf (Run.final State.step State.initial [writeLock 0 10]).records file owner byte := by
  have failed : (contendedLock.run (Run.final State.step State.initial [writeLock 0 10]).records).1 =
    .errno 11 := by decide
  refine ⟨failed, (failed_call_keeps_locks_iff_fits _ _ 11 failed).mpr ?_⟩
  intro clear
  exact absurd clear (by decide)

def separateLocks (n : Nat) : List Call := (List.range n).map fun k : Nat => writeLock (20 * k) 10

private theorem separateLocks_succ (n : Nat) :
    separateLocks (n + 1) = separateLocks n ++ [writeLock (20 * n) 10] := by
  simp [separateLocks, List.range_succ]

private theorem separate_request (k : Nat) (hk : k < recordCount) :
    (writeLock (20 * k) 10).request = some (⟨1, 1, 20 * k, 20 * k + 10⟩, .write) := by
  decide +revert

private theorem separate_held (n : Nat) (hn : n ≤ recordCount) :
    ∃ s, Run.final State.step State.initial (separateLocks n) = s ∧
      WellFormed (held s.records) ∧ (held s.records).card = n ∧
      (∀ r ∈ held s.records, r.file = 1 ∧ r.owner = 1 ∧ r.stop ≤ 20 * n) ∧
      (0 < n → ∃ r ∈ held s.records, r.start = 0 ∧ r.stop = 10) := by
  induction n with
  | zero =>
    refine ⟨State.initial, rfl, initial_wellFormed, ?_, ?_, by simp⟩
    all_goals simp [initial_held]
  | succ n ih =>
    obtain ⟨s, run, wf, count, member, first⟩ := ih (by omega)
    rw [separateLocks_succ, Run.final_concat, run]
    have apart : (held s.records).bind (cut ⟨1, 1, 20 * n, 20 * n + 10⟩) = held s.records := by
      refine bind_cut_of_outside fun r hr => ?_
      rw [← Bool.not_eq_true, target_iff]
      have := (member r hr).2.2
      simp only
      omega
    obtain ⟨-, outcome, -⟩ := run_request wf (separate_request n (by omega))
    refine ⟨_, rfl, step_wellFormed s _ wf, ?_⟩
    have after : (s.step (writeLock (20 * n) 10)).records = ((writeLock (20 * n) 10).run s.records).2 := rfl
    rw [after]
    generalize ((writeLock (20 * n) 10).run s.records).1 = reply,
      ((writeLock (20 * n) 10).run s.records).2 = records at outcome
    cases outcome with
    | refused _ _ blocked =>
      refine absurd (.inr (List.find?_eq_none.mpr fun r hr conflicting => ?_)) blocked
      obtain ⟨used, -, owner, -⟩ := conflicts_iff.mp conflicting
      exact owner (member r (by simp [Slots.bag, used, hr])).2.1
    | lost _ _ _ lost =>
      rcases lost with ⟨-, -, -, -, -, -, full, -⟩ | ⟨bag, full⟩
      · omega
      rw [bag, apart] at full
      omega
    | granted _ pid _ bag =>
      rw [if_neg (by simp), apart, singleton_add] at bag
      rw [bag]
      refine ⟨by simp [count], ?_, fun _ => ?_⟩
      · simp only [mem_cons, forall_eq_or_imp]
        refine ⟨⟨rfl, rfl, by simp only [newRecord]; omega⟩, fun r hr => ?_⟩
        have := member r hr
        omega
      rcases Nat.eq_zero_or_pos n with rfl | pos
      · exact ⟨_, mem_cons_self _ _, rfl, rfl⟩
      obtain ⟨r, hr, range⟩ := first pos
      exact ⟨r, mem_cons_of_mem hr, range⟩

private theorem unlock_inside_tight : ∃ s, Run.final State.step State.initial (separateLocks recordCount) = s ∧
    WellFormed (held s.records) ∧ ¬ Fits s.records (dropLock 3 2) := by
  obtain ⟨s, run, wf, full, member, first⟩ := separate_held recordCount le_rfl
  obtain ⟨r, hr, start, stop⟩ := first (by decide)
  obtain ⟨rest, bag⟩ := exists_cons_of_mem hr
  obtain ⟨file, owner, -⟩ := member r hr
  refine ⟨s, run, wf, fun fits => ?_⟩
  have hits : target ⟨1, 1, 3, 5⟩ r = true :=
    target_iff.mpr ⟨held_used hr, file, owner, by simp [stop], by simp [start]⟩
  have tight := not_fit_inside wf bag hits (by simp [start]) (by simp [stop]) full
  have request : (dropLock 3 2).request = some (⟨1, 1, 3, 5⟩, .unlock) := by decide
  simp only [Fits, request, true_or, ↓reduceIte, Nat.add_zero, forall_const] at fits
  exact absurd (fits (overlapped_ne_nil.mpr ⟨r, hr, hits⟩)) (by omega)

/-- With all 64 slots taken, unlocking bytes 3 and 4 of the lock on bytes 0 to 9 fails, and the lock
on bytes 5 to 9 is gone. -/
theorem unlock_inside_loses_right_part : ¬ Run.Throughout State.step LocksCorrect State.initial
      (separateLocks recordCount ++ [dropLock 3 2]) := by
  obtain ⟨s, run, wf, tight⟩ := unlock_inside_tight
  intro throughout
  have before := Run.final_of_throughout _ throughout
  rw [← List.append_nil (_ ++ [_])] at throughout
  have after := Run.final_of_throughout _ throughout
  rw [Run.final_concat] at after
  rw [run] at before after
  exact tight ((step_correct_iff s _ wf before).mp after)

theorem failed_unlock_changes_locks :
    ∃ s, Run.final State.step State.initial (separateLocks recordCount) = s ∧
      ∃ code, ((dropLock 3 2).run s.records).1 = .errno code ∧
        ¬ ∀ file owner byte, lockOf ((dropLock 3 2).run s.records).2 file owner byte =
          lockOf s.records file owner byte := by
  obtain ⟨s, run, wf, tight⟩ := unlock_inside_tight
  refine ⟨s, run, ?_⟩
  have request : (dropLock 3 2).request = some (⟨1, 1, 3, 5⟩, .unlock) := by decide
  obtain ⟨-, outcome, -⟩ := run_request wf request
  have changed := tight
  rw [← run_correct_iff (dropLock 3 2) wf fun _ _ _ => rfl] at changed
  generalize ((dropLock 3 2).run s.records).1 = reply,
    ((dropLock 3 2).run s.records).2 = after at outcome changed ⊢
  cases outcome with
  | refused _ _ blocked => exact absurd (.inl rfl) blocked
  | granted _ _ _ bag => exact (tight fun _ _ => fit_of_granted bag).elim
  | lost code => exact ⟨code, rfl, by simpa using changed⟩

end AerOS.Proof.Records
