import AerOS.Spec.Smp

namespace AerOS.Proof.Smp
open AerOS.Smp Function Lib

variable {t t' : Table} {slot : Slot} {cpu id : Nat} {s s' : System} {a : Accepted} {h : History}
variable {job : Job} {test : Job → Bool}

theorem mem_indices : slot ∈ t.indices test ↔ test (t.jobs slot) = true := by
  simp [Table.indices]

/-- The job that is taken was queued for the CPU or may run there, and the others only grow older. -/
structure Taken (t t' : Table) (slot : Slot) (cpu : Nat) : Prop where
  queued : (t.jobs slot).state = .queued
  may : (t.jobs slot).cpu = cpu ∨ (t.jobs slot).affinity.getLsbD cpu = true
  own : ∃ cpu, t'.jobs slot = { t.jobs slot with cpu }
  next : t'.nextId = t.nextId
  others : ∀ other, other ≠ slot → ∃ waited, t'.jobs other = { t.jobs other with waited }

theorem pick_taken (taken : pick t cpu = some (slot, t')) : Taken t t' slot cpu := by
  obtain ⟨chosen, weighed, rest⟩ := Option.bind_eq_some_iff.mp taken
  cases rest
  obtain ⟨queued, here⟩ := of_decide_eq_true (mem_indices.mp (List.minOn?_mem weighed))
  refine ⟨queued, .inl here, ⟨_, by simp; rfl⟩, rfl, fun other _ => ?_⟩
  dsimp only
  split
  · exact ⟨_, rfl⟩
  · exact ⟨_, rfl⟩

theorem steal_taken (taken : steal t cpu = some (slot, t')) : Taken t t' slot cpu := by
  obtain ⟨_, -, later⟩ := Option.bind_eq_some_iff.mp taken
  obtain ⟨chosen, weighed, rest⟩ := Option.bind_eq_some_iff.mp later
  cases rest
  obtain ⟨queued, -, allowed⟩ := of_decide_eq_true (mem_indices.mp (List.minOn?_mem weighed))
  exact ⟨queued, .inr allowed, ⟨_, update_self _ _ _⟩, rfl, fun _ apart => ⟨_, update_of_ne apart _ _⟩⟩

theorem runNextTake_taken (taken : runNextTake cpu t = some (slot, t')) :
    (t.jobs slot).state = .queued ∧ ((t.jobs slot).cpu = cpu ∨ (t.jobs slot).affinity.getLsbD cpu = true) ∧
      t'.jobs slot = { t.jobs slot with state := .running, cpu } ∧ t'.nextId = t.nextId ∧
      ∀ other, other ≠ slot → ∃ waited, t'.jobs other = { t.jobs other with waited } := by
  unfold runNextTake at taken
  split at taken
  · cases taken
  obtain ⟨⟨_, t₁⟩, found, rest⟩ := Option.bind_eq_some_iff.mp taken
  cases rest
  have taken : Taken t t₁ slot cpu :=
    (Option.or_eq_some_iff.mp found).elim pick_taken fun stolen => steal_taken stolen.2
  obtain ⟨_, own⟩ := taken.own
  refine ⟨taken.queued, taken.may, by simp [own], taken.next, fun other apart => ?_⟩
  simpa [update_of_ne apart] using taken.others other apart

theorem runNextTake_none (running : t.paused.getLsbD cpu = false) (inside : cpu < maxProcessors)
    (idle : runNextTake cpu t = none) (slot : Slot) :
    ¬ ((t.jobs slot).state = .queued ∧ (t.jobs slot).cpu = cpu) := by
  intro waits
  have member : slot ∈ t.indices fun job => job.state = .queued ∧ job.cpu = cpu :=
    mem_indices.mpr (decide_eq_true waits)
  rw [runNextTake, if_neg (by simp [running, inside])] at idle
  obtain ⟨chosen, weighed⟩ : ∃ chosen, pickWeighted t (t.indices fun job => job.state = .queued ∧ job.cpu = cpu) =
      some chosen := Option.isSome_iff_exists.mp (List.isSome_minOn?_of_mem member)
  obtain ⟨result, picked⟩ : ∃ result, pick t cpu = some result := ⟨_, by dsimp only [pick]; rw [weighed]; rfl⟩
  simp [picked] at idle

def Kept (a : Accepted) (h : History) (job : Job) : Prop :=
  job.function = some a.function ∧ job.argument = a.argument ∧ job.affinity = a.affinity ∧
    match job.state with
    | .free => False
    | .queued => h = ⟨[a], [], [], []⟩ ∧ job.cpu < maxProcessors ∧ a.affinity.getLsbD job.cpu
    | .running => h = ⟨[a], [(some a.function, a.argument, job.cpu)], [], []⟩ ∧ a.affinity.getLsbD job.cpu
    | .done =>
      h = ⟨[a], [(some a.function, a.argument, job.ranOn)], [job.ranOn], []⟩ ∧ a.affinity.getLsbD job.ranOn

def Finished (a : Accepted) (h : History) : Prop :=
  ∃ cpu, a.affinity.getLsbD cpu ∧ h = ⟨[a], [(some a.function, a.argument, cpu)], [cpu], [cpu]⟩

def Flies (job : Job) (flight : Flight) : Prop :=
  job.state = .running ∧ job.id = flight.id ∧ job.cpu = flight.cpu

structure Inv (s : System) : Prop where
  next : s.spawned + 1 < 2 ^ 32 → s.table.nextId = s.spawned + 1
  later : ∀ id, s.spawned < id → s.history id = .empty
  held : ∀ slot, (s.table.jobs slot).state ≠ .free →
    ∃ a, a.slot = slot ∧ Kept a (s.history (s.table.jobs slot).id) (s.table.jobs slot)
  jobs : ∀ id, s.history id = .empty ∨
    (∃ slot, (s.table.jobs slot).state ≠ .free ∧ (s.table.jobs slot).id = id) ∨ ∃ a, Finished a (s.history id)
  flights : ∀ flight ∈ s.flights, Flies (s.table.jobs flight.slot) flight
  apart : (s.flights.map Flight.slot).Nodup

@[grind →]
theorem Kept.accepted (kept : Kept a h job) : h.accepted = [a] := by
  obtain ⟨-, -, -, stage⟩ := kept
  split at stage <;> simp_all

theorem kept_waited (waited : Nat) : Kept a h { job with waited } ↔ Kept a h job := Iff.rfl

section
variable (inv : Inv s)
include inv

theorem spawn_inv (few : s.spawned + 1 < 2 ^ 32) {online affinity : Mask} {function argument : UInt64}
    {nice : Int} (accepted : spawn online function argument nice affinity s.table = some (id, slot, t)) :
    Inv { s with
      table := t
      spawned := s.spawned + 1
      history := s.note id fun h =>
        { h with accepted := h.accepted ++ [⟨slot, function, argument, affinity⟩] } } := by
  simp only [spawn] at accepted
  split at accepted
  · cases accepted
  obtain ⟨cpu, chosen, found⟩ := Option.bind_eq_some_iff.mp accepted
  obtain ⟨_, first, rest⟩ := Option.bind_eq_some_iff.mp found
  cases rest
  have free := of_decide_eq_true (mem_indices.mp (List.mem_of_head? first))
  obtain ⟨inside, bits⟩ := List.mem_filter.mp (List.minOn?_mem chosen)
  simp only [BitVec.getLsbD_and, Bool.and_eq_true] at bits
  obtain ⟨next, later, held, jobs, flights, apart⟩ := inv
  have number := next few
  have fresh := later s.table.nextId (by omega)
  refine ⟨fun few' => ?_, ?_, fun other => ?_, ?_, ?_, apart⟩
  · dsimp only at few' ⊢
    omega
  all_goals simp only [System.note, update_apply]
  · grind
  · by_cases here : other = slot
    · subst here
      intro _
      refine ⟨⟨other, function, argument, affinity⟩, rfl, ?_⟩
      simp [Kept, fresh, History.empty, bits.2, List.mem_range.mp inside]
    · grind [History.empty]
  · grind
  · grind [Flies]

theorem runNext_inv (taken : runNextTake cpu s.table = some (slot, t)) : Inv (step s (.runNext cpu)) := by
  simp only [step, taken]
  obtain ⟨queued, may, new, same, others⟩ := runNextTake_taken taken
  obtain ⟨next, later, held, jobs, flights, apart⟩ := inv
  obtain ⟨a, here, function, argument, affinity, stage⟩ := held slot (by simp [queued])
  rw [queued] at stage
  have bit : a.affinity.getLsbD cpu = true := by grind
  have stays : ∀ other, (s.table.jobs other).state ≠ .free →
      (t.jobs other).state ≠ .free ∧ (t.jobs other).id = (s.table.jobs other).id := by
    intro other used
    by_cases at_ : other = slot
    · simp [at_, new]
    · obtain ⟨waited, aged⟩ := others other at_
      simp [aged, used]
  refine ⟨by simpa [same] using next, ?_, fun other => ?_, ?_, ?_, ?_⟩
  all_goals simp only [System.note, update_apply]
  · grind [History.empty]
  · by_cases at_ : other = slot
    · subst at_
      intro _
      refine ⟨a, here, ?_⟩
      simp [new, Kept, function, argument, affinity, stage.1, bit]
    · obtain ⟨waited, aged⟩ := others other at_
      rw [aged]
      simp only [kept_waited]
      grind
  · grind
  · intro flight member
    rcases List.mem_cons.mp member with rfl | before
    · simp [Flies, new]
    · have ne : flight.slot ≠ slot := by grind [Flies]
      obtain ⟨waited, aged⟩ := others flight.slot ne
      rw [aged]
      exact flights flight before
  · grind [Flies]

theorem land_inv {flight : Flight} (member : flight ∈ s.flights) : Inv (step s (.land flight)) := by
  simp only [step, if_pos member]
  obtain ⟨next, later, held, jobs, flights, apart⟩ := inv
  obtain ⟨running, named, cpu⟩ := flights flight member
  obtain ⟨a, here, function, argument, affinity, stage⟩ := held flight.slot (by simp [running])
  rw [running, named] at stage
  have others : ∀ other ∈ s.flights.erase flight, other ∈ s.flights ∧ other.slot ≠ flight.slot := by
    intro other still
    obtain ⟨ne, before⟩ := (apart.of_map _).mem_erase_iff.mp still
    exact ⟨before, fun same => ne (List.inj_on_of_nodup_map apart before member same)⟩
  refine ⟨next, ?_, fun other => ?_, ?_, ?_, apart.sublist (List.erase_sublist.map _)⟩
  all_goals simp only [System.note, runNextFinish, update_apply]
  · grind [History.empty]
  · by_cases at_ : other = flight.slot
    · subst at_
      intro _
      refine ⟨a, here, ?_⟩
      simp [Kept, named, function, argument, affinity, stage.1, ← cpu, stage.2]
    · grind
  · grind
  · grind [Flies]

theorem wait_inv (ended : waitTurn id s.table = some (cpu, t)) : Inv (step s (.wait id)) := by
  simp only [step, ended]
  obtain ⟨slot, first, rest⟩ := Option.bind_eq_some_iff.mp ended
  split at rest
  case isFalse => cases rest
  rename_i done
  cases rest
  obtain ⟨named, used⟩ := of_decide_eq_true (mem_indices.mp (List.mem_of_head? first))
  obtain ⟨next, later, held, jobs, flights, apart⟩ := inv
  obtain ⟨a, here, -, -, -, stage⟩ := held slot used
  rw [done] at stage
  refine ⟨next, ?_, ?_, ?_, ?_, apart⟩
  all_goals simp only [System.note, update_apply]
  · grind [History.empty]
  · grind [Job.empty]
  · intro id'
    by_cases mine : id' = id
    · exact .inr (.inr ⟨a, _, stage.2, by simp [mine, ← named, stage.1]⟩)
    · grind
  · grind [Flies]

theorem step_inv (label : Label) (few : (step s label).spawned < 2 ^ 32) : Inv (step s label) := by
  cases label with
  | spawn online function argument nice affinity =>
    simp only [step] at few ⊢
    split at few
    · exact inv
    · exact spawn_inv inv few ‹_›
  | runNext cpu =>
    cases taken : runNextTake cpu s.table with
    | none => simpa [step, taken] using inv
    | some => exact runNext_inv inv taken
  | land flight =>
    by_cases member : flight ∈ s.flights
    · exact land_inv inv member
    · simpa [step, member] using inv
  | wait id =>
    cases ended : waitTurn id s.table with
    | none => simpa [step, ended] using inv
    | some => exact wait_inv inv ended
  | pause mask => exact ⟨inv.next, inv.later, inv.held, inv.jobs, inv.flights, inv.apart⟩

end

theorem step_spawned (s : System) (label : Label) : s.spawned ≤ (step s label).spawned := by
  cases label with
  | pause => exact le_rfl
  | _ => dsimp only [step]; split <;> simp

theorem start_inv : Inv .start :=
  ⟨fun _ => rfl, fun _ _ => rfl, fun _ used => absurd rfl used, fun _ => .inl rfl, by simp [System.start], .nil⟩

theorem Inv.runsOnce (inv : Inv s) (id : Nat) : RunsOnce s.table id (s.history id) := by
  obtain empty | ⟨slot, used, rfl⟩ | ⟨a, cpu, bit, past⟩ := inv.jobs id
  · exact .inl empty
  · obtain ⟨a, rfl, kept⟩ := inv.held slot used
    refine .inr ⟨a, kept.accepted, ?_⟩
    obtain ⟨-, -, -, stage⟩ := kept
    split at stage
    · exact stage.elim
    · rw [stage.1]
      exact ⟨.inl rfl, .inl ⟨rfl, rfl, used⟩⟩
    all_goals
      rw [stage.1]
      exact ⟨.inr ⟨_, stage.2, rfl⟩, .inl ⟨rfl, rfl, used⟩⟩
  · rw [past]
    exact .inr ⟨a, rfl, .inr ⟨cpu, bit, rfl⟩, .inr ⟨cpu, rfl, rfl, rfl⟩⟩

theorem jobs_run_once (labels : List Label) (run : Run.final step .start labels = s) (few : s.spawned < 2 ^ 32) :
    (∀ id, RunsOnce s.table id (s.history id)) ∧
      ∀ cpu, s.table.paused.getLsbD cpu = false → runNextTake cpu s.table = none →
        ∀ slot, ¬ ((s.table.jobs slot).state = .queued ∧ (s.table.jobs slot).cpu = cpu) := by
  let sound (s : System) : Prop := s.spawned < 2 ^ 32 → Inv s
  have keeps (s : System) (label : Label) (h : sound s) : sound (step s label) := fun few =>
    step_inv (h ((step_spawned s label).trans_lt few)) label few
  have inv : Inv s := by
    subst run
    exact Run.final_invariant keeps labels (s := .start) (fun _ => start_inv) few
  refine ⟨inv.runsOnce, fun cpu running idle slot waits => ?_⟩
  obtain ⟨a, -, -, -, -, stage⟩ := inv.held slot (by simp [waits.1])
  rw [waits.1, waits.2] at stage
  exact runNextTake_none running stage.2.1 idle slot waits

theorem maxJobs_pos : 0 < maxJobs := by decide

theorem two_jobs : 1 < maxJobs := by decide

/-- Both jobs wait for processor 2. Processor 1 steals one of them, which returns after the other. -/
def stolenJob : List Label :=
  [.spawn 4 7 8 0 6, .spawn 4 9 10 0 6, .runNext 1, .runNext 2, .land ⟨⟨1, two_jobs⟩, 2, 2⟩, .wait 2,
    .land ⟨⟨0, maxJobs_pos⟩, 1, 1⟩, .wait 1]

theorem stolenJob_runs_once :
    (Run.final step .start stolenJob).table.steals = 1 ∧
      (Run.final step .start stolenJob).history 1 = ⟨[⟨(0 : Fin 64), 7, 8, 6⟩], [(some 7, 8, 1)], [1], [1]⟩ ∧
      (Run.final step .start stolenJob).history 2 = ⟨[⟨(1 : Fin 64), 9, 10, 6⟩], [(some 9, 10, 2)], [2], [2]⟩ ∧
      ∀ id, RunsOnce (Run.final step .start stolenJob).table id ((Run.final step .start stolenJob).history id) :=
  ⟨by decide +kernel, by decide +kernel, by decide +kernel, (jobs_run_once stolenJob rfl (by decide +kernel)).1⟩

end AerOS.Proof.Smp
