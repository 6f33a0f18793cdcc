import AerOS.Proof.Descriptors.Moves

namespace AerOS.Proof.Descriptors
open AerOS.Descriptors Function Kernel

variable {k k' : Kernel} {R : Nat → Nat → ProcessFd → Prop}
variable {i process : Nat}
variable {old : Nat} {Q : ProcessFd → Prop}

theorem sameTasks_switchState (k : Kernel) (old next : Nat) (discard : Bool) :
    SameTasks k (k.switchState old next discard) := by
  unfold switchState
  split
  · exact ⟨fun _ _ => rfl, fun _ _ => rfl, fun _ _ => rfl, fun _ _ => Iff.rfl, rfl⟩
  cases discard with
  | true => exact ⟨fun _ _ => rfl, fun _ _ => rfl, fun _ _ => rfl, fun _ _ => Iff.rfl, rfl⟩
  | false =>
    have fields : ∀ i, update k.tasks (k.leaderSlot old) { k.tasks (k.leaderSlot old) with fds := k.fds } i =
        { k.tasks i with fds := if i = k.leaderSlot old then k.fds else (k.tasks i).fds } := by
      intro i
      by_cases here : i = k.leaderSlot old
      · subst here
        simp
      · simp [here]
    refine ⟨fun i _ => ?_, fun i _ => ?_, fun i _ => ?_, fun i _ => ?_, rfl⟩ <;>
      simp only [fields, Bool.false_eq_true, if_false, Task.live]

theorem current_switchState (k : Kernel) (old next : Nat) (discard : Bool) :
    (k.switchState old next discard).current = k.current := by
  unfold switchState
  split <;> rfl

theorem objects_switchState (k : Kernel) (old next : Nat) (discard : Bool) :
    (k.switchState old next discard).objects = k.objects := by
  unfold switchState
  split <;> rfl

theorem narrows_switchState (sched : Sched k) (old next : Nat) (discard : Bool) : Narrows k (k.switchState old next discard) := by
  have same := sameTasks_switchState k old next discard
  have current := current_switchState k old next discard
  apply same.narrows sched
  · rw [current]
    exact sched.inside
  · rw [current, same.live k.current sched.inside]
    exact sched.running

theorem currentGroup_switchState (sched : Sched k) (old next : Nat) (discard : Bool) :
    (k.switchState old next discard).currentGroup = k.currentGroup := by
  rw [currentGroup, current_switchState, (sameTasks_switchState k old next discard).group sched.inside,
    currentGroup]

theorem tableOf_switchState (sched : Sched k) (oldLive : k.groupLive (k.group old) = true)
    (live : k.groupLive process = true) : (k.switchState old k.current false).tableOf process =
      if process = k.group old then k.fds else (k.tasks (k.leaderOf process)).fds := by
  have same := ((sameTasks_switchState k old k.current false).groupLive process).trans live
  unfold tableOf
  rw [currentGroup_switchState sched, (narrows_switchState sched old k.current false).leaderOf sched same]
  by_cases within : k.group old = k.currentGroup
  · have unchanged : k.switchState old k.current false = k := if_pos within
    rw [unchanged, within]
  have slot : k.leaderSlot k.current = k.leaderOf k.currentGroup := sched.leaderSlot_eq sched.groupLive_current
  have distinct : ∀ {process}, k.groupLive process = true → process ≠ k.group old →
      k.leaderOf process ≠ k.leaderOf (k.group old) := by
    intro process live other clash
    have first := (sched.leaderOf_live live).2.2.1
    rw [clash, (sched.leaderOf_live oldLive).2.2.1] at first
    exact other first.symm
  have tasks : (k.switchState old k.current false).tasks =
      update k.tasks (k.leaderOf (k.group old)) { k.tasks (k.leaderOf (k.group old)) with fds := k.fds } := by
    rw [← sched.leaderSlot_eq oldLive]
    exact congrArg tasks (if_neg within)
  have fds : (k.switchState old k.current false).fds = ((k.switchState old k.current false).tasks (k.leaderOf k.currentGroup)).fds := by
    rw [tasks, ← sched.leaderSlot_eq oldLive, ← slot]
    exact congrArg fds (if_neg within)
  have at_ : ((k.switchState old k.current false).tasks (k.leaderOf process)).fds =
      if process = k.group old then k.fds else (k.tasks (k.leaderOf process)).fds := by
    rw [tasks]
    split
    · next own => rw [own, update_self]
    · next other => rw [update_of_ne (distinct live other)]
  split
  · next own => rw [fds, ← own, at_]
  · exact at_

theorem tableOf_switchState_discard (sched : Sched k) (apart : k.group old ≠ k.currentGroup)
    (live : k.groupLive process = true) :
    (k.switchState old k.current true).tableOf process = (k.tasks (k.leaderOf process)).fds := by
  have same := ((sameTasks_switchState k old k.current true).groupLive process).trans live
  have slot : k.leaderSlot k.current = k.leaderOf k.currentGroup := sched.leaderSlot_eq sched.groupLive_current
  have after : k.switchState old k.current true = { k with fds := (k.tasks (k.leaderSlot k.current)).fds } := if_neg apart
  unfold tableOf
  rw [currentGroup_switchState sched, (narrows_switchState sched old k.current true).leaderOf sched same, after, slot]
  split
  · next own => rw [own]
  · rfl

theorem sameTasks_run {k : Kernel} {state : TaskState} (live : (k.tasks i).live = true)
    (runs : state = .ready ∨ state = .running) (current : Nat) :
    SameTasks k { k with tasks := update k.tasks i { k.tasks i with state }, current } := by
  have some := live_nonempty live
  refine ⟨fun j _ => ?_, fun j _ => ?_, fun j _ => ?_, fun j _ => ?_, rfl⟩ <;> by_cases here : j = i
  · subst here
    rcases runs with rfl | rfl <;> simp [Task.live] at live ⊢ <;> simp [live]
  · simp [update_of_ne here]
  all_goals first
    | (subst here; rcases runs with rfl | rfl <;> simp [some])
    | simp [update_of_ne here]

theorem SameTasks.trans {k₁ k₂ k₃ : Kernel} (first : SameTasks k₁ k₂) (second : SameTasks k₂ k₃) : SameTasks k₁ k₃ :=
  ⟨fun i h => (second.live i h).trans (first.live i h), fun i h => (second.id i h).trans (first.id i h),
    fun i h => (second.tgid i h).trans (first.tgid i h), fun i h => (second.empty i h).trans (first.empty i h),
    second.nextId.trans first.nextId⟩

theorem refines_switchTo (sched : Sched k) (next : Nat) (stays : Bool) : Refines R k (k.switchTo next stays) := by
  unfold switchTo
  split
  · next ok =>
    obtain ⟨inside, live⟩ := ok
    set departing : Task := { k.tasks k.current with state := if stays then .running else .ready }
    set tasks := update k.tasks k.current departing
    have left : SameTasks k { k with tasks := tasks } :=
      sameTasks_run sched.running (by cases stays <;> simp) k.current
    have arrived : SameTasks { k with tasks := tasks }
        { k with tasks := update tasks next { tasks next with state := .running }, current := next } :=
      sameTasks_run (k := { k with tasks := tasks }) ((left.live next inside).trans live) (.inr rfl) next
    set k₁ : Kernel := { k with tasks := update tasks next { tasks next with state := .running }, current := next }
    have same : SameTasks k k₁ := left.trans arrived
    have narrows : Narrows k k₁ := same.narrows sched inside ((same.live next inside).trans live)
    have sched₁ := narrows.sched sched
    have old := same.group sched.inside
    have oldLive : k₁.groupLive (k₁.group k.current) = true := by
      rw [old, same.groupLive]
      exact sched.groupLive_current
    have fds : ∀ i, (k₁.tasks i).fds = (k.tasks i).fds := by
      intro i
      simp only [k₁, tasks, departing]
      by_cases first : i = next <;> by_cases second : i = k.current <;> simp_all [update_apply]
    refine .of_same ((narrows_switchState sched₁ _ _ _).sched sched₁) ?_ (objects_switchState k₁ _ _ _)
    apply (same.trans (sameTasks_switchState k₁ k.current next false)).processes
    intro process alive
    have alive₁ := (same.groupLive process).trans alive
    rw [show next = k₁.current from rfl, tableOf_switchState sched₁ oldLive alive₁, old, narrows.leaderOf sched alive₁, fds]
    rfl
  · exact .refl sched

structure Ended (k k' : Kernel) : Prop where
  current : k'.current = k.current
  fds : k'.fds = k.fds
  tables : ∀ i < maxTasks, (k'.tasks i).fds = (k.tasks i).fds
  objects : k'.objects = k.objects
  nextId : k'.nextId = k.nextId
  id : ∀ i < maxTasks, (k'.tasks i).id = (k.tasks i).id
  tgid : ∀ i < maxTasks, (k'.tasks i).tgid = (k.tasks i).tgid
  empty : ∀ i < maxTasks, ((k'.tasks i).state = .empty ↔ (k.tasks i).state = .empty)
  live : ∀ i < maxTasks, (k'.tasks i).live = true → (k.tasks i).live = true
  running : (k'.tasks k.current).live = true
  others : ∀ i < maxTasks, k.group i ≠ k.currentGroup → (k'.tasks i).live = (k.tasks i).live

section
variable (ended : Ended k k')
include ended

theorem Ended.narrows (sched : Sched k) : Narrows k k' := by
  refine .of_kept sched (fun i h => ⟨ended.id i h, ended.tgid i h, ended.empty i h⟩) ended.live ended.nextId ?_ ?_
  · rw [ended.current]
    exact sched.inside
  · rw [ended.current]
    exact ended.running

theorem Ended.group {i : Nat} (inside : i < maxTasks) : k'.group i = k.group i :=
  group_congr (ended.id i inside) (ended.tgid i inside)

theorem Ended.currentGroup (sched : Sched k) : k'.currentGroup = k.currentGroup := by
  rw [Kernel.currentGroup, ended.current, ended.group sched.inside, Kernel.currentGroup]

theorem Ended.refines (sched : Sched k) : Refines R k k' := by
  have narrows := ended.narrows sched
  refine .of_same (narrows.sched sched) (narrows.processes sched (fun _ live => ?_)
    (fun i inside _ => ended.tables i inside) ended.current ended.fds) ended.objects
  obtain ⟨i, inside, runs, rfl⟩ := groupLive_iff.mp live
  rw [groupLive_iff]
  by_cases own : k.group i = k.currentGroup
  · refine ⟨k.current, sched.inside, ended.running, ?_⟩
    rw [ended.group sched.inside, own]
    rfl
  · exact ⟨i, inside, (ended.others i inside own).trans runs, ended.group inside⟩

end

section
variable (sched : Sched k)
include sched

theorem ended_endSiblings : Ended k k.endSiblings := by
  unfold endSiblings
  refine ⟨rfl, rfl, fun i _ => ?_, rfl, rfl, fun i _ => ?_, fun i _ => ?_, fun i _ => ?_, fun i _ => ?_, ?_, fun i _ => ?_⟩ <;>
    dsimp only
  · split <;> rfl
  · split <;> rfl
  · split <;> rfl
  · split
    · next ready => simp [ready.2.2]
    · rfl
  · split
    · simp [Task.live]
    · exact id
  · rw [if_neg fun h => h.1 rfl]
    exact sched.running
  · intro other
    rw [if_neg fun h => other h.2.1]

theorem ended_groupCode (slot : Nat) (code : Option Nat) :
    Ended k { k with tasks := update k.tasks slot { k.tasks slot with groupCode := code } } := by
  have fields : ∀ i, update k.tasks slot { k.tasks slot with groupCode := code } i =
      { k.tasks i with groupCode := if i = slot then code else (k.tasks i).groupCode } := by
    intro i
    by_cases here : i = slot
    · subst here
      simp
    · simp [here]
  refine ⟨rfl, rfl, fun i _ => ?_, rfl, rfl, fun i _ => ?_, fun i _ => ?_, fun i _ => ?_, fun i _ => ?_, ?_, fun i _ => ?_⟩ <;>
    simp only [fields, Task.live]
  · exact id
  · exact sched.running
  · exact fun _ => trivial

theorem exitGroup_table (code : Nat) :
    (k.exitGroup code).currentGroup = k.currentGroup ∧ (k.exitGroup code).fds = k.fds := by
  have recorded := ended_groupCode sched (k.leaderSlot k.current) (some code)
  have sched' := (recorded.refines (R := fun _ _ _ => True) sched).sched
  have ended := ended_endSiblings sched'
  exact ⟨(ended.currentGroup sched').trans (recorded.currentGroup sched), ended.fds.trans recorded.fds⟩

theorem refines_exitGroup (code : Nat) : Refines R k (k.exitGroup code) := by
  have recorded := (ended_groupCode sched (k.leaderSlot k.current) (some code)).refines (R := R) sched
  exact recorded.trans ((ended_endSiblings recorded.sched).refines recorded.sched)

theorem refines_execReset (allowed : ∀ d, (k.fds d).isOpen = true → (k.fds d).closeOnExec = true → R k.currentGroup d (k.fds d)) :
    Refines R k k.execResetProcessState := by
  refine refines_foldl_close sched _ fun d mem isOpen => allowed d isOpen ?_
  have flags := (List.mem_filter.mp mem).2
  rw [Bool.and_eq_true] at flags
  exact flags.2

theorem refines_exec (alone : Bool)
    (allowed : ∀ d, (k.fds d).isOpen = true → (k.fds d).closeOnExec = true → R k.currentGroup d (k.fds d)) :
    Refines R k (k.exec alone) := by
  cases alone with
  | false => exact refines_execReset sched allowed
  | true =>
    have ended := (ended_endSiblings sched).refines (R := R) sched
    refine ended.trans (refines_execReset ended.sched fun d isOpen marked => ?_)
    rw [(ended_endSiblings sched).currentGroup sched]
    exact allowed d isOpen marked

end

theorem Sched.group_lt (sched : Sched k) (live : k.groupLive process = true) : process < k.nextId := by
  obtain ⟨inside, some, id, -⟩ := sched.leaderOf_live live
  rw [← id]
  exact sched.fresh _ inside some

section Spawn
variable {slot : Nat} {task : Task}

structure Spawned (k k' : Kernel) (slot : Nat) (task : Task) : Prop where
  inside : slot < maxTasks
  free : (k.tasks slot).state = .empty
  live : task.live = true
  id : task.id = k.nextId
  member : task.group = k.nextId ∧ task.leads = true ∨ task.group = k.currentGroup
  after : k' = { k with tasks := update k.tasks slot task, nextId := k.nextId + 1 }

section
variable (spawned : Spawned k k' slot task)
include spawned

theorem Spawned.other (other : i ≠ slot) : k'.tasks i = k.tasks i := by
  rw [spawned.after]
  exact update_of_ne other _ _

theorem Spawned.new : k'.tasks slot = task := by
  rw [spawned.after]
  exact update_self _ _ _

theorem Spawned.ne (some : (k.tasks i).state ≠ .empty) : i ≠ slot := by
  rintro rfl
  exact some spawned.free

theorem Spawned.groupLive :
    k'.groupLive process = true ↔ k.groupLive process = true ∨ process = task.group := by
  rw [groupLive_iff, groupLive_iff]
  constructor
  · rintro ⟨i, inside, live, rfl⟩
    by_cases here : i = slot
    · subst here
      right
      rw [group, spawned.new]
    · rw [spawned.other here] at live
      refine .inl ⟨i, inside, live, ?_⟩
      rw [group, group, spawned.other here]
  · rintro (⟨i, inside, live, rfl⟩ | rfl)
    · have other := spawned.ne (live_nonempty live)
      refine ⟨i, inside, ?_, ?_⟩
      · rw [spawned.other other]
        exact live
      · rw [group, group, spawned.other other]
    · refine ⟨slot, spawned.inside, ?_, ?_⟩
      · rw [spawned.new]
        exact spawned.live
      · rw [group, spawned.new]

theorem Spawned.current (sched : Sched k) : k'.current = k.current ∧ k'.currentGroup = k.currentGroup := by
  have current : k'.current = k.current := by rw [spawned.after]
  refine ⟨current, ?_⟩
  rw [currentGroup, current, group, spawned.other (spawned.ne (live_nonempty sched.running))]
  rfl

theorem Spawned.sched (sched : Sched k) : Sched k' := by
  obtain ⟨current, group⟩ := spawned.current sched
  have nextId : k'.nextId = k.nextId + 1 := by rw [spawned.after]
  have some := live_nonempty spawned.live
  have old : ∀ {i}, i ≠ slot → (k'.tasks i).state ≠ .empty → (k.tasks i).state ≠ .empty := by
    intro i other some
    rwa [spawned.other other] at some
  refine ⟨?_, ?_, ?_, ?_, ?_⟩
  · rw [current]
    exact sched.inside
  · rw [current, spawned.other (spawned.ne (live_nonempty sched.running))]
    exact sched.running
  · intro i insideI j insideJ someI someJ id
    by_cases hereI : i = slot <;> by_cases hereJ : j = slot
    · rw [hereI, hereJ]
    · subst hereI
      rw [spawned.new, spawned.id, spawned.other hereJ] at id
      have := sched.fresh j insideJ (old hereJ someJ)
      omega
    · subst hereJ
      rw [spawned.new, spawned.id, spawned.other hereI] at id
      have := sched.fresh i insideI (old hereI someI)
      omega
    · rw [spawned.other hereI, spawned.other hereJ] at id
      exact sched.unique i insideI j insideJ (old hereI someI) (old hereJ someJ) id
  · intro i insideI live
    by_cases here : i = slot
    · subst here
      rw [Kernel.group, spawned.new]
      rcases spawned.member with ⟨own, leads⟩ | member
      · refine ⟨i, spawned.inside, ?_, ?_, ?_⟩ <;> rw [spawned.new]
        · exact some
        · rw [spawned.id, own]
        · exact leads
      obtain ⟨inside, some, id, leads⟩ := sched.leaderOf_live sched.groupLive_current
      have other := spawned.ne some
      refine ⟨_, inside, ?_, ?_, ?_⟩ <;> rw [spawned.other other]
      · exact some
      · rw [id, member]
      · exact leads
    · rw [spawned.other here] at live
      obtain ⟨j, insideJ, some, id, leads⟩ := sched.leader i insideI live
      have other := spawned.ne some
      refine ⟨j, insideJ, ?_, ?_, ?_⟩ <;> rw [spawned.other other]
      · exact some
      · rw [id, Kernel.group, Kernel.group, spawned.other here]
      · exact leads
  · intro i insideI some'
    by_cases here : i = slot
    · subst here
      rw [spawned.new, spawned.id]
      omega
    · rw [spawned.other here]
      have := sched.fresh i insideI (old here some')
      omega

theorem Spawned.leaderOf (sched : Sched k)
    (live : k.groupLive process = true) : k'.leaderOf process = k.leaderOf process := by
  obtain ⟨inside, some, id, -⟩ := sched.leaderOf_live live
  have other := spawned.ne some
  have found := (spawned.sched sched).leaderOf_eq inside (by rwa [spawned.other other])
  rwa [spawned.other other, id] at found

theorem Spawned.tableOf (sched : Sched k)
    (live : k.groupLive process = true) : k'.tableOf process = k.tableOf process := by
  have fds : k'.fds = k.fds := by rw [spawned.after]
  unfold Kernel.tableOf
  rw [(spawned.current sched).2, fds, spawned.leaderOf sched live,
    spawned.other (spawned.ne (sched.leaderOf_live live).2.1)]

theorem Spawned.refines_thread (sched : Sched k) (member : task.group = k.currentGroup) : Refines R k k' := by
  refine .of_same (spawned.sched sched) ?_ (by rw [spawned.after])
  have same : ∀ process, k'.groupLive process = k.groupLive process := by
    intro process
    rw [Bool.eq_iff_iff, spawned.groupLive]
    constructor
    · rintro (live | rfl)
      · exact live
      · rw [member]
        exact sched.groupLive_current
    · exact Or.inl
  exact funext fun process => processes_congr (same process) (spawned.tableOf sched)

theorem Spawned.processes (sched : Sched k) (own : task.group = k.nextId) :
    k'.system = k.system.set k.nextId (some task.fds) := by
  have objects : k'.objects = k.objects := by rw [spawned.after]
  have processes : k'.processes = update k.processes k.nextId (some task.fds) := by
    funext process
    by_cases new : process = k.nextId
    · subst new
      rw [update_self]
      refine processes_eq_some.mpr ⟨spawned.groupLive.mpr (.inr own.symm), ?_⟩
      have apart : k.nextId ≠ k.currentGroup := by
        have := sched.group_lt sched.groupLive_current
        omega
      have found := (spawned.sched sched).leaderOf_eq spawned.inside (by rw [spawned.new]; exact live_nonempty spawned.live)
      rw [spawned.new, spawned.id] at found
      unfold Kernel.tableOf
      rw [(spawned.current sched).2, if_neg apart, found, spawned.new]
    · rw [update_of_ne new]
      refine processes_congr ?_ (spawned.tableOf sched)
      rw [Bool.eq_iff_iff, spawned.groupLive, own]
      exact or_iff_left new
  unfold Kernel.system System.set
  rw [processes, objects]

end

end Spawn

theorem spawn_cases (task : Nat → Task) (live : (task k.nextId).live = true) (id : (task k.nextId).id = k.nextId)
    (member : (task k.nextId).group = k.nextId ∧ (task k.nextId).leads = true ∨
      (task k.nextId).group = k.currentGroup) :
    (k.spawn task).getD k = k ∨ ∃ slot, Spawned k ((k.spawn task).getD k) slot (task k.nextId) := by
  unfold spawn
  split
  · exact .inl rfl
  next slot found =>
  obtain ⟨inside, free⟩ := position_some found
  exact .inr ⟨slot, inside, by simpa using free, live, id, member, rfl⟩

theorem Sched.fork_absent (sched : Sched k) : k.system.processes k.nextId = none :=
  processes_eq_none.mpr (Bool.eq_false_iff.mpr fun live => Nat.lt_irrefl _ (sched.group_lt live))

theorem refines_startUserTask (sched : Sched k) : Refines R k k.startUserTask := by
  have own : ({ id := k.nextId, state := .ready } : Task).group = k.nextId := rfl
  rcases spawn_cases (k := k) (fun id => { id, state := .ready }) rfl rfl (.inl ⟨own, rfl⟩) with same | ⟨_, spawned⟩
  · unfold startUserTask
    rw [same]
    exact .refl sched
  · refine .of_move (spawned.sched sched) ?_
    rw [startUserTask, spawned.processes sched own]
    exact .start sched.fork_absent

theorem refines_fork (sched : Sched k) (copied : Bool) : Refines R k (k.forkCurrentUserTask copied) := by
  unfold forkCurrentUserTask
  split
  · have own : ({ id := k.nextId, state := .ready, fds := k.fds } : Task).group = k.nextId := rfl
    rcases spawn_cases (k := k) (fun id => { id, state := .ready, fds := k.fds }) rfl rfl (.inl ⟨own, rfl⟩)
      with same | ⟨slot, spawned⟩
    · rw [same]
      exact .refl sched
    · refine .of_move (spawned.sched sched) ?_
      rw [spawned.processes sched own]
      exact .fork sched.processes_current sched.fork_absent
  · exact .refl sched

structure Cleared (k k' : Kernel) (gone : Nat → Prop) : Prop where
  exited : ∀ i < maxTasks, gone i → (k.tasks i).state = .exited ∧
    ¬ ((k.tasks i).leads = true ∧ k.groupLive (k.tasks i).id = true)
  cleared : ∀ i < maxTasks, gone i → k'.tasks i = {}
  kept : ∀ i < maxTasks, ¬ gone i → k'.tasks i = k.tasks i
  rest : k' = { k with tasks := k'.tasks }

theorem Cleared.refines {gone : Nat → Prop} (cleared : Cleared k k' gone) (sched : Sched k) : Refines R k k' := by
  have current : k'.current = k.current := by rw [cleared.rest]
  have some : ∀ i < maxTasks, (k'.tasks i).state ≠ .empty → k'.tasks i = k.tasks i := by
    intro i inside some
    apply cleared.kept i inside
    intro isGone
    rw [cleared.cleared i inside isGone] at some
    exact some rfl
  have runs : ∀ i < maxTasks, (k.tasks i).live = true → k'.tasks i = k.tasks i := by
    intro i inside live
    apply cleared.kept i inside
    intro isGone
    simp [Task.live, (cleared.exited i inside isGone).1] at live
  have live : ∀ i < maxTasks, (k'.tasks i).live = true → (k.tasks i).live = true := by
    intro i inside live
    rwa [some i inside (live_nonempty live)] at live
  have narrows : Narrows k k' := by
    refine ⟨fun i inside occupied => ?_, live, fun process alive => ?_, by rw [cleared.rest], ?_, ?_⟩
    · have same := some i inside occupied
      rw [same] at occupied ⊢
      exact ⟨occupied, rfl, rfl⟩
    · obtain ⟨i, inside, lives, rfl⟩ := groupLive_iff.mp alive
      have group : k'.group i = k.group i := by
        rw [group, group, some i inside (live_nonempty lives)]
      have found := groupLive_iff.mpr ⟨i, inside, live i inside lives, group.symm⟩
      obtain ⟨insideL, _, id, leads⟩ := sched.leaderOf_live found
      have notGone : ¬ gone (k.leaderOf (k'.group i)) := fun isGone =>
        (cleared.exited _ insideL isGone).2 ⟨leads, by rwa [id]⟩
      rwa [cleared.kept _ insideL notGone]
    · rw [current]
      exact sched.inside
    · rw [current, runs _ sched.inside sched.running]
      exact sched.running
  refine .of_same (narrows.sched sched) (narrows.processes sched (fun process alive => ?_)
    (fun i inside occupied => by rw [some i inside occupied]) current (by rw [cleared.rest])) (by rw [cleared.rest])
  obtain ⟨i, inside, lives, rfl⟩ := groupLive_iff.mp alive
  have same := runs i inside lives
  refine groupLive_iff.mpr ⟨i, inside, ?_, ?_⟩
  · rw [same]
    exact lives
  · rw [group, group, same]

theorem refines_reap (sched : Sched k) (slot : Nat) : Refines R k (k.reap slot) := by
  unfold reap
  split
  · next gone =>
    have cleared : Cleared k { k with tasks := update k.tasks slot {} } (· = slot) :=
      ⟨fun i _ here => here ▸ gone, fun i _ here => by rw [here]; exact update_self _ _ _,
        fun i _ other => update_of_ne other _ _, rfl⟩
    exact cleared.refines sched
  · exact .refl sched

theorem refines_reapExitedThreads (sched : Sched k) : Refines R k k.reapExitedThreads := by
  have cleared : Cleared k k.reapExitedThreads
      fun i => (k.tasks i).leads = false ∧ (k.tasks i).state = .exited := by
    refine ⟨fun i _ gone => ⟨gone.2, by simp [gone.1]⟩, fun i _ gone => ?_, fun i _ kept => ?_, rfl⟩
    · simp [reapExitedThreads, gone]
    · simp only [reapExitedThreads]
      rw [if_neg]
      simpa using kept
  exact cleared.refines sched

theorem refines_clone (sched : Sched k) (copied : Bool) : Refines R k (k.cloneThread copied) := by
  have reaped := refines_reapExitedThreads (R := R) sched
  unfold cloneThread
  dsimp only
  split
  · next allowed =>
    simp only [Bool.and_eq_true, bne_iff_ne] at allowed
    set k₁ := k.reapExitedThreads
    have member : ({ id := k₁.nextId, tgid := k₁.currentGroup, state := .ready } : Task).group = k₁.currentGroup :=
      if_neg allowed.2
    rcases spawn_cases (k := k₁) (fun id => { id, tgid := k₁.currentGroup, state := .ready }) rfl rfl (.inr member)
      with same | ⟨slot, spawned⟩
    · rw [same]
      exact reaped
    · exact reaped.trans (spawned.refines_thread reaped.sched member)
  · exact reaped

section Leaving
variable {next : Nat}

def leaving (k : Kernel) (next : Nat) : Kernel :=
  let tasks := update k.tasks k.current { k.tasks k.current with state := .exited }
  { k with tasks := update tasks next { tasks next with state := .running }, current := next }

variable (sched : Sched k) (other : next ≠ k.current) (live : (k.tasks next).live = true)
include sched other live

theorem leaving_fields (i : Nat) :
    (((leaving k next).tasks i).id = (k.tasks i).id ∧ ((leaving k next).tasks i).tgid = (k.tasks i).tgid ∧
      (((leaving k next).tasks i).state = .empty ↔ (k.tasks i).state = .empty)) ∧
    ((leaving k next).tasks i).fds = (k.tasks i).fds ∧
    ((leaving k next).tasks i).live = (decide (i ≠ k.current) && (k.tasks i).live) := by
  unfold leaving
  dsimp only
  by_cases first : i = next
  · subst first
    have runs : (k.tasks i).state = .ready ∨ (k.tasks i).state = .running := by simpa [Task.live] using live
    simp [other, Task.live, live_nonempty live, runs]
  rw [update_of_ne first]
  by_cases second : i = k.current
  · subst second
    simp [Task.live, live_nonempty sched.running]
  · simp [second]

theorem leaving_live {i : Nat} : ((leaving k next).tasks i).live = true ↔ i ≠ k.current ∧ (k.tasks i).live = true := by
  rw [(leaving_fields sched other live i).2.2, Bool.and_eq_true, decide_eq_true_iff]

theorem leaving_group (i : Nat) : (leaving k next).group i = k.group i :=
  group_congr (leaving_fields sched other live i).1.1 (leaving_fields sched other live i).1.2.1

theorem leaving_narrows (inside : next < maxTasks) : Narrows k (leaving k next) :=
  .of_kept sched (fun i _ => (leaving_fields sched other live i).1)
    (fun _ _ alive => ((leaving_live sched other live).mp alive).2) rfl inside
    ((leaving_live sched other live).mpr ⟨other, live⟩)

theorem leaving_hasOthers : (leaving k next).groupLive k.currentGroup = k.groupHasOthers k.current ∧
    (leaving k next).groupHasOthers k.current = k.groupHasOthers k.current := by
  constructor
  · rw [Bool.eq_iff_iff, groupLive_iff]
    simp only [groupHasOthers, List.any_eq_true, List.mem_range, Bool.and_eq_true, bne_iff_ne, beq_iff_eq,
      leaving_live sched other live, leaving_group sched other live, currentGroup, and_assoc]
  unfold groupHasOthers
  congr 1
  funext i
  rw [(leaving_fields sched other live i).2.2, leaving_group sched other live, leaving_group sched other live]
  by_cases here : i = k.current <;> simp [here]

theorem leaving_others (inside : next < maxTasks) {process : Nat} (apart : process ≠ k.currentGroup) :
    (leaving k next).groupLive process = k.groupLive process := by
  rw [Bool.eq_iff_iff]
  refine ⟨(leaving_narrows sched other live inside).groupLive, fun alive => ?_⟩
  obtain ⟨i, insideI, runs, rfl⟩ := groupLive_iff.mp alive
  have notCurrent : i ≠ k.current := by
    rintro rfl
    exact apart rfl
  exact groupLive_iff.mpr ⟨i, insideI, (leaving_live sched other live).mpr ⟨notCurrent, runs⟩,
    leaving_group sched other live i⟩

theorem refines_leaving_thread (inside : next < maxTasks) (others : k.groupHasOthers k.current = true) :
    Refines R k ((leaving k next).switchState k.current next false) := by
  have narrows := leaving_narrows sched other live inside
  have sched₁ := narrows.sched sched
  have old : (leaving k next).group k.current = k.currentGroup := leaving_group sched other live k.current
  have hasOthers := (leaving_hasOthers sched other live).1.trans others
  have same := sameTasks_switchState (leaving k next) k.current next false
  refine .of_same ((narrows_switchState sched₁ _ _ _).sched sched₁) ?_ (objects_switchState _ _ _ _)
  have agree : ∀ process, (leaving k next).groupLive process = k.groupLive process := by
    intro process
    by_cases own : process = k.currentGroup
    · rw [own, hasOthers, sched.groupLive_current]
    · exact leaving_others sched other live inside own
  refine funext fun process => processes_congr ((same.groupLive process).trans (agree process)) fun found => ?_
  rw [← agree] at found
  have table := tableOf_switchState sched₁ (by rw [old, hasOthers]) found
  rwa [old, narrows.leaderOf sched found, (leaving_fields sched other live _).2.1] at table

theorem refines_leaving_last (inside : next < maxTasks) (others : k.groupHasOthers k.current = false)
    (closed : ∀ d < processFdCount, (k.fds d).isOpen = false) :
    Refines R k ((leaving k next).switchState k.current next true) := by
  have narrows := leaving_narrows sched other live inside
  have sched₁ := narrows.sched sched
  have same := sameTasks_switchState (leaving k next) k.current next true
  have dead := (leaving_hasOthers sched other live).1.trans others
  have apart : (leaving k next).group k.current ≠ (leaving k next).currentGroup := by
    intro clash
    have alive := sched₁.groupLive_current
    rw [← clash, leaving_group sched other live k.current] at alive
    exact Bool.false_ne_true (dead.symm.trans alive)
  refine .of_move ((narrows_switchState sched₁ _ _ _).sched sched₁) ?_
  have processes : ((leaving k next).switchState k.current next true).processes = update k.processes k.currentGroup none := by
    funext process
    by_cases own : process = k.currentGroup
    · subst own
      rw [update_self]
      refine processes_eq_none.mpr ?_
      rw [same.groupLive, dead]
    rw [update_of_ne own]
    have agree := leaving_others sched other live inside own
    refine processes_congr ((same.groupLive process).trans agree) fun found => ?_
    have table := tableOf_switchState_discard sched₁ apart (agree.trans found)
    rw [narrows.leaderOf sched (agree.trans found), (leaving_fields sched other live _).2.1] at table
    exact table.trans (if_neg own).symm
  have system : ((leaving k next).switchState k.current next true).system = k.system.set k.currentGroup none := by
    unfold system System.set
    rw [processes, objects_switchState]
    rfl
  rw [system]
  exact .finish sched.processes_current closed

end Leaving

theorem refines_exitCurrent (sched : Sched k) (next : Nat)
    (closed : k.groupHasOthers k.current = true ∨ ∀ d < processFdCount, (k.fds d).isOpen = false) :
    Refines R k (k.exitCurrent next) := by
  unfold exitCurrent
  split
  · next ok =>
    obtain ⟨inside, other, live⟩ := ok
    change Refines R k ((leaving k next).switchState k.current next (!(leaving k next).groupHasOthers k.current))
    rw [(leaving_hasOthers sched other live).2]
    cases others : k.groupHasOthers k.current with
    | true => exact refines_leaving_thread sched other live inside others
    | false =>
      refine refines_leaving_last sched other live inside others (closed.resolve_left ?_)
      rw [others]
      exact Bool.false_ne_true
  · exact .refl sched

theorem closeAll_closed (k : Kernel) {d : Nat} (inside : d < processFdCount) :
    (k.closeAllProcessFds.fds d).isOpen = false := by
  have mem := List.mem_range.mpr inside
  unfold closeAllProcessFds
  generalize List.range processFdCount = all at mem ⊢
  exact foldl_close_closed inside (.inl mem)

theorem refines_finishUserTask (sched : Sched k) (code next : Nat)
    (allowed : (k.taskFinished code).1 = true → ∀ d, (k.fds d).isOpen = true → R k.currentGroup d (k.fds d)) :
    Refines R k (k.finishUserTask code next) := by
  have finish : ∀ {k : Kernel}, Sched k → (∀ d, (k.fds d).isOpen = true → R k.currentGroup d (k.fds d)) →
      Refines R k (k.closeAllProcessFds.exitCurrent next) := by
    intro k sched allowed
    have closed : Refines R k k.closeAllProcessFds := refines_foldl_close sched _ fun d _ => allowed d
    exact closed.trans (refines_exitCurrent closed.sched next (.inr fun d inside => closeAll_closed k inside))
  unfold finishUserTask
  unfold taskFinished at allowed ⊢
  dsimp only at allowed ⊢
  by_cases others : k.groupHasOthers k.current = true
  · rw [if_pos others] at allowed ⊢
    split
    · exact refines_exitCurrent sched next (.inl others)
    next fatal =>
    rw [if_neg fatal] at allowed
    have ended := refines_exitGroup (R := R) sched code
    refine ended.trans (finish ended.sched ?_)
    obtain ⟨group, fds⟩ := exitGroup_table sched code
    rw [group, fds]
    exact allowed rfl
  · rw [if_neg others] at allowed ⊢
    exact finish sched (allowed rfl)

theorem refines_common (sched : Sched k) (call : Common)
    (allowed : ∀ d, k.closes call d → (k.fds d).isOpen = true → R k.currentGroup d (k.fds d)) : Refines R k (k.common call) := by
  cases call with
  | dup descriptor minimum closeOnExec => exact refines_duplicateProcessFd sched descriptor minimum closeOnExec
  | dup2 descriptor target =>
    simp only [common, linuxDup2]
    split
    · exact .refl sched
    split
    · exact .refl sched
    · next apart => exact refines_duplicateExact sched apart false (allowed target ⟨rfl, apart⟩)
  | dup3 descriptor target closeOnExec =>
    simp only [common, linuxDup3]
    split
    · exact .refl sched
    · next apart => exact refines_duplicateExact sched apart closeOnExec (allowed target ⟨rfl, apart⟩)
  | close descriptor => exact refines_linuxClose sched descriptor (allowed descriptor rfl)
  | start => exact refines_startUserTask sched
  | fork copied => exact refines_fork sched copied
  | clone copied => exact refines_clone sched copied
  | exec alone => exact refines_exec sched alone fun d isOpen marked => allowed d marked isOpen
  | exit code next => exact refines_finishUserTask sched code next fun finished d => allowed d finished
  | exitGroup code next =>
    have ended := refines_exitGroup (R := R) sched code
    refine ended.trans (refines_finishUserTask ended.sched code next fun finished d => ?_)
    obtain ⟨group, fds⟩ := exitGroup_table sched code
    rw [group, fds]
    exact allowed d finished
  | switch next stays => exact refines_switchTo sched next stays
  | reap slot => exact refines_reap sched slot

variable {ps : Processes} {table : Table} {P : ProcessFd → Prop}
variable {descriptor index : Nat} {fd : ProcessFd}

theorem some_update (new : Table) :
    Processes.Some (update ps process (some new)) P ↔ (∃ d < processFdCount, P (new d)) ∨ Elsewhere ps process P := by
  rw [some_iff (update_self process (some new) ps)]
  refine or_congr_right (exists_congr fun _ => exists_congr fun _ => and_congr_right fun apart => ?_)
  rw [update_of_ne apart]

theorem some_update_none : Processes.Some (update ps process none) P ↔ Elsewhere ps process P := by
  constructor
  · rintro ⟨other, table', found, holds⟩
    have apart : other ≠ process := by
      rintro rfl
      rw [update_self] at found
      cases found
    rw [update_of_ne apart] at found
    exact ⟨other, table', apart, found, holds⟩
  · rintro ⟨other, table', apart, found, holds⟩
    exact ⟨other, table', by rwa [update_of_ne apart], holds⟩

theorem elsewhere_absent (absent : ps process = none) : Elsewhere ps process P ↔ ps.Some P := by
  constructor
  · rintro ⟨other, table', -, found, holds⟩
    exact ⟨other, table', found, holds⟩
  rintro ⟨other, table', found, holds⟩
  refine ⟨other, table', ?_, found, holds⟩
  rintro rfl
  rw [absent] at found
  cases found

structure Describes (P : ProcessFd → Prop) : Prop where
  isOpen : ∀ fd, P fd → fd.isOpen = true
  copies : ∀ fd closeOnExec, P { fd with closeOnExec } ↔ P fd

theorem Describes.closed (describes : Describes P) : ¬ P {} := fun h => Bool.noConfusion (describes.isOpen _ h)

theorem Describes.not_closed (describes : Describes P) (closed : fd.isOpen = false) : ¬ P fd := by
  intro holds
  rw [describes.isOpen _ holds] at closed
  cases closed

section
variable (here : ps process = some table)
include here

theorem some_of_set (left : Processes.Some (update ps process (some (update table index fd))) P) : P fd ∨ ps.Some P := by
  rw [some_update] at left
  rw [some_iff here, ← or_assoc]
  refine left.imp_left ?_
  rintro ⟨d, inside, holds⟩
  by_cases at_ : d = index
  · rw [at_, update_self] at holds
    exact .inl holds
  rw [update_of_ne at_] at holds
  exact .inr ⟨d, inside, holds⟩

theorem some_set (other : ¬ P (table index)) :
    ps.Some P → Processes.Some (update ps process (some (update table index fd))) P := by
  rw [some_update, some_iff here]
  refine Or.imp_left ?_
  rintro ⟨d, insideD, holds⟩
  refine ⟨d, insideD, ?_⟩
  rw [update_of_ne]
  · exact holds
  · rintro rfl
    exact other holds

end

section Moves
variable (describes : Describes P)
include describes

section
variable (here : ps process = some table)
include here

theorem some_copy {source target : Nat} (inside : source < processFdCount)
    (free : (table target).isOpen = false) (closeOnExec : Bool) :
    Processes.Some (update ps process (some (update table target { table source with closeOnExec }))) P ↔ ps.Some P := by
  refine ⟨fun left => ?_, some_set here (describes.not_closed free)⟩
  rcases some_of_set here left with copied | old
  · exact ⟨process, table, here, source, inside, (describes.copies _ _).mp copied⟩
  · exact old

theorem some_of_emptied (left : Processes.Some (update ps process (some (update table descriptor {}))) P) : ps.Some P :=
  (some_of_set here left).resolve_left describes.closed

theorem some_install (inside : index < processFdCount) (free : (table index).isOpen = false) (fd : ProcessFd) :
    Processes.Some (update ps process (some (update table index fd))) P ↔ P fd ∨ ps.Some P := by
  refine ⟨some_of_set here, ?_⟩
  rintro (holds | old)
  · exact ⟨process, _, update_self _ _ _, index, inside, by rwa [update_self]⟩
  · exact some_set here (describes.not_closed free) old

theorem some_closed {new : Table} (same : ∀ d, new d = table d ∨ new d = {} ∧ (table d).isOpen = false) :
    Processes.Some (update ps process (some new)) P ↔ ps.Some P := by
  rw [some_update, some_iff here]
  refine or_congr_left (exists_congr fun d => and_congr_right fun _ => ?_)
  rcases same d with same | ⟨empty, closed⟩
  · rw [same]
  rw [empty]
  exact iff_of_false describes.closed (describes.not_closed closed)

end

omit describes in
theorem some_fork (here : ps process = some table) {child : Nat} (absent : ps child = none) :
    Processes.Some (update ps child (some table)) P ↔ ps.Some P := by
  rw [some_update, elsewhere_absent absent]
  refine ⟨fun h => h.elim (fun holds => ⟨process, table, here, holds⟩) id, Or.inr⟩

omit describes in
theorem some_start (absent : ps process = none) (none : ∀ d < processFdCount, ¬ P (initialProcessFds d)) :
    Processes.Some (update ps process (some initialProcessFds)) P ↔ ps.Some P := by
  rw [some_update, elsewhere_absent absent]
  refine or_iff_right ?_
  rintro ⟨d, insideD, holds⟩
  exact none d insideD holds

theorem some_finish (here : ps process = some table) (closed : ∀ d < processFdCount, (table d).isOpen = false) :
    Processes.Some (update ps process none) P ↔ ps.Some P := by
  rw [some_update_none, some_iff here]
  refine (or_iff_right ?_).symm
  rintro ⟨d, insideD, holds⟩
  exact describes.not_closed (closed d insideD) holds

end Moves

def Every (ps : Processes) (Q : ProcessFd → Prop) : Prop :=
  ∀ process table, ps process = some table → ∀ d, Q (table d)

theorem every_update (every : Every ps Q) {new : Option Table}
    (h : ∀ table, new = some table → ∀ d, Q (table d)) : Every (update ps process new) Q := by
  intro other table found
  by_cases own : other = process
  · subst own
    rw [update_self] at found
    exact h table found
  · rw [update_of_ne own] at found
    exact every other table found

theorem every_table (every : Every ps Q) (h : ∀ d, Q (table d)) : Every (update ps process (some table)) Q :=
  every_update every fun _ found => Option.some.inj found ▸ h

theorem every_set {Q : ProcessFd → Prop} (every : Every ps Q) (here : ps process = some table) {fd : ProcessFd} (ok : Q fd) :
    Every (update ps process (some (update table index fd))) Q := by
  refine every_table every fun d => ?_
  by_cases at_ : d = index
  · rw [at_, update_self]
    exact ok
  · rw [update_of_ne at_]
    exact every process table here d

theorem every_move {R : Nat → Nat → ProcessFd → Prop} {s s' : System}
    (every : Every s.processes Q) (move : Move R s s')
    (empty : Q {}) (console : ∀ d, Q (initialProcessFds d)) (copies : ∀ fd closeOnExec, Q fd → Q { fd with closeOnExec }) :
    Every s'.processes Q := by
  cases move with
  | copy here inside isOpen _ closeOnExec => exact every_set every here (copies _ closeOnExec (every _ _ here _))
  | drop here | release here => exact every_set every here empty
  | start absent => exact every_table every console
  | fork here absent => exact every_table every (every _ _ here)
  | finish here _ => exact every_update every fun new found => by cases found

theorem install_cases {k : Kernel} {limit : Nat} {fd : ProcessFd} {k' : Kernel}
    (h : k.installProcessFd limit fd = some (index, k')) :
    index < processFdCount ∧ (k.fds index).isOpen = false ∧ k' = k.setFd index { fd with isOpen := true } := by
  unfold installProcessFd at h
  split at h
  · cases h
  next found =>
  split at h
  · cases h
  obtain ⟨rfl, rfl⟩ := h
  obtain ⟨inside, free⟩ := position_some found
  exact ⟨inside, by simpa using free, rfl⟩

theorem processes_boot {process : Nat} {table : Table} (h : boot.processes process = some table) :
    table = initialProcessFds := by
  obtain ⟨-, rfl⟩ := processes_eq_some.mp h
  unfold tableOf
  split
  · rfl
  · simp only [boot]
    split <;> rfl

end AerOS.Proof.Descriptors
