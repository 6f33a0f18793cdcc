import AerOS.Spec.Descriptors

namespace AerOS.Proof.Descriptors
open AerOS.Descriptors Function List Kernel

variable {k k' : Kernel}
variable {count i process : Nat} {free : Nat → Bool} {task : Task}

theorem position_some (h : position count free = some i) : i < count ∧ free i = true :=
  ⟨mem_range.mp (mem_of_find?_eq_some h), find?_some h⟩

theorem position_eq (inside : i < count) (ok : free i = true)
    (only : ∀ j < count, free j = true → j = i) : position count free = some i := by
  cases found : position count free with
  | none => simpa [ok] using find?_eq_none.mp found _ (mem_range.mpr inside)
  | some j =>
    obtain ⟨inside', ok'⟩ := position_some found
    rw [only j inside' ok']

structure Sched (k : Kernel) : Prop where
  inside : k.current < maxTasks
  running : (k.tasks k.current).live = true
  unique : ∀ i < maxTasks, ∀ j < maxTasks, (k.tasks i).state ≠ .empty → (k.tasks j).state ≠ .empty →
    (k.tasks i).id = (k.tasks j).id → i = j
  leader : ∀ i < maxTasks, (k.tasks i).live = true →
    ∃ j < maxTasks, (k.tasks j).state ≠ .empty ∧ (k.tasks j).id = k.group i ∧ (k.tasks j).leads = true
  fresh : ∀ i < maxTasks, (k.tasks i).state ≠ .empty → (k.tasks i).id < k.nextId

theorem sched_boot : Sched boot := by
  have only : ∀ i, (boot.tasks i).state ≠ .empty → i = 0 := by
    intro i some
    by_contra other
    simp [boot, other] at some
  refine ⟨by decide, by decide, ?_, ?_, ?_⟩
  · intro i _ j _ hi hj _
    rw [only i hi, only j hj]
  · intro i _ live
    have : i = 0 := only i (by intro empty; simp [Task.live, empty] at live)
    subst this
    exact ⟨0, by decide, by decide, by decide, by decide⟩
  · intro i _ some
    rw [only i some]
    decide

theorem live_nonempty (h : task.live = true) : task.state ≠ .empty := by
  intro empty
  simp [Task.live, empty] at h

theorem group_of_leads (h : task.leads = true) : task.group = task.id := by
  unfold Task.leads at h
  unfold Task.group
  split
  · rfl
  · simp_all

theorem group_congr (id : (k'.tasks i).id = (k.tasks i).id) (tgid : (k'.tasks i).tgid = (k.tasks i).tgid) :
    k'.group i = k.group i := by
  unfold Kernel.group Task.group
  rw [id, tgid]

theorem groupLive_iff :
    k.groupLive process = true ↔ ∃ i < maxTasks, (k.tasks i).live = true ∧ k.group i = process := by
  simp [groupLive]

theorem Sched.groupLive_current (sched : Sched k) : k.groupLive k.currentGroup = true :=
  groupLive_iff.mpr ⟨k.current, sched.inside, sched.running, rfl⟩

theorem Sched.leaderOf_eq (sched : Sched k) (inside : i < maxTasks) (some : (k.tasks i).state ≠ .empty) :
    k.leaderOf (k.tasks i).id = i := by
  unfold leaderOf
  rw [position_eq inside (by simpa using some)]
  · rfl
  intro j inside' found
  simp only [Bool.and_eq_true, beq_iff_eq, bne_iff_ne] at found
  exact sched.unique j inside' i inside found.2 some found.1

theorem Sched.leaderOf_live (sched : Sched k) (live : k.groupLive process = true) :
    k.leaderOf process < maxTasks ∧ (k.tasks (k.leaderOf process)).state ≠ .empty ∧
      (k.tasks (k.leaderOf process)).id = process ∧ (k.tasks (k.leaderOf process)).leads = true := by
  obtain ⟨i, inside, alive, rfl⟩ := groupLive_iff.mp live
  obtain ⟨j, inside', some, id, leads⟩ := sched.leader i inside alive
  rw [← id, sched.leaderOf_eq inside' some]
  exact ⟨inside', some, rfl, leads⟩

theorem Sched.leaderSlot_eq (sched : Sched k) (live : k.groupLive (k.group i) = true) :
    k.leaderSlot i = k.leaderOf (k.group i) := by
  obtain ⟨inside, some, id, -⟩ := sched.leaderOf_live live
  have found : position maxTasks (fun j => (k.tasks j).id == k.group i && (k.tasks j).state != .empty) =
      Option.some (k.leaderOf (k.group i)) := by
    apply position_eq inside
    · simp [id, some]
    intro j insideJ found
    simp only [Bool.and_eq_true, beq_iff_eq, bne_iff_ne] at found
    exact sched.unique j insideJ _ inside found.2 some (found.1.trans id.symm)
  unfold leaderSlot
  rw [found]
  rfl

theorem processes_eq_some {table : Table} :
    k.processes process = some table ↔ k.groupLive process = true ∧ table = k.tableOf process := by
  unfold processes
  split
  · next live => exact ⟨fun found => ⟨live, (Option.some.inj found).symm⟩, fun found => congrArg some found.2.symm⟩
  · next dead => exact ⟨by simp, fun found => absurd found.1 dead⟩

theorem processes_eq_none : k.processes process = none ↔ k.groupLive process = false := by
  simp [processes]

theorem processes_congr (same : k'.groupLive process = k.groupLive process)
    (table : k.groupLive process = true → k'.tableOf process = k.tableOf process) : k'.processes process = k.processes process := by
  unfold processes
  rw [same]
  split
  · next live => rw [table live]
  · rfl

theorem Sched.processes_current (sched : Sched k) : k.processes k.currentGroup = some k.fds :=
  processes_eq_some.mpr ⟨sched.groupLive_current, by simp [tableOf]⟩

theorem Sched.anyOtherTaskSharesFd_iff (sched : Sched k) (test : ProcessFd → Bool) :
    k.anyOtherTaskSharesFd test = true ↔ ∃ process table, process ≠ k.currentGroup ∧ k.processes process = some table ∧
      ∃ d < processFdCount, test (table d) = true := by
  simp only [anyOtherTaskSharesFd, any_eq_true, mem_range, Bool.and_eq_true, Bool.or_eq_true, bne_iff_ne]
  constructor
  · rintro ⟨i, inside, ⟨⟨⟨leads, some⟩, other⟩, alive⟩, d, insideD, ok⟩
    have own : k.group i = (k.tasks i).id := group_of_leads leads
    have live : k.groupLive (k.tasks i).id = true := by
      rcases alive with alive | alive
      · refine groupLive_iff.mpr ⟨i, inside, ?_, own⟩
        cases state : (k.tasks i).state <;> simp_all [Task.live]
      · exact alive
    rw [own] at other
    refine ⟨(k.tasks i).id, (k.tasks i).fds, other, processes_eq_some.mpr ⟨live, ?_⟩, d, insideD, ok⟩
    rw [tableOf, if_neg other, sched.leaderOf_eq inside some]
  · rintro ⟨process, table, other, found, d, insideD, ok⟩
    obtain ⟨live, rfl⟩ := processes_eq_some.mp found
    obtain ⟨inside, some, id, leads⟩ := sched.leaderOf_live live
    rw [tableOf, if_neg other] at ok
    have own : k.group (k.leaderOf process) = process := (group_of_leads leads).trans id
    exact ⟨_, inside, ⟨⟨⟨leads, some⟩, by rwa [own]⟩, .inr (by rwa [id])⟩, d, insideD, ok⟩

structure Narrows (k k' : Kernel) : Prop where
  kept : ∀ i < maxTasks, (k'.tasks i).state ≠ .empty → (k.tasks i).state ≠ .empty ∧
    (k'.tasks i).id = (k.tasks i).id ∧ (k'.tasks i).tgid = (k.tasks i).tgid
  live : ∀ i < maxTasks, (k'.tasks i).live = true → (k.tasks i).live = true
  starters : ∀ process, k'.groupLive process = true → (k'.tasks (k.leaderOf process)).state ≠ .empty
  nextId : k'.nextId = k.nextId
  inside : k'.current < maxTasks
  running : (k'.tasks k'.current).live = true

section
variable (narrows : Narrows k k')
include narrows

theorem Narrows.group {i : Nat} (inside : i < maxTasks) (some : (k'.tasks i).state ≠ .empty) :
    k'.group i = k.group i :=
  group_congr (narrows.kept i inside some).2.1 (narrows.kept i inside some).2.2

theorem Narrows.groupLive {process : Nat} (live : k'.groupLive process = true) :
    k.groupLive process = true := by
  obtain ⟨i, inside, runs, rfl⟩ := groupLive_iff.mp live
  exact groupLive_iff.mpr ⟨i, inside, narrows.live i inside runs, (narrows.group inside (live_nonempty runs)).symm⟩

theorem Narrows.sched (sched : Sched k) : Sched k' := by
  refine ⟨narrows.inside, narrows.running, ?_, ?_, ?_⟩
  · intro i insideI j insideJ someI someJ id
    obtain ⟨oldI, idI, -⟩ := narrows.kept i insideI someI
    obtain ⟨oldJ, idJ, -⟩ := narrows.kept j insideJ someJ
    exact sched.unique i insideI j insideJ oldI oldJ (idI.symm.trans (id.trans idJ))
  · intro i insideI live
    have found : k'.groupLive (k'.group i) = true := groupLive_iff.mpr ⟨i, insideI, live, rfl⟩
    obtain ⟨inside, -, id, leads⟩ := sched.leaderOf_live (narrows.groupLive found)
    have some := narrows.starters _ found
    obtain ⟨-, id', tgid⟩ := narrows.kept _ inside some
    refine ⟨_, inside, some, id'.trans id, ?_⟩
    unfold Task.leads at leads ⊢
    rw [id', tgid, leads]
  · intro i insideI some
    obtain ⟨old, id, -⟩ := narrows.kept i insideI some
    rw [id, narrows.nextId]
    exact sched.fresh i insideI old

theorem Narrows.leaderOf (sched : Sched k) {process : Nat} (live : k'.groupLive process = true) :
    k'.leaderOf process = k.leaderOf process := by
  obtain ⟨inside, -, id, -⟩ := sched.leaderOf_live (narrows.groupLive live)
  have some := narrows.starters process live
  have found := (narrows.sched sched).leaderOf_eq inside some
  rwa [(narrows.kept _ inside some).2.1, id] at found

end

theorem Narrows.of_kept (sched : Sched k)
    (fields : ∀ i < maxTasks, (k'.tasks i).id = (k.tasks i).id ∧ (k'.tasks i).tgid = (k.tasks i).tgid ∧
      ((k'.tasks i).state = .empty ↔ (k.tasks i).state = .empty))
    (live : ∀ i < maxTasks, (k'.tasks i).live = true → (k.tasks i).live = true) (nextId : k'.nextId = k.nextId)
    (inside : k'.current < maxTasks) (running : (k'.tasks k'.current).live = true) : Narrows k k' := by
  refine ⟨fun i inside some => ?_, live, fun _ alive => ?_, nextId, inside, running⟩
  · obtain ⟨id, tgid, empty⟩ := fields i inside
    exact ⟨fun e => some (empty.mpr e), id, tgid⟩
  obtain ⟨i, inside, runs, rfl⟩ := groupLive_iff.mp alive
  have group : k'.group i = k.group i := group_congr (fields i inside).1 (fields i inside).2.1
  have found : k.groupLive (k'.group i) = true := groupLive_iff.mpr ⟨i, inside, live i inside runs, group.symm⟩
  obtain ⟨insideL, some, -⟩ := sched.leaderOf_live found
  exact fun e => some ((fields _ insideL).2.2.mp e)

theorem Narrows.processes (narrows : Narrows k k') (sched : Sched k)
    (alive : ∀ process, k.groupLive process = true → k'.groupLive process = true)
    (tables : ∀ i < maxTasks, (k'.tasks i).state ≠ .empty → (k'.tasks i).fds = (k.tasks i).fds)
    (current : k'.current = k.current) (fds : k'.fds = k.fds) : k'.processes = k.processes := by
  have group : k'.currentGroup = k.currentGroup := by
    rw [Kernel.currentGroup, narrows.group narrows.inside (live_nonempty narrows.running), current, Kernel.currentGroup]
  refine funext fun process => processes_congr (Bool.eq_iff_iff.mpr ⟨narrows.groupLive, alive process⟩) fun live => ?_
  have live' := alive process live
  unfold Kernel.tableOf
  rw [group, fds, narrows.leaderOf sched live', tables _ (sched.leaderOf_live live).1 (narrows.starters process live')]

structure SameTasks (k k' : Kernel) : Prop where
  live : ∀ i < maxTasks, (k'.tasks i).live = (k.tasks i).live
  id : ∀ i < maxTasks, (k'.tasks i).id = (k.tasks i).id
  tgid : ∀ i < maxTasks, (k'.tasks i).tgid = (k.tasks i).tgid
  empty : ∀ i < maxTasks, ((k'.tasks i).state = .empty ↔ (k.tasks i).state = .empty)
  nextId : k'.nextId = k.nextId

theorem SameTasks.group (same : SameTasks k k') (inside : i < maxTasks) : k'.group i = k.group i :=
  group_congr (same.id i inside) (same.tgid i inside)

theorem SameTasks.groupLive (same : SameTasks k k') (process : Nat) : k'.groupLive process = k.groupLive process := by
  rw [Bool.eq_iff_iff, groupLive_iff, groupLive_iff]
  constructor
  · rintro ⟨i, inside, live, rfl⟩
    exact ⟨i, inside, (same.live i inside).symm.trans live, (same.group inside).symm⟩
  rintro ⟨i, inside, live, rfl⟩
  exact ⟨i, inside, (same.live i inside).trans live, same.group inside⟩

theorem SameTasks.narrows (same : SameTasks k k') (sched : Sched k) (inside : k'.current < maxTasks)
    (running : (k'.tasks k'.current).live = true) : Narrows k k' :=
  .of_kept sched (fun i h => ⟨same.id i h, same.tgid i h, same.empty i h⟩)
    (fun i h live => (same.live i h).symm.trans live) same.nextId inside running

theorem SameTasks.processes (same : SameTasks k k')
    (tables : ∀ process, k.groupLive process = true → k'.tableOf process = k.tableOf process) :
    k'.processes = k.processes := funext fun process => processes_congr (same.groupLive process) (tables process)

variable {R : Nat → Nat → ProcessFd → Prop}
variable {descriptor source target : Nat}
variable {fd : ProcessFd}

structure Refines (R : Nat → Nat → ProcessFd → Prop) (k k' : Kernel) : Prop where
  sched : Sched k'
  moves : Moves R k.system k'.system

theorem Refines.refl (sched : Sched k) : Refines R k k := ⟨sched, .refl⟩

theorem Refines.trans {k₁ k₂ k₃ : Kernel} (first : Refines R k₁ k₂) (second : Refines R k₂ k₃) : Refines R k₁ k₃ :=
  ⟨second.sched, first.moves.trans second.moves⟩

theorem Refines.of_same (sched : Sched k') (processes : k'.processes = k.processes) (objects : k'.objects = k.objects) :
    Refines R k k' := by
  refine ⟨sched, ?_⟩
  have same : k'.system = k.system := by rw [system, processes, objects, system]
  rw [same]
  exact .refl

theorem Refines.of_move (sched : Sched k') (move : Move R k.system k'.system) : Refines R k k' := ⟨sched, .single move⟩

section
variable (sched : Sched k)
include sched

theorem processes_withFds (table : Table) :
    { k with fds := table }.processes = update k.processes k.currentGroup (some table) := by
  funext process
  by_cases own : process = k.currentGroup
  · subst own
    rw [update_self]
    exact processes_eq_some.mpr ⟨sched.groupLive_current, (if_pos rfl).symm⟩
  rw [update_of_ne own]
  refine processes_congr rfl fun _ => ?_
  rw [tableOf, tableOf, if_neg own]
  exact if_neg own

theorem sched_with (table : Table) (objects : Objects) : Sched { k with fds := table, objects } :=
  ⟨sched.inside, sched.running, sched.unique, sched.leader, sched.fresh⟩

theorem system_with (table : Table) (objects : Objects) :
    { k with fds := table, objects }.system = ⟨update k.processes k.currentGroup (some table), objects⟩ :=
  congrArg (System.mk · objects) (processes_withFds sched table)

theorem system_setFd (index : Nat) (fd : ProcessFd) :
    (k.setFd index fd).system = k.system.set k.currentGroup (some (update k.fds index fd)) := by
  unfold system System.set
  rw [setFd, processes_withFds sched]

theorem sched_setFd (index : Nat) (fd : ProcessFd) : Sched (k.setFd index fd) :=
  ⟨sched.inside, sched.running, sched.unique, sched.leader, sched.fresh⟩

end

theorem system_release (fd : ProcessFd) :
    (k.releaseProcessFd fd).2.system = { k.system with objects := (k.objects.releaseProcessFd fd).2 } := rfl

def Elsewhere (ps : Processes) (process : Nat) (P : ProcessFd → Prop) : Prop :=
  ∃ other table, other ≠ process ∧ ps other = some table ∧ ∃ d < processFdCount, P (table d)

theorem some_iff {ps : Processes} {table : Table} {P : ProcessFd → Prop} (here : ps process = some table) : ps.Some P ↔ (∃ d < processFdCount, P (table d)) ∨ Elsewhere ps process P := by
  constructor
  · rintro ⟨other, table', found, holds⟩
    by_cases own : other = process
    · subst own
      obtain rfl := Option.mem_unique found here
      exact .inl holds
    · exact .inr ⟨other, table', own, found, holds⟩
  · rintro (holds | ⟨other, table', -, found, holds⟩)
    · exact ⟨process, table, here, holds⟩
    · exact ⟨other, table', found, holds⟩

theorem Sched.last_iff (sched : Sched k) :
    (countsReferences fd && !k.sharedHere fd && !k.sharedElsewhere fd) = true ↔ k.processes.Last fd := by
  have here : k.sharedHere fd = true ↔ ∃ d < processFdCount, sameOpenDescription (k.fds d) fd = true := by
    simp [sharedHere]
  have elsewhere := sched.anyOtherTaskSharesFd_iff fun candidate => sameOpenDescription candidate fd
  have search : k.processes.Some (fun other => sameOpenDescription other fd = true) ↔
      k.sharedHere fd = true ∨ k.sharedElsewhere fd = true := by
    rw [here, sharedElsewhere, elsewhere]
    exact some_iff sched.processes_current
  unfold Processes.Last
  rw [search]
  simp [and_assoc]

theorem refines_linuxClose (sched : Sched k) (descriptor : Nat)
    (allowed : (k.fds descriptor).isOpen = true → R k.currentGroup descriptor (k.fds descriptor)) :
    Refines R k (k.linuxClose descriptor).2 := by
  unfold linuxClose removeProcessFd
  by_cases h : descriptor < processFdCount ∧ (k.fds descriptor).isOpen = true
  · obtain ⟨inside, isOpen⟩ := h
    rw [if_pos ⟨inside, isOpen⟩]
    have emptied := sched_setFd sched descriptor {}
    have after := system_setFd sched descriptor {}
    have processes := congrArg System.processes after
    dsimp only
    split
    · next last =>
      refine .of_move ⟨emptied.inside, emptied.running, emptied.unique, emptied.leader, emptied.fresh⟩ ?_
      rw [system_release, after]
      have last := emptied.last_iff.mp last
      rw [show (k.setFd descriptor {}).processes = _ from processes] at last
      exact .release sched.processes_current inside isOpen (allowed isOpen) last
    next shared =>
    refine .of_move emptied ?_
    rw [after]
    have shared := mt emptied.last_iff.mpr shared
    rw [show (k.setFd descriptor {}).processes = _ from processes] at shared
    exact .drop sched.processes_current inside isOpen (allowed isOpen) shared
  · rw [if_neg h]
    exact .refl sched

theorem lookup_some (h : k.lookupProcessFd descriptor = some fd) :
    descriptor < processFdCount ∧ (k.fds descriptor).isOpen = true ∧ fd = k.fds descriptor := by
  unfold lookupProcessFd at h
  split at h
  · next ok => exact ⟨ok.1, ok.2, (Option.some.inj h).symm⟩
  · cases h

theorem refines_copy (sched : Sched k) (inside : source < processFdCount)
    (isOpen : (k.fds source).isOpen = true) (free : (k.fds target).isOpen = false) (closeOnExec : Bool) :
    Refines R k (k.setFd target { k.fds source with closeOnExec }) := by
  refine .of_move (sched_setFd sched _ _) ?_
  rw [system_setFd sched]
  exact .copy sched.processes_current inside isOpen free closeOnExec

theorem refines_duplicateProcessFd (sched : Sched k) (descriptor minimum : Nat) (closeOnExec : Bool) :
    Refines R k (k.duplicateProcessFd descriptor minimum closeOnExec).2 := by
  unfold duplicateProcessFd
  split
  · exact .refl sched
  cases looked : k.lookupProcessFd descriptor with
  | none => exact .refl sched
  | some _ =>
    obtain ⟨inside, isOpen, rfl⟩ := lookup_some looked
    dsimp only
    split
    · exact .refl sched
    next _ found =>
    obtain ⟨-, free⟩ := position_some found
    simp only [Bool.and_eq_true, Bool.not_eq_true'] at free
    exact refines_copy sched inside isOpen free.2 closeOnExec

theorem sharedHere_copy (inside : source < processFdCount) (apart : source ≠ target)
    (closeOnExec : Bool) (fd : ProcessFd) :
    (k.setFd target { k.fds source with closeOnExec }).sharedHere fd = (k.setFd target {}).sharedHere fd := by
  rw [Bool.eq_iff_iff]
  simp only [sharedHere, setFd, any_eq_true, mem_range]
  constructor
  · rintro ⟨d, insideD, shares⟩
    by_cases here : d = target
    · subst here
      rw [update_self] at shares
      refine ⟨source, inside, ?_⟩
      rw [update_of_ne apart]
      exact shares
    · refine ⟨d, insideD, ?_⟩
      rw [update_of_ne here] at shares ⊢
      exact shares
  · rintro ⟨d, insideD, shares⟩
    by_cases here : d = target
    · subst here
      simp [sameOpenDescription] at shares
    refine ⟨d, insideD, ?_⟩
    rw [update_of_ne here] at shares ⊢
    exact shares

theorem duplicateExact_eq (inside : source < processFdCount) (insideT : target < processFdCount)
    (isOpen : (k.fds source).isOpen = true) (apart : source ≠ target) (closeOnExec : Bool) :
    (k.duplicateProcessFdExact source target closeOnExec).2 =
      (k.linuxClose target).2.setFd target { k.fds source with closeOnExec } := by
  have looked : k.lookupProcessFd source = some (k.fds source) := if_pos ⟨inside, isOpen⟩
  have here := sharedHere_copy (k := k) inside apart closeOnExec (k.fds target)
  unfold duplicateProcessFdExact linuxClose removeProcessFd
  rw [if_neg (by omega), looked]
  dsimp only
  rw [here]
  have elsewhere : (k.setFd target { k.fds source with closeOnExec }).sharedElsewhere (k.fds target) =
      (k.setFd target {}).sharedElsewhere (k.fds target) := rfl
  rw [elsewhere]
  have twice : ∀ fd, (k.setFd target {}).setFd target fd = k.setFd target fd := by
    intro fd
    simp [setFd]
  by_cases previous : (k.fds target).isOpen = true
  · rw [if_pos (show target < processFdCount ∧ (k.fds target).isOpen = true from ⟨insideT, previous⟩), previous,
      Bool.true_and]
    dsimp only
    split
    · exact congrArg (mk · k.tasks k.current k.nextId _) (congrArg fds (twice _)).symm
    · exact (twice _).symm
  · rw [if_neg (show ¬ (target < processFdCount ∧ (k.fds target).isOpen = true) from fun h => previous h.2),
      Bool.eq_false_iff.mpr previous]
    rfl

theorem linuxClose_cases (k : Kernel) (descriptor : Nat) :
    ¬ (descriptor < processFdCount ∧ (k.fds descriptor).isOpen = true) ∧ (k.linuxClose descriptor).2 = k ∨
      ∃ objects, (k.linuxClose descriptor).2 = { k with fds := update k.fds descriptor {}, objects } := by
  unfold linuxClose removeProcessFd
  split_ifs with isOpen
  · dsimp only
    split <;> exact .inr ⟨_, rfl⟩
  · exact .inl ⟨isOpen, rfl⟩

theorem linuxClose_closed (k : Kernel) (descriptor : Nat) (inside : descriptor < processFdCount) :
    ((k.linuxClose descriptor).2.fds descriptor).isOpen = false := by
  rcases linuxClose_cases k descriptor with ⟨closed, same⟩ | ⟨_, after⟩
  · rw [same]
    exact Bool.eq_false_iff.mpr fun isOpen => closed ⟨inside, isOpen⟩
  · simp [after]

theorem linuxClose_self (k : Kernel) (descriptor : Nat) :
    (k.linuxClose descriptor).2.fds descriptor = k.fds descriptor ∨
      ((k.linuxClose descriptor).2.fds descriptor).isOpen = false := by
  rcases linuxClose_cases k descriptor with ⟨-, same⟩ | ⟨_, after⟩
  · exact .inl (by rw [same])
  · exact .inr (by simp [after])

theorem linuxClose_currentGroup (k : Kernel) (descriptor : Nat) :
    (k.linuxClose descriptor).2.currentGroup = k.currentGroup := by
  rcases linuxClose_cases k descriptor with ⟨-, same⟩ | ⟨_, after⟩
  · rw [same]
  · rw [after]
    rfl

theorem linuxClose_other (k : Kernel) {other : Nat} (apart : other ≠ descriptor) :
    (k.linuxClose descriptor).2.fds other = k.fds other := by
  rcases linuxClose_cases k descriptor with ⟨-, same⟩ | ⟨_, after⟩
  · rw [same]
  · rw [after]
    exact update_of_ne apart _ _

theorem refines_duplicateExact (sched : Sched k) (apart : descriptor ≠ target) (closeOnExec : Bool)
    (allowed : (k.fds target).isOpen = true → R k.currentGroup target (k.fds target)) :
    Refines R k (k.duplicateProcessFdExact descriptor target closeOnExec).2 := by
  by_cases insideT : target < processFdCount
  · cases looked : k.lookupProcessFd descriptor with
    | none =>
      unfold duplicateProcessFdExact
      rw [if_neg (by omega), looked]
      exact .refl sched
    | some _ =>
      obtain ⟨inside, isOpen, rfl⟩ := lookup_some looked
      rw [duplicateExact_eq inside insideT isOpen apart, ← linuxClose_other k apart]
      have closed := refines_linuxClose sched target allowed
      apply closed.trans
      apply refines_copy closed.sched inside
      · rw [linuxClose_other k apart]
        exact isOpen
      · exact linuxClose_closed k target insideT
  · unfold duplicateProcessFdExact
    rw [if_pos (by omega)]
    exact .refl sched

theorem refines_foldl_close (sched : Sched k) (descriptors : List Nat)
    (allowed : ∀ d ∈ descriptors, (k.fds d).isOpen = true → R k.currentGroup d (k.fds d)) :
    Refines R k (descriptors.foldl closeFd k) := by
  induction descriptors generalizing k with
  | nil => exact .refl sched
  | cons d _ ih =>
    have closed := refines_linuxClose sched d (allowed d mem_cons_self)
    refine closed.trans (ih closed.sched fun d' mem isOpen => ?_)
    rw [linuxClose_currentGroup]
    by_cases apart : d' = d
    · subst apart
      rcases linuxClose_self k d' with same | closed
      · rw [same] at isOpen ⊢
        exact allowed d' mem_cons_self isOpen
      rw [closed] at isOpen
      cases isOpen
    · rw [linuxClose_other k apart] at isOpen ⊢
      exact allowed d' (mem_cons_of_mem d mem) isOpen

theorem foldl_close_closed {d : Nat} {descriptors : List Nat} (inside : d < processFdCount)
    (h : d ∈ descriptors ∨ (k.fds d).isOpen = false) : ((descriptors.foldl closeFd k).fds d).isOpen = false := by
  induction descriptors generalizing k with
  | nil => simpa using h
  | cons d' _ ih =>
    apply ih
    by_cases same : d = d'
    · subst same
      exact .inr (linuxClose_closed k d inside)
    rcases h with mem | closed
    · exact .inl ((mem_cons.mp mem).resolve_left same)
    right
    rw [closeFd, linuxClose_other k same]
    exact closed

end AerOS.Proof.Descriptors
