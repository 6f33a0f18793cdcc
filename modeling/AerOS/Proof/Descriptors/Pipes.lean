import AerOS.Proof.Descriptors.Scheduling
import AerOS.Spec.Pipes

namespace AerOS.Proof.Descriptors
open AerOS.Descriptors Function Kernel

variable {s s' : System} {k : Kernel} {slot : Nat} {R : Nat → Nat → ProcessFd → Prop}
variable {readable : Bool} {serial : Nat} {fd : ProcessFd}

def PipeFormed (fd : ProcessFd) : Prop :=
  fd.isOpen = true → fd.standard ≠ devicePtmx ∧ (fd.pipe = true → fd.standard = 0 ∧ fd.socket = false ∧ fd.epoll = false ∧
    fd.unixSocket = false ∧ fd.unixListener = false ∧ fd.tcp = false ∧ fd.handle < pipeCount ∧ fd.writable = !fd.readable)

theorem same_pipe_iff {other : ProcessFd} (formed : PipeFormed fd) (formed' : PipeFormed other) (isOpen : fd.isOpen = true)
    (isPipe : fd.pipe = true) : sameOpenDescription other fd = true ↔
      other.isOpen = true ∧ other.pipe = true ∧ other.readable = fd.readable ∧ other.handle = fd.handle := by
  obtain ⟨-, _⟩ := formed isOpen
  constructor
  · intro same
    simp only [sameOpenDescription, Bool.and_eq_true, beq_iff_eq, Bool.or_eq_true, Bool.not_eq_true', isPipe] at same
    obtain ⟨⟨⟨⟨⟨⟨⟨⟨⟨⟨⟨⟨isOpen', -⟩, -⟩, -⟩, -⟩, isPipe'⟩, -⟩, -⟩, -⟩, -⟩, handle⟩, readable⟩, -⟩ := same
    refine ⟨isOpen', isPipe', readable.resolve_left ?_, handle⟩
    simp [isPipe']
  rintro ⟨isOpen', isPipe', readable, handle⟩
  obtain ⟨-, _⟩ := formed' isOpen'
  simp [sameOpenDescription, *]

def Side (readable : Bool) (slot : Nat) : ProcessFd → Prop := if readable then ReadEnd slot else WriteEnd slot

def flag (readable : Bool) (pipe : Pipe) : Bool := if readable then pipe.readOpen else pipe.writeOpen

theorem side_describes (readable : Bool) : Describes (Side readable slot) := by
  cases readable <;> exact ⟨fun _ h => h.1, fun _ _ => Iff.rfl⟩

theorem side_iff (formed : PipeFormed fd) (readable : Bool) :
    Side readable slot fd ↔ fd.isOpen = true ∧ fd.pipe = true ∧ fd.readable = readable ∧ fd.handle = slot := by
  cases readable with
  | true => exact Iff.rfl
  | false =>
    refine and_congr_right fun isOpen => and_congr_right fun isPipe => and_congr_left fun _ => ?_
    obtain ⟨-, -, -, -, -, -, -, writable⟩ := (formed isOpen).2 isPipe
    rw [writable]
    cases fd.readable <;> simp

structure PipeInv (s : System) : Prop where
  formed : Every s.processes PipeFormed
  flags : ∀ slot < pipeCount, ∀ readable, flag readable (s.objects.pipes slot) = true ↔ s.processes.Some (Side readable slot)
  used : ∀ slot < pipeCount, (s.objects.pipes slot).used = true ↔
    (s.objects.pipes slot).readOpen = true ∨ (s.objects.pipes slot).writeOpen = true
  plain : ∀ slot < pipeCount, (s.objects.pipes slot).eofPending = 0 ∧ (s.objects.pipes slot).nowait = false

theorem releaseProcessFd_pipes {o : Objects} (terminal : fd.standard ≠ devicePtmx) (other : fd.pipe = false) :
    (o.releaseProcessFd fd).2.pipes = o.pipes := by
  unfold Objects.releaseProcessFd
  rw [if_neg terminal, if_neg (show ¬ fd.pipe = true by simp [other])]
  split_ifs
  · rfl
  · rfl
  · unfold Objects.releaseUnixSocket
    dsimp only
    split_ifs <;> rfl
  · unfold Objects.releaseUnixListener
    split_ifs <;> rfl
  · rfl

theorem releasePipe_spec {o : Objects} (formed : PipeFormed fd) (isOpen : fd.isOpen = true)
    (isPipe : fd.pipe = true) (used : (o.pipes fd.handle).used = true) :
    ∃ pipe : Pipe, (o.releaseProcessFd fd).2.pipes = update o.pipes fd.handle pipe ∧
      (∀ readable, flag readable pipe = (flag readable (o.pipes fd.handle) && decide (readable ≠ fd.readable))) ∧
      (pipe.used = true ↔ pipe.readOpen = true ∨ pipe.writeOpen = true) ∧
      (pipe.eofPending = 0 ∨ pipe.eofPending = (o.pipes fd.handle).eofPending) ∧
      (pipe.nowait = false ∨ pipe.nowait = (o.pipes fd.handle).nowait) := by
  obtain ⟨terminal, shape⟩ := formed isOpen
  obtain ⟨standard, socket, -, -, -, -, inside, writable⟩ := shape isPipe
  unfold Objects.releaseProcessFd
  rw [if_neg terminal, if_neg (by simp [standard]), if_neg (by simp [socket]), if_pos isPipe]
  unfold Objects.releasePipe
  rw [if_pos ⟨inside, used⟩, writable]
  refine ⟨_, rfl, ?_, ?_, ?_, ?_⟩
  · intro readable
    cases h : fd.readable <;> cases readable <;> cases r : (o.pipes fd.handle).readOpen <;>
      cases w : (o.pipes fd.handle).writeOpen <;> simp [flag, r, w]
  all_goals
    cases h : fd.readable <;> cases r : (o.pipes fd.handle).readOpen <;> cases w : (o.pipes fd.handle).writeOpen <;>
      simp [r, used]

theorem PipeInv.congr (inv : PipeInv s) (formed : Every s'.processes PipeFormed)
    (same : ∀ slot readable, s'.processes.Some (Side readable slot) ↔ s.processes.Some (Side readable slot))
    (pipes : s'.objects.pipes = s.objects.pipes) : PipeInv s' := by
  refine ⟨formed, fun slot inside readable => ?_, fun slot inside => ?_, fun slot inside => ?_⟩
  · rw [pipes, same]
    exact inv.flags slot inside readable
  · rw [pipes]
    exact inv.used slot inside
  · rw [pipes]
    exact inv.plain slot inside

theorem PipeInv.setPipe (inv : PipeInv s) {pipe : Pipe} (formed : Every s'.processes PipeFormed)
    (pipes : s'.objects.pipes = update s.objects.pipes slot pipe)
    (others : ∀ other readable, other ≠ slot → (s'.processes.Some (Side readable other) ↔ s.processes.Some (Side readable other)))
    (new : slot < pipeCount → (∀ readable, flag readable pipe = true ↔ s'.processes.Some (Side readable slot)) ∧
      (pipe.used = true ↔ pipe.readOpen = true ∨ pipe.writeOpen = true) ∧ pipe.eofPending = 0 ∧ pipe.nowait = false) :
    PipeInv s' := by
  refine ⟨formed, fun other inside readable => ?_, fun other inside => ?_, fun other inside => ?_⟩ <;> rw [pipes] <;>
    by_cases at_ : other = slot
  · subst at_
    rw [update_self]
    exact (new inside).1 readable
  · rw [update_of_ne at_, others other readable at_]
    exact inv.flags other inside readable
  · subst at_
    rw [update_self]
    exact (new inside).2.1
  · rw [update_of_ne at_]
    exact inv.used other inside
  · subst at_
    rw [update_self]
    exact (new inside).2.2
  · rw [update_of_ne at_]
    exact inv.plain other inside

theorem pipeFormed_empty : PipeFormed {} := by simp [PipeFormed]

theorem initialProcessFds_plain (d : Nat) : (initialProcessFds d).pipe = false ∧ (initialProcessFds d).standard ≠ devicePtmx := by
  unfold initialProcessFds
  split <;> decide

theorem pipeFormed_console (d : Nat) : PipeFormed (initialProcessFds d) := by
  obtain ⟨other, terminal⟩ := initialProcessFds_plain d
  intro _
  refine ⟨terminal, fun isPipe => ?_⟩
  rw [other] at isPipe
  cases isPipe

theorem side_console (readable : Bool) (d : Nat) : ¬ Side readable slot (initialProcessFds d) := by
  rw [side_iff (pipeFormed_console d)]
  rintro ⟨-, isPipe, -⟩
  rw [(initialProcessFds_plain d).1] at isPipe
  cases isPipe

theorem side_pipe (h : Side readable slot fd) : fd.pipe = true := by
  cases readable <;> exact h.2.1

theorem PipeInv.move (inv : PipeInv s) (move : Move R s s') : PipeInv s' := by
  have formed := every_move inv.formed move pipeFormed_empty pipeFormed_console fun _ _ h => h
  cases move with
  | copy here inside isOpen free closeOnExec =>
    exact inv.congr formed (fun slot readable => some_copy (side_describes readable) here inside free closeOnExec) rfl
  | start absent =>
    exact inv.congr formed (fun slot readable => some_start absent fun d _ => side_console readable d) rfl
  | fork here absent => exact inv.congr formed (fun slot readable => some_fork here absent) rfl
  | finish here closed =>
    exact inv.congr formed (fun slot readable => some_finish (side_describes readable) here closed) rfl
  | @drop process table here descriptor inside isOpen allowed shared =>
    refine inv.congr formed (fun slot readable => ⟨some_of_emptied (side_describes readable) here, fun old => ?_⟩) rfl
    by_cases isSide : Side readable slot (table descriptor)
    · -- another descriptor of the same end is left
      have fdFormed := inv.formed _ _ here descriptor
      obtain ⟨-, isPipe, readable', handle⟩ := (side_iff fdFormed readable).mp isSide
      have counted : countsReferences (table descriptor) = true := by
        simp [countsReferences, ((fdFormed isOpen).2 isPipe).1]
      obtain ⟨other, table', found, d, insideD, same⟩ := not_not.mp fun none => shared ⟨counted, none⟩
      have formed' := formed _ _ found d
      obtain ⟨isOpen', isPipe', readable'', handle'⟩ := (same_pipe_iff fdFormed formed' isOpen isPipe).mp same
      exact ⟨other, table', found, d, insideD,
        (side_iff formed' readable).mpr ⟨isOpen', isPipe', readable''.trans readable', handle'.trans handle⟩⟩
    · exact some_set here isSide old
  | @release process table here descriptor inside isOpen allowed last =>
    have fdFormed := inv.formed _ _ here descriptor
    cases isPipe : (table descriptor).pipe with
    | false =>
      have other : ∀ slot readable, ¬ Side readable slot (table descriptor) := by
        intro slot readable isSide
        rw [side_pipe isSide] at isPipe
        cases isPipe
      exact inv.congr formed
        (fun slot readable => ⟨some_of_emptied (side_describes readable) here, some_set here (other slot readable)⟩)
        (releaseProcessFd_pipes (fdFormed isOpen).1 isPipe)
    | true =>
      obtain ⟨-, -, -, -, -, -, insideP, -⟩ := (fdFormed isOpen).2 isPipe
      set fd := table descriptor with isFd
      have held : s.processes.Some (Side fd.readable fd.handle) :=
        ⟨process, table, here, descriptor, inside, (side_iff fdFormed fd.readable).mpr ⟨isOpen, isPipe, rfl, rfl⟩⟩
      have open_ := (inv.flags fd.handle insideP fd.readable).mpr held
      have used : (s.objects.pipes fd.handle).used = true := by
        rw [inv.used fd.handle insideP]
        cases h : fd.readable <;> simp [flag, h] at open_ <;> simp [open_]
      obtain ⟨pipe, pipes, flags, isUsed, ends, waits⟩ := releasePipe_spec fdFormed isOpen isPipe used
      -- no descriptor of the end is left, and those of the other ends are as before
      have gone : ¬ Processes.Some (update s.processes process (some (update table descriptor {})))
          (Side fd.readable fd.handle) := by
        rintro ⟨other, table', found, d, insideD, isSide⟩
        have formed' := formed _ _ found d
        obtain ⟨isOpen', isPipe', readable', handle'⟩ := (side_iff formed' fd.readable).mp isSide
        exact last.2 ⟨other, table', found, d, insideD,
          (same_pipe_iff fdFormed formed' isOpen isPipe).mpr ⟨isOpen', isPipe', readable', handle'⟩⟩
      have rest : ∀ slot readable, ¬ (slot = fd.handle ∧ readable = fd.readable) →
          (Processes.Some (update s.processes process (some (update table descriptor {}))) (Side readable slot) ↔
            s.processes.Some (Side readable slot)) := by
        intro slot readable apart
        refine ⟨some_of_emptied (side_describes readable) here, some_set here fun isSide => apart ?_⟩
        obtain ⟨-, -, readable', handle⟩ := (side_iff fdFormed readable).mp isSide
        exact ⟨handle.symm, readable'.symm⟩
      refine inv.setPipe formed pipes (fun slot readable ne => rest slot readable fun h => ne h.1)
        fun insideS => ⟨fun readable => ?_, isUsed, ?_⟩
      · dsimp only [System.set]
        rw [flags]
        by_cases own : readable = fd.readable
        · subst own
          simp [gone]
        rw [rest _ _ fun h => own h.2, ← inv.flags _ insideS readable]
        simp [own]
      · obtain ⟨first, second⟩ := inv.plain _ insideS
        exact ⟨ends.elim id fun h => h.trans first, waits.elim id fun h => h.trans second⟩

theorem PipeInv.moves (inv : PipeInv s) (moves : Moves R s s') : PipeInv s' := by
  induction moves with
  | refl => exact inv
  | tail _ move ih => exact ih.move move

theorem PipeInv.unused (inv : PipeInv s) (inside : slot < pipeCount) (free : (s.objects.pipes slot).used = false)
    (readable : Bool) : ¬ s.processes.Some (Side readable slot) := by
  rw [← inv.flags slot inside readable]
  have closed : ¬ ((s.objects.pipes slot).readOpen = true ∨ (s.objects.pipes slot).writeOpen = true) := by
    rw [← inv.used slot inside, free]
    exact Bool.false_ne_true
  cases readable <;> simp_all [flag]

def pipeHalf (slot serial : Nat) (closeOnExec readable : Bool) : ProcessFd :=
  { handle := slot, pipe := true, closeOnExec, isOpen := true, readable, writable := !readable, serial }

theorem pipe2_cases (k : Kernel) (limit : Nat) (closeOnExec copied : Bool) :
    (k.linuxPipe2 limit closeOnExec copied).2 = k ∨ ∃ slot < pipeCount, (k.objects.pipes slot).used = false ∧
        ((∃ table objects, (k.linuxPipe2 limit closeOnExec copied).2 = { k with fds := table, objects } ∧
            objects.pipes = update k.objects.pipes slot {} ∧
            ∀ d, table d = k.fds d ∨ table d = {} ∧ (k.fds d).isOpen = false) ∨
          ∃ r w objects, r < processFdCount ∧ w < processFdCount ∧ (k.fds r).isOpen = false ∧
            (k.fds w).isOpen = false ∧ r ≠ w ∧ (k.linuxPipe2 limit closeOnExec copied).2 = { k with
                fds := update (update k.fds r (pipeHalf slot k.objects.nextSerial closeOnExec true)) w
                  (pipeHalf slot k.objects.nextSerial closeOnExec false)
                objects } ∧
            objects.pipes = update k.objects.pipes slot
              { used := true, readOpen := true, writeOpen := true, serial := k.objects.nextSerial }) := by
  unfold linuxPipe2 Objects.makePipe
  cases found : position pipeCount fun i => !(k.objects.pipes i).used with
  | none => exact .inl rfl
  | some slot =>
    obtain ⟨inside, free⟩ := position_some found
    rw [Bool.not_eq_true'] at free
    refine .inr ⟨slot, inside, free, ?_⟩
    dsimp only
    unfold installProcessFd
    cases foundR : position processFdCount fun i => !(k.fds i).isOpen with
    | none => exact .inl ⟨k.fds, _, rfl, by simp, fun d => .inl rfl⟩
    | some r =>
      obtain ⟨insideR, freeR⟩ := position_some foundR
      rw [Bool.not_eq_true'] at freeR
      dsimp only
      by_cases few : limit ≤ r
      · rw [if_pos few]
        exact .inl ⟨k.fds, _, rfl, by simp, fun d => .inl rfl⟩
      rw [if_neg few]
      dsimp only [setFd]
      -- emptying the entry again leaves a closed entry where one was
      have emptied : ∀ (fd : ProcessFd) d, update (update k.fds r fd) r {} d = k.fds d ∨
          update (update k.fds r fd) r {} d = {} ∧ (k.fds d).isOpen = false := by
        intro fd d
        by_cases at_ : d = r
        · subst at_
          simp [freeR]
        · simp [at_]
      split
      · next => exact .inl ⟨_, _, rfl, by simp [dropFd, setFd], emptied _⟩
      next w _ installed =>
      split at installed
      · cases installed
      next _ foundW =>
      obtain ⟨insideW, freeW⟩ := position_some foundW
      rw [Bool.not_eq_true'] at freeW
      split at installed
      · cases installed
      obtain ⟨rfl, rfl⟩ := installed
      have apart : r ≠ w := by
        rintro rfl
        simp at freeW
      rw [update_of_ne (Ne.symm apart)] at freeW
      cases copied with
      | true => exact .inr ⟨r, w, _, insideR, insideW, freeR, freeW, apart, rfl, rfl⟩
      | false =>
        refine .inl ⟨_, _, rfl, by simp [dropFd, setFd], fun d => ?_⟩
        by_cases atW : d = w
        · subst atW
          simp [dropFd, setFd, freeW]
        by_cases atR : d = r
        · subst atR
          simp [dropFd, setFd, atW, freeR]
        · simp [dropFd, setFd, atW, atR]

theorem pipeFormed_half (inside : slot < pipeCount) (closeOnExec readable : Bool) :
    PipeFormed (pipeHalf slot serial closeOnExec readable) := fun _ =>
  ⟨by simp [pipeHalf, devicePtmx], fun _ => ⟨rfl, rfl, rfl, rfl, rfl, rfl, inside, rfl⟩⟩

theorem side_half {other : Nat} {closeOnExec side : Bool} (inside : slot < pipeCount) :
    Side side other (pipeHalf slot serial closeOnExec readable) ↔ side = readable ∧ other = slot := by
  rw [side_iff (pipeFormed_half inside closeOnExec readable)]
  simp [pipeHalf, eq_comm]

theorem PipeInv.pipe2 (sched : Sched k) (inv : PipeInv k.system) (limit : Nat) (closeOnExec copied : Bool) :
    Sched (k.linuxPipe2 limit closeOnExec copied).2 ∧ PipeInv (k.linuxPipe2 limit closeOnExec copied).2.system := by
  have here : k.system.processes k.currentGroup = some k.fds := sched.processes_current
  have formed := inv.formed _ _ here
  rcases pipe2_cases k limit closeOnExec copied with same | ⟨slot, inside, free, made⟩
  · rw [same]
    exact ⟨sched, inv⟩
  have unused := inv.unused inside free
  rcases made with ⟨table, objects, after, pipes, closed⟩ | ⟨r, w, objects, insideR, insideW, freeR, _, apart, after, pipes⟩
  · rw [after]
    refine ⟨sched_with sched _ _, ?_⟩
    rw [system_with sched]
    have same : ∀ slot readable, Processes.Some (update k.processes k.currentGroup (some table)) (Side readable slot) ↔
        k.processes.Some (Side readable slot) :=
      fun slot readable => some_closed (side_describes readable) here closed
    refine inv.setPipe ?_ pipes (fun other readable _ => same other readable) fun _ => ⟨fun readable => ?_, ?_, rfl, rfl⟩
    · refine every_table inv.formed fun d => ?_
      rcases closed d with same | ⟨empty, -⟩
      · rw [same]
        exact formed d
      rw [empty]
      exact pipeFormed_empty
    · rw [same]
      refine iff_of_false ?_ (unused readable)
      cases readable <;> exact Bool.false_ne_true
    · simp
  rw [after]
  refine ⟨sched_with sched _ _, ?_⟩
  rw [system_with sched]
  set readHalf := pipeHalf slot k.objects.nextSerial closeOnExec true
  set writeHalf := pipeHalf slot k.objects.nextSerial closeOnExec false
  have first : update k.processes k.currentGroup (some (update k.fds r readHalf)) k.currentGroup =
      some (update k.fds r readHalf) := update_self _ _ _
  have freeW' : (update k.fds r readHalf w).isOpen = false := by rwa [update_of_ne (Ne.symm apart)]
  have held : ∀ other readable, Processes.Some (update k.processes k.currentGroup
      (some (update (update k.fds r readHalf) w writeHalf))) (Side readable other) ↔
        Side readable other writeHalf ∨ Side readable other readHalf ∨ k.processes.Some (Side readable other) := by
    intro other readable
    have second := some_install (@side_describes other readable) first insideW freeW' writeHalf
    rw [update_idem] at second
    rw [second, some_install (side_describes readable) sched.processes_current insideR freeR]
  refine inv.setPipe ?_ pipes (fun other readable ne => ?_) fun _ => ⟨fun readable => ?_, by simp, rfl, rfl⟩
  · have formedR : PipeFormed readHalf := pipeFormed_half inside _ _
    have formedW : PipeFormed writeHalf := pipeFormed_half inside _ _
    have old : Every k.processes PipeFormed := inv.formed
    simpa only [update_idem] using @every_set _ _ _ w _ (every_set old sched.processes_current formedR) first _ formedW
  · rw [held, side_half inside, side_half inside]
    simp [ne]
    rfl
  · rw [held, side_half inside, side_half inside]
    cases readable <;> simp [flag]

theorem PipeInv.openOther (sched : Sched k) (inv : PipeInv k.system) (limit : Nat) (other : fd.pipe = false)
    (terminal : fd.standard ≠ devicePtmx) : Sched (((k.installProcessFd limit fd).map (·.2)).getD k) ∧
      PipeInv (((k.installProcessFd limit fd).map (·.2)).getD k).system := by
  cases installed : k.installProcessFd limit fd with
  | none => exact ⟨sched, inv⟩
  | some found =>
    obtain ⟨_, k'⟩ := found
    obtain ⟨inside, free, rfl⟩ := install_cases installed
    refine ⟨sched_setFd sched _ _, ?_⟩
    rw [Option.map_some, Option.getD_some, system_setFd sched]
    have notPipe : ∀ slot readable, ¬ Side readable slot { fd with isOpen := true } := by
      intro slot readable isSide
      have isPipe := side_pipe isSide
      rw [other] at isPipe
      cases isPipe
    refine inv.congr ?_ (fun slot readable => ?_) rfl
    · refine every_set inv.formed sched.processes_current fun _ => ⟨terminal, fun isPipe => ?_⟩
      rw [show fd.pipe = true from isPipe] at other
      cases other
    · refine (some_install (side_describes readable) sched.processes_current inside free _).trans ?_
      exact or_iff_right (notPipe slot readable)

theorem PipeInv.transfer (inv : PipeInv s) {pipe : Pipe} {objects : Objects}
    (pipes : objects.pipes = update s.objects.pipes slot pipe) (used : pipe.used = (s.objects.pipes slot).used)
    (flags : ∀ readable, flag readable pipe = flag readable (s.objects.pipes slot))
    (nowait : pipe.nowait = (s.objects.pipes slot).nowait)
    (ends : (s.objects.pipes slot).eofPending = 0 → pipe.eofPending = 0) : PipeInv { s with objects } := by
  refine inv.setPipe inv.formed pipes (fun _ _ _ => Iff.rfl) fun inside => ⟨fun readable => ?_, ?_, ?_⟩
  · rw [flags]
    exact inv.flags slot inside readable
  · have reads := flags true
    have writes := flags false
    simp only [flag, if_true, Bool.false_eq_true, if_false] at reads writes
    rw [used, reads, writes]
    exact inv.used slot inside
  · obtain ⟨first, second⟩ := inv.plain slot inside
    rw [nowait]
    exact ⟨ends first, second⟩

theorem PipeInv.step (sched : Sched k) (inv : PipeInv k.system) (call : PipeCall) :
    Sched (k.pipeStep call) ∧ PipeInv (k.pipeStep call).system := by
  cases call with
  | common call =>
    have refines := refines_common (R := fun _ _ _ => True) sched call fun _ _ _ => trivial
    exact ⟨refines.sched, inv.moves refines.moves⟩
  | pipe2 limit closeOnExec copied => exact inv.pipe2 sched limit closeOnExec copied
  | read descriptor _ =>
    simp only [pipeStep, readPipe]
    split
    · next fd _ =>
      split
      · refine ⟨sched_with sched _ _, ?_⟩
        refine inv.transfer rfl ?_ (fun readable => ?_) ?_ ?_
        all_goals
          unfold pipeRead
          split_ifs <;> simp [flag, show k.system.objects = k.objects from rfl] <;> omega
      · exact ⟨sched, inv⟩
    · exact ⟨sched, inv⟩
  | write descriptor _ =>
    simp only [pipeStep, writePipe]
    split
    · next fd _ =>
      split
      · refine ⟨sched_with sched _ _, ?_⟩
        refine inv.transfer rfl ?_ (fun readable => ?_) ?_ ?_
        all_goals
          unfold pipeWrite
          dsimp only
          split_ifs <;> simp [flag, show k.system.objects = k.objects from rfl]
      · exact ⟨sched, inv⟩
    · exact ⟨sched, inv⟩
  | openOther limit fd =>
    simp only [pipeStep]
    split
    · next kind => exact inv.openOther sched limit kind.1 kind.2
    · exact ⟨sched, inv⟩

theorem pipeInv_boot : PipeInv boot.system := by
  refine ⟨?_, ?_, ?_, ?_⟩
  · intro process table found d
    rw [processes_boot found]
    exact pipeFormed_console d
  · intro slot _ readable
    refine iff_of_false ?_ ?_
    · cases readable <;> exact Bool.false_ne_true
    rintro ⟨process, table, found, d, -, isSide⟩
    rw [processes_boot found] at isSide
    exact side_console readable d isSide
  · intro slot _
    simp [system, boot]
  · exact fun _ _ => ⟨rfl, rfl⟩

theorem PipeInv.exact (inv : PipeInv k.system) : PipesExact k := by
  have reads : ∀ slot < pipeCount, (k.objects.pipes slot).readOpen = true ↔ k.processes.Some (ReadEnd slot) :=
    fun slot inside => inv.flags slot inside true
  have writes : ∀ slot < pipeCount, (k.objects.pipes slot).writeOpen = true ↔ k.processes.Some (WriteEnd slot) :=
    fun slot inside => inv.flags slot inside false
  refine ⟨reads, writes, inv.used, ?_, ?_⟩
  · intro slot inside used _ _
    obtain ⟨ends, waits⟩ := inv.plain slot inside
    rw [← writes slot inside]
    change (k.objects.pipes slot).eofPending = 0 at ends
    change (k.objects.pipes slot).nowait = false at waits
    unfold pipeRead
    rw [if_neg (by simp [used]), if_neg (by omega), if_neg (by omega), waits, Bool.or_false]
    cases (k.objects.pipes slot).writeOpen <;> simp
  intro slot inside _
  rw [← reads slot inside]
  have used := inv.used slot inside
  change (k.objects.pipes slot).used = true ↔ _ at used
  unfold pipeWrite
  dsimp only
  split
  · next closed =>
    refine iff_of_true rfl ?_
    rcases closed with unused | closed
    · intro isOpen
      rw [used.mpr (.inl isOpen)] at unused
      cases unused
    · simp [closed]
  · next running =>
    have isOpen : (k.objects.pipes slot).readOpen = true := by simpa using (not_or.mp running).2
    refine iff_of_false ?_ (by simp [isOpen])
    split_ifs <;> simp

/-- After every step of every run, the flags of a pipe are those of the ends that some live process has
a descriptor of; its slot is in use exactly as long as there is one, and a reader of the empty pipe gets
the end of the file, and a writer the broken pipe, exactly when the other end has no descriptor left. -/
theorem pipe_ends_close_with_last (calls : List PipeCall) :
    Lib.Run.Throughout Kernel.pipeStep PipesExact Kernel.boot calls := by
  have kept : ∀ (k : Kernel) call, Sched k ∧ PipeInv k.system →
      Sched (k.pipeStep call) ∧ PipeInv (k.pipeStep call).system := fun k call h => h.2.step h.1 call
  exact Lib.Run.throughout_of_inv kept (fun k h => h.2.exact) calls ⟨sched_boot, pipeInv_boot⟩

end AerOS.Proof.Descriptors
