import AerOS.Proof.Descriptors.Scheduling
import AerOS.Spec.Unix

namespace AerOS.Proof.Descriptors
open AerOS.Descriptors Function Kernel Objects

variable {s s' : System} {k : Kernel} {o : Objects} {fd other : ProcessFd} {R : Nat → Nat → ProcessFd → Prop}
variable {handle listener place process slot : Nat} {objects : Objects}

def UnixFormed (fd : ProcessFd) : Prop :=
  fd.isOpen = true → (fd.unixSocket = true ∨ fd.unixListener = true) → fd.standard = 0 ∧ fd.socket = false ∧
    fd.pipe = false ∧ fd.epoll = false ∧ fd.tcp = false ∧ fd.unixListener = !fd.unixSocket

def EndOf (slot : Nat) (endB : Bool) (fd : ProcessFd) : Prop :=
  fd.isOpen = true ∧ fd.unixSocket = true ∧ fd.handle = slot ∧ fd.unixEndB = endB

def Stray (o : Objects) (fd : ProcessFd) : Prop := ¬ Attached o fd

theorem endOf_describes (slot : Nat) (endB : Bool) : Describes (EndOf slot endB) := ⟨fun _ h => h.1, fun _ _ => Iff.rfl⟩

theorem stray_describes (o : Objects) : Describes (Stray o) := by
  refine ⟨fun _ stray => ?_, fun _ _ => Iff.rfl⟩
  by_contra closed
  exact stray fun connected => absurd connected.1 closed

theorem same_socket (formed : UnixFormed fd) (formed' : UnixFormed other) (isOpen : fd.isOpen = true)
    (isSocket : fd.unixSocket = true) (ends : EndOf fd.handle fd.unixEndB other) : sameOpenDescription other fd = true := by
  obtain ⟨isOpen', isSocket', handle, _⟩ := ends
  obtain ⟨_, _, _, _, _, _⟩ := formed isOpen (.inl isSocket)
  obtain ⟨_, _, _, _, _, _⟩ := formed' isOpen' (.inl isSocket')
  simp [sameOpenDescription, *]

theorem same_listener (formed : UnixFormed fd) (formed' : UnixFormed other) (isOpen : fd.isOpen = true)
    (isListener : fd.unixListener = true) (listens : ListenerOf fd.handle other) : sameOpenDescription other fd = true := by
  obtain ⟨isOpen', isListener', handle⟩ := listens
  obtain ⟨_, _, _, _, _, only⟩ := formed isOpen (.inr isListener)
  obtain ⟨_, _, _, _, _, only'⟩ := formed' isOpen' (.inr isListener')
  have plain : fd.unixSocket = false := by simpa [isListener] using only
  have plain' : other.unixSocket = false := by simpa [isListener'] using only'
  simp [sameOpenDescription, *]

theorem connected_of_inside (inside : handle < unixPairCount) : unixUnboundHandle handle = false := by
  refine decide_eq_false fun _ => ?_
  have few : unixPairCount ≤ unixUnboundMessage := by decide
  omega

theorem unixFormed_plain (socket : fd.unixSocket = false) (listener : fd.unixListener = false) : UnixFormed fd := by
  intro _ kind
  simp [socket, listener] at kind

theorem initialProcessFds_notUnix (d : Nat) :
    (initialProcessFds d).unixSocket = false ∧ (initialProcessFds d).unixListener = false := by
  unfold initialProcessFds
  split <;> decide

theorem attached_plain (socket : fd.unixSocket = false) : Attached o fd := by
  rintro ⟨-, isSocket, -⟩
  rw [socket] at isSocket
  cases isSocket

def Waits (o : Objects) (listener place slot : Nat) : Prop := (o.listeners listener).backlog[place]? = some (some slot)

theorem pendingOpen_iff :
    o.PendingOpen listener ↔ ∃ place slot, Waits o listener place slot ∧ (o.pairs slot).endAOpen = true := by
  constructor
  · rintro ⟨slot, mem, isOpen⟩
    obtain ⟨place, at_⟩ := List.mem_iff_getElem?.mp mem
    exact ⟨place, slot, at_, isOpen⟩
  · rintro ⟨place, slot, at_, isOpen⟩
    exact ⟨slot, List.mem_of_getElem? at_, isOpen⟩

/-- The pair is no inbox, and the bytes on their way were sent on its connection. -/
def Plain (pair : UnixPair) : Prop := pair.inbox = false ∧ ∀ endB, ∀ byte ∈ pair.incoming endB, byte.1 = pair.serial

theorem plain_empty {pair : UnixPair} (inbox : pair.inbox = false) (aToB : pair.aToB = []) (bToA : pair.bToA = []) :
    Plain pair := by
  refine ⟨inbox, fun endB => ?_⟩
  cases endB <;> simp [UnixPair.incoming, aToB, bToA]

structure Pending (s : System) (slot : Nat) : Prop where
  inside : slot < unixPairCount
  used : (s.objects.pairs slot).used = true
  endB : (s.objects.pairs slot).endBOpen = true
  unowned : ¬ s.processes.Some (EndOf slot true)

structure UnixInv (s : System) : Prop where
  formed : Every s.processes UnixFormed
  kept : ¬ s.processes.Some (Stray s.objects)
  plain : ∀ slot, Plain (s.objects.pairs slot)
  pending : ∀ listener place slot, Waits s.objects listener place slot → Pending s slot
  unique : ∀ listener place listener' place' slot, Waits s.objects listener place slot →
    Waits s.objects listener' place' slot → listener = listener' ∧ place = place'

theorem UnixInv.attached (inv : UnixInv s) {table : Table} (here : s.processes process = some table) {d : Nat}
    (inside : d < processFdCount) : Attached s.objects (table d) := by
  by_contra stray
  exact inv.kept ⟨process, table, here, d, inside, stray⟩

theorem releaseProcessFd_notUnix (socket : fd.unixSocket = false) (listener : fd.unixListener = false) :
    (o.releaseProcessFd fd).2.pairs = o.pairs ∧ (o.releaseProcessFd fd).2.listeners = o.listeners := by
  have detach : ∀ (o : Objects) index slot, (o.detach index slot).pairs = o.pairs ∧ (o.detach index slot).listeners = o.listeners := by
    intro o index slot
    unfold detach
    split <;> exact ⟨rfl, rfl⟩
  have close : ∀ (o : Objects) slot, (o.closePipes slot).pairs = o.pairs ∧ (o.closePipes slot).listeners = o.listeners := by
    intro o slot
    unfold closePipes captureClose inputClose
    split <;> exact ⟨rfl, rfl⟩
  unfold Objects.releaseProcessFd
  rw [if_neg (show ¬ fd.unixSocket = true by simp [socket]), if_neg (show ¬ fd.unixListener = true by simp [listener])]
  split_ifs
  · unfold closeMaster
    split
    · simp only [close]
      unfold releaseTty
      split <;> simp only [detach, and_self]
    · exact ⟨rfl, rfl⟩
  · exact ⟨rfl, rfl⟩
  · exact ⟨rfl, rfl⟩
  · unfold releasePipe
    split <;> exact ⟨rfl, rfl⟩
  · exact ⟨rfl, rfl⟩

theorem releaseUnixSocket_spec (connected : unixUnboundHandle fd.handle = false) (inside : fd.handle < unixPairCount)
    (used : (o.pairs fd.handle).used = true) (plain : Plain (o.pairs fd.handle)) :
    ∃ pair : UnixPair, (o.releaseUnixSocket fd).2 = { o with pairs := update o.pairs fd.handle pair } ∧
      (∀ endB, pair.endOpen endB = ((o.pairs fd.handle).endOpen endB && decide (endB ≠ fd.unixEndB))) ∧
      (∀ endB, pair.endOpen endB = true → pair.used = true ∧ pair.serial = (o.pairs fd.handle).serial) ∧
      Plain pair := by
  unfold releaseUnixSocket
  rw [connected, if_neg Bool.false_ne_true, if_pos ⟨inside, used⟩]
  have noInbox : (if fd.unixEndB then { o.pairs fd.handle with endBOpen := false }
      else { o.pairs fd.handle with endAOpen := false } : UnixPair).inbox = false := by
    split <;> exact plain.1
  dsimp only
  rw [noInbox, Bool.false_and, Bool.false_or, if_neg Bool.false_ne_true]
  refine ⟨_, rfl, ?_⟩
  cases side : fd.unixEndB <;> cases first : (o.pairs fd.handle).endAOpen <;> cases second : (o.pairs fd.handle).endBOpen <;>
    simp [plain_empty, first, second, UnixPair.endOpen, used]
  all_goals exact plain

theorem foldl_clear (slots : List Nat) (pairs : Nat → UnixPair) (slot : Nat) :
    slots.foldl (fun pairs slot => update pairs slot {}) pairs slot = if slot ∈ slots then {} else pairs slot := by
  induction slots generalizing pairs with
  | nil => rfl
  | cons first rest ih =>
    rw [List.foldl_cons, ih]
    by_cases inRest : slot ∈ rest
    · simp [inRest]
    · by_cases at_ : slot = first <;> simp [inRest, at_]

theorem releaseUnixListener_spec (o : Objects) (fd : ProcessFd) : (o.releaseUnixListener fd).2 = o ∨
      ((o.releaseUnixListener fd).2.listeners = update o.listeners fd.handle {} ∧
        ∀ slot, (some slot ∈ (o.listeners fd.handle).backlog ∧ (o.releaseUnixListener fd).2.pairs slot = {}) ∨
          (some slot ∉ (o.listeners fd.handle).backlog ∧ (o.releaseUnixListener fd).2.pairs slot = o.pairs slot)) := by
  unfold releaseUnixListener
  split
  · refine .inr ⟨rfl, fun slot => ?_⟩
    dsimp only
    rw [foldl_clear]
    by_cases mem : some slot ∈ (o.listeners fd.handle).backlog
    · exact .inl ⟨mem, if_pos (by simpa using mem)⟩
    · exact .inr ⟨mem, if_neg (by simpa using mem)⟩
  · exact .inl rfl

structure Shrinks (o o' : Objects) : Prop where
  waits : ∀ {listener place slot}, Waits o' listener place slot → Waits o listener place slot
  clients : ∀ slot, (o'.pairs slot).endAOpen = true → (o.pairs slot).endAOpen = true
  plain : ∀ slot, Plain (o.pairs slot) → Plain (o'.pairs slot)

theorem Shrinks.refl (o : Objects) : Shrinks o o := ⟨id, fun _ => id, fun _ => id⟩

theorem waits_empty : ¬ ({} : UnixListener).backlog[place]? = some (some slot) := by
  intro h
  have mem := List.mem_of_getElem? h
  simp at mem

theorem shrinks_listener {o o' : Objects} (listeners : o'.listeners = update o.listeners handle {})
    (pairs : ∀ slot, o'.pairs slot = {} ∨ o'.pairs slot = o.pairs slot) : Shrinks o o' := by
  refine ⟨fun {listener place slot} waits => ?_, fun slot isOpen => ?_, fun slot _ => ?_⟩
  · unfold Waits at waits
    rw [listeners] at waits
    by_cases at_ : listener = handle
    · rw [at_, update_self] at waits
      exact absurd waits waits_empty
    · rwa [update_of_ne at_] at waits
  · rcases pairs slot with empty | same
    · rw [empty] at isOpen
      cases isOpen
    · rwa [same] at isOpen
  · rcases pairs slot with empty | same
    · rw [empty]
      exact plain_empty rfl rfl rfl
    · rwa [same]

structure Keeps (fd : ProcessFd) (o o' : Objects) : Prop where
  shrinks : Shrinks o o'
  others : ∀ other, Attached o other → ¬ (fd.unixSocket = true ∧ EndOf fd.handle fd.unixEndB other) →
    (∀ place slot, Waits o fd.handle place slot → ¬ EndOf slot true other) → Attached o' other
  backlogs : ∀ {listener place slot}, Waits o' listener place slot →
    (fd.unixSocket = true → fd.handle = slot → fd.unixEndB = false) →
    (listener ≠ fd.handle → ∀ place', ¬ Waits o fd.handle place' slot) → (o.pairs slot).used = true →
    (o.pairs slot).endBOpen = true → (o'.pairs slot).used = true ∧ (o'.pairs slot).endBOpen = true

theorem Keeps.of_same {o' : Objects} (pairs : o'.pairs = o.pairs) (listeners : o'.listeners = o.listeners) : Keeps fd o o' := by
  refine ⟨⟨fun waits => ?_, fun slot => ?_, fun slot => ?_⟩, fun _ attached _ _ => ?_,
    fun _ _ _ used endB => ?_⟩
  · unfold Waits at waits ⊢
    rwa [listeners] at waits
  · rw [pairs]
    exact id
  · rw [pairs]
    exact id
  · unfold Attached at attached ⊢
    rwa [pairs]
  · rw [pairs]
    exact ⟨used, endB⟩

theorem keeps_socket (isOpen : fd.isOpen = true) (isSocket : fd.unixSocket = true) (attached : Attached o fd)
    (plain : ∀ slot, Plain (o.pairs slot)) : Keeps fd o (o.releaseUnixSocket fd).2 := by
  cases unbound : unixUnboundHandle fd.handle with
  | true =>
    have same : (o.releaseUnixSocket fd).2 = o := by simp [releaseUnixSocket, unbound]
    rw [same]
    exact .of_same rfl rfl
  | false =>
    obtain ⟨inside, used, _, -⟩ := attached ⟨isOpen, isSocket, unbound⟩
    obtain ⟨pair, after, ends, stays, noInbox⟩ := releaseUnixSocket_spec unbound inside used (plain _)
    rw [after]
    refine ⟨⟨id, fun slot clientOpen => ?_, fun slot plain => ?_⟩, fun other attached' last _ connected => ?_,
      fun {listener place slot} _ notEndB _ usedSlot endB => ?_⟩
    · by_cases at_ : slot = fd.handle
      · subst at_
        have first := ends false
        rw [show pair.endOpen false = true by simpa [UnixPair.endOpen] using clientOpen] at first
        have both := (Bool.and_eq_true _ _).mp first.symm
        simpa [UnixPair.endOpen] using both.1
      · simpa only [update_of_ne at_] using clientOpen
    · by_cases at_ : slot = fd.handle
      · subst at_
        simpa only [update_self] using noInbox
      · simpa only [update_of_ne at_] using plain
    · obtain ⟨inside', used', serial', open'⟩ := attached' connected
      refine ⟨inside', ?_⟩
      dsimp only
      by_cases at_ : other.handle = fd.handle
      · have apart : other.unixEndB ≠ fd.unixEndB := fun same =>
          last ⟨isSocket, connected.1, connected.2.1, at_, same⟩
        rw [at_] at serial' open'
        have stillOpen : pair.endOpen other.unixEndB = true := by
          rw [ends, open']
          simpa using apart
        obtain ⟨isUsed, isSerial⟩ := stays _ stillOpen
        rw [at_, update_self]
        exact ⟨isUsed, isSerial.trans serial', stillOpen⟩
      · rw [update_of_ne at_]
        exact ⟨used', serial', open'⟩
    · dsimp only
      by_cases at_ : slot = fd.handle
      · have side := notEndB isSocket at_.symm
        rw [at_] at endB
        have stillOpen : pair.endOpen true = true := by
          rw [ends, side]
          simpa [UnixPair.endOpen] using endB
        rw [at_, update_self]
        exact ⟨(stays _ stillOpen).1, by simpa [UnixPair.endOpen] using stillOpen⟩
      · rw [update_of_ne at_]
        exact ⟨usedSlot, endB⟩

theorem keeps_listener (safe : ¬ o.PendingOpen fd.handle) : Keeps fd o (o.releaseUnixListener fd).2 := by
  rcases releaseUnixListener_spec o fd with same | ⟨listeners, pairs⟩
  · rw [same]
    exact .of_same rfl rfl
  refine ⟨shrinks_listener listeners fun slot => (pairs slot).imp And.right And.right,
    fun other attached' _ unowned connected => ?_,
    fun {listener place slot} waits _ absent used endB => ?_⟩
  · obtain ⟨inside', used', serial', open'⟩ := attached' connected
    rcases pairs other.handle with ⟨mem, -⟩ | ⟨-, same⟩
    · -- a pair of the backlog: neither end has a descriptor
      exfalso
      obtain ⟨place, at_⟩ := List.mem_iff_getElem?.mp mem
      cases side : other.unixEndB with
      | true => exact unowned place _ at_ ⟨connected.1, connected.2.1, rfl, side⟩
      | false =>
        refine safe ⟨_, mem, ?_⟩
        simpa [UnixPair.endOpen, side] using open'
    · rw [same]
      exact ⟨inside', used', serial', open'⟩
  · rcases pairs slot with ⟨mem, -⟩ | ⟨-, same⟩
    · obtain ⟨place', at_⟩ := List.mem_iff_getElem?.mp mem
      refine absurd at_ (absent ?_ place')
      rintro rfl
      unfold Waits at waits
      rw [listeners, update_self] at waits
      exact waits_empty waits
    · rw [same]
      exact ⟨used, endB⟩

theorem release_keeps (formed : UnixFormed fd) (isOpen : fd.isOpen = true) (attached : Attached o fd)
    (plain : ∀ slot, Plain (o.pairs slot)) (safe : fd.unixListener = true → ¬ o.PendingOpen fd.handle) :
    Keeps fd o (o.releaseProcessFd fd).2 := by
  by_cases isSocket : fd.unixSocket = true
  · obtain ⟨standard, socket, pipe, -, -, -⟩ := formed isOpen (.inl isSocket)
    have released : (o.releaseProcessFd fd).2 = (o.releaseUnixSocket fd).2 := by
      simp [Objects.releaseProcessFd, standard, socket, pipe, isSocket, devicePtmx]
    rw [released]
    exact keeps_socket isOpen isSocket attached plain
  by_cases isListener : fd.unixListener = true
  · obtain ⟨standard, socket, pipe, -, -, -⟩ := formed isOpen (.inr isListener)
    have released : (o.releaseProcessFd fd).2 = (o.releaseUnixListener fd).2 := by
      simp [Objects.releaseProcessFd, standard, socket, pipe, isSocket, isListener, devicePtmx]
    rw [released]
    exact keeps_listener (safe isListener)
  · obtain ⟨pairs, listeners⟩ := releaseProcessFd_notUnix (o := o) (Bool.eq_false_iff.mpr isSocket)
      (Bool.eq_false_iff.mpr isListener)
    exact .of_same pairs listeners

def SafeListeners (R : Nat → Nat → ProcessFd → Prop) (s : System) : Prop :=
  ∀ process d fd, R process d fd → fd.unixListener = true → ¬ s.objects.PendingOpen fd.handle ∨
    ∃ process' table d', s.processes process' = some table ∧ d' < processFdCount ∧ ListenerOf fd.handle (table d') ∧
      ∀ fd', ¬ R process' d' fd'

theorem entry_stays (move : Move R s s') {table : Table} (here : s.processes process = some table) {d : Nat}
    (inside : d < processFdCount) (isOpen : (table d).isOpen = true) (stays : ∀ fd, ¬ R process d fd) :
    ∃ table', s'.processes process = some table' ∧ table' d = table d := by
  have set : ∀ {process' table' index fd}, s.processes process' = some table' → (process' = process → index ≠ d) →
      ∃ table'', update s.processes process' (some (update table' index fd)) process = some table'' ∧ table'' d = table d := by
    intro process' table' index fd here' apart
    by_cases own : process = process'
    · subst own
      obtain rfl := Option.mem_unique here' here
      exact ⟨_, update_self _ _ _, update_of_ne (Ne.symm (apart rfl)) _ _⟩
    · exact ⟨table, by rw [update_of_ne own, here], rfl⟩
  have absent : ∀ {process' new}, s.processes process' = none →
      ∃ table', update s.processes process' new process = some table' ∧ table' d = table d := by
    intro process' new none
    refine ⟨table, ?_, rfl⟩
    rw [update_of_ne, here]
    rintro rfl
    rw [none] at here
    cases here
  cases move with
  | @copy process' table' here' _ _ _ _ free _ =>
    refine set here' ?_
    rintro rfl rfl
    obtain rfl := Option.mem_unique here' here
    rw [isOpen] at free
    cases free
  | drop here' _ _ allowed _ | release here' _ _ allowed _ =>
    refine set here' ?_
    rintro rfl rfl
    exact stays _ allowed
  | start none => exact absent none
  | fork _ none => exact absent none
  | @finish process' table' here' closed =>
    refine ⟨table, ?_, rfl⟩
    dsimp only [System.set]
    rw [update_of_ne, here]
    rintro rfl
    obtain rfl := Option.mem_unique here' here
    rw [closed d inside] at isOpen
    cases isOpen

theorem SafeListeners.move (safe : SafeListeners R s) (move : Move R s s') (shrinks : Shrinks s.objects s'.objects) :
    SafeListeners R s' := by
  intro process d fd closes isListener
  rcases safe process d fd closes isListener with none | ⟨process', _, d', here, inside, listens, stays⟩
  · refine .inl fun pending => none (pendingOpen_iff.mpr ?_)
    obtain ⟨place, slot, waits, isOpen⟩ := pendingOpen_iff.mp pending
    exact ⟨place, slot, shrinks.waits waits, shrinks.clients slot isOpen⟩
  · obtain ⟨table', here', same⟩ := entry_stays move here inside listens.1 stays
    exact .inr ⟨process', table', d', here', inside, by rwa [same], stays⟩

theorem stray_console (d : Nat) : ¬ Stray o (initialProcessFds d) :=
  not_not.mpr (attached_plain (initialProcessFds_notUnix d).1)

theorem UnixInv.of_tables (inv : UnixInv s) {processes : Processes} (formed : Every processes UnixFormed)
    (kept : processes.Some (Stray s.objects) → s.processes.Some (Stray s.objects))
    (ends : ∀ slot, processes.Some (EndOf slot true) → s.processes.Some (EndOf slot true)) :
    UnixInv { s with processes } := by
  refine ⟨formed, fun stray => inv.kept (kept stray), inv.plain, fun listener place slot waits => ?_, inv.unique⟩
  have before := inv.pending listener place slot waits
  exact { before with unowned := fun owned => before.unowned (ends slot owned) }

section
variable (inv : UnixInv s) (safe : SafeListeners R s)
include inv safe

theorem UnixInv.release {process : Nat} {table : Table}
    (here : s.processes process = some table) {descriptor : Nat} (inside : descriptor < processFdCount)
    (isOpen : (table descriptor).isOpen = true) (allowed : R process descriptor (table descriptor))
    (last : (s.set process (some (update table descriptor {}))).processes.Last (table descriptor))
    (formed : Every (update s.processes process (some (update table descriptor {}))) UnixFormed) :
    Shrinks s.objects (s.objects.releaseProcessFd (table descriptor)).2 ∧
      UnixInv ⟨update s.processes process (some (update table descriptor {})),
        (s.objects.releaseProcessFd (table descriptor)).2⟩ := by
  set fd := table descriptor with isFd
  have fdFormed := inv.formed _ _ here descriptor
  have noPending : fd.unixListener = true → ¬ s.objects.PendingOpen fd.handle := by
    intro isListener
    refine (safe process descriptor fd allowed isListener).resolve_right ?_
    rintro ⟨process', table', d', here', inside', listens, stays⟩
    -- the entry that stays is of the same description, so this one is not the last
    refine last.2 ?_
    have same := same_listener fdFormed (inv.formed _ _ here' d') isOpen isListener listens
    by_cases own : process' = process
    · subst own
      obtain rfl := Option.mem_unique here' here
      refine ⟨process', _, update_self _ _ _, d', inside', ?_⟩
      rwa [update_of_ne]
      rintro rfl
      exact stays _ allowed
    · exact ⟨process', table', (update_of_ne own _ _).trans here', d', inside', same⟩
  have keeps := release_keeps fdFormed isOpen (inv.attached here inside) inv.plain noPending
  refine ⟨keeps.shrinks, formed, ?_, fun slot => keeps.shrinks.plain slot (inv.plain slot), ?_, ?_⟩
  · rintro ⟨process', table', found, d, insideD, stray⟩
    have before : Attached s.objects (table' d) := by
      by_contra stray
      exact inv.kept (some_of_emptied (stray_describes _) here ⟨process', table', found, d, insideD, stray⟩)
    refine stray (keeps.others _ before ?_ ?_)
    · rintro ⟨isSocket, ends⟩
      exact last.2 ⟨process', table', found, d, insideD,
        same_socket fdFormed (formed _ _ found d) isOpen isSocket ends⟩
    intro place slot waits ends
    exact (inv.pending _ _ _ waits).unowned
      (some_of_emptied (endOf_describes slot true) here ⟨process', table', found, d, insideD, ends⟩)
  · intro listener place slot waits
    have waited := keeps.shrinks.waits waits
    obtain ⟨insideS, used, endB, unowned⟩ := inv.pending _ _ _ waited
    have notEndB : fd.unixSocket = true → fd.handle = slot → fd.unixEndB = false := by
      intro isSocket handle
      by_contra side
      exact unowned ⟨process, table, here, descriptor, inside, isOpen, isSocket, handle, by simpa using side⟩
    have elsewhere : listener ≠ fd.handle → ∀ place', ¬ Waits s.objects fd.handle place' slot :=
      fun apart place' waits' => apart (inv.unique _ _ _ _ slot waited waits').1
    obtain ⟨used', endB'⟩ := keeps.backlogs waits notEndB elsewhere used endB
    exact ⟨insideS, used', endB', fun owned => unowned (some_of_emptied (endOf_describes slot true) here owned)⟩
  · intro listener place _ place' slot waits waits'
    exact inv.unique _ _ _ _ slot (keeps.shrinks.waits waits) (keeps.shrinks.waits waits')

theorem UnixInv.move (move : Move R s s') : UnixInv s' ∧ Shrinks s.objects s'.objects := by
  have formed := every_move inv.formed move (unixFormed_plain rfl rfl)
    (fun d => unixFormed_plain (initialProcessFds_notUnix d).1 (initialProcessFds_notUnix d).2) fun _ _ h => h
  cases move with
  | copy here inside isOpen free closeOnExec =>
    exact ⟨inv.of_tables formed (some_copy (stray_describes _) here inside free closeOnExec).mp
      fun slot => (some_copy (endOf_describes slot true) here inside free closeOnExec).mp, .refl _⟩
  | drop here inside isOpen allowed _ =>
    exact ⟨inv.of_tables formed (some_of_emptied (stray_describes _) here)
      fun slot => some_of_emptied (endOf_describes slot true) here, .refl _⟩
  | start absent =>
    refine ⟨inv.of_tables formed (some_start absent fun d _ => stray_console d).mp fun slot => ?_, .refl _⟩
    refine (some_start absent fun d _ ends => ?_).mp
    have isSocket := ends.2.1
    rw [(initialProcessFds_notUnix d).1] at isSocket
    cases isSocket
  | fork here absent =>
    exact ⟨inv.of_tables formed (some_fork here absent).mp fun slot => (some_fork here absent).mp, .refl _⟩
  | finish here closed =>
    exact ⟨inv.of_tables formed (some_finish (stray_describes _) here closed).mp
      fun slot => (some_finish (endOf_describes slot true) here closed).mp, .refl _⟩
  | release here inside isOpen allowed last => exact (inv.release safe here inside isOpen allowed last formed).symm

theorem UnixInv.moves (moves : Moves R s s') : UnixInv s' := by
  suffices UnixInv s' ∧ SafeListeners R s' from this.1
  induction moves with
  | refl => exact ⟨inv, safe⟩
  | tail _ move ih =>
    obtain ⟨next, shrinks⟩ := ih.1.move ih.2 move
    exact ⟨next, ih.2.move move shrinks⟩

end

structure Held (k : Kernel) : Prop where
  sched : Sched k
  inv : UnixInv k.system

section
variable (held : Held k)
include held

theorem Held.common (call : Common) (keeps : k.KeepsListeners call) : Held (k.common call) := by
  let R (process d : Nat) (fd : ProcessFd) : Prop :=
    process = k.currentGroup ∧ k.closes call d ∧ fd = k.fds d ∧ fd.isOpen = true
  have refines : Refines R k (k.common call) := refines_common held.sched call fun d closes isOpen => ⟨rfl, closes, rfl, isOpen⟩
  refine ⟨refines.sched, held.inv.moves ?_ refines.moves⟩
  rintro process d fd ⟨rfl, closes, rfl, isOpen⟩ isListener
  by_cases pending : k.objects.PendingOpen (k.fds d).handle
  · obtain ⟨process', table, d', here, inside, listens, stays⟩ := keeps d _ closes ⟨isOpen, isListener, rfl⟩ pending
    refine .inr ⟨process', table, d', here, inside, listens, ?_⟩
    rintro _ ⟨own, closes', -⟩
    exact stays ⟨own, closes'⟩
  · exact .inl pending

theorem Held.close (descriptor : Nat) (other : (k.fds descriptor).unixListener = false) :
    Held (k.linuxClose descriptor).2 := by
  have refines : Refines (fun _ _ fd => fd.unixListener = false) k (k.linuxClose descriptor).2 :=
    refines_linuxClose held.sched descriptor fun _ => other
  refine ⟨refines.sched, held.inv.moves ?_ refines.moves⟩
  intro _ d fd notListener isListener
  rw [notListener] at isListener
  cases isListener

theorem Held.setFd (index : Nat) (formed : UnixFormed fd) (attached : Attached k.objects fd)
    (unowned : ∀ listener place slot, Waits k.objects listener place slot → ¬ EndOf slot true fd) :
    Held (k.setFd index fd) := by
  obtain ⟨sched, inv⟩ := held
  have here : k.system.processes k.currentGroup = some k.fds := sched.processes_current
  refine ⟨sched_setFd sched _ _, ?_⟩
  rw [system_setFd sched]
  refine ⟨?_, ?_, inv.plain, ?_, inv.unique⟩
  · exact every_set inv.formed here formed
  · intro stray
    exact (some_of_set here stray).elim (fun stray => stray attached) inv.kept
  intro listener place slot waits
  have before := inv.pending _ _ _ waits
  exact { before with unowned := fun owned => (some_of_set here owned).elim (unowned _ _ _ waits) before.unowned }

theorem Held.withObjects
    (kept : ∀ fd, k.processes.Some (· = fd) → Attached k.objects fd → Attached objects fd)
    (plain : ∀ slot, Plain (objects.pairs slot))
    (pending : ∀ listener place slot, Waits objects listener place slot → Pending ⟨k.processes, objects⟩ slot)
    (unique : ∀ listener place listener' place' slot, Waits objects listener place slot →
      Waits objects listener' place' slot → listener = listener' ∧ place = place') : Held (k.withObjects objects) := by
  refine ⟨sched_with held.sched k.fds objects, held.inv.formed, ?_, plain, pending, unique⟩
  rintro ⟨process, table, here, d, inside, stray⟩
  exact stray (kept _ ⟨process, table, here, d, inside, rfl⟩ (held.inv.attached here inside))

end

theorem makePair_some {message : Bool} (h : o.makePair message = some (slot, objects)) :
    slot < unixPairCount ∧ (o.pairs slot).used = false ∧ objects = { o with
      pairs := update o.pairs slot { used := true, message, endAOpen := true, endBOpen := true, serial := o.nextSerial }
      nextSerial := o.nextSerial + 1 } := by
  unfold makePair at h
  split at h
  · cases h
  next found =>
  obtain ⟨rfl, rfl⟩ := h
  obtain ⟨inside, free⟩ := position_some found
  exact ⟨inside, by simpa using free, rfl⟩

section
variable (inv : UnixInv k.system)
include inv

theorem UnixInv.unreferred (free : (k.objects.pairs slot).used = false)
    (inside : slot < unixPairCount) (endB : Bool) : ¬ k.processes.Some (EndOf slot endB) := by
  rintro ⟨_, table, here, d, insideD, isOpen, isSocket, handle, -⟩
  have connected : Connected (table d) := ⟨isOpen, isSocket, by rw [handle]; exact connected_of_inside inside⟩
  have used := (inv.attached here insideD connected).2.1
  rw [handle] at used
  change (k.objects.pairs slot).used = true at used
  rw [free] at used
  cases used

theorem UnixInv.waits_apart {slot' : Nat}
    (waits : Waits k.objects listener place slot') (free : (k.objects.pairs slot).used = false) : slot' ≠ slot := by
  rintro rfl
  cases free.symm.trans (inv.pending _ _ _ waits).used

end

section
variable (held : Held k)
include held

theorem Held.setPair (free : ∀ endB, ¬ k.processes.Some (EndOf slot endB))
    (pair : UnixPair) (plain : Plain pair) (pairs : objects.pairs = update k.objects.pairs slot pair)
    (waits : ∀ {listener place slot'}, Waits objects listener place slot' → Waits k.objects listener place slot' ∧ slot' ≠ slot ∨
      slot' = slot ∧ slot < unixPairCount ∧ pair.used = true ∧ pair.endBOpen = true)
    (unique : ∀ listener place listener' place' slot, Waits objects listener place slot →
      Waits objects listener' place' slot → listener = listener' ∧ place = place') : Held (k.withObjects objects) := by
  refine held.withObjects (fun fd found attached connected => ?_) (fun slot' => ?_) (fun listener place slot' waits' => ?_) unique
  · have apart : fd.handle ≠ slot := by
      intro at_
      obtain ⟨process, table, here, d, inside, rfl⟩ := found
      exact free _ ⟨process, table, here, d, inside, connected.1, connected.2.1, at_, rfl⟩
    rw [pairs, update_of_ne apart]
    exact attached connected
  · rw [pairs]
    by_cases at_ : slot' = slot
    · rwa [at_, update_self]
    rw [update_of_ne at_]
    exact held.inv.plain slot'
  rcases waits waits' with ⟨old, apart⟩ | ⟨rfl, inside, used, endB⟩
  · obtain ⟨inside, used, endB, unowned⟩ := held.inv.pending _ _ _ old
    refine ⟨inside, ?_, ?_, unowned⟩
    · rwa [pairs, update_of_ne apart]
    · rwa [pairs, update_of_ne apart]
  refine ⟨inside, ?_, ?_, free true⟩
  · rwa [pairs, update_self]
  · rwa [pairs, update_self]

theorem Held.install {limit serial index : Nat} {endB closeOnExec nonblocking : Bool} {k' : Kernel}
    (installed : k.installUnixSocketFd limit handle serial endB closeOnExec nonblocking = some (index, k'))
    (attached : Attached k.objects { unixFd handle serial endB closeOnExec nonblocking with isOpen := true })
    (unowned : ∀ listener place slot, Waits k.objects listener place slot → endB = true → handle ≠ slot) :
    (k.fds index).isOpen = false ∧
      k' = k.setFd index { unixFd handle serial endB closeOnExec nonblocking with isOpen := true } ∧
      Held k' := by
  obtain ⟨_, free, rfl⟩ := install_cases installed
  refine ⟨free, rfl, held.setFd index (fun _ _ => ⟨rfl, rfl, rfl, rfl, rfl, rfl⟩) attached ?_⟩
  rintro listener place slot waits ⟨-, -, handle', side⟩
  exact unowned listener place slot waits side handle'

theorem Held.socket (limit : Nat) (message closeOnExec nonblocking : Bool) :
    Held (k.linuxSocket limit message closeOnExec nonblocking).2 := by
  unfold linuxSocket
  dsimp only
  split
  · exact held
  next installed =>
  refine (held.install installed ?_ fun _ _ _ _ side => ?_).2.2
  · rintro ⟨-, -, bound⟩
    have unbound : unixUnboundHandle (if message then unixUnboundMessage else unixUnbound) = true := by
      cases message <;> decide
    exact absurd (unbound.symm.trans bound) (by decide)
  · cases side

theorem Held.socketpair (limit : Nat) (message closeOnExec nonblocking copied : Bool) :
    Held (k.linuxSocketpair limit message closeOnExec nonblocking copied).2 := by
  have inv := held.inv
  unfold Kernel.linuxSocketpair
  cases made : k.objects.makePair message with
  | none => exact held
  | some found =>
    obtain ⟨slot, objects⟩ := found
    obtain ⟨inside, free, rfl⟩ := makePair_some made
    dsimp only
    set objects : Objects := { k.objects with
      pairs := update k.objects.pairs slot { used := true, message, endAOpen := true, endBOpen := true, serial := k.objects.nextSerial }
      nextSerial := k.objects.nextSerial + 1 } with isObjects
    have unreferred := inv.unreferred free inside
    have held₁ : Held (k.withObjects objects) :=
      held.setPair unreferred _ (plain_empty rfl rfl rfl) rfl (fun waits => .inl ⟨waits, inv.waits_apart waits free⟩) inv.unique
    have attached : ∀ endB, Attached objects
        { Kernel.unixFd slot k.objects.nextSerial endB closeOnExec nonblocking with isOpen := true } := by
      intro endB _
      simp only [Kernel.unixFd, isObjects, update_self, UnixPair.endOpen]
      exact ⟨inside, trivial, trivial, by split <;> rfl⟩
    have notWaiting : ∀ listener place slot', Waits objects listener place slot' → slot ≠ slot' :=
      fun listener place slot' waits => Ne.symm (inv.waits_apart waits free)
    split
    · -- no descriptor yet: the pair is emptied again
      refine held₁.setPair unreferred {} (plain_empty rfl rfl rfl) rfl (fun waits => .inl ⟨waits, ?_⟩) held₁.inv.unique
      exact inv.waits_apart waits free
    next fdA k₂ installedA =>
    obtain ⟨-, after, held₂⟩ := held₁.install installedA (attached false)
      fun _ _ _ waits _ => notWaiting _ _ _ waits
    have objects₂ : k₂.objects = objects := by rw [after]; rfl
    have fdA_plain : (k₂.fds fdA).unixListener = false := by simp [after, Kernel.setFd, Kernel.unixFd]
    split
    · exact held₂.close fdA fdA_plain
    next fdB k₃ installedB =>
    obtain ⟨freeB, after', held₃⟩ := held₂.install installedB (by rw [objects₂]; exact attached true)
      fun _ _ _ waits _ => notWaiting _ _ _ (by rwa [objects₂] at waits)
    have apart : fdB ≠ fdA := by
      rintro rfl
      simp [after, Kernel.setFd] at freeB
    have plainA : (k₃.fds fdA).unixListener = false := by
      rw [after']
      exact (congrArg ProcessFd.unixListener (update_of_ne (Ne.symm apart) _ _)).trans fdA_plain
    have plainB : (k₃.fds fdB).unixListener = false := by simp [after', Kernel.setFd, Kernel.unixFd]
    cases copied with
    | true => exact held₃
    | false =>
      refine (held₃.close fdA plainA).close fdB ?_
      rwa [linuxClose_other k₃ apart]

theorem Held.openOther (limit : Nat) (socket : fd.unixSocket = false)
    (listener : fd.unixListener = false) : Held (((k.installProcessFd limit fd).map (·.2)).getD k) := by
  cases installed : k.installProcessFd limit fd with
  | none => exact held
  | some found =>
    obtain ⟨index, k'⟩ := found
    obtain ⟨_, _, rfl⟩ := install_cases installed
    refine held.setFd index (unixFormed_plain socket listener) (attached_plain socket) ?_
    rintro _ _ _ - ⟨-, isSocket, -⟩
    rw [show fd.unixSocket = true from isSocket] at socket
    cases socket

end

theorem waits_setListener {handle' : Nat} {listener : UnixListener}
    (waits : Waits (o.setListener handle listener) handle' place slot) :
    handle' = handle ∧ listener.backlog[place]? = some (some slot) ∨ handle' ≠ handle ∧ Waits o handle' place slot := by
  unfold Waits setListener at waits
  dsimp only at waits
  by_cases at_ : handle' = handle
  · rw [at_, update_self] at waits
    exact .inl ⟨at_, waits⟩
  rw [update_of_ne at_] at waits
  exact .inr ⟨at_, waits⟩

theorem unboundSocket_iff : unboundSocket fd = true ↔
    fd.isOpen = true ∧ fd.unixSocket = true ∧ unixUnboundHandle fd.handle = true := by
  simp [unboundSocket, and_assoc]

section
variable (held : Held k)
include held

theorem Held.setListener {listener : UnixListener}
    (fewer : ∀ {place slot : Nat}, listener.backlog[place]? = some (some slot) → Waits k.objects handle place slot) :
    Held (k.withObjects (k.objects.setListener handle listener)) := by
  have inv := held.inv
  have waits : ∀ {handle' place slot}, Waits (k.objects.setListener handle listener) handle' place slot →
      Waits k.objects handle' place slot := by
    intro handle' place slot waits
    rcases waits_setListener waits with ⟨rfl, own⟩ | ⟨-, old⟩
    · exact fewer own
    · exact old
  refine held.withObjects (fun _ _ => id) inv.plain (fun _ _ slot waiting => ?_)
    fun _ _ _ _ slot first second => inv.unique _ _ _ _ slot (waits first) (waits second)
  exact { inv.pending _ _ _ (waits waiting) with }

theorem Held.bind (descriptor : Nat) (name : List UInt8) : Held (k.unixBind descriptor name).2 := by
  unfold unixBind
  dsimp only
  split
  · exact held
  split
  · exact held
  next unbound =>
  split
  · exact held
  split
  · exact held
  next _ _ =>
  obtain ⟨isOpen, isSocket, -⟩ := unboundSocket_iff.mp (by simpa using unbound)
  obtain ⟨standard, socket, pipe, epoll, tcp, -⟩ :=
    held.inv.formed _ _ held.sched.processes_current descriptor isOpen (.inl isSocket)
  refine Held.setFd ?_ descriptor ?_ (attached_plain rfl) ?_
  · exact held.setListener fun waits => absurd waits waits_empty
  · exact fun _ _ => ⟨standard, socket, pipe, epoll, tcp, rfl⟩
  rintro _ _ _ - ⟨-, isSocket', -⟩
  cases isSocket'

theorem Held.listen (descriptor : Nat) : Held (k.unixListen descriptor).2 := by
  unfold unixListen
  dsimp only
  split_ifs
  · exact held
  · exact held
  · exact held.setListener id
  · exact held

end

theorem enqueue_some {listener listener' : UnixListener} (h : enqueue listener slot = some listener') :
    ∃ place, ∀ {place' slot' : Nat}, listener'.backlog[place']? = some (some slot') →
      listener.backlog[place']? = some (some slot') ∨ place' = place ∧ slot' = slot := by
  unfold enqueue at h
  split at h
  · split at h
    · cases h
    · next place _ =>
      obtain rfl := Option.some.inj h
      refine ⟨place, fun {place' slot'} at_ => ?_⟩
      rw [List.getElem?_set] at at_
      split at at_
      · next same =>
        split at at_
        · exact .inr ⟨same.symm, by simpa using at_.symm⟩
        · cases at_
      · exact .inl at_
  · cases h

theorem Held.connect (held : Held k) (descriptor : Nat) (name : List UInt8) : Held (k.unixConnect descriptor name).2 := by
  have inv := held.inv
  unfold Kernel.unixConnect
  dsimp only
  split
  · exact held
  split
  · exact held
  next unbound =>
  split
  · exact held
  next listenerSlot _ =>
  split
  · exact held
  next slot objects made =>
  obtain ⟨inside, free, after⟩ := makePair_some made
  have unreferred := inv.unreferred free inside
  split
  · refine held.setPair unreferred {} (plain_empty rfl rfl rfl) ?_ (fun waits => .inl ?_) ?_
    · rw [after]
      exact update_idem _ _ _
    · rw [after] at waits
      exact ⟨waits, inv.waits_apart waits free⟩
    · rw [after]
      exact inv.unique
  next listener queued =>
  obtain ⟨place, added⟩ := enqueue_some queued
  have listeners : objects.listeners = k.objects.listeners := by rw [after]
  -- the only new entry of a backlog is the new pair's
  have waits : ∀ {handle place' slot'}, Waits (objects.setListener listenerSlot listener) handle place' slot' →
      Waits k.objects handle place' slot' ∨ slot' = slot ∧ handle = listenerSlot ∧ place' = place := by
    intro handle place' slot' waits
    rcases waits_setListener waits with ⟨rfl, own⟩ | ⟨-, old⟩
    · rcases added own with old | ⟨rfl, rfl⟩
      · rw [listeners] at old
        exact .inl old
      · exact .inr ⟨rfl, rfl, rfl⟩
    · unfold Waits at old
      rw [listeners] at old
      exact .inl old
  have held₁ : Held (k.withObjects (objects.setListener listenerSlot listener)) := by
    let message := (k.fds descriptor).handle == unixUnboundMessage
    refine held.setPair unreferred
      { used := true, message, endAOpen := true, endBOpen := true, serial := k.objects.nextSerial } (plain_empty rfl rfl rfl) ?_
      (fun waiting => ?_) ?_
    · rw [after]
      rfl
    · rcases waits waiting with old | ⟨rfl, -⟩
      · exact .inl ⟨old, inv.waits_apart old free⟩
      · exact .inr ⟨rfl, inside, rfl, rfl⟩
    intro handle place' _ _ slot' first second
    rcases waits first with old | ⟨rfl, rfl, rfl⟩ <;> rcases waits second with old' | ⟨same, rfl, rfl⟩
    · exact inv.unique _ _ _ _ _ old old'
    · exact absurd same (inv.waits_apart old free)
    · exact absurd rfl (inv.waits_apart old' free)
    · exact ⟨rfl, rfl⟩
  obtain ⟨isOpen, isSocket, -⟩ := unboundSocket_iff.mp (by simpa using unbound)
  have formed := inv.formed _ _ held.sched.processes_current descriptor isOpen (.inl isSocket)
  refine held₁.setFd descriptor (fun _ _ => formed) ?_ ?_
  · intro _
    rw [after]
    simp [Kernel.withObjects, Objects.setListener, UnixPair.endOpen, inside]
  · rintro _ _ slot' - ⟨-, -, -, side⟩
    cases side

theorem acceptApply_some {listener listener' : UnixListener}
    (h : unixAcceptApply listener = some (slot, listener')) :
    ∃ place, listener.backlog[place]? = some (some slot) ∧ ∀ {place' slot' : Nat}, listener'.backlog[place']? = some (some slot') →
      place' ≠ place ∧ listener.backlog[place']? = some (some slot') := by
  unfold unixAcceptApply at h
  split at h
  · cases h
  split at h
  · cases h
  next place _ =>
  obtain ⟨slot', taken, same⟩ := Option.map_eq_some_iff.mp h
  obtain ⟨rfl, rfl⟩ := Prod.mk.inj same
  have at_ : listener.backlog[place]? = some (some slot') := by
    cases entry : listener.backlog[place]? with
    | none => simp [entry] at taken
    | some _ => simpa [entry] using taken
  refine ⟨place, at_, fun {place' slot''} left => ?_⟩
  rw [List.getElem?_set] at left
  split at left
  · split at left <;> cases left
  · next apart => exact ⟨Ne.symm apart, left⟩

theorem Held.accept (held : Held k) (handle limit : Nat) (closeOnExec : Bool) (can : k.CanAccept handle limit) :
    Held (k.unixAccept handle limit closeOnExec).2 := by
  have inv := held.inv
  unfold Kernel.unixAccept
  split
  · exact held
  split
  · exact held
  next slot listener taken =>
  obtain ⟨place, waited, left⟩ := acceptApply_some taken
  obtain ⟨inside, used, endB, unowned⟩ := inv.pending handle place slot waited
  have held₁ := held.setListener fun waits => (left waits).2
  -- the pair that was taken is in no backlog any more
  have gone : ∀ handle' place' slot', Waits (k.objects.setListener handle listener) handle' place' slot' → slot' ≠ slot := by
    rintro handle' place' slot' waits rfl
    rcases waits_setListener waits with ⟨rfl, own⟩ | ⟨apart, old⟩
    · exact (left own).1 (inv.unique _ _ _ _ _ (left own).2 waited).2
    · exact apart (inv.unique _ _ _ _ _ old waited).1
  dsimp only
  split
  · next full =>
    have closed : (k.objects.pairs slot).endAOpen = false := by
      by_contra isOpen
      have free := can (pendingOpen_iff.mpr ⟨place, slot, waited, by simpa using isOpen⟩)
      have none : k.installProcessFd limit {} = none := by
        unfold Kernel.installUnixSocketFd Kernel.installProcessFd at full
        unfold Kernel.installProcessFd
        dsimp only [Kernel.withObjects] at full
        split at full
        · rfl
        split at full
        · next few => exact if_pos few
        · cases full
      rw [none] at free
      cases free
    have unreferred : ∀ side, ¬ k.processes.Some (EndOf slot side) := by
      intro side
      cases side with
      | true => exact unowned
      | false =>
        rintro ⟨_, table, here, d, insideD, isOpen, isSocket, handle', side⟩
        have connected : Connected (table d) := ⟨isOpen, isSocket, by rw [handle']; exact connected_of_inside inside⟩
        have open' := (inv.attached here insideD connected).2.2.2
        rw [handle', side] at open'
        change (k.objects.pairs slot).endAOpen = true at open'
        rw [closed] at open'
        cases open'
    refine held₁.setPair unreferred {} (plain_empty rfl rfl rfl) rfl (fun waits => .inl ⟨waits, ?_⟩) held₁.inv.unique
    exact gone _ _ _ waits
  · next installed =>
    refine (held₁.install installed (fun _ => ?_) fun _ _ _ waits _ => Ne.symm (gone _ _ _ waits)).2.2
    exact ⟨inside, used, rfl, endB⟩

theorem mem_setIncoming {pair : UnixPair} {endB endB' : Bool} {queue : List (Nat × UInt8)} {byte : Nat × UInt8}
    (mem : byte ∈ (pair.setIncoming endB queue).incoming endB') : byte ∈ queue ∨ byte ∈ pair.incoming endB' := by
  cases endB <;> cases endB' <;> simp_all [UnixPair.setIncoming, UnixPair.incoming]

/-- Only the bytes on their way differ. -/
def SameEnds (pair pair' : UnixPair) : Prop :=
  pair'.used = pair.used ∧ pair'.serial = pair.serial ∧ ∀ endB, pair'.endOpen endB = pair.endOpen endB

theorem setIncoming_kept {pair : UnixPair} (plain : Plain pair) (endB : Bool) {queue : List (Nat × UInt8)}
    (own : ∀ byte ∈ queue, byte.1 = pair.serial) :
    SameEnds pair (pair.setIncoming endB queue) ∧ Plain (pair.setIncoming endB queue) := by
  have serial : (pair.setIncoming endB queue).serial = pair.serial := by cases endB <;> rfl
  refine ⟨⟨by cases endB <;> rfl, serial, fun _ => by cases endB <;> rfl⟩, ?_, fun endB' byte mem => ?_⟩
  · rw [← plain.1]
    cases endB <;> rfl
  · rw [serial]
    exact (mem_setIncoming mem).elim (own byte) (plain.2 endB' byte)

theorem take_kept {pair : UnixPair} (plain : Plain pair) (endB : Bool) (room : Nat) :
    (SameEnds pair (pair.take endB room).2 ∧ Plain (pair.take endB room).2) ∧
      ∀ bytes, (pair.take endB room).1 = .done (.ok bytes) → ∀ byte ∈ bytes, byte.1 = pair.serial := by
  have own := plain.2 endB
  have same : SameEnds pair pair := ⟨rfl, rfl, fun _ => rfl⟩
  have rest (n : Nat) := setIncoming_kept plain endB fun byte mem => own byte (List.mem_of_mem_drop (i := n) mem)
  unfold UnixPair.take
  dsimp only
  split_ifs
  · exact ⟨⟨same, plain⟩, nofun⟩
  · refine ⟨rest _, ?_⟩
    rintro _ ⟨⟩ byte mem
    exact own byte (List.mem_of_mem_drop (List.mem_of_mem_take mem))
  · refine ⟨rest _, ?_⟩
    rintro _ ⟨⟩ byte mem
    exact own byte (List.mem_of_mem_take mem)
  · refine ⟨⟨same, plain⟩, ?_⟩
    rintro _ ⟨⟩ byte mem
    cases mem
  · exact ⟨⟨same, plain⟩, nofun⟩

theorem put_kept {pair : UnixPair} (plain : Plain pair) (endB : Bool) (source : List UInt8) :
    SameEnds pair (pair.put endB pair.serial source).2 ∧ Plain (pair.put endB pair.serial source).2 := by
  have same : SameEnds pair pair := ⟨rfl, rfl, fun _ => rfl⟩
  have sent (bytes : List UInt8) : ∀ byte ∈ pair.incoming (!endB) ++ bytes.map (Prod.mk pair.serial),
      byte.1 = pair.serial := by
    intro byte mem
    rcases List.mem_append.mp mem with old | new
    · exact plain.2 _ byte old
    · obtain ⟨_, -, rfl⟩ := List.mem_map.mp new
      rfl
  unfold UnixPair.put
  dsimp only
  split_ifs
  all_goals first
    | exact ⟨same, plain⟩
    | exact setIncoming_kept plain _ (sent _)

theorem Held.exchange (held : Held k) {pair : UnixPair} (same : SameEnds (k.objects.pairs slot) pair) (plain : Plain pair) :
    Held (k.withObjects (k.objects.setPair slot pair)) := by
  have ends : ∀ slot', SameEnds (k.objects.pairs slot') ((k.objects.setPair slot pair).pairs slot') := by
    intro slot'
    simp only [Objects.setPair, update_apply]
    split
    · next at_ => rwa [at_]
    · exact ⟨rfl, rfl, fun _ => rfl⟩
  refine held.withObjects (fun fd _ attached connected => ?_) (fun slot' => ?_) (fun listener place slot' waits => ?_)
    held.inv.unique
  · obtain ⟨inside, used, serial, isOpen⟩ := attached connected
    obtain ⟨used', serial', isOpen'⟩ := ends fd.handle
    exact ⟨inside, used'.trans used, serial'.trans serial, (isOpen' _).trans isOpen⟩
  · simp only [Objects.setPair, update_apply]
    split
    · exact plain
    · exact held.inv.plain slot'
  · obtain ⟨inside, used, endB, unowned⟩ := held.inv.pending _ _ _ waits
    obtain ⟨used', -, isOpen'⟩ := ends slot'
    exact ⟨inside, used'.trans used, (isOpen' true).trans endB, unowned⟩

/-- A call that still has its descriptor is on the connection it was made on. -/
theorem Held.serial_of_stillHas (held : Held k) (has : k.StillHas fd) :
    (k.objects.pairs fd.handle).serial = fd.serial := by
  obtain ⟨d, inside, connected, handle, -, serial⟩ := has
  rw [← handle, ← serial]
  exact (held.inv.attached held.sched.processes_current inside connected).2.2.1

theorem Held.read (held : Held k) (fd : ProcessFd) (room : Nat) : Held (k.unixRead fd room).2 := by
  unfold unixRead
  split
  · obtain ⟨⟨same, plain⟩, -⟩ := take_kept (held.inv.plain fd.handle) fd.unixEndB room
    exact held.exchange same plain
  · exact held

theorem Held.write (held : Held k) (source : List UInt8) (has : fd.handle < unixPairCount → k.StillHas fd) :
    Held (k.unixWrite fd source).2 := by
  unfold unixWrite
  split
  · next inside =>
    rw [← held.serial_of_stillHas (has inside)]
    obtain ⟨same, plain⟩ := put_kept (held.inv.plain fd.handle) fd.unixEndB source
    exact held.exchange same plain
  · exact held

theorem Held.readsOwn (held : Held k) {call : UnixCall} (keeps : k.KeepsClients call) : k.ReadsOwn call := by
  cases call with
  | read fd room =>
    intro bytes taken byte mem
    unfold unixRead at taken
    split at taken
    · next inside =>
      obtain ⟨d, bound, connected, handle, _, serial⟩ := keeps inside
      refine ⟨d, bound, connected, ?_⟩
      rw [serial, ← held.serial_of_stillHas (keeps inside)]
      exact ((take_kept (held.inv.plain fd.handle) fd.unixEndB room).2 bytes taken byte mem).symm
    · cases taken
  | _ => trivial

theorem Held.step (held : Held k) (call : UnixCall) (keeps : k.KeepsClients call) : Held (k.unixStep call) := by
  cases call with
  | common call => exact held.common call keeps
  | socketpair limit message closeOnExec nonblocking copied =>
    exact held.socketpair limit message closeOnExec nonblocking copied
  | socket limit message closeOnExec nonblocking => exact held.socket limit message closeOnExec nonblocking
  | bind descriptor name => exact held.bind descriptor name
  | listen descriptor => exact held.listen descriptor
  | connect descriptor name => exact held.connect descriptor name
  | accept descriptor limit closeOnExec =>
    simp only [unixStep, linuxAccept]
    cases looked : k.lookupProcessFd descriptor with
    | none => exact held
    | some fd =>
      obtain ⟨-, -, rfl⟩ := lookup_some looked
      dsimp only
      split
      · exact held
      · exact held.accept _ limit closeOnExec keeps
  | acceptAgain handle limit closeOnExec => exact held.accept handle limit closeOnExec keeps
  | openOther limit fd =>
    simp only [unixStep]
    split
    · next kind => exact held.openOther limit kind.1 kind.2
    · exact held
  | read fd room => exact held.read fd room
  | write fd source => exact held.write source keeps

theorem unixInv_boot : UnixInv boot.system := by
  refine ⟨?_, ?_, fun _ => plain_empty rfl rfl rfl, fun _ _ _ waits => absurd waits waits_empty, fun _ _ _ _ _ waits => absurd waits waits_empty⟩
  · intro process table found d
    rw [processes_boot found]
    exact unixFormed_plain (initialProcessFds_notUnix d).1 (initialProcessFds_notUnix d).2
  rintro ⟨process, table, found, d, -, stray⟩
  rw [processes_boot found] at stray
  exact stray_console d stray

/-- In every run in which no listener is closed for the last time, and no `accept` fails, while a client
has a connection of the backlog open, and in which reads and writes go on only while their descriptor is there, every
connected descriptor refers to its own connection in every state, and every read returns bytes of such a one. -/
theorem connections_kept_of_clients (calls : List UnixCall)
    (keeps : Lib.Run.Along Kernel.unixStep Kernel.KeepsClients Kernel.boot calls) :
    Lib.Run.Throughout Kernel.unixStep ConnectionsKept Kernel.boot calls ∧
    Lib.Run.Along Kernel.unixStep Kernel.ReadsOwn Kernel.boot calls := by
  have kept : ∀ (k : Kernel) call, Held k → k.KeepsClients call → Held (k.unixStep call) :=
    fun k call held keeps => held.step call keeps
  refine ⟨Lib.Run.throughout_of_along kept (fun k held _ _ here d inside => held.inv.attached here inside)
    ⟨sched_boot, unixInv_boot⟩ keeps, ?_⟩
  exact Lib.Run.along_of_along kept (fun _ _ held keeps => held.readsOwn keeps) ⟨sched_boot, unixInv_boot⟩ keeps

/-- The client writes, and what `accept` returned is read. -/
def acceptedClient : List UnixCall :=
  [.common .start, .common (.switch 1 false), .socket 64 false false false, .bind 3 [97], .listen 3,
    .socket 64 false false false, .connect 4 [97], .accept 3 64 false, .common (.close 3),
    .write (unixFd 0 1 false false false) [98], .read (unixFd 0 1 true false false) 1]

theorem acceptedClient_kept :
    Lib.Run.Throughout Kernel.unixStep ConnectionsKept Kernel.boot acceptedClient ∧
    Lib.Run.Along Kernel.unixStep Kernel.ReadsOwn Kernel.boot acceptedClient := by
  refine connections_kept_of_clients acceptedClient
    ⟨fun _ _ h => h.elim, fun _ _ h => h.elim, trivial, trivial, trivial, trivial, trivial, fun _ => by decide +kernel, ?_,
      fun _ => ⟨4, ?_⟩, fun _ => ⟨5, ?_⟩, trivial⟩
  · rintro d handle rfl ⟨-, -, rfl⟩ ⟨slot, mem, -⟩
    -- nothing waits any more when the listener is closed
    let k := Lib.Run.final unixStep boot (acceptedClient.take 8)
    have waits : some slot ∈ (k.objects.listeners (k.fds 3).handle).backlog := mem
    have none : (k.objects.listeners (k.fds 3).handle).backlog = List.replicate unixListenerBacklog none := by decide +kernel
    rw [none] at waits
    simp at waits
  all_goals
    unfold Connected
    decide +kernel

/-- The listener is closed before it accepts, and a new pair gets the slot. -/
def strandedClient : List UnixCall :=
  [.common .start, .common (.switch 1 false), .socket 64 false false false, .bind 3 [97], .listen 3,
    .socket 64 false false false, .connect 4 [97], .common (.close 3), .socketpair 64 false false false true]

theorem strandedClient_other_connection :
    ¬ ConnectionsKept (Lib.Run.final Kernel.unixStep Kernel.boot strandedClient) := by
  intro kept
  have table : (Lib.Run.final unixStep boot strandedClient).processes 1 =
      some (Lib.Run.final unixStep boot strandedClient).fds := by
    refine processes_eq_some.mpr ⟨by decide +kernel, ?_⟩
    exact (if_pos (by decide +kernel)).symm
  have connected : Connected ((Lib.Run.final unixStep boot strandedClient).fds 4) :=
    ⟨by decide +kernel, by decide +kernel, by decide +kernel⟩
  have serial := (kept 1 _ table 4 (by decide) connected).2.2.1
  exact absurd serial (by decide +kernel)

end AerOS.Proof.Descriptors
