import AerOS.Lib.Run
import AerOS.Model.Epoll

/-!
# Edges of a watched source

The watch belongs to a descriptor, which each process looks up in its own table. What else a source is ready for may be
anything at any scan.
-/

namespace AerOS.Epoll
open Function

structure State where
  watches : List EpollWatch
  /-- The bytes that wait at each source. -/
  unread : Nat → Nat
  /-- The followed source has become readable since it was last reported. -/
  risen : Bool

/-- A scan of `epoll_wait`: the sources behind the caller's descriptors, and whether the events can be copied to the
caller, who gets an error if not. -/
structure Scan where
  view : Nat → Option Nat
  room : Nat
  others : Nat → Events
  copied : Bool

inductive Label where
  | ctl (op : Op) (fd : Nat) (events : Events) (data : UInt64)
  | scan (scan : Scan)
  | arrive (source amount : Nat)
  | read (source amount : Nat)

def State.ready (s : State) (scan : Scan) (fd : Nat) : Events :=
  (scan.others fd &&& ~~~epollIn) ||| if (scan.view fd).any fun source => 0 < s.unread source then epollIn else 0

def State.turns (s : State) (scan : Scan) : List (Events × EpollWatch) :=
  scanFrom (s.ready scan) scan.room 0 s.watches

/-- Whether the caller is told EPOLLIN (bit 0) for the watch. -/
def State.reports (s : State) (slot : Nat) (scan : Scan) : Bool :=
  scan.copied && (s.turns scan)[slot]?.any fun turn => turn.1.getLsbD 0

def State.Room (s : State) (slot : Nat) (scan : Scan) : Prop :=
  ((s.turns scan).take slot).countP (fun turn => turn.1 ≠ 0) < scan.room

instance (s : State) (slot : Nat) (scan : Scan) : Decidable (s.Room slot scan) := inferInstanceAs (Decidable (_ < _))

def step (slot source : Nat) (s : State) : Label → State
  | .ctl op other events data =>
    match epollCtlApply s.watches op other events data with
    | .ok watches => { s with watches }
    | .error _ => s
  | .scan scan =>
    { s with
      watches := (epollScan (s.ready scan) scan.room s.watches).2
      risen := s.risen && !s.reports slot scan }
  | .arrive other amount =>
    { s with
      unread := update s.unread other (s.unread other + amount)
      risen := s.risen || decide (other = source ∧ s.unread source = 0 ∧ 0 < amount) }
  | .read other amount => { s with unread := update s.unread other (s.unread other - amount) }

/-- A scan with room reports the source exactly when it has data and has become readable since it was last
reported. -/
def EdgeExact (slot source : Nat) (s : State) : Label → Prop
  | .scan scan => s.Room slot scan → (s.reports slot scan ↔ s.risen ∧ 0 < s.unread source)
  | _ => True

/-- The watch as `epoll_ctl` makes it, with EPOLLIN and EPOLLET and without EPOLLONESHOT. -/
def Fresh (slot fd source : Nat) (s : State) : Prop :=
  ∃ events data, s.watches[slot]? = some ⟨fd, events, data, 0⟩ ∧ events.getLsbD 0 ∧ events &&& epollEt ≠ 0 ∧
    events &&& epollOneshot = 0 ∧ s.risen = decide (0 < s.unread source)

/-- The watch is left alone by `epoll_ctl`, whoever scans has the source behind the descriptor and gets the events,
and when data comes to the drained source, the last scan that looked at it had found it drained. -/
def Sampled (slot fd source : Nat) (s : State) : Label → Prop
  | .ctl _ other _ _ => other ≠ fd
  | .scan scan => scan.view fd = some source ∧ scan.copied = true
  | .arrive other amount => other = source → s.unread source = 0 → 0 < amount →
    ∀ watch, s.watches[slot]? = some watch → watch.seen.getLsbD 0 = false
  | .read _ _ => True

end AerOS.Epoll
