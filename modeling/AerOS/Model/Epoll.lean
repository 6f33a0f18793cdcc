import Mathlib.Data.List.Basic

/-!
# The watches of an epoll instance (`kernel/src/syscall.rs`)

`scanFrom` gives for every watch what the scan reports of it and the watch as the scan leaves it. What
`fd_ready_events` answers is an argument.
-/

namespace AerOS.Epoll

abbrev Events := BitVec 32

def epollIn : Events := 0x001
def epollErr : Events := 0x008
def epollHup : Events := 0x010
def epollOneshot : Events := 1 <<< 30
def epollEt : Events := 1 <<< 31
def epollFlags : Events := epollOneshot ||| 1 <<< 31 ||| 1 <<< 29 ||| 1 <<< 28

structure EpollWatch where
  fd : Int
  events : Events
  data : UInt64
  seen : Events
deriving DecidableEq

def EpollWatch.empty : EpollWatch := ⟨-1, 0, 0, 0⟩

inductive Op where
  | add
  | delete
  | modify
  | unknown
deriving DecidableEq

def slotOf (watches : List EpollWatch) (fd : Int) : Option Nat := watches.findIdx? fun watch => watch.fd = fd

def epollCtlApply (watches : List EpollWatch) (op : Op) (fd : Int) (events : Events) (data : UInt64) :
    Except Nat (List EpollWatch) :=
  match op with
  | .delete =>
    match slotOf watches fd with
    | none => .error 2
    | some slot => .ok (watches.set slot .empty)
  | .add =>
    if (slotOf watches fd).isSome then .error 17
    else
      match slotOf watches (-1) with
      | none => .error 28
      | some slot => .ok (watches.set slot ⟨fd, events, data, 0⟩)
  | .modify =>
    match slotOf watches fd with
    | none => .error 2
    | some slot => .ok (watches.set slot ⟨fd, events, data, 0⟩)
  | .unknown => .error 22

/-- One turn of the loop of `epoll_scan`; `full` says that the output has no room left. -/
def scanWatch (ready : Nat → Events) (full : Bool) (watch : EpollWatch) : Events × EpollWatch :=
  let disarmed := watch.events &&& epollOneshot ≠ 0 ∧ watch.events &&& ~~~epollFlags = 0
  if watch.fd < 0 ∨ full ∨ disarmed then (0, watch)
  else
    let now := ready watch.fd.toNat &&& (watch.events ||| epollErr ||| epollHup)
    let edge := watch.events &&& epollEt ≠ 0
    let report := if edge then now &&& ~~~watch.seen else now
    let shot := report ≠ 0 ∧ watch.events &&& epollOneshot ≠ 0
    (report, { watch with
      events := if shot then watch.events &&& epollFlags else watch.events
      seen := if edge then now else watch.seen })

def scanFrom (ready : Nat → Events) (room : Nat) : Nat → List EpollWatch → List (Events × EpollWatch)
  | _, [] => []
  | count, watch :: rest =>
    let turn := scanWatch ready (room ≤ count) watch
    turn :: scanFrom ready room (if turn.1 = 0 then count else count + 1) rest

/-- The events and data that `epoll_wait` gets, and the watches afterwards. -/
def epollScan (ready : Nat → Events) (room : Nat) (watches : List EpollWatch) :
    List (Events × UInt64) × List EpollWatch :=
  let turns := scanFrom ready room 0 watches
  ((turns.filter fun turn => turn.1 ≠ 0).map fun turn => (turn.1, turn.2.data), turns.map Prod.snd)

end AerOS.Epoll
