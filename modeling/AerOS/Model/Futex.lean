import Mathlib.Algebra.Order.Ring.Int
import Mathlib.Data.Fintype.Pi
import Mathlib.Data.List.MinMax

/-!
# Futexes (`kernel/src/syscall/futex.rs`)

What the scheduler, the clock and user memory answer is an input of the call. Where the source counts the waiters
it wakes or moves, the functions here give their sequence numbers, oldest first. `blockTurn` is one turn of the
loop of `block` after its yield.
-/

namespace AerOS.Futex
open Function

def waiterCount : Nat := 64

def waitersBit : UInt32 := 0x80000000

def ownerDied : UInt32 := 0x40000000

def tidMask : UInt32 := 0x3fffffff

def clockRealtimeFlag : UInt64 := 0x100

def allBits : UInt32 := 0xffffffff

structure Waiter where
  used : Bool
  group : UInt64
  address : UInt64
  bitset : UInt32
  task : UInt64
  woken : Bool
  owner : UInt32
  savedNice : Int
  sequence : Nat
deriving DecidableEq

def Waiter.empty : Waiter := ⟨false, 0, 0, 0, 0, false, 0, 0, 0⟩

abbrev Slot := Fin waiterCount

structure Table where
  waiters : Slot → Waiter
  sequence : Nat
deriving DecidableEq

def Table.empty : Table := ⟨fun _ => .empty, 0⟩

/-- A futex word: the process and the address, or group zero and the physical address. -/
abbrev Key := UInt64 × UInt64

abbrev Result := Except Nat Nat

inductive Enqueued where
  | queued (slot : Slot)
  | full
  | overflow
deriving DecidableEq

def dropGone (live : UInt64 → Bool) (waiters : Slot → Waiter) : Slot → Waiter := fun slot =>
  if (waiters slot).used && !live (waiters slot).task then .empty else waiters slot

def freeSlot (waiters : Slot → Waiter) : Option Slot :=
  (List.finRange waiterCount).find? fun slot => !(waiters slot).used

def enqueue (live : UInt64 → Bool) (task : UInt64) (word : Key) (bitset owner : UInt32) (savedNice : Int)
    (table : Table) : Enqueued × Table :=
  let waiters := dropGone live table.waiters
  match freeSlot waiters with
  | none => (.full, { table with waiters := waiters })
  | some slot =>
    let sequence := table.sequence + 1
    if sequence < 2 ^ 64 then
      (.queued slot,
        { waiters := update waiters slot
            { used := true, group := word.1, address := word.2, bitset := bitset, task := task, woken := false,
              owner := owner, savedNice := savedNice, sequence := sequence }
          sequence := sequence })
    else (.overflow, { table with waiters := waiters })

def dequeue (slot : Slot) (table : Table) : Table :=
  { table with waiters := update table.waiters slot .empty }

def Waiter.waitsOn (live : UInt64 → Bool) (word : Key) (waiter : Waiter) : Bool :=
  waiter.used && !waiter.woken && waiter.owner == 0 && waiter.group == word.1 && waiter.address == word.2 &&
    live waiter.task

def mark (slot : Slot) (table : Table) : Table :=
  { table with waiters := update table.waiters slot { table.waiters slot with woken := true } }

def oldest (p : Waiter → Bool) (table : Table) : Option Slot :=
  ((List.finRange waiterCount).filter fun slot => p (table.waiters slot)).argmin
    fun slot => (table.waiters slot).sequence

def wake (live : UInt64 → Bool) (word : Key) (bitset : UInt32) : Nat → Table → List Nat × Table
  | 0, table => ([], table)
  | count + 1, table =>
    match oldest (fun waiter => waiter.waitsOn live word && waiter.bitset &&& bitset != 0) table with
    | none => ([], table)
    | some slot =>
      let (woken, after) := wake live word bitset count (mark slot table)
      ((table.waiters slot).sequence :: woken, after)

def moveTo (slot : Slot) (word : Key) (table : Table) : Table :=
  { table with waiters := update table.waiters slot { table.waiters slot with group := word.1, address := word.2 } }

def moveWaiters (live : UInt64 → Bool) (source target : Key) : List Slot → Nat → Table → List Nat × Table
  | [], _, table => ([], table)
  | _, 0, table => ([], table)
  | slot :: slots, count + 1, table =>
    if (table.waiters slot).waitsOn live source then
      let (moved, after) := moveWaiters live source target slots count (moveTo slot target table)
      ((table.waiters slot).sequence :: moved, after)
    else moveWaiters live source target slots (count + 1) table

def blockTurn (slot : Slot) (limit : Option Nat) (interrupted : Bool) (now : Nat) (table : Table) :
    Option Result × Table :=
  if (table.waiters slot).woken then (some (.ok 0), dequeue slot table)
  else if interrupted then (some (.error 4), dequeue slot table)
  else if limit.any fun limit => decide (limit ≤ now) then (some (.error 110), dequeue slot table)
  else (none, table)

structure Env where
  task : UInt64
  group : UInt64
  now : Nat
  wall : Nat
  live : UInt64 → Bool
  /-- `range_accessible(address, 4, true)`. -/
  accessible : UInt64 → Bool
  readWord : UInt64 → Option UInt32
  writable : UInt64 → Bool
  /-- The seconds and nanoseconds of a `timespec` in user memory. -/
  timespec : UInt64 → Option (Int × Int)
  sharedPhysical : UInt64 → Option UInt64
  /-- The nice value a task had before `boost_nice` raised it to the caller's. -/
  boosted : UInt64 → Int

def saturate (value : Nat) : Nat := min value (2 ^ 64 - 1)

def deadline (env : Env) (address : UInt64) (absolute realtime : Bool) : Except Nat (Option Nat) :=
  if address = 0 then .ok none
  else match env.timespec address with
    | none => .error 14
    | some (seconds, nanoseconds) =>
      if seconds < 0 ∨ ¬(0 ≤ nanoseconds ∧ nanoseconds < 1000000000) then .error 22
      else
        let value := saturate (saturate (seconds.toNat * 1000000000) + nanoseconds.toNat)
        .ok (some
          (if !absolute then saturate (env.now + value)
          else if realtime then saturate (env.now + (value - saturate env.wall))
          else value))

def countOf (value : UInt64) : Nat := if value.toUInt32.toNat < 2 ^ 31 then value.toUInt32.toNat else 0

def key (env : Env) (operation address : UInt64) : Key :=
  if operation &&& 0x80 = 0 then
    match env.sharedPhysical address with
    | some physical => (0, physical)
    | none => (env.group, address)
  else (env.group, address)

def updated (encoded old : UInt32) : Option UInt32 :=
  let field := ((encoded >>> 12) &&& 0xfff).toInt32 <<< 20 >>> 20
  let argument := if encoded &&& 0x80000000 ≠ 0 then (1 : Int32) <<< (field &&& 31) else field
  let code := (encoded >>> 28) &&& 7
  if code = 0 then some argument.toUInt32
  else if code = 1 then some (old.toInt32 + argument).toUInt32
  else if code = 2 then some (old.toInt32 ||| argument).toUInt32
  else if code = 3 then some (old.toInt32 &&& ~~~argument).toUInt32
  else if code = 4 then some (old.toInt32 ^^^ argument).toUInt32
  else none

def compared (encoded old : UInt32) : Option Bool :=
  let comparand := (encoded &&& 0xfff).toInt32 <<< 20 >>> 20
  let old := old.toInt32
  let code := (encoded >>> 24) &&& 15
  if code = 0 then some (old == comparand)
  else if code = 1 then some (old != comparand)
  else if code = 2 then some (decide (old < comparand))
  else if code = 3 then some (decide (old ≤ comparand))
  else if code = 4 then some (decide (comparand < old))
  else if code = 5 then some (decide (comparand ≤ old))
  else none

structure Arguments where
  address : UInt64
  operation : UInt64
  value : UInt64
  timeout : UInt64
  address2 : UInt64
  value3 : UInt64

abbrev Memory := UInt64 → Option UInt32

inductive After where
  | wait
  | lock (address : UInt64) (owner : UInt32) (saved : Int)
deriving DecidableEq

inductive Reply where
  | returned (result : Result)
  | blocked (slot : Slot) (limit : Option Nat) (after : After)
  | panicked
deriving DecidableEq

inductive Event where
  | queued (sequence : Nat) (word : Key) (bitset : UInt32)
  | woke (word : Key) (bitset : UInt32) (count : Nat) (woken : List Nat)
  | moved (word : Key) (moved : List Nat)
  | returned (sequence : Nat) (result : Result)
deriving DecidableEq

structure Effect where
  reply : Reply
  events : List Event
  memory : Memory
  table : Table

def Effect.fail (env : Env) (table : Table) (errno : Nat) : Effect :=
  ⟨.returned (.error errno), [], env.readWord, table⟩

def secondWordFault (env : Env) (address2 : UInt64) : Option Nat :=
  if address2 &&& 3 ≠ 0 then some 22 else if !env.accessible address2 then some 14 else none

def wait (env : Env) (a : Arguments) (word : Key) (table : Table) : Effect :=
  let isBitset := a.operation &&& 0x7f == 9
  let bitset := if isBitset then a.value3.toUInt32 else allBits
  if bitset = 0 then .fail env table 22
  else match env.readWord a.address with
    | none => .fail env table 14
    | some observed =>
      if observed ≠ a.value.toUInt32 then .fail env table 11
      else match deadline env a.timeout isBitset (a.operation &&& clockRealtimeFlag != 0) with
        | .error errno => .fail env table errno
        | .ok limit =>
          match enqueue env.live env.task word bitset 0 0 table with
          | (.queued slot, after) =>
            ⟨.blocked slot limit .wait, [.queued after.sequence word bitset], env.readWord, after⟩
          | (.full, after) => .fail env after 12
          | (.overflow, after) => ⟨.panicked, [], env.readWord, after⟩

def wakeCall (env : Env) (a : Arguments) (word : Key) (table : Table) : Effect :=
  let bitset := if a.operation &&& 0x7f = 10 then a.value3.toUInt32 else allBits
  if bitset = 0 then .fail env table 22
  else
    let (woken, after) := wake env.live word bitset (countOf a.value) table
    ⟨.returned (.ok woken.length), [.woke word bitset (countOf a.value) woken], env.readWord, after⟩

def requeue (env : Env) (source target : Key) (wakeCount moveCount : Nat) (table : Table) : Effect :=
  let (woken, between) := wake env.live source allBits wakeCount table
  let (moved, after) := moveWaiters env.live source target (List.finRange waiterCount) moveCount between
  ⟨.returned (.ok (woken.length + moved.length)), [.woke source allBits wakeCount woken, .moved target moved],
    env.readWord, after⟩

def requeueCall (env : Env) (a : Arguments) (word : Key) (table : Table) : Effect :=
  match secondWordFault env a.address2 with
  | some errno => .fail env table errno
  | none =>
    let proceed := requeue env word (key env a.operation a.address2) (countOf a.value) (countOf a.timeout) table
    if a.operation &&& 0x7f = 4 then
      match env.readWord a.address with
      | none => .fail env table 14
      | some observed => if observed = a.value3.toUInt32 then proceed else .fail env table 11
    else proceed

def wakeOp (env : Env) (a : Arguments) (word : Key) (table : Table) : Effect :=
  match secondWordFault env a.address2 with
  | some errno => .fail env table errno
  | none =>
    let encoded := a.value3.toUInt32
    match env.readWord a.address2 with
    | none => .fail env table 14
    | some old =>
      match updated encoded old with
      | none => .fail env table 38
      | some value =>
        if !env.writable a.address2 then .fail env table 14
        else
          let memory := update env.readWord a.address2 (some value)
          match compared encoded old with
          | none => ⟨.returned (.error 38), [], memory, table⟩
          | some holds =>
            let (woken, between) := wake env.live word allBits (countOf a.value) table
            let first : Event := .woke word allBits (countOf a.value) woken
            if holds then
              let second := key env a.operation a.address2
              let (more, after) := wake env.live second allBits (countOf a.timeout) between
              ⟨.returned (.ok (woken.length + more.length)),
                [first, .woke second allBits (countOf a.timeout) more], memory, after⟩
            else ⟨.returned (.ok woken.length), [first], memory, between⟩

def lockTurn (env : Env) (address : UInt64) (limit : Option Nat) (waited : Bool) (table : Table) : Effect :=
  let me := env.task.toUInt32
  match env.readWord address with
  | none => .fail env table 14
  | some word =>
    let owner := word &&& tidMask
    if owner = 0 ∨ !env.live owner.toUInt64 then
      let kept := if owner = 0 then 0 else ownerDied
      if env.writable address then
        ⟨.returned (.ok 0), [],
          update env.readWord address (some (me ||| kept ||| (word &&& waitersBit))), table⟩
      else .fail env table 14
    else if owner = me then
      if waited then ⟨.returned (.ok 0), [], env.readWord, table⟩ else .fail env table 35
    else
      let saved := env.boosted owner.toUInt64
      if !env.writable address then .fail env table 14
      else
        let memory := update env.readWord address (some (word ||| waitersBit))
        match enqueue env.live env.task (env.group, address) allBits owner saved table with
        | (.queued slot, after) => ⟨.blocked slot limit (.lock address owner saved), [], memory, after⟩
        | (.full, after) => ⟨.returned (.error 12), [], memory, after⟩
        | (.overflow, after) => ⟨.panicked, [], memory, after⟩

def lockPi (env : Env) (address timeout : UInt64) (realtime : Bool) (table : Table) : Effect :=
  match deadline env timeout true realtime with
  | .error errno => .fail env table errno
  | .ok limit => lockTurn env address limit false table

def Waiter.waitsFor (live : UInt64 → Bool) (word : Key) (owner : UInt32) (waiter : Waiter) : Bool :=
  waiter.used && !waiter.woken && waiter.owner == owner && waiter.group == word.1 && waiter.address == word.2 &&
    live waiter.task

def passOn (address : UInt64) (me next : UInt32) (table : Table) : Table :=
  { table with
    waiters := fun slot =>
      let waiter := table.waiters slot
      if waiter.used && !waiter.woken && waiter.owner == me && waiter.address == address then
        { waiter with owner := next }
      else waiter }

def unlockPi (env : Env) (address : UInt64) (table : Table) : Effect :=
  let me := env.task.toUInt32
  match env.readWord address with
  | none => .fail env table 14
  | some word =>
    if word &&& tidMask ≠ me then .fail env table 1
    else
      let waits := Waiter.waitsFor env.live (env.group, address) me
      let waiting := (List.finRange waiterCount).countP fun slot => waits (table.waiters slot)
      let (newWord, after) :=
        match oldest waits table with
        | some slot =>
          let next := (table.waiters slot).task.toUInt32
          (next ||| (if 1 < waiting then waitersBit else 0), passOn address me next (mark slot table))
        | none => (0, table)
      if env.writable address then
        ⟨.returned (.ok 0), [], update env.readWord address (some newWord), after⟩
      else .fail env after 14

def tryLockPi (env : Env) (address : UInt64) (table : Table) : Effect :=
  let me := env.task.toUInt32
  match env.readWord address with
  | none => .fail env table 14
  | some word =>
    if word = 0 then
      if env.writable address then
        ⟨.returned (.ok 0), [], update env.readWord address (some me), table⟩
      else .fail env table 14
    else if word &&& tidMask = me then .fail env table 35
    else .fail env table 11

def operate (env : Env) (a : Arguments) (table : Table) : Effect :=
  if a.operation &&& ~~~(0x7f ||| 0x80 ||| clockRealtimeFlag) ≠ 0 then .fail env table 22
  else if a.address &&& 3 ≠ 0 then .fail env table 22
  else if !env.accessible a.address then .fail env table 14
  else
    let word := key env a.operation a.address
    let code := a.operation &&& 0x7f
    if code = 0 ∨ code = 9 then wait env a word table
    else if code = 1 ∨ code = 10 then wakeCall env a word table
    else if code = 3 ∨ code = 4 then requeueCall env a word table
    else if code = 5 then wakeOp env a word table
    else if code = 6 then lockPi env a.address a.timeout (a.operation &&& clockRealtimeFlag != 0) table
    else if code = 7 then unlockPi env a.address table
    else if code = 8 then tryLockPi env a.address table
    else .fail env table 38

def robustLimit : Nat := 2048

structure RobustList where
  head : UInt64
  first : UInt64
  offset : UInt64
  pending : UInt64
  next : UInt64 → Option UInt64

def abandon (env : Env) (list : RobustList) (tid : UInt32) (entry : UInt64) (memory : Memory) (table : Table) :
    Memory × Table :=
  let address := entry + list.offset
  match memory address with
  | none => (memory, table)
  | some word =>
    if word &&& tidMask ≠ tid then (memory, table)
    else if env.writable address then
      let memory := update memory address (some ((word &&& waitersBit) ||| ownerDied))
      if word &&& waitersBit ≠ 0 then (memory, (wake env.live (env.group, address) allBits 1 table).2)
      else (memory, table)
    else (memory, table)

def walkRobust (env : Env) (list : RobustList) (tid : UInt32) :
    Nat → UInt64 → Memory → Table → Memory × Table
  | 0, _, memory, table => (memory, table)
  | turns + 1, entry, memory, table =>
    if entry = list.head ∨ entry = 0 then (memory, table)
    else
      let (memory, table) :=
        if entry ≠ list.pending then abandon env list tid entry memory table else (memory, table)
      match list.next entry with
      | none => (memory, table)
      | some next => walkRobust env list tid turns next memory table

def robustCleanup (env : Env) (list : RobustList) (tid : UInt32) (table : Table) : Memory × Table :=
  let (memory, table) := walkRobust env list tid robustLimit list.first env.readWord table
  if list.pending ≠ 0 then abandon env list tid list.pending memory table else (memory, table)

end AerOS.Futex
