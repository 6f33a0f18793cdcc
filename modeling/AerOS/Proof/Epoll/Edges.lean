import AerOS.Spec.Epoll

namespace AerOS.Proof.Epoll
open AerOS.Epoll Lib Function

variable {slot fd source : Nat} {s : State} {scan : Scan} {watch : EpollWatch}

theorem scanFrom_getElem (ready : Nat → Events) (room : Nat) (watches : List EpollWatch) (slot count : Nat) :
    (scanFrom ready room count watches)[slot]? = watches[slot]?.map (scanWatch ready
      (decide (room ≤ count + ((scanFrom ready room count watches).take slot).countP (fun turn => turn.1 ≠ 0)))) := by
  induction watches generalizing slot count with
  | nil => rfl
  | cons watch rest ih =>
    cases slot with
    | zero => simp [scanFrom]
    | succ slot =>
      simp only [scanFrom, List.getElem?_cons_succ, List.take_succ_cons, List.countP_cons, ih]
      congr 3
      grind

/-- The followed watch, and that its last sample tells whether the source has been reported. -/
structure Follows (slot fd source : Nat) (s : State) (watch : EpollWatch) : Prop where
  here : s.watches[slot]? = some watch
  descriptor : watch.fd = fd
  input : watch.events.getLsbD 0 = true
  edge : watch.events &&& epollEt ≠ 0
  armed : watch.events &&& epollOneshot = 0
  unreported : s.risen = true → watch.seen.getLsbD 0 = false
  reported : s.risen = false → 0 < s.unread source → watch.seen.getLsbD 0 = true

theorem turn_here (here : s.watches[slot]? = some watch) (scan : Scan) :
    (s.turns scan)[slot]? = some (scanWatch (s.ready scan) (decide ¬ s.Room slot scan) watch) := by
  have turn := scanFrom_getElem (s.ready scan) scan.room s.watches slot 0
  rw [here, Option.map_some, Nat.zero_add] at turn
  simp only [State.Room, Nat.not_lt]
  exact turn

def now (watch : EpollWatch) (ready : Events) : Events := ready &&& (watch.events ||| epollErr ||| epollHup)

theorem Follows.scanWatch_room (h : Follows slot fd source s watch) (ready : Nat → Events) : scanWatch ready false watch =
    (now watch (ready fd) &&& ~~~watch.seen, { watch with seen := now watch (ready fd) }) := by
  have edge : watch.events &&& epollEt ≠ 0#32 := h.edge
  have nonnegative : ¬ (fd : Int) < 0 := Int.not_lt.mpr (Int.natCast_nonneg fd)
  simp [scanWatch, now, nonnegative, h.descriptor, edge, h.armed]

theorem Follows.now_in (h : Follows slot fd source s watch) (view : scan.view fd = some source) :
    (now watch (s.ready scan fd)).getLsbD 0 = decide (0 < s.unread source) := by
  have input := h.input
  by_cases data : 0 < s.unread source <;> simp [now, State.ready, view, data, input, epollIn]

theorem Follows.reports (h : Follows slot fd source s watch) (sampled : Sampled slot fd source s (.scan scan))
    (fits : s.Room slot scan) : s.reports slot scan = (s.risen && decide (0 < s.unread source)) := by
  rw [State.reports, turn_here h.here, Option.any_some, decide_eq_false (not_not.mpr fits), h.scanWatch_room]
  rw [BitVec.getLsbD_and, h.now_in sampled.1, BitVec.getLsbD_not, sampled.2, Bool.true_and]
  have unreported := h.unreported
  have reported := h.reported
  cases risen : s.risen <;> grind

theorem Follows.exact (h : Follows slot fd source s watch) {label : Label} (sampled : Sampled slot fd source s label) :
    EdgeExact slot source s label := by
  cases label with
  | scan scan =>
    intro fits
    simp [h.reports sampled fits]
  | _ => trivial

theorem Follows.scanned (h : Follows slot fd source s watch) (sampled : Sampled slot fd source s (.scan scan)) :
    ∃ watch, Follows slot fd source (step slot source s (.scan scan)) watch := by
  have turn := turn_here h.here scan
  have place : (step slot source s (.scan scan)).watches[slot]? =
      some (scanWatch (s.ready scan) (decide ¬ s.Room slot scan) watch).2 := by
    simp only [step, epollScan, List.getElem?_map]
    exact congrArg (Option.map Prod.snd) turn
  by_cases fits : s.Room slot scan
  · rw [decide_eq_false (not_not.mpr fits), h.scanWatch_room] at place
    refine ⟨_, place, h.descriptor, h.input, h.edge, h.armed, ?_, ?_⟩
    · intro risen
      rw [h.now_in sampled.1, decide_eq_false]
      intro data
      simp [step, h.reports sampled fits, data] at risen
    · rw [h.now_in sampled.1]
      exact fun _ data => decide_eq_true data
  · rw [decide_eq_true fits] at place turn
    have quiet : s.reports slot scan = false := by
      simp [State.reports, turn, scanWatch]
    have same : (scanWatch (s.ready scan) true watch).2 = watch := by simp [scanWatch]
    rw [same] at place
    refine ⟨watch, place, h.descriptor, h.input, h.edge, h.armed, ?_, ?_⟩
    · simpa [step, quiet] using h.unreported
    · simpa [step, quiet] using h.reported

theorem slotOf_apart {watches : List EpollWatch} {found : Nat} {other : Int} (h : watches[slot]? = some watch)
    (different : watch.fd ≠ other) (search : slotOf watches other = some found) : found ≠ slot := by
  rintro rfl
  obtain ⟨inside, same, -⟩ := List.findIdx?_eq_some_iff_getElem.mp search
  rw [List.getElem?_eq_getElem inside, Option.some.injEq] at h
  exact different (h ▸ of_decide_eq_true same)

theorem Follows.ctl (h : Follows slot fd source s watch) {op : Op} {other : Nat} {events : Events} {data : UInt64}
    (different : other ≠ fd) : Follows slot fd source (step slot source s (.ctl op other events data)) watch := by
  have here := h.here
  have apart : ∀ found, slotOf s.watches other = some found ∨ slotOf s.watches (-1) = some found → found ≠ slot := by
    rintro found (search | search)
    all_goals exact slotOf_apart here (by rw [h.descriptor]; omega) search
  have kept : (step slot source s (.ctl op other events data)).watches[slot]? = some watch := by
    unfold step epollCtlApply
    grind
  have same : (step slot source s (.ctl op other events data)).risen = s.risen ∧
      (step slot source s (.ctl op other events data)).unread = s.unread := by
    unfold step
    dsimp only
    split <;> exact ⟨rfl, rfl⟩
  refine ⟨kept, h.descriptor, h.input, h.edge, h.armed, ?_, ?_⟩
  · rw [same.1]
    exact h.unreported
  · rw [same.1, same.2]
    exact h.reported

theorem Follows.arrive (h : Follows slot fd source s watch) {other amount : Nat}
    (sampled : Sampled slot fd source s (.arrive other amount)) :
    Follows slot fd source (step slot source s (.arrive other amount)) watch := by
  have sampled := fun here empty some => sampled here empty some watch h.here
  have unreported := h.unreported
  have reported := h.reported
  refine ⟨h.here, h.descriptor, h.input, h.edge, h.armed, ?_, ?_⟩
  · simp only [step, Bool.or_eq_true, decide_eq_true_eq]
    grind
  · simp only [step, Bool.or_eq_false_iff, decide_eq_false_iff_not, update_apply]
    grind

theorem Follows.read (h : Follows slot fd source s watch) {other amount : Nat} :
    Follows slot fd source (step slot source s (.read other amount)) watch := by
  refine ⟨h.here, h.descriptor, h.input, h.edge, h.armed, h.unreported, fun quiet data => h.reported quiet ?_⟩
  simp only [step, update_apply] at data
  grind

theorem follows_step (s : State) (label : Label) (h : ∃ watch, Follows slot fd source s watch)
    (sampled : Sampled slot fd source s label) : ∃ watch, Follows slot fd source (step slot source s label) watch := by
  obtain ⟨watch, h⟩ := h
  cases label with
  | ctl op other events data => exact ⟨watch, h.ctl sampled⟩
  | scan scan => exact h.scanned sampled
  | arrive other amount => exact ⟨watch, h.arrive sampled⟩
  | read other amount => exact ⟨watch, h.read⟩

theorem follows_fresh (fresh : Fresh slot fd source s) : ∃ watch, Follows slot fd source s watch := by
  obtain ⟨events, data, here, input, edge, armed, risen⟩ := fresh
  exact ⟨_, here, rfl, input, edge, armed, fun _ => by simp, fun quiet data => by simp [risen, data] at quiet⟩

theorem edges_exact_of_sampled (slot fd source : Nat) (s : State) (labels : List Label) (fresh : Fresh slot fd source s)
    (sampled : Run.Along (step slot source) (Sampled slot fd source) s labels) :
    Run.Along (step slot source) (EdgeExact slot source) s labels :=
  Run.along_of_along follows_step (fun _ _ ⟨_, h⟩ sampled => h.exact sampled) (follows_fresh fresh) sampled

def watching : State := ⟨[⟨3, epollIn ||| epollEt, 7, 0⟩], fun _ => 0, false⟩

/-- Descriptor 3 is source 5 for the caller. -/
def lookup : Scan := ⟨fun fd => if fd = 3 then some 5 else none, 1, fun _ => 0, true⟩

/-- It is filled, reported, drained, looked at and filled again. -/
def sampledRun : List Label := [.arrive 5 1, .scan lookup, .read 5 1, .scan lookup, .arrive 5 1, .scan lookup]

theorem sampledRun_exact : Run.Along (step 0 5) (EdgeExact 0 5) watching sampledRun := by
  refine edges_exact_of_sampled 0 3 5 watching sampledRun ⟨_, _, rfl, by decide, by decide, by decide, by decide⟩
    ⟨?_, ⟨rfl, rfl⟩, trivial, ⟨rfl, rfl⟩, ?_, ⟨rfl, rfl⟩, trivial⟩
  all_goals
    intro _ _ _ _ here
    cases here
    decide

/-- Without the scan between, the second filling is not reported. -/
theorem refilled_source_unreported :
    let s := Run.final (step 0 5) watching [.arrive 5 1, .scan lookup, .read 5 1, .arrive 5 1]
    s.Room 0 lookup ∧ s.risen ∧ 0 < s.unread 5 ∧ ¬ s.reports 0 lookup := by decide

end AerOS.Proof.Epoll
