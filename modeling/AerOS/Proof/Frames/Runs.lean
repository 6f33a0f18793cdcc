import AerOS.Proof.Frames.Moves
import Mathlib.Data.Nat.ModEq

namespace AerOS.Proof.Frames
open AerOS.Frames Lib State

variable {a' : FrameAllocator} {r : Range}

structure Inv (map : BootMemoryMap) (s : State) : Prop where
  separated : Separated s.allocator.freeList
  aligned : Ends (pageSize ∣ ·) s.allocator.freeList
  inside : ∀ x, Cover s.allocator.freeList x → Cover s.allocator.managedList x
  owned : ∀ x, x ∈ s.owned ↔ Cover s.allocator.managedList x ∧ ¬ Cover s.allocator.freeList x
  size : total s.allocator.freeList = s.allocator.freePages * pageSize
  constant : s.allocator.freePages + s.allocator.allocatedPages = (fromMap map).freePages
  small : (fromMap map).freePages ≤ 2 ^ 48
  room : s.allocator.freeCount ≤ maxFreeRanges
  usable : ∀ r ∈ s.allocator.managedList, ∃ region ∈ map.regions,
    region.kind = .usable ∧ region.start + region.pages * pageSize ≤ 2 ^ 52 ∧ Fits region r

variable {map : BootMemoryMap}
variable {pages start : Nat} {s : State}

theorem initial_inv (proper : map.Proper) : Inv map (initial map) := by
  have built := foldl_built Built.empty map.few proper.low proper.disjoint
  generalize start : map.regions.foldl addRegion FrameAllocator.empty = a at built
  have view : fromMap map = coalesceFree (sortFree a) := by
    unfold fromMap
    rw [start]
  have frame := settle_onlyFree a
  obtain ⟨separated, cover⟩ := settle_spec a built.scattered
  have size := separated.scattered.total_eq built.scattered cover
  have pages : (fromMap map).freePages = a.freePages := by
    rw [view, frame]
  have managed : (fromMap map).managedList = a.freeList := by
    rw [view, frame.managedList, built.same]
  rw [← view] at separated size cover
  constructor
  · exact separated
  · change Ends _ (fromMap map).freeList
    rw [view]
    refine settle_ends fun r mem => ?_
    obtain ⟨region, -, -, fits⟩ := built.usable r mem
    exact fits.aligned
  · intro x covered
    change Cover (fromMap map).managedList x
    rw [managed]
    exact (cover x).mp covered
  · intro x
    change x ∈ (∅ : Set Nat) ↔ Cover (fromMap map).managedList x ∧ ¬ Cover (fromMap map).freeList x
    rw [managed, cover]
    simp
  · change total (fromMap map).freeList = (fromMap map).freePages * pageSize
    rw [size, built.size, pages]
  · change (fromMap map).freePages + (fromMap map).allocatedPages = (fromMap map).freePages
    have none : (fromMap map).allocatedPages = 0 := by
      rw [view, frame]
      exact built.unallocated
    rw [none, Nat.add_zero]
  · rw [pages]
    refine built.small.trans ?_
    have := Nat.mul_le_mul_right (2 ^ 40) map.few
    exact this
  · change (fromMap map).freeCount ≤ maxFreeRanges
    rw [view]
    refine (settle_count a).trans (built.few.trans (map.few.trans ?_))
    decide
  intro r mem
  change r ∈ (fromMap map).managedList at mem
  rw [managed] at mem
  obtain ⟨region, memRegion, kind, fits⟩ := built.usable r mem
  exact ⟨region, memRegion, kind, proper.low region memRegion kind, fits⟩

theorem pages_of_ends {rs : List Range} (ends : Ends (pageSize ∣ ·) rs) :
    total rs / pageSize = (rs.map fun r => r.size / pageSize).sum := by
  induction rs with
  | nil => rfl
  | cons r rs ih =>
    obtain ⟨aligned, rest⟩ := ends_cons.mp ends
    rw [total_cons, List.map_cons, List.sum_cons, ← ih rest]
    exact Nat.add_div_of_dvd_right (Nat.dvd_sub aligned.2 aligned.1)

theorem managed_bounds (inv : Inv map s) {x : Nat}
    (covered : Cover s.allocator.managedList x) : lowMemoryLimit ≤ x ∧ x < 2 ^ 52 := by
  obtain ⟨r, mem, has⟩ := covered
  obtain ⟨_, -, -, _, fits⟩ := inv.usable r mem
  have low := fits.low
  have inside := fits.inside
  unfold Range.Has at has
  omega

theorem allocateFrom_cases (a : FrameAllocator) (pages bytes alignment left index : Nat)
    (all : index + left = a.freeCount) :
    allocateFrom a pages bytes alignment left index = .done none a ∨
      ∃ i < a.freeCount, ∃ start, start = alignUp (a.free i).start alignment ∧
        start + bytes ≤ (a.free i).stop ∧
        ¬ (start > (a.free i).start ∧ start + bytes < (a.free i).stop ∧ a.freeCount = maxFreeRanges) ∧
        allocateFrom a pages bytes alignment left index =
          match consumeRange a i (a.free i) start (start + bytes) with
          | none => .panic
          | some a' => .done (some start)
              { a' with
                freePages := a'.freePages - pages
                allocatedPages := saturatingAdd a'.allocatedPages pages } := by
  induction left generalizing index with
  | zero => exact .inl rfl
  | succ left ih =>
    have later := ih (index + 1) (by omega)
    unfold allocateFrom
    dsimp only
    cases sum : checkedAdd (alignUp (a.free index).start alignment) bytes with
    | none => exact .inl rfl
    | some stop =>
      obtain ⟨-, rfl⟩ := checkedAdd_eq_some.mp sum
      dsimp only
      split
      · exact later
      next fits =>
      split
      · exact later
      next entry =>
      exact .inr ⟨index, by omega, _, rfl, not_lt.mp fits, entry, rfl⟩

theorem block_proper (start : Nat) (some_pages : pages ≠ 0) : start < start + pages * pageSize :=
  Nat.lt_add_of_pos_right (Nat.mul_pos (Nat.pos_of_ne_zero some_pages) (by decide))

section
variable (inv : Inv map s)
include inv

theorem taken_inv {before after : List Range} (view : s.allocator.freeList = before ++ r :: after)
    (within : r.start ≤ start ∧ start + pages * pageSize ≤ r.stop) (some_pages : pages ≠ 0)
    (aligned : pageSize ∣ start)
    (list : a'.freeList = before ++ r.without start (start + pages * pageSize) ++ after)
    (count : a'.freeCount ≤ maxFreeRanges) (frame : OnlyFree s.allocator a') :
    Inv map ⟨{ a' with
      freePages := a'.freePages - pages
      allocatedPages := saturatingAdd a'.allocatedPages pages }, s.owned ∪ block start pages⟩ := by
  have proper := block_proper start some_pages
  obtain ⟨separated, size, cover⟩ := Separated.without (view ▸ inv.separated) within proper
  rw [← list, ← view] at size cover
  rw [← list] at separated
  have managed : a'.managedList = s.allocator.managedList := frame.managedList
  have freePages : a'.freePages = s.allocator.freePages := by rw [frame]
  have allocatedPages : a'.allocatedPages = s.allocator.allocatedPages := by rw [frame]
  have enough : pages ≤ s.allocator.freePages := by
    have := inv.size
    have positive : 0 < pageSize := by decide
    refine Nat.le_of_mul_le_mul_right ?_ positive
    omega
  have sum : saturatingAdd a'.allocatedPages pages = s.allocator.allocatedPages + pages := by
    have := inv.constant
    have := inv.small
    rw [allocatedPages, saturatingAdd_of_lt (by omega)]
  rw [freePages, sum]
  constructor
  · exact separated
  · change Ends _ a'.freeList
    rw [list]
    have ends := inv.aligned
    rw [view] at ends
    obtain ⟨endsBefore, endsRest⟩ := ends_append.mp ends
    obtain ⟨endsR, endsAfter⟩ := ends_cons.mp endsRest
    exact ends_append.mpr ⟨ends_append.mpr ⟨endsBefore, without_ends endsR
      ⟨aligned, Nat.dvd_add aligned (Nat.dvd_mul_left _ _)⟩⟩, endsAfter⟩
  · intro x covered
    change Cover a'.managedList x
    rw [managed]
    exact inv.inside x ((cover x).mp covered).1
  · intro x
    change x ∈ s.owned ∪ block start pages ↔ Cover a'.managedList x ∧ ¬ Cover a'.freeList x
    rw [managed, cover, Set.mem_union, inv.owned]
    have free : x ∈ block start pages → Cover s.allocator.freeList x := by
      intro mem
      refine ⟨r, by rw [view]; simp, ?_⟩
      obtain ⟨_, _⟩ := mem
      unfold Range.Has
      omega
    have := inv.inside x
    tauto
  · change total a'.freeList = (s.allocator.freePages - pages) * pageSize
    have := inv.size
    rw [Nat.sub_mul]
    omega
  · have := inv.constant
    dsimp only
    omega
  · exact inv.small
  · exact count
  · intro q mem
    change q ∈ a'.managedList at mem
    rw [managed] at mem
    exact inv.usable q mem

theorem allocate_spec (pages alignmentPages : Nat) :
    allocateContiguous s.allocator pages alignmentPages = .done none s.allocator ∨
      ∃ start a', allocateContiguous s.allocator pages alignmentPages = .done (some start) a' ∧
        BlockCorrect s pages alignmentPages start ∧ Inv map ⟨a', s.owned ∪ block start pages⟩ ∧
        a'.managedList = s.allocator.managedList := by
  unfold allocateContiguous
  split
  · exact .inl rfl
  next asked =>
  obtain ⟨some_pages, power⟩ := not_or.mp asked
  obtain ⟨k, rfl⟩ := isPowerOfTwo_iff.mp (Bool.not_eq_false _ ▸ power)
  cases bytes? : checkedMul pages pageSize with
  | none => exact .inl rfl
  | some bytes =>
    obtain ⟨-, rfl⟩ := checkedMul_eq_some.mp bytes?
    cases alignment? : checkedMul (2 ^ k) pageSize with
    | none => exact .inl rfl
    | some alignment =>
      obtain ⟨fitsAlignment, rfl⟩ := checkedMul_eq_some.mp alignment?
      rcases allocateFrom_cases s.allocator pages (pages * pageSize) (2 ^ k * pageSize)
        s.allocator.freeCount 0 (Nat.zero_add _) with
        nothing | ⟨i, inside, start, at_, fits, entry, found⟩
      · exact .inl nothing
      refine .inr ?_
      obtain ⟨_, _, length, view⟩ := freeList_split inside
      obtain ⟨a', consumed, list, count, frame⟩ := consumeRange_spec view length inv.room entry
      rw [consumed] at found
      have free : ∀ x, (s.allocator.free i).Has x → Cover s.allocator.freeList x :=
        fun x has => ⟨_, mem_entries.mpr ⟨i, inside, rfl⟩, has⟩
      have bounds := inv.separated.proper _ (mem_entries.mpr ⟨i, inside, rfl⟩)
      have low := managed_bounds inv (inv.inside _ (free _ ⟨le_rfl, bounds⟩))
      -- The start of the range is below `2 ^ 52`, so rounding it up does not saturate.
      rw [pageSize_eq, ← Nat.pow_add] at fitsAlignment at_
      have exponent : k + 12 < 64 := (Nat.pow_lt_pow_iff_right (by decide)).mp fitsAlignment
      have half : 2 ^ (k + 12) ≤ 2 ^ 63 := Nat.pow_le_pow_right (by decide) (by omega)
      obtain ⟨aligned, above, -⟩ := alignUp_spec (x := (s.allocator.free i).start)
        (k := k + 12) (by omega) exponent.le
      rw [← at_] at aligned above
      have pageAligned : pageSize ∣ start := by
        exact Nat.dvd_trans (Nat.pow_dvd_pow 2 (Nat.le_add_left 12 k)) aligned
      have has : ∀ x ∈ block start pages, (s.allocator.free i).Has x := by
        rintro x ⟨_, _⟩
        exact ⟨by omega, by omega⟩
      refine ⟨start, _, found, ⟨?_, fun x mem => ?_, by omega, fun x mem owned => ?_⟩,
        taken_inv inv view ⟨above, fits⟩ some_pages pageAligned list count frame, frame.managedList⟩
      · rw [pageSize_eq, ← Nat.pow_add]
        exact aligned
      · obtain ⟨q, memQ, hasQ⟩ := inv.inside x (free x (has x mem))
        obtain ⟨j, small, rfl⟩ := mem_entries.mp memQ
        exact ⟨j, small, hasQ⟩
      · exact ((inv.owned x).mp owned).2 (free x (has x mem))

structure Returned (map : BootMemoryMap) (s : State) (start pages : Nat) (a' : FrameAllocator) : Prop where
  inv : Inv map ⟨a', s.owned \ block start pages⟩
  managed : a'.managedList = s.allocator.managedList
  free : ∀ x, Cover a'.freeList x ↔ x ∈ block start pages ∨ Cover s.allocator.freeList x

theorem returned_inv (some_pages : pages ≠ 0) (aligned : pageSize ∣ start)
    (enough : pages ≤ s.allocator.allocatedPages)
    (given : giveBack s.allocator start (start + pages * pageSize) = some a')
    (managed : ∀ x ∈ block start pages, Cover s.allocator.managedList x)
    (apart : ∀ r ∈ s.allocator.freeList, Range.Clear ⟨start, start + pages * pageSize⟩ r) :
    Returned map s start pages (coalesceFree (sortFree { a' with
      freePages := s.allocator.freePages + pages
      allocatedPages := s.allocator.allocatedPages - pages })) := by
  have proper := block_proper start some_pages
  have scattered : Scattered (⟨start, start + pages * pageSize⟩ :: s.allocator.freeList) :=
    scattered_cons.mpr ⟨proper, apart, inv.separated.scattered⟩
  obtain ⟨scattered', cover, ends⟩ := giveBack_spec given scattered
  obtain ⟨frame, _⟩ := giveBack_frame given inv.room
  generalize whole : ({ a' with
    freePages := s.allocator.freePages + pages
    allocatedPages := s.allocator.allocatedPages - pages } : FrameAllocator) = b
  have list : b.freeList = a'.freeList := by rw [← whole]; rfl
  have countB : b.freeCount = a'.freeCount := by rw [← whole]
  have managedB : b.managedList = s.allocator.managedList := by
    rw [← whole]
    exact frame.managedList
  rw [← list] at scattered' cover ends
  obtain ⟨separated, cover'⟩ := settle_spec b scattered'
  have free := fun x => (cover' x).trans ((cover x).trans (cover_cons _ _ _))
  have same : (coalesceFree (sortFree b)).managedList = s.allocator.managedList := by
    rw [(settle_onlyFree b).managedList, managedB]
  have freePages : (coalesceFree (sortFree b)).freePages = s.allocator.freePages + pages := by
    rw [settle_onlyFree b, ← whole]
  have allocatedPages : (coalesceFree (sortFree b)).allocatedPages = s.allocator.allocatedPages - pages := by
    rw [settle_onlyFree b, ← whole]
  refine ⟨?_, same, free⟩
  constructor
  · exact separated
  · apply settle_ends
    apply ends
    exact ends_cons.mpr ⟨⟨aligned, Nat.dvd_add aligned (Nat.dvd_mul_left _ _)⟩, inv.aligned⟩
  · intro x covered
    rw [same]
    rcases (free x).mp covered with new | old
    · exact managed x new
    · exact inv.inside x old
  · intro x
    change x ∈ s.owned \ block start pages ↔ Cover (coalesceFree (sortFree b)).managedList x ∧
      ¬ Cover (coalesceFree (sortFree b)).freeList x
    rw [same, free, Set.mem_sdiff, inv.owned]
    tauto
  · rw [separated.scattered.total_eq scattered fun x => (cover' x).trans (cover x), total_cons, inv.size,
      freePages, Nat.add_mul]
    unfold Range.size
    dsimp only
    omega
  · have := inv.constant
    rw [freePages, allocatedPages]
    omega
  · exact inv.small
  · refine (settle_count b).trans ?_
    rwa [countB]
  intro q mem
  rw [same] at mem
  exact inv.usable q mem

theorem release_spec (start pages : Nat) :
    releaseContiguous s.allocator start pages = (false, s.allocator) ∨
      ∃ a', releaseContiguous s.allocator start pages = (true, a') ∧ Returned map s start pages a' ∧
        ∃ r ∈ s.allocator.managedList, r.start ≤ start ∧ start + pages * pageSize ≤ r.stop := by
  unfold releaseContiguous
  split
  · exact .inl rfl
  next asked =>
  obtain ⟨some_pages, low⟩ := not_or.mp asked
  have aligned : pageSize ∣ start := by
    rw [pageSize_eq] at low ⊢
    exact and_low_eq_zero.mp (Decidable.not_not.mp low)
  cases stop? : (checkedMul pages pageSize).bind (checkedAdd start) with
  | none => exact .inl rfl
  | some stop =>
    obtain ⟨bytes, bytes?, sum⟩ := Option.bind_eq_some_iff.mp stop?
    obtain ⟨-, rfl⟩ := checkedMul_eq_some.mp bytes?
    obtain ⟨-, rfl⟩ := checkedAdd_eq_some.mp sum
    dsimp only
    split
    · exact .inl rfl
    next checks =>
    cases more : checkedAdd s.allocator.freePages pages with
    | none => exact .inl rfl
    | some freePages =>
      obtain ⟨-, rfl⟩ := checkedAdd_eq_some.mp more
      cases less : checkedSub s.allocator.allocatedPages pages with
      | none => exact .inl rfl
      | some allocatedPages =>
        obtain ⟨enough, rfl⟩ := checkedSub_eq_some.mp less
        cases given : giveBack s.allocator start (start + pages * pageSize) with
        | none => exact .inl rfl
        | some a' =>
          refine .inr ⟨_, rfl, ?_⟩
          simp only [Bool.or_eq_true, Bool.not_eq_true', not_or, Bool.not_eq_false,
            List.any_eq_true, Bool.and_eq_true, decide_eq_true_eq] at checks
          obtain ⟨⟨m, memM, startM, stopM⟩, apart⟩ := checks
          refine ⟨?_, m, memM, startM.1, stopM⟩
          refine returned_inv inv some_pages aligned enough given (fun x mem => ?_) ?_
          · exact ⟨m, memM, startM.1.trans mem.1, mem.2.trans_le stopM⟩
          intro r mem
          by_contra overlap
          unfold Range.Clear at overlap
          dsimp only at overlap
          exact apart ⟨r, mem, by omega, by omega⟩

theorem step_inv (call : Call) :
    Inv map (s.step call) ∧ (s.step call).allocator.managedList = s.allocator.managedList := by
  cases call with
  | allocate pages alignmentPages =>
    unfold step
    dsimp only
    rcases allocate_spec inv pages alignmentPages with nothing | ⟨start, a', found, -, next⟩
    · rw [nothing]
      exact ⟨inv, rfl⟩
    rw [found]
    exact next
  | release start pages =>
    unfold step
    dsimp only
    rcases release_spec inv start pages with refused | ⟨a', taken, next, -⟩
    · rw [refused]
      exact ⟨inv, rfl⟩
    rw [taken]
    exact ⟨next.inv, next.managed⟩

end

theorem run_inv (proper : map.Proper) (calls : List Call) : Inv map (Run.final step (initial map) calls) ∧
      (Run.final step (initial map) calls).allocator.managedList = (fromMap map).managedList := by
  have steps : ∀ s call, Inv map s ∧ s.allocator.managedList = (fromMap map).managedList →
      Inv map (step s call) ∧ (step s call).allocator.managedList = (fromMap map).managedList :=
    fun s call ⟨inv, same⟩ => ⟨(step_inv inv call).1, (step_inv inv call).2.trans same⟩
  exact Run.final_invariant steps calls ⟨initial_inv proper, rfl⟩

section
variable (inv : Inv map s) (managed : s.allocator.managedList = (fromMap map).managedList)
  (proper : map.Proper)
include inv managed proper

theorem enough_allocated (scattered : Scattered (⟨start, start + pages * pageSize⟩ :: s.allocator.freeList))
    (owned : ∀ x ∈ block start pages, x ∈ s.owned) : pages ≤ s.allocator.allocatedPages := by
  have first := initial_inv proper
  -- In the first state no address is in use, so that all managed memory is free.
  have all : ∀ x, Cover s.allocator.managedList x → Cover (fromMap map).freeList x := by
    intro x covered
    by_contra used
    rw [managed] at covered
    exact (first.owned x).mpr ⟨covered, used⟩
  have less := scattered.total_le fun x covered => all x (by
    rcases (cover_cons _ _ _).mp covered with new | old
    · exact ((inv.owned x).mp (owned x new)).1
    · exact inv.inside x old)
  have size : total (fromMap map).freeList = (fromMap map).freePages * pageSize := first.size
  rw [total_cons, inv.size, size, ← inv.constant, Range.size, Nat.add_sub_cancel_left, Nat.add_comm,
    ← Nat.add_mul] at less
  have := Nat.le_of_mul_le_mul_right less (by decide)
  omega

theorem release_owned (room : s.allocator.freeCount < maxFreeRanges) (some_pages : pages ≠ 0)
    (aligned : pageSize ∣ start) (owned : ∀ x ∈ block start pages, x ∈ s.owned)
    (mem : r ∈ s.allocator.managedList) (low : r.start ≤ start) (high : start + pages * pageSize ≤ r.stop) :
    (releaseContiguous s.allocator start pages).1 = true := by
  have positive := block_proper start some_pages
  have top := managed_bounds inv ⟨r, mem, Nat.le_sub_one_of_lt (low.trans_lt (positive.trans_le high)), by omega⟩
  have apart : ∀ q ∈ s.allocator.freeList, Range.Clear ⟨start, start + pages * pageSize⟩ q := by
    refine fun q memQ => clear_of_disjoint positive (inv.separated.proper q memQ) fun x ⟨hasB, hasQ⟩ => ?_
    exact ((inv.owned x).mp (owned x hasB)).2 ⟨q, memQ, hasQ⟩
  have enough := enough_allocated inv managed proper
    (scattered_cons.mpr ⟨positive, apart, inv.separated.scattered⟩) owned
  have whole := inv.constant
  have few := inv.small
  have sum : (checkedMul pages pageSize).bind (checkedAdd start) = some (start + pages * pageSize) := by
    rw [checkedMul_eq_some.mpr ⟨by omega, rfl⟩]
    exact checkedAdd_eq_some.mpr ⟨by omega, rfl⟩
  have word : start &&& (pageSize - 1) = 0 := by
    rw [pageSize_eq] at aligned ⊢
    exact and_low_eq_zero.mpr aligned
  unfold releaseContiguous
  rw [if_neg (by simp [some_pages, word]), sum]
  dsimp only
  rw [if_neg, checkedAdd_eq_some.mpr ⟨by omega, rfl⟩, checkedSub_eq_some.mpr ⟨enough, rfl⟩]
  · obtain ⟨a', given⟩ := Option.isSome_iff_exists.mp (giveBack_isSome start (start + pages * pageSize) room)
    rw [given]
  simp only [Bool.or_eq_true, Bool.not_eq_true', not_or, Bool.not_eq_false, List.any_eq_true,
    Bool.and_eq_true, decide_eq_true_eq]
  refine ⟨⟨r, mem, ⟨low, by omega⟩, high⟩, ?_⟩
  rintro ⟨q, memQ, _, _⟩
  have := apart q memQ
  unfold Range.Clear at this
  dsimp only at this
  omega

end

theorem releaseMemory_of_refused {a : FrameAllocator} (room : a.freeCount < maxFreeRanges) (memory : Memory)
    (refused : (releaseContiguous a start pages).1 = false) : releaseMemory a memory start pages = memory := by
  unfold releaseMemory
  unfold releaseContiguous at refused
  split
  · rfl
  next asked =>
    rw [if_neg asked] at refused
    split
    · rfl
    next stop sum =>
      simp only [sum] at refused
      split
      · rfl
      next checks =>
        rw [if_neg checks] at refused
        split
        · next more less =>
          obtain ⟨a', given⟩ := Option.isSome_iff_exists.mp (giveBack_isSome start stop room)
          simp [more, less, given] at refused
        · rfl

theorem owned_block_released_iff (map : BootMemoryMap) (proper : map.Proper) (calls : List Call) (s : State)
    (run : Run.final State.step (State.initial map) calls = s) (room : s.allocator.freeCount < maxFreeRanges) :
    (∀ start pages, pages ≠ 0 → pageSize ∣ start → (∀ x ∈ block start pages, x ∈ s.owned) →
      ((releaseContiguous s.allocator start pages).1 = true ↔
        ∃ r ∈ s.allocator.managedList, r.start ≤ start ∧ start + pages * pageSize ≤ r.stop)) ∧
    (∀ start pages, (releaseContiguous s.allocator start pages).1 = true →
      ∀ x, Cover (releaseContiguous s.allocator start pages).2.freeList x ↔
        x ∈ block start pages ∨ Cover s.allocator.freeList x) ∧
    ∀ start pages memory, (releaseContiguous s.allocator start pages).1 = false →
      (releaseContiguous s.allocator start pages).2 = s.allocator ∧
        releaseMemory s.allocator memory start pages = memory := by
  obtain ⟨inv, managed⟩ := run ▸ run_inv proper calls
  refine ⟨fun start pages some_pages aligned owned => ⟨fun accepted => ?_, ?_⟩, fun start pages accepted => ?_,
    fun start pages memory refused => ⟨?_, releaseMemory_of_refused room memory refused⟩⟩
  · rcases release_spec inv start pages with refused | ⟨a', -, -, within⟩
    · rw [refused] at accepted
      cases accepted
    · exact within
  · rintro ⟨r, mem, low, high⟩
    exact release_owned inv managed proper room some_pages aligned owned mem low high
  · rcases release_spec inv start pages with refused | ⟨a', taken, returned, -⟩
    · rw [refused] at accepted
      cases accepted
    · rw [taken]
      exact returned.free
  · rcases release_spec inv start pages with same | ⟨a', taken, -⟩
    · rw [same]
    · rw [taken] at refused
      cases refused

theorem inv_correct (inv : Inv map s) : FramesCorrect map s.allocator := by
  have member : ∀ i < s.allocator.freeCount, s.allocator.free i ∈ s.allocator.freeList :=
    fun i small => mem_entries.mpr ⟨i, small, rfl⟩
  constructor
  · intro i j less _
    have := List.pairwise_iff_getElem.mp inv.separated.ordered i j
      (by rw [← freeCount_eq_length]; omega) (by rwa [← freeCount_eq_length]) less
    unfold FrameAllocator.freeList at this
    rwa [getElem_entries, getElem_entries] at this
  · intro i small
    exact ⟨inv.separated.proper _ (member i small), inv.aligned _ (member i small)⟩
  · intro i small x has
    obtain ⟨q, memQ, hasQ⟩ := inv.inside x ⟨_, member i small, has⟩
    obtain ⟨j, less, rfl⟩ := mem_entries.mp memQ
    exact ⟨j, less, hasQ⟩
  · rintro x ⟨j, less, has⟩
    obtain ⟨region, mem, kind, -, fits⟩ := inv.usable _ (mem_entries.mpr ⟨j, less, rfl⟩)
    have inside := fits.inside
    unfold Range.Has at has
    exact ⟨region, mem, kind, by omega, by omega⟩
  · have sum := pages_of_ends inv.aligned
    rw [inv.size, Nat.mul_div_cancel _ (by decide)] at sum
    rw [sum]
    unfold FrameAllocator.freeList entries
    rw [List.map_map]
    rfl
  · exact inv.constant
  · exact inv.room

/-- The free ranges are sorted, apart and inside managed memory, and the page counts are theirs, in
every state a run reaches; no call panics, and every block handed out is aligned, managed and not in
use. -/
theorem frames_correct (map : BootMemoryMap) (proper : map.Proper) (calls : List Call) :
    FramesCorrect map (Run.final State.step (State.initial map) calls).allocator ∧
      ∀ pages alignmentPages, ∃ answer allocator,
        allocateContiguous (Run.final State.step (State.initial map) calls).allocator pages
          alignmentPages = .done answer allocator ∧ ∀ start, answer = some start →
          BlockCorrect (Run.final State.step (State.initial map) calls) pages alignmentPages start := by
  have inv := (run_inv proper calls).1
  refine ⟨inv_correct inv, fun pages alignmentPages => ?_⟩
  rcases allocate_spec inv pages alignmentPages with nothing | ⟨start, a', found, correct, -⟩
  · exact ⟨none, _, nothing, nofun⟩
  refine ⟨some start, a', found, fun _ same => ?_⟩
  cases same
  exact correct

/-- What is free depends only on what is in use, not on the calls that have led there. -/
theorem free_ranges_canonical (map : BootMemoryMap) (proper : map.Proper) (calls calls' : List Call) (s s' : State)
    (run : Run.final State.step (State.initial map) calls = s)
    (run' : Run.final State.step (State.initial map) calls' = s') (same : s.owned = s'.owned) :
    s.allocator.freeList = s'.allocator.freeList ∧ s.allocator.freePages = s'.allocator.freePages ∧
      s.allocator.allocatedPages = s'.allocator.allocatedPages := by
  obtain ⟨inv, managed⟩ := run ▸ run_inv proper calls
  obtain ⟨inv', managed'⟩ := run' ▸ run_inv proper calls'
  have lists : s.allocator.freeList = s'.allocator.freeList := by
    refine inv.separated.eq_of_cover inv'.separated fun x => ?_
    have owned := same ▸ inv.owned x
    have owned' := inv'.owned x
    have inside := inv.inside x
    have inside' := inv'.inside x
    rw [managed] at owned inside
    rw [managed'] at owned' inside'
    tauto
  have size := inv.size
  rw [lists, inv'.size] at size
  have pages := Nat.eq_of_mul_eq_mul_right (by decide) size
  have constant := inv.constant
  have constant' := inv'.constant
  exact ⟨lists, pages.symm, by omega⟩

def twoBanks : BootMemoryMap where
  regions := [⟨lowMemoryLimit + 0x10000, 8, .usable⟩, ⟨0, 256, .reserved⟩, ⟨lowMemoryLimit, 16, .usable⟩]
  few := by decide

theorem twoBanks_proper : twoBanks.Proper where
  disjoint := by
    simp [twoBanks, MemoryRegion.Has, lowMemoryLimit, pageSize]
    omega
  low := by
    decide

def middleCalls : List Call := [.allocate 1 1, .allocate 6 8, .release (lowMemoryLimit + 0xa000) 2]

theorem first_frame_released : ∃ s, Run.final State.step (State.initial twoBanks) [.allocate 1 1] = s ∧
    (releaseContiguous s.allocator lowMemoryLimit 1).1 = true := by
  refine ⟨_, rfl, ((owned_block_released_iff twoBanks twoBanks_proper [.allocate 1 1] _ rfl (by decide +kernel)).1
    lowMemoryLimit 1 (by decide) (by decide) fun x mem => ?_).mpr (by decide +kernel)⟩
  have free : (Run.final step (initial twoBanks) [.allocate 1 1]).allocator.freeList =
    [⟨lowMemoryLimit + 0x1000, lowMemoryLimit + 0x18000⟩] := by decide +kernel
  have managed : (Run.final step (initial twoBanks) [.allocate 1 1]).allocator.managedList =
    [⟨lowMemoryLimit + 0x10000, lowMemoryLimit + 0x18000⟩, ⟨lowMemoryLimit, lowMemoryLimit + 0x10000⟩] := by
    decide +kernel
  rw [(run_inv twoBanks_proper _).1.owned, free, managed]
  obtain ⟨_, last⟩ := mem
  unfold pageSize at last
  simp only [cover_cons, cover_nil, or_false, Range.Has]
  omega

theorem twoBanks_given_back : (Run.final State.step (State.initial twoBanks)
      [.allocate 1 1, .release lowMemoryLimit 1]).allocator.freeList = (fromMap twoBanks).freeList := by
  refine (free_ranges_canonical twoBanks twoBanks_proper _ [] _ _ rfl rfl ?_).1
  change (∅ ∪ block lowMemoryLimit 1) \ block lowMemoryLimit 1 = ∅
  simp

/-- The two banks touch, and a block that lies in both is handed out but not taken back. -/
theorem spanning_block_kept : (match allocateContiguous (State.initial twoBanks).allocator 24 1 with
    | .done (some start) allocator => decide (allocator.freeCount < maxFreeRanges) &&
      !(releaseContiguous allocator start 24).1
    | _ => false) = true := by
  decide +kernel

theorem twoBanks_frames_correct : FramesCorrect twoBanks
        (Run.final State.step (State.initial twoBanks) middleCalls).allocator ∧
      (Run.final State.step (State.initial twoBanks) middleCalls).allocator.freeList =
        [⟨lowMemoryLimit + 0x1000, lowMemoryLimit + 0x8000⟩,
          ⟨lowMemoryLimit + 0xa000, lowMemoryLimit + 0xc000⟩,
          ⟨lowMemoryLimit + 0xe000, lowMemoryLimit + 0x18000⟩] :=
  ⟨(frames_correct twoBanks twoBanks_proper middleCalls).1, by decide +kernel⟩

end AerOS.Proof.Frames
