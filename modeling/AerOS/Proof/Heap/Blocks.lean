import AerOS.Proof.Heap.FreeList

namespace AerOS.Proof.Heap
open AerOS.Heap Lib List HeapState

variable {heap heap' : HeapState}
variable {after before rs : List Range} {first last requested start stop user : Nat} {block r : Range}

structure Listed (heap : HeapState) (rs : List Range) : Prop where
  list : FreeList heap rs
  separated : Separated rs
  large : ∀ r ∈ rs, nodeSize ≤ r.size
  inside : ∀ r ∈ rs, heap.base ≤ r.start ∧ r.stop ≤ heap.stop

theorem Listed.regions (h : Listed heap rs) : Regions heap rs := ⟨h.separated.scattered, h.large, h.inside⟩

theorem Listed.frame {qs : List Range} (h : Listed heap rs)
    (rewrites : Rewrites qs heap heap') (head : heap'.head = heap.head) (apart : ∀ x, Cover rs x → ¬ Cover qs x) :
    Listed heap' rs := by
  obtain ⟨base, stop⟩ := rewrites.bounds
  refine ⟨freeList_iff_segment.mpr ?_, h.separated, h.large, ?_⟩
  · rw [head]
    exact (freeList_iff_segment.mp h.list).frame h.large (fun r mem x has => apart x ⟨r, mem, has⟩) rewrites
  · rw [base, stop]
    exact h.inside

theorem Segment.headed (a : Nat) (segment : Segment heap a rs) :
    FreeList { heap with head := a } rs := ⟨segment.chain, segment.sizes⟩

theorem Listed.counters (h : Listed heap rs) (free active : Nat) :
    Listed { heap with free := free, active := active } rs :=
  ⟨⟨h.list.chain, h.list.sizes⟩, h.separated, h.large, h.inside⟩

theorem insertRegion_listed {n : Range} (bounds : Bounds heap)
    (listed : Listed heap rs) (proper : n.start < n.stop) (large : nodeSize ≤ n.size)
    (inside : heap.base ≤ n.start ∧ n.stop ≤ heap.stop) (apart : ∀ x, n.Has x → ¬ Cover rs x) :
    ∃ heap' rs', heap.insertRegion n.start n.size = some heap' ∧ Listed heap' rs' ∧
      total rs' = total rs + n.size ∧ (∀ x, Cover rs' x ↔ n.Has x ∨ Cover rs x) ∧
      Rewrites (n :: rs) heap heap' := by
  have clear : ∀ r ∈ rs, n.Clear r := fun r mem =>
    clear_of_disjoint proper (listed.separated.proper r mem) fun x both => apart x both.1 ⟨r, mem, both.2⟩
  have regions : Regions heap (n :: rs) := ⟨scattered_cons.mpr ⟨proper, clear, listed.separated.scattered⟩,
      forall_mem_cons.mpr ⟨large, listed.large⟩,
      forall_mem_cons.mpr ⟨inside, listed.inside⟩⟩
  obtain ⟨heap', rs', done, list, separated, large', size, cover, rewrites⟩ :=
    insertRegion_spec bounds listed.list listed.separated regions
  refine ⟨heap', rs', done, ⟨list, separated, large', fun r mem => ?_⟩, ?_, fun x => ?_, rewrites⟩
  · obtain ⟨base, stop⟩ := rewrites.bounds
    have within : ∀ x, r.Has x → heap.base ≤ x ∧ x < heap.stop := by
      intro x has
      obtain ⟨q, memQ, hasQ⟩ := (cover x).mp ⟨r, mem, has⟩
      have := regions.inside q memQ
      unfold Range.Has at hasQ
      omega
    have properR := separated.proper r mem
    have first := within r.start ⟨le_rfl, properR⟩
    have last := within (r.stop - 1) ⟨by omega, by omega⟩
    omega
  · rw [size, total_cons, Nat.add_comm]
  · rw [cover, cover_cons]

theorem insertPart_spec (bounds : Bounds heap)
    (listed : Listed heap rs) (le : start ≤ stop) (large : start < stop → start + nodeSize ≤ stop)
    (inside : heap.base ≤ start ∧ stop ≤ heap.stop) (apart : ∀ x, start ≤ x ∧ x < stop → ¬ Cover rs x) :
    ∃ heap' rs', heap.insertPart start stop = some heap' ∧ Listed heap' rs' ∧
      total rs' = total rs + (stop - start) ∧ (∀ x, Cover rs' x ↔ (start ≤ x ∧ x < stop) ∨ Cover rs x) ∧
      Rewrites (⟨start, stop⟩ :: rs) heap heap' := by
  unfold insertPart
  by_cases proper : start < stop
  · rw [if_pos proper]
    have enough : nodeSize ≤ stop - start := by
      have := large proper
      omega
    exact insertRegion_listed (n := ⟨start, stop⟩) bounds listed proper enough inside apart
  rw [if_neg proper]
  have same : stop - start = 0 := by omega
  refine ⟨heap, rs, rfl, listed, by rw [same, Nat.add_zero], fun x => ?_, Rewrites.refl _ _⟩
  constructor
  · exact Or.inr
  rintro (empty | covered)
  · omega
  · exact covered

def previousOf (xs : List Range) : Nat := (xs.getLast?.map Range.start).getD 0

theorem listed_sublist {qs : List Range} (listed : Listed heap rs) (sublist : qs.Sublist rs)
    (list : FreeList heap' qs) (base : heap'.base = heap.base) (stop : heap'.stop = heap.stop) :
    Listed heap' qs where
  list := list
  separated := ⟨fun q mem => listed.separated.proper q (sublist.subset mem),
    listed.separated.ordered.sublist sublist⟩
  large := fun q mem => listed.large q (sublist.subset mem)
  inside := fun q mem => by
    rw [base, stop]
    exact listed.inside q (sublist.subset mem)

theorem unlink_listed {xs ys : List Range} (listed : Listed heap (xs ++ r :: ys)) :
    Listed (heap.unlink (previousOf xs) (heap.nextOf r.start)) (xs ++ ys) ∧
      Rewrites xs heap (heap.unlink (previousOf xs) (heap.nextOf r.start)) := by
  have sublist := (List.Sublist.refl xs).append (sublist_cons_self r ys)
  rcases eq_nil_or_concat xs with rfl | ⟨before, p, rfl⟩
  · have next := (segment_cons.mp (freeList_iff_segment.mp listed.list)).2.2.2
    have first : heap.unlink (previousOf []) (heap.nextOf r.start) =
        { heap with head := heap.nextOf r.start } := if_pos rfl
    exact ⟨listed_sublist listed sublist (next.headed _) rfl rfl, rfl, fun _ _ => rfl⟩
  rw [concat_eq_append] at listed sublist ⊢
  have chain := listed.list.chain
  rw [map_append, map_append, map_cons] at chain
  obtain ⟨b, first, second⟩ := chain_append.mp chain
  obtain ⟨-, nonzero, -⟩ := chain_concat.mp first
  have previous : previousOf (before ++ [p]) = p.start := by
    simp [previousOf]
  unfold unlink
  rw [previous, if_neg nonzero]
  have perm : ((before ++ [p]) ++ r :: ys).Perm (p :: (before ++ r :: ys)) := by
    rw [append_assoc]
    exact perm_middle
  have apart := other_nodes (listed.regions.perm perm)
  have other : ∀ q ∈ before ++ r :: ys,
      (heap.setNext p.start (heap.nextOf r.start)).nextOf q.start = heap.nextOf q.start :=
    fun q mem => nextOf_setNext_other (apart q mem)
  have large : nodeSize ≤ p.size := listed.large p (by simp)
  refine ⟨listed_sublist listed sublist ⟨?_, fun q mem => ?_⟩ rfl rfl, ?_⟩
  · rw [map_append, map_append]
    refine chain_append.mpr ⟨heap.nextOf r.start, ?_, ?_⟩
    · refine first.redirect (fun y mem => ?_) (nextOf_setNext_self (nextOf_lt heap _))
      obtain ⟨q, memQ, rfl⟩ := mem_map.mp mem
      exact other q (mem_append_left _ memQ)
    refine second.2.2.congr fun y mem => ?_
    obtain ⟨q, memQ, rfl⟩ := mem_map.mp mem
    exact other q (mem_append_right _ (mem_cons_of_mem r memQ))
  · have member := sublist.subset mem
    rw [← listed.list.sizes q member]
    rcases mem_cons.mp (perm.mem_iff.mp member) with rfl | mem
    · exact sizeOf_setNext (.inl rfl)
    · exact sizeOf_setNext (.inr (apart q mem))
  · exact (setNext_rewrites large).mono fun x covered => by
      rw [cover_append]
      exact .inr covered

theorem checkedAdd_size (proper : r.start ≤ r.stop) (high : r.stop < 2 ^ 64) :
    checkedAdd r.start r.size = some r.stop := by
  apply checkedAdd_eq_some.mpr
  unfold Range.size
  omega

structure Fits (r : Range) (requested alignment user : Nat) : Prop where
  user_eq : user = alignUp (r.start + headerSize) alignment
  above : r.start + headerSize ≤ user
  within : user + requested ≤ r.stop

theorem place_of_segment {rest : List Range} (requested alignment : Nat)
    (bounds : Bounds heap) (listed : Regions heap (r :: rest)) (segment : Segment heap r.start (r :: rest)) :
    heap.place requested alignment r.start = none ∨ heap.place requested alignment r.start =
          some (r.stop, alignUp (r.start + headerSize) alignment,
            alignUp (r.start + headerSize) alignment + requested) ∧
        headerSize ≤ alignUp (r.start + headerSize) alignment := by
  have size := (segment_cons.mp segment).2.2.1
  have proper := listed.scattered.proper r mem_cons_self
  have inside := listed.inside r mem_cons_self
  have high := bounds.high
  unfold place
  rw [size, checkedAdd_size proper.le (by omega)]
  cases first : checkedAdd r.start headerSize with
  | none => exact .inl rfl
  | some value =>
    obtain ⟨-, rfl⟩ := checkedAdd_eq_some.mp first
    cases header : checkedSub (alignUp (r.start + headerSize) alignment) headerSize with
    | none => simp [header]
    | some value =>
      obtain ⟨le, -⟩ := checkedSub_eq_some.mp header
      cases last : checkedAdd (alignUp (r.start + headerSize) alignment) requested with
      | none => simp [header, last]
      | some value =>
        obtain ⟨-, rfl⟩ := checkedAdd_eq_some.mp last
        exact .inr ⟨by simp [header, last], le⟩

theorem allocateFrom_cases {xs ys : List Range} {requested alignment : Nat} (bounds : Bounds heap)
    (turns current : Nat) (regions : Regions heap ys) (segment : Segment heap current ys)
    (enough : ys.length ≤ turns) :
    heap.allocateFrom requested alignment turns (previousOf xs) current = .done none heap ∨
      (heap.allocateFrom requested alignment turns (previousOf xs) current = .panic ∧
        ∃ r ∈ ys, alignUp (r.start + headerSize) alignment < r.start + headerSize ∧
          alignUp (r.start + headerSize) alignment + requested ≤ r.stop) ∨
      ∃ before r after user, xs ++ ys = before ++ r :: after ∧ Fits r requested alignment user ∧
        heap.allocateFrom requested alignment turns (previousOf xs) current =
          heap.take (previousOf before) r.start r.stop user (user + requested)
            (user - headerSize - r.start) := by
  induction ys generalizing xs turns current with
  | nil =>
    refine .inl ?_
    rw [segment.start_eq_zero.mpr rfl]
    cases turns <;> rfl
  | cons r rest ih =>
    cases turns with
    | zero => cases enough
    | succ turns =>
      obtain ⟨rfl, nonzero, -, tail⟩ := segment_cons.mp segment
      have shape : xs ++ r :: rest = (xs ++ [r]) ++ rest := by simp
      have previous : previousOf (xs ++ [r]) = r.start := by simp [previousOf]
      have later := @ih (xs ++ [r]) turns (heap.nextOf r.start) regions.tail tail
        (Nat.le_of_succ_le_succ enough)
      rw [previous, ← shape] at later
      unfold allocateFrom
      rw [if_neg nonzero]
      rcases place_of_segment requested alignment bounds regions segment with
        none | ⟨placed, le⟩
      · rw [none]
        exact .inl rfl
      rw [placed]
      dsimp only
      by_cases fits : alignUp (r.start + headerSize) alignment + requested > r.stop
      · rw [if_pos fits]
        rcases later with nothing | ⟨panics, q, mem, below, within⟩ | found
        · exact .inl nothing
        · exact .inr (.inl ⟨panics, q, mem_cons_of_mem r mem, below, within⟩)
        · exact .inr (.inr found)
      rw [if_neg fits]
      have within := not_lt.mp fits
      cases room : checkedSub (alignUp (r.start + headerSize) alignment - headerSize) r.start with
      | none =>
        refine .inr (.inl ⟨rfl, r, mem_cons_self, ?_, within⟩)
        unfold checkedSub at room
        split at room
        · cases room
        · omega
      | some _ =>
        obtain ⟨_, rfl⟩ := checkedSub_eq_some.mp room
        exact .inr (.inr ⟨xs, r, rest, _, rfl, ⟨rfl, by omega, within⟩, rfl⟩)

structure Headed (heap : HeapState) (user : Nat) (block : Range) : Prop where
  start : heap.memory.load (user - headerSize) = block.start
  size : heap.memory.load (user - headerSize + 8) = block.size
  check : heap.memory.load (user - headerSize + 16) = user ^^^ block.start ^^^ block.size ^^^ headerCheck

theorem writeHeader_headed (high : block.stop < 2 ^ 64)
    (proper : block.start ≤ block.stop) (within : user < block.stop) :
    Headed (heap.writeHeader user block.start block.size) user block := by
  have small : block.size < 2 ^ 64 := by
    unfold Range.size
    omega
  unfold writeHeader
  constructor
  · rw [Memory.load_store_other (by omega), Memory.load_store_other (by omega),
      Memory.load_store_self _ _ (by omega)]
  · rw [Memory.load_store_other (by omega), Memory.load_store_self _ _ small]
  · rw [Memory.load_store_self]
    exact Nat.xor_lt_two_pow (Nat.xor_lt_two_pow (Nat.xor_lt_two_pow (by omega) (by omega)) small) (by decide)

theorem writeHeader_rewrites {blockStart blockSize : Nat}
    (above : block.start + headerSize ≤ user) (within : user ≤ block.stop) :
    Rewrites [block] heap (heap.writeHeader user blockStart blockSize) := by
  refine ⟨rfl, fun x outside => ?_⟩
  have away : ¬ block.Has x := mt cover_singleton.mpr outside
  unfold Range.Has at away
  unfold headerSize at above
  unfold writeHeader headerSize
  dsimp only
  rw [Memory.store_apply_of_notMem (by omega), Memory.store_apply_of_notMem (by omega),
    Memory.store_apply_of_notMem (by omega)]

structure Taken (heap heap' : HeapState) (rs rs' : List Range) (user requested : Nat) (block : Range) :
    Prop where
  listed : Listed heap' rs'
  headed : Headed heap' user block
  start : block.start + headerSize ≤ user
  stop : user + requested ≤ block.stop
  front : block.start = user - headerSize ∨ ∃ r ∈ rs, block.start = r.start
  back : block.stop = user + requested ∨ ∃ r ∈ rs, block.stop = r.stop
  free : ∀ x, block.Has x → Cover rs x
  size : total rs' + block.size = total rs
  cover : ∀ x, Cover rs' x ↔ Cover rs x ∧ ¬ block.Has x
  memory : ∀ x, ¬ Cover rs x → heap'.memory x = heap.memory x
  counters : heap' = { heap with
    memory := heap'.memory
    head := heap'.head
    free := heap.free - block.size
    active := saturatingAdd heap.active 1 }

theorem front_cut (above : start + headerSize ≤ user) :
    ∃ cut, (if user - headerSize - start ≥ nodeSize then user - headerSize else start) = cut ∧
      start ≤ cut ∧ cut + headerSize ≤ user ∧ (start < cut → start + nodeSize ≤ cut) := by
  refine ⟨_, rfl, ?_⟩
  split <;> omega

theorem back_cut (within : last ≤ stop) : ∃ cut, (if stop - last ≥ nodeSize then last else stop) = cut ∧
      last ≤ cut ∧ cut ≤ stop ∧ (cut < stop → cut + nodeSize ≤ stop) := by
  refine ⟨_, rfl, ?_⟩
  split <;> omega

theorem cover_middle (x : Nat) : Cover (before ++ r :: after) x ↔ r.Has x ∨ Cover (before ++ after) x := by
  rw [Cover.perm perm_middle, cover_cons]

theorem cut_region (bounds : Bounds heap)
    (listed : Listed heap (before ++ r :: after)) (order : r.start ≤ first ∧ first < last ∧ last ≤ r.stop)
    (front : r.start < first → r.start + nodeSize ≤ first) (back : last < r.stop → last + nodeSize ≤ r.stop) :
    ∃ heap' rs', ((heap.unlink (previousOf before) (heap.nextOf r.start)).insertPart r.start first).bind
          (fun heap => heap.insertPart last r.stop) = some heap' ∧
      Listed heap' rs' ∧ total rs' + (last - first) = total (before ++ r :: after) ∧
      (∀ x, Cover rs' x ↔ Cover (before ++ r :: after) x ∧ ¬ (first ≤ x ∧ x < last)) ∧
      Rewrites (before ++ r :: after) heap heap' := by
  obtain ⟨listed0, rewrites0⟩ := unlink_listed listed
  generalize heap.unlink (previousOf before) (heap.nextOf r.start) = heap0 at listed0 rewrites0
  have insideR := listed.inside r (by simp)
  obtain ⟨_, _⟩ := rewrites0.bounds
  -- The other free regions are away from the one that is taken.
  have away : ∀ x, Cover (before ++ after) x → ¬ (r.start ≤ x ∧ x < r.stop) := by
    have clear := (scattered_cons.mp (listed.separated.scattered.perm perm_middle)).2.1
    rintro x ⟨q, mem, has⟩ hasR
    exact clear_not_both (clear q mem) hasR has
  obtain ⟨_, rs1, done1, listed1, _, cover1, rewrites1⟩ := insertPart_spec
    (bounds.rewrites rewrites0) listed0 order.1 front (by omega)
    (fun x within covered => away x covered (by omega))
  obtain ⟨_, _⟩ := rewrites1.bounds
  have apart1 : ∀ x, last ≤ x ∧ x < r.stop → ¬ Cover rs1 x := by
    intro x within covered
    rcases (cover1 x).mp covered with taken | other
    · omega
    · exact away x other (by omega)
  obtain ⟨heap2, rs2, done2, listed2, _, cover2, rewrites2⟩ := insertPart_spec
    ((bounds.rewrites rewrites0).rewrites rewrites1) listed1 order.2.2 back (by omega) apart1
  have coverR : ∀ x, r.start ≤ x ∧ x < r.stop → Cover (before ++ r :: after) x := fun x has =>
    (cover_middle x).mpr (.inl has)
  have coverOthers : ∀ x, Cover (before ++ after) x → Cover (before ++ r :: after) x :=
    fun x covered => (cover_middle x).mpr (.inr covered)
  refine ⟨heap2, rs2, ?_, listed2, ?_, fun x => ?_, ?_⟩
  · rw [done1, Option.bind_some, done2]
  · rw [total_perm perm_middle, total_cons]
    unfold Range.size
    omega
  · rw [cover2, cover1, cover_middle]
    have := away x
    unfold Range.Has
    constructor
    · rintro (taken | taken | other)
      · exact ⟨.inl (by omega), by omega⟩
      · exact ⟨.inl (by omega), by omega⟩
      · exact ⟨.inr other, fun inside => this other (by omega)⟩
    · rintro ⟨has | other, _⟩
      · omega
      · exact .inr (.inr other)
  · refine ((rewrites0.mono fun x covered => ?_).trans rewrites1 fun x covered => ?_).trans rewrites2
      fun x covered => ?_
    · exact coverOthers x ((cover_append _ _ _).mpr (.inl covered))
    · rcases (cover_cons _ _ _).mp covered with taken | other
      · exact coverR x ⟨taken.1, taken.2.trans_le (by dsimp only; omega)⟩
      · exact coverOthers x other
    · rcases (cover_cons _ _ _).mp covered with taken | other
      · exact coverR x ⟨le_trans (by dsimp only; omega) taken.1, taken.2⟩
      · rcases (cover1 x).mp other with taken | other
        · exact coverR x (by omega)
        · exact coverOthers x other

theorem head_block {rs' : List Range} {heap2 : HeapState}
    (high : last < 2 ^ 64) (start : first + headerSize ≤ user) (stop : user + requested ≤ last)
    (front : first = user - headerSize ∨ ∃ r ∈ rs, first = r.start)
    (back : last = user + requested ∨ ∃ r ∈ rs, last = r.stop) (some_bytes : 0 < requested) (listed : Listed heap2 rs')
    (free : ∀ x, first ≤ x ∧ x < last → Cover rs x) (size : total rs' + (last - first) = total rs)
    (cover : ∀ x, Cover rs' x ↔ Cover rs x ∧ ¬ (first ≤ x ∧ x < last))
    (rewrites : Rewrites rs heap heap2) :
    Taken heap { heap2.writeHeader user first (last - first) with
      free := heap2.free - (last - first)
      active := saturatingAdd heap2.active 1 } rs rs' user requested ⟨first, last⟩ := by
  have change : Rewrites [⟨first, last⟩] heap2 (heap2.writeHeader user first (last - first)) :=
    writeHeader_rewrites start ((Nat.le_add_right user requested).trans stop)
  have headed : Headed (heap2.writeHeader user (Range.mk first last).start (Range.mk first last).size)
      user ⟨first, last⟩ := by
    refine writeHeader_headed high ?_ ?_ <;> dsimp only <;> omega
  have apart : ∀ x, Cover rs' x → ¬ Cover [⟨first, last⟩] x :=
    fun x covered has => ((cover x).mp covered).2 (cover_singleton.mp has)
  have listed' := (listed.frame change rfl apart).counters (heap2.free - (last - first))
    (saturatingAdd heap2.active 1)
  have both := rewrites.trans change fun x covered => free x (cover_singleton.mp covered)
  obtain ⟨freeSame, activeSame, baseSame, stopSame, totalSame⟩ := rewrites.counters
  refine ⟨listed', ⟨headed.start, headed.size, headed.check⟩, start, stop, front, back, free, size,
    cover, both.memory, ?_⟩
  simp only [mk.injEq, freeSame, activeSame]
  exact ⟨trivial, trivial, baseSame, stopSame, totalSame, rfl, trivial⟩

theorem take_spec {alignment : Nat} (bounds : Bounds heap) (listed : Listed heap (before ++ r :: after))
    (fits : Fits r requested alignment user) (some_bytes : 0 < requested) : ∃ heap' rs' block,
      heap.take (previousOf before) r.start r.stop user (user + requested)
        (user - headerSize - r.start) = .done (some user) heap' ∧
      Taken heap heap' (before ++ r :: after) rs' user requested block := by
  obtain ⟨first, front, startLe, startHeader, startNode⟩ := front_cut fits.above
  obtain ⟨last, back, lastLe, lastStop, lastNode⟩ := back_cut fits.within
  have insideR := listed.inside r (by simp)
  have high := bounds.high
  have nonzero : user ≠ 0 := by
    unfold headerSize at startHeader
    omega
  obtain ⟨_, rs', done, listed', size, cover, rewrites⟩ := cut_region bounds listed
    ⟨startLe, by omega, lastStop⟩ startNode lastNode
  have mem : r ∈ before ++ r :: after := by simp
  have frontIs : first = user - headerSize ∨ ∃ q ∈ before ++ r :: after, first = q.start := by
    rw [← front]
    split
    · exact .inl rfl
    · exact .inr ⟨r, mem, rfl⟩
  have backIs : last = user + requested ∨ ∃ q ∈ before ++ r :: after, last = q.stop := by
    rw [← back]
    split
    · exact .inl rfl
    · exact .inr ⟨r, mem, rfl⟩
  refine ⟨_, rs', ⟨first, last⟩, ?_, head_block (by omega) startHeader lastLe frontIs backIs some_bytes listed'
    (fun x within => (cover_middle x).mpr (.inl ⟨by omega, by omega⟩)) size cover rewrites⟩
  unfold HeapState.take
  dsimp only
  rw [front, back, done, if_neg nonzero]
  rfl

theorem alignUp_below {x k : Nat} (hk : k < 64)
    (below : alignUp x (2 ^ k) < x) : 2 ^ 63 ≤ alignUp x (2 ^ k) := by
  have half : 2 ^ k ≤ 2 ^ 63 := Nat.pow_le_pow_right (by decide) (by omega)
  by_cases sum : x + (2 ^ k - 1) < 2 ^ 64
  · have := (alignUp_spec sum hk.le).2.1
    omega
  have full : saturatingAdd x (2 ^ k - 1) = 2 ^ 64 - 1 := Nat.min_eq_right (by omega)
  rw [alignUp_eq_alignDown, full]
  have := (alignDown_spec (x := 2 ^ 64 - 1) (k := k) (by decide) hk.le).2.2
  omega

theorem alignment_eq (layout : Layout) : ∃ k < 64, max layout.align 8 = 2 ^ k ∧ layout.align ∣ 2 ^ k ∧ 8 ∣ 2 ^ k := by
  obtain ⟨k, power⟩ := isPowerOfTwo_iff.mp layout.power
  have fits := layout.fits
  rw [power] at fits ⊢
  have small : k ≤ 63 := (Nat.pow_le_pow_iff_right (by decide)).mp (by omega : 2 ^ k ≤ 2 ^ 63)
  rcases Nat.le_total k 3 with low | high
  · have le : 2 ^ k ≤ 2 ^ 3 := Nat.pow_le_pow_right (by decide) low
    exact ⟨3, by decide, Nat.max_eq_right le, Nat.pow_dvd_pow 2 low, Nat.dvd_refl _⟩
  have le : 2 ^ 3 ≤ 2 ^ k := Nat.pow_le_pow_right (by decide) high
  exact ⟨k, by omega, Nat.max_eq_left le, Nat.dvd_refl _, Nat.pow_dvd_pow 2 high⟩

theorem allocate_spec (bounds : Bounds heap) (listed : Listed heap rs) (layout : Layout) :
    heap.allocate layout = .done none heap ∨ (heap.allocate layout = .panic ∧ 2 ^ 63 < heap.stop) ∨
      ∃ user heap' rs' block, heap.allocate layout = .done (some user) heap' ∧
        (layout.align ∣ user ∧ 8 ∣ user) ∧ Taken heap heap' rs rs' user (max layout.size 1) block := by
  obtain ⟨k, small, power, divides, eight⟩ := alignment_eq layout
  have turns := enough_turns bounds listed.regions (listed.separated.ordered.imp fun less => less.le)
  have search := @allocateFrom_cases heap [] rs (max layout.size 1) (2 ^ k) bounds heap.turns heap.head
    listed.regions (freeList_iff_segment.mp listed.list) turns
  unfold allocate
  rw [power]
  rcases search with nothing | ⟨panics, r, mem, below, _⟩ | ⟨before, r, after, user, split, fits, found⟩
  · exact .inl nothing
  · refine .inr (.inl ⟨panics, ?_⟩)
    have inside := listed.inside r mem
    have := listed.separated.proper r mem
    have := alignUp_below small below
    omega
  refine .inr (.inr ?_)
  subst split
  obtain ⟨heap', rs', block, taken, spec⟩ := take_spec bounds listed fits (by omega)
  have aligned : 2 ^ k ∣ user := by
    rw [fits.user_eq, alignUp_eq_alignDown]
    refine (alignDown_spec ?_ small.le).1
    unfold saturatingAdd
    omega
  exact ⟨user, heap', rs', block, found.trans taken, ⟨divides.trans aligned, eight.trans aligned⟩, spec⟩

theorem overlapsFrom_false {turns current : Nat} (bounds : Bounds heap)
    (regions : Regions heap rs) (segment : Segment heap current rs) (enough : rs.length ≤ turns)
    (apart : ∀ r ∈ rs, ¬ (start < r.stop ∧ stop > r.start)) :
    heap.overlapsFrom start stop turns current = some false := by
  induction rs generalizing turns current with
  | nil =>
    rw [segment.start_eq_zero.mpr rfl]
    cases turns <;> rfl
  | cons r _ ih =>
    cases turns with
    | zero => cases enough
    | succ turns =>
      obtain ⟨rfl, nonzero, size, tail⟩ := segment_cons.mp segment
      unfold overlapsFrom
      rw [if_neg nonzero, regions.stop_eq bounds size, if_neg (apart r mem_cons_self)]
      exact ih regions.tail tail (Nat.le_of_succ_le_succ enough)
        fun q mem => apart q (mem_cons_of_mem r mem)

theorem headerValid_of_headed (headed : Headed heap user block)
    (high : block.stop < 2 ^ 64) (start : block.start + headerSize ≤ user) (stop : user < block.stop)
    (inside : heap.base ≤ block.start ∧ block.stop ≤ heap.stop) :
    heap.headerValid user (heap.memory.load (user - headerSize))
      (heap.memory.load (user - headerSize + 8)) (heap.memory.load (user - headerSize + 16)) = true := by
  have large : headerSize ≤ block.size := by
    unfold Range.size
    omega
  unfold headerValid
  rw [headed.start, headed.size, headed.check, checkedAdd_size (by omega) high]
  simp [inside.1, inside.2, large]

structure Returned (heap heap' : HeapState) (rs rs' : List Range) (block : Range) : Prop where
  listed : Listed heap' rs'
  size : total rs' = total rs + block.size
  cover : ∀ x, Cover rs' x ↔ block.Has x ∨ Cover rs x
  memory : ∀ x, ¬ Cover (block :: rs) x → heap'.memory x = heap.memory x
  counters : heap' = { heap with
    memory := heap'.memory
    head := heap'.head
    free := saturatingAdd heap.free block.size
    active := heap.active - 1 }

theorem not_covered_single {x : Nat} (outside : ¬ Cover [block] x) : x < block.start ∨ block.stop ≤ x := by
  have : ¬ block.Has x := mt cover_singleton.mpr outside
  unfold Range.Has at this
  omega

theorem overlapsFree_false (bounds : Bounds heap)
    (listed : Listed heap rs) (proper : block.start < block.stop) (high : block.stop < 2 ^ 64)
    (apart : ∀ x, block.Has x → ¬ Cover rs x) : heap.overlapsFree block.start block.size = some false := by
  unfold overlapsFree
  rw [checkedAdd_size proper.le high]
  have turns := enough_turns bounds listed.regions (listed.separated.ordered.imp fun less => less.le)
  refine overlapsFrom_false bounds listed.regions (freeList_iff_segment.mp listed.list) turns ?_
  rintro r mem _
  have properR := listed.separated.proper r mem
  -- The later of the two starts lies in both ranges.
  exact apart (max block.start r.start) ⟨by omega, by omega⟩ ⟨r, mem, by omega, by omega⟩

theorem deallocate_spec (bounds : Bounds heap) (listed : Listed heap rs) (headed : Headed heap user block)
    (start : block.start + headerSize ≤ user) (stop : user < block.stop)
    (inside : heap.base ≤ block.start ∧ block.stop ≤ heap.stop) (apart : ∀ x, block.Has x → ¬ Cover rs x) :
    ∃ heap' rs', heap.deallocate user = .done true heap' ∧ Returned heap heap' rs rs' block := by
  have high := bounds.high
  have valid := headerValid_of_headed headed (by omega) start stop inside
  have range : ¬ (user < saturatingAdd heap.base headerSize ∨ heap.stop ≤ user) := by
    unfold saturatingAdd
    omega
  have large : nodeSize ≤ block.size := by
    unfold nodeSize Range.size
    unfold headerSize at start
    omega
  have proper : block.start < block.stop := by omega
  have clear : ∀ x, Cover rs x → ¬ Cover [block] x :=
    fun x covered has => apart x (cover_singleton.mp has) covered
  have unchecked : Rewrites [block] heap
      { heap with memory := heap.memory.store (user - headerSize + 16) 0 } := by
    refine ⟨rfl, fun x outside => Memory.store_apply_of_notMem ?_⟩
    have := not_covered_single outside
    unfold headerSize at *
    omega
  have listed1 := listed.frame unchecked rfl clear
  have bounds1 := bounds.rewrites unchecked
  have free := overlapsFree_false bounds1 listed1 proper (by omega) apart
  have wiped : Rewrites [block] { heap with memory := heap.memory.store (user - headerSize + 16) 0 }
      { heap with
        memory := (heap.memory.store (user - headerSize + 16) 0).fill block.start block.size 0 } := by
    refine ⟨rfl, fun x outside => Memory.fill_apply_of_notMem ?_⟩
    have := not_covered_single outside
    unfold Range.size
    omega
  have both := unchecked.trans wiped fun x covered => covered
  obtain ⟨base2, stop2⟩ := both.bounds
  obtain ⟨heap3, rs', insert, listed3, size, cover, rewrites⟩ := insertRegion_listed
    (bounds1.rewrites wiped) (listed1.frame wiped rfl clear) proper large
    (by rw [base2, stop2]; exact inside) apart
  unfold deallocate
  rw [if_neg range]
  dsimp only
  rw [if_pos valid, headed.start, headed.size, free]
  rw [insert]
  have all := (both.mono fun x covered => (cover_append [block] rs x).mpr (.inl covered)).trans
    rewrites fun x covered => covered
  obtain ⟨freeSame, activeSame, baseSame, stopSame, totalSame⟩ := all.counters
  refine ⟨_, rs', rfl, listed3.counters _ _, size, cover, all.memory, ?_⟩
  simp only [mk.injEq, freeSame, activeSame]
  exact ⟨trivial, trivial, baseSame, stopSame, totalSame, trivial, trivial⟩

end AerOS.Proof.Heap
