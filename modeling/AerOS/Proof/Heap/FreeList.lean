import AerOS.Spec.Heap

namespace AerOS.Proof.Heap
open AerOS.Heap Lib HeapState List

variable {heap heap' : HeapState} {n v x : Nat}
variable {qs rest rs : List Range} {a : Nat} {q r : Range}

theorem nextOf_lt (heap : HeapState) (n : Nat) : heap.nextOf n < 2 ^ 64 := heap.memory.load_lt _

theorem nextOf_setNext_self (h : v < 2 ^ 64) : (heap.setNext n v).nextOf n = v := Memory.load_store_self _ _ h

theorem nextOf_setNext_other (apart : n + 16 ≤ x ∨ x + 16 ≤ n) :
    (heap.setNext n v).nextOf x = heap.nextOf x := Memory.load_store_other (by omega)

theorem nextOf_setSize (apart : n = x ∨ n + 16 ≤ x ∨ x + 16 ≤ n) :
    (heap.setSize n v).nextOf x = heap.nextOf x := Memory.load_store_other (by omega)

theorem sizeOf_setSize_self (h : v < 2 ^ 64) : (heap.setSize n v).sizeOf n = v := Memory.load_store_self _ _ h

theorem sizeOf_setSize_other (apart : n + 16 ≤ x ∨ x + 16 ≤ n) :
    (heap.setSize n v).sizeOf x = heap.sizeOf x := Memory.load_store_other (by omega)

theorem sizeOf_setNext (apart : n = x ∨ n + 16 ≤ x ∨ x + 16 ≤ n) :
    (heap.setNext n v).sizeOf x = heap.sizeOf x := Memory.load_store_other (by omega)

structure Bounds (heap : HeapState) : Prop where
  positive : 0 < heap.base
  high : heap.stop < 2 ^ 64
  proper : heap.base < heap.stop

structure Regions (heap : HeapState) (rs : List Range) : Prop where
  scattered : Scattered rs
  large : ∀ r ∈ rs, nodeSize ≤ r.size
  inside : ∀ r ∈ rs, heap.base ≤ r.start ∧ r.stop ≤ heap.stop

theorem Regions.perm (perm : rs.Perm qs) (h : Regions heap rs) : Regions heap qs :=
  ⟨h.scattered.perm perm, fun r mem => h.large r (perm.mem_iff.mpr mem),
    fun r mem => h.inside r (perm.mem_iff.mpr mem)⟩

theorem Regions.tail (h : Regions heap (r :: rs)) : Regions heap rs :=
  ⟨(scattered_cons.mp h.scattered).2.2, (forall_mem_cons.mp h.large).2, (forall_mem_cons.mp h.inside).2⟩

theorem node_apart (clear : r.Clear q) (largeR : nodeSize ≤ r.size)
    (largeQ : nodeSize ≤ q.size) : r.start + 16 ≤ q.start ∨ q.start + 16 ≤ r.start := by
  unfold Range.Clear at clear
  unfold Range.size nodeSize at largeR largeQ
  omega

structure Segment (heap : HeapState) (a : Nat) (rs : List Range) : Prop where
  chain : Chain heap.nextOf a (rs.map Range.start) 0
  sizes : ∀ r ∈ rs, heap.sizeOf r.start = r.size

theorem freeList_iff_segment : FreeList heap rs ↔ Segment heap heap.head rs :=
  ⟨fun h => ⟨h.chain, h.sizes⟩, fun h => ⟨h.chain, h.sizes⟩⟩

theorem segment_cons : Segment heap a (r :: rs) ↔ a = r.start ∧ r.start ≠ 0 ∧ heap.sizeOf r.start = r.size ∧
        Segment heap (heap.nextOf r.start) rs := by
  constructor
  · rintro ⟨⟨rfl, nonzero, chain⟩, sizes⟩
    obtain ⟨first, rest⟩ := forall_mem_cons.mp sizes
    exact ⟨rfl, nonzero, first, chain, rest⟩
  · rintro ⟨rfl, nonzero, first, rest⟩
    exact ⟨⟨rfl, nonzero, rest.chain⟩, forall_mem_cons.mpr ⟨first, rest.sizes⟩⟩

theorem Segment.start_eq_zero (h : Segment heap a rs) : a = 0 ↔ rs = [] := by
  rw [h.chain.start_eq_zero, map_eq_nil_iff]

theorem Segment.congr (h : Segment heap a rs) (next : ∀ r ∈ rs, heap'.nextOf r.start = heap.nextOf r.start)
    (sizes : ∀ r ∈ rs, heap'.sizeOf r.start = heap.sizeOf r.start) : Segment heap' a rs := by
  refine ⟨h.chain.congr fun x mem => ?_, fun r mem => (sizes r mem).trans (h.sizes r mem)⟩
  obtain ⟨r, memR, rfl⟩ := mem_map.mp mem
  exact next r memR

structure Rewrites (rs : List Range) (heap heap' : HeapState) : Prop where
  frame : heap' = { heap with memory := heap'.memory, head := heap'.head }
  memory : ∀ x, ¬ Cover rs x → heap'.memory x = heap.memory x

theorem Rewrites.refl (rs : List Range) (heap : HeapState) : Rewrites rs heap heap := ⟨rfl, fun _ _ => rfl⟩

theorem Rewrites.trans {heap'' : HeapState} (h : Rewrites rs heap heap')
    (h' : Rewrites qs heap' heap'') (sub : ∀ x, Cover qs x → Cover rs x) : Rewrites rs heap heap'' := by
  refine ⟨?_, fun x outside => ?_⟩
  · rw [h'.frame, h.frame]
  · rw [h'.memory x fun covered => outside (sub x covered), h.memory x outside]

theorem Rewrites.mono (h : Rewrites qs heap heap')
    (sub : ∀ x, Cover qs x → Cover rs x) : Rewrites rs heap heap' :=
  ⟨h.frame, fun x outside => h.memory x fun covered => outside (sub x covered)⟩

section
variable (h : Rewrites rs heap heap')
include h

theorem Rewrites.bounds : heap'.base = heap.base ∧ heap'.stop = heap.stop := by
  rw [h.frame]
  exact ⟨rfl, rfl⟩

theorem Rewrites.counters : heap'.free = heap.free ∧ heap'.active = heap.active ∧
    heap'.base = heap.base ∧ heap'.stop = heap.stop ∧ heap'.total = heap.total := by
  rw [h.frame]
  exact ⟨rfl, rfl, rfl, rfl, rfl⟩

theorem Rewrites.load (outside : ∀ x, a ≤ x → x < a + 8 → ¬ Cover rs x) :
    heap'.memory.load a = heap.memory.load a :=
  Memory.load_congr fun x first last => h.memory x (outside x first last)

end

theorem Rewrites.node (h : Rewrites qs heap heap') (large : nodeSize ≤ r.size) (apart : ∀ x, r.Has x → ¬ Cover qs x) :
    heap'.nextOf r.start = heap.nextOf r.start ∧ heap'.sizeOf r.start = heap.sizeOf r.start := by
  have outside : ∀ x, r.start ≤ x → x < r.start + 16 → ¬ Cover qs x := by
    intro x first last
    unfold Range.size nodeSize at large
    exact apart x ⟨first, by omega⟩
  exact ⟨h.load fun x first last => outside x (by omega) (by omega),
    h.load fun x first last => outside x (by omega) (by omega)⟩

theorem Segment.frame (h : Segment heap a rs)
    (large : ∀ r ∈ rs, nodeSize ≤ r.size) (apart : ∀ r ∈ rs, ∀ x, r.Has x → ¬ Cover qs x)
    (rewrites : Rewrites qs heap heap') : Segment heap' a rs :=
  h.congr (fun r mem => (rewrites.node (large r mem) (apart r mem)).1)
    fun r mem => (rewrites.node (large r mem) (apart r mem)).2

section
variable (large : nodeSize ≤ r.size)
include large

theorem store_rewrites {offset : Nat} (inside : offset + 8 ≤ 16) :
    Rewrites [r] heap { heap with memory := heap.memory.store (r.start + offset) v } := by
  refine ⟨rfl, fun x outside => Memory.store_apply_of_notMem ?_⟩
  have : ¬ r.Has x := mt cover_singleton.mpr outside
  unfold Range.Has at this
  unfold Range.size nodeSize at large
  omega

theorem setNext_rewrites : Rewrites [r] heap (heap.setNext r.start v) := store_rewrites large (by decide)

theorem setSize_rewrites : Rewrites [r] heap (heap.setSize r.start v) :=
  store_rewrites large (show 0 + 8 ≤ 16 by decide)

end

theorem Regions.rewrites (h : Regions heap rs) (rewrites : Rewrites qs heap heap') : Regions heap' rs := by
  obtain ⟨base, stop⟩ := rewrites.bounds
  exact ⟨h.scattered, h.large, fun r mem => by rw [base, stop]; exact h.inside r mem⟩

theorem Bounds.rewrites (h : Bounds heap) (rewrites : Rewrites qs heap heap') : Bounds heap' := by
  obtain ⟨base, stop⟩ := rewrites.bounds
  exact ⟨by rw [base]; exact h.positive, by rw [stop]; exact h.high, by rw [base, stop]; exact h.proper⟩

theorem Regions.join (h : Regions heap (r :: q :: rest))
    (touch : r.stop = q.start) : Regions heap (⟨r.start, q.stop⟩ :: rest) := by
  obtain ⟨largeR, largeRest⟩ := forall_mem_cons.mp h.large
  obtain ⟨largeQ, largeLast⟩ := forall_mem_cons.mp largeRest
  obtain ⟨insideR, insideRest⟩ := forall_mem_cons.mp h.inside
  obtain ⟨insideQ, insideLast⟩ := forall_mem_cons.mp insideRest
  refine ⟨(h.scattered.join touch).1, forall_mem_cons.mpr ⟨?_, largeLast⟩,
    forall_mem_cons.mpr ⟨⟨insideR.1, insideQ.2⟩, insideLast⟩⟩
  unfold Range.size at largeR largeQ ⊢
  dsimp only
  omega

def joinNodes (heap : HeapState) (r q : Range) : HeapState :=
  let joined := heap.setSize r.start (saturatingAdd (heap.sizeOf r.start) (heap.sizeOf q.start))
  joined.setNext r.start (joined.nextOf q.start)

theorem joinNodes_segment (bounds : Bounds heap)
    (segment : Segment heap r.start (r :: q :: rest)) (regions : Regions heap (r :: q :: rest))
    (touch : r.stop = q.start) : Segment (joinNodes heap r q) r.start (⟨r.start, q.stop⟩ :: rest) := by
  obtain ⟨-, nonzero, size, tail⟩ := segment_cons.mp segment
  obtain ⟨_, -, sizeQ, last⟩ := segment_cons.mp tail
  obtain ⟨_, clear, scatteredTail⟩ := scattered_cons.mp regions.scattered
  obtain ⟨_, -, -⟩ := scattered_cons.mp scatteredTail
  obtain ⟨largeR, largeRest⟩ := forall_mem_cons.mp regions.large
  have apart : ∀ p ∈ q :: rest, r.start + 16 ≤ p.start ∨ p.start + 16 ≤ r.start := fun p mem =>
    node_apart (clear p mem) largeR (largeRest p mem)
  have apartQ := apart q mem_cons_self
  have high := bounds.high
  have insideQ := regions.inside q (mem_cons_of_mem r mem_cons_self)
  have sum : saturatingAdd (heap.sizeOf r.start) (heap.sizeOf q.start) = q.stop - r.start := by
    rw [size, sizeQ]
    unfold Range.size
    rw [saturatingAdd_of_lt (by omega)]
    omega
  have after : (heap.setSize r.start (q.stop - r.start)).nextOf q.start = heap.nextOf q.start :=
    nextOf_setSize (.inr apartQ)
  unfold joinNodes
  dsimp only
  rw [sum, after]
  refine segment_cons.mpr ⟨rfl, nonzero, ?_, ?_⟩
  · rw [sizeOf_setNext (.inl rfl), sizeOf_setSize_self (by omega)]
    rfl
  rw [nextOf_setNext_self (nextOf_lt heap _)]
  refine last.congr (fun p mem => ?_) (fun p mem => ?_)
  · have apartP := apart p (mem_cons_of_mem q mem)
    rw [nextOf_setNext_other apartP, nextOf_setSize (.inr apartP)]
  have apartP := apart p (mem_cons_of_mem q mem)
  rw [sizeOf_setNext (.inr apartP), sizeOf_setSize_other apartP]

theorem Regions.stop_eq (bounds : Bounds heap) (regions : Regions heap (r :: rs))
    (size : heap.sizeOf r.start = r.size) : saturatingAdd r.start (heap.sizeOf r.start) = r.stop := by
  have proper := regions.scattered.proper r mem_cons_self
  have inside := regions.inside r mem_cons_self
  have high := bounds.high
  rw [size]
  unfold Range.size
  rw [saturatingAdd_of_lt (by omega)]
  omega

theorem coalesceFrom_cons (turns : Nat) (bounds : Bounds heap)
    (segment : Segment heap r.start (r :: q :: rest)) (regions : Regions heap (r :: q :: rest)) :
    coalesceFrom (turns + 1) r.start heap =
      if r.stop = q.start then coalesceFrom turns r.start (joinNodes heap r q)
      else coalesceFrom turns q.start heap := by
  obtain ⟨-, nonzero, size, tail⟩ := segment_cons.mp segment
  obtain ⟨next, nonzeroQ, -, -⟩ := segment_cons.mp tail
  rw [coalesceFrom]
  rw [if_neg nonzero, next, if_neg nonzeroQ, regions.stop_eq bounds size]
  rfl

theorem coalesceFrom_spec (turns : Nat) (r : Range) (rest : List Range) (bounds : Bounds heap)
    (segment : Segment heap r.start (r :: rest)) (regions : Regions heap (r :: rest))
    (ordered : (r :: rest).Pairwise fun a b => a.stop ≤ b.start) (enough : rest.length < turns) :
    ∃ heap', coalesceFrom turns r.start heap = some heap' ∧ heap'.head = heap.head ∧
      Segment heap' r.start (joined r rest) ∧ Rewrites (r :: rest) heap heap' := by
  induction rest generalizing heap r turns with
  | nil =>
    obtain ⟨-, nonzero, -, last⟩ := segment_cons.mp segment
    cases turns with
    | zero => cases enough
    | succ turns =>
      refine ⟨heap, ?_, rfl, segment, Rewrites.refl _ _⟩
      unfold coalesceFrom
      rw [if_neg nonzero]
      exact if_pos (last.start_eq_zero.mpr rfl)
  | cons q rest ih =>
    cases turns with
    | zero => cases enough
    | succ turns =>
      obtain ⟨first, orderedRest⟩ := pairwise_cons.mp ordered
      obtain ⟨second, orderedLast⟩ := pairwise_cons.mp orderedRest
      have le := first q mem_cons_self
      have properQ := regions.scattered.proper q (mem_cons_of_mem r mem_cons_self)
      have few : rest.length < turns := Nat.lt_of_succ_lt_succ enough
      have large := regions.large r mem_cons_self
      rw [coalesceFrom_cons turns bounds segment regions]
      unfold joined
      by_cases touch : r.stop = q.start
      · rw [if_pos touch, if_pos touch.symm.le, Nat.max_eq_right (by omega)]
        have change : Rewrites [r] heap (joinNodes heap r q) :=
          (setSize_rewrites large).trans (setNext_rewrites large) fun _ covered => covered
        obtain ⟨heap', done, head, segment', rewrites⟩ := ih turns ⟨r.start, q.stop⟩
          (bounds.rewrites change) (joinNodes_segment bounds segment regions touch)
          ((regions.join touch).rewrites change)
          (pairwise_cons.mpr ⟨second, orderedLast⟩) few
        refine ⟨heap', done, head, segment', ?_⟩
        refine (change.mono fun x covered => ?_).trans rewrites fun x covered => ?_
        · exact (cover_append [r] _ x).mpr (.inl covered)
        · exact ((regions.scattered.join touch).2 x).mp covered
      rw [if_neg touch, if_neg (by omega)]
      obtain ⟨-, nonzero, size, tail⟩ := segment_cons.mp segment
      obtain ⟨next, -, -, -⟩ := segment_cons.mp tail
      rw [next] at tail
      obtain ⟨heap', done, head, segment', rewrites⟩ := ih turns q bounds tail regions.tail orderedRest few
      have clear := (scattered_cons.mp regions.scattered).2.1
      -- The node of `r` lies outside the regions after it.
      have outside : ∀ x, r.Has x → ¬ Cover (q :: rest) x := by
        rintro x has ⟨p, mem, hasP⟩
        exact clear_not_both (clear p mem) has hasP
      obtain ⟨sameNext, sameSize⟩ := rewrites.node large outside
      refine ⟨heap', done, head, segment_cons.mpr ⟨rfl, nonzero, sameSize.trans size, ?_⟩,
        rewrites.mono fun x covered => (cover_cons _ _ _).mpr (.inr covered)⟩
      rw [sameNext, next]
      exact segment'

theorem enough_turns (bounds : Bounds heap) (regions : Regions heap rs)
    (ordered : rs.Pairwise fun a b => a.stop ≤ b.start) : rs.length ≤ heap.turns := by
  have size : total rs ≤ heap.stop - heap.base := by
    refine ordered_total_le bounds.proper.le (fun r mem => ?_) ordered
    have inside := regions.inside r mem
    exact ⟨inside.1, (regions.scattered.proper r mem).le, inside.2⟩
  have count := length_mul_le_total regions.large
  unfold nodeSize at count
  unfold HeapState.turns
  omega

theorem coalesce_spec (bounds : Bounds heap) (list : FreeList heap rs)
    (regions : Regions heap rs) (ordered : rs.Pairwise fun a b => a.stop ≤ b.start) :
    ∃ heap', heap.coalesce = some heap' ∧ FreeList heap' (joinAll rs) ∧ Rewrites rs heap heap' := by
  have turns := enough_turns bounds regions ordered
  have segment := freeList_iff_segment.mp list
  unfold HeapState.coalesce
  cases rs with
  | nil =>
    have none : heap.head = 0 := segment.start_eq_zero.mpr rfl
    refine ⟨heap, ?_, list, Rewrites.refl _ _⟩
    rw [none]
    cases heap.turns <;> rfl
  | cons r rest =>
    obtain ⟨start, -, -, -⟩ := segment_cons.mp segment
    rw [start] at segment ⊢
    obtain ⟨heap', done, head, segment', rewrites⟩ :=
      coalesceFrom_spec heap.turns r rest bounds segment regions ordered turns
    refine ⟨heap', done, freeList_iff_segment.mpr ?_, rewrites⟩
    rw [head, start]
    exact segment'

theorem before_stop {start turns p : Nat}
    (h : ¬ (heap.nextOf p ≠ 0 ∧ heap.nextOf p < start)) : heap.before start turns p = some p := by
  cases turns <;> exact if_neg h

theorem before_spec (start turns : Nat) (p : Range) (rest : List Range)
    (segment : Segment heap p.start (p :: rest)) (enough : rest.length ≤ turns) (first : p.start ≤ start) :
    ∃ xs q ys, p :: rest = xs ++ q :: ys ∧ heap.before start turns p.start = some q.start ∧
      (∀ r ∈ xs ++ [q], r.start ≤ start) ∧ ∀ r ∈ ys.head?, start ≤ r.start := by
  induction rest generalizing p turns with
  | nil =>
    obtain ⟨-, -, -, last⟩ := segment_cons.mp segment
    have stop := last.start_eq_zero.mpr rfl
    refine ⟨[], p, [], rfl, before_stop fun h => h.1 stop, ?_, nofun⟩
    simpa using first
  | cons r rest ih =>
    obtain ⟨-, -, -, tail⟩ := segment_cons.mp segment
    obtain ⟨next, nonzero, -, -⟩ := segment_cons.mp tail
    by_cases less : r.start < start
    · cases turns with
      | zero => cases enough
      | succ turns =>
        rw [next] at tail
        obtain ⟨xs, q, ys, split, found, below, above⟩ := ih turns r tail
          (Nat.le_of_succ_le_succ enough) less.le
        refine ⟨p :: xs, q, ys, by rw [split]; rfl, ?_, ?_, above⟩
        · unfold HeapState.before
          rw [next, if_pos ⟨nonzero, less⟩]
          exact found
        · exact forall_mem_cons.mpr ⟨first, below⟩
    · refine ⟨[], p, r :: rest, rfl, before_stop ?_, ?_, ?_⟩
      · rw [next]
        exact fun h => less h.2
      · simpa using first
      · simpa using less

def freshNode (heap : HeapState) (start size : Nat) : HeapState := (heap.setSize start size).setNext start 0

theorem other_nodes {n : Range} (regions : Regions heap (n :: rs)) :
    ∀ r ∈ rs, n.start + 16 ≤ r.start ∨ r.start + 16 ≤ n.start := fun r mem =>
  node_apart ((scattered_cons.mp regions.scattered).2.1 r mem) (regions.large n mem_cons_self)
    (regions.large r (mem_cons_of_mem n mem))

theorem freshNode_segment {n : Range} (size : Nat)
    (segment : Segment heap a rs) (regions : Regions heap (n :: rs)) :
    Segment (freshNode heap n.start size) a rs := by
  have apart := other_nodes regions
  refine segment.congr (fun r mem => ?_) (fun r mem => ?_)
  · exact (nextOf_setNext_other (apart r mem)).trans (nextOf_setSize (.inr (apart r mem)))
  · exact (sizeOf_setNext (.inr (apart r mem))).trans (sizeOf_setSize_other (apart r mem))

theorem link_first {n : Range} (bounds : Bounds heap)
    (segment : Segment heap heap.head rs) (size : heap.sizeOf n.start = n.size)
    (regions : Regions heap (n :: rs)) (small : heap.head < 2 ^ 64) :
    FreeList { heap.setNext n.start heap.head with head := n.start } (n :: rs) := by
  have apart := other_nodes regions
  have inside := regions.inside n mem_cons_self
  have positive := bounds.positive
  apply freeList_iff_segment.mpr
  refine segment_cons.mpr ⟨rfl, by omega, ?_, ?_⟩
  · change (heap.setNext n.start heap.head).sizeOf n.start = n.size
    rw [sizeOf_setNext (.inl rfl), size]
  change Segment _ ((heap.setNext n.start heap.head).nextOf n.start) rs
  rw [nextOf_setNext_self small]
  refine segment.congr (fun r mem => ?_) (fun r mem => ?_)
  · exact nextOf_setNext_other (apart r mem)
  · exact sizeOf_setNext (.inr (apart r mem))

theorem link_after {n : Range} {xs ys : List Range} (bounds : Bounds heap)
    (list : FreeList heap (xs ++ q :: ys)) (size : heap.sizeOf n.start = n.size)
    (regions : Regions heap (n :: (xs ++ q :: ys))) :
    FreeList ((heap.setNext n.start (heap.nextOf q.start)).setNext q.start n.start) (xs ++ q :: n :: ys) := by
  have perm : (n :: (xs ++ q :: ys)).Perm (q :: n :: (xs ++ ys)) :=
    (perm_middle.cons n).trans (List.Perm.swap q n _)
  have apartN := other_nodes (regions.perm perm).tail
  have apartQ := other_nodes (regions.perm perm)
  have apart := apartQ n mem_cons_self
  have inside := regions.inside n mem_cons_self
  have proper := regions.scattered.proper n mem_cons_self
  have positive := bounds.positive
  have high := bounds.high
  generalize changed : (heap.setNext n.start (heap.nextOf q.start)).setNext q.start n.start = heap'
  have others : ∀ r ∈ xs ++ ys, heap'.nextOf r.start = heap.nextOf r.start := by
    intro r mem
    rw [← changed, nextOf_setNext_other (apartQ r (mem_cons_of_mem n mem)),
      nextOf_setNext_other (apartN r mem)]
  have sizes : ∀ r ∈ q :: n :: (xs ++ ys), heap'.sizeOf r.start = heap.sizeOf r.start := by
    intro r mem
    rw [← changed]
    rcases mem_cons.mp mem with rfl | mem
    · rw [sizeOf_setNext (.inl rfl), sizeOf_setNext (.inr (Or.symm apart))]
    rw [sizeOf_setNext (.inr (apartQ r mem))]
    rcases mem_cons.mp mem with rfl | mem
    · exact sizeOf_setNext (.inl rfl)
    · exact sizeOf_setNext (.inr (apartN r mem))
  have atQ : heap'.nextOf q.start = n.start := by
    rw [← changed]
    exact nextOf_setNext_self (by omega)
  have atN : heap'.nextOf n.start = heap.nextOf q.start := by
    rw [← changed, nextOf_setNext_other apart]
    exact nextOf_setNext_self (nextOf_lt heap _)
  have head : heap'.head = heap.head := by
    rw [← changed]
    rfl
  refine ⟨?_, fun r mem => ?_⟩
  · have chain := list.chain
    rw [map_append, map_cons, ← singleton_append, ← append_assoc] at chain
    obtain ⟨b, first, second⟩ := chain_append.mp chain
    obtain ⟨-, -, next⟩ := chain_concat.mp first
    rw [head, map_append, map_cons, map_cons, ← singleton_append, ← append_assoc]
    refine chain_append.mpr ⟨n.start, first.redirect (fun y mem => ?_) atQ, rfl, by omega, ?_⟩
    · obtain ⟨r, memR, rfl⟩ := mem_map.mp mem
      exact others r (mem_append_left ys memR)
    rw [atN, next]
    refine second.congr fun y mem => ?_
    obtain ⟨r, memR, rfl⟩ := mem_map.mp mem
    exact others r (mem_append_right xs memR)
  · have order : (xs ++ q :: n :: ys).Perm (q :: n :: (xs ++ ys)) := perm_middle.trans (perm_middle.cons q)
    have member := order.mem_iff.mp mem
    rw [sizes r member]
    rcases mem_cons.mp (perm.mem_iff.mpr member) with rfl | old
    · exact size
    · exact list.sizes r old

theorem insertRegion_eq (heap : HeapState) (start size : Nat) :
    heap.insertRegion start size = let fresh := freshNode heap start size
      if fresh.head = 0 ∨ start < fresh.head then
        ({ fresh.setNext start fresh.head with head := start } : HeapState).coalesce
      else
        match fresh.before start fresh.turns fresh.head with
        | none => none
        | some current =>
          ((fresh.setNext start (fresh.nextOf current)).setNext current start).coalesce := rfl

theorem insertRegion_linked {n : Range} (bounds : Bounds heap)
    (list : FreeList heap rs) (separated : Separated rs) (regions : Regions heap (n :: rs)) :
    ∃ linked xs ys, heap.insertRegion n.start n.size = linked.coalesce ∧ rs = xs ++ ys ∧
      FreeList linked (xs ++ n :: ys) ∧ Rewrites (n :: rs) heap linked ∧
      (∀ r ∈ xs, r.start ≤ n.start) ∧ ∀ r ∈ ys, n.start ≤ r.start := by
  have large := regions.large n mem_cons_self
  have inside := regions.inside n mem_cons_self
  have high := bounds.high
  have fresh : Rewrites [n] heap (freshNode heap n.start n.size) :=
    (setSize_rewrites large).trans (setNext_rewrites large) fun _ covered => covered
  have cover : ∀ x, Cover [n] x → Cover (n :: rs) x := fun x covered =>
    (cover_append [n] rs x).mpr (.inl covered)
  have segment := freshNode_segment n.size (freeList_iff_segment.mp list) regions
  have size : (freshNode heap n.start n.size).sizeOf n.start = n.size := by
    refine (sizeOf_setNext (.inl rfl)).trans (sizeOf_setSize_self ?_)
    unfold Range.size
    omega
  have below : ∀ r ∈ rs, r.start < 2 ^ 64 := by
    intro r mem
    have := regions.inside r (mem_cons_of_mem n mem)
    have := regions.scattered.proper r (mem_cons_of_mem n mem)
    omega
  have sorted := separated.starts
  have head : (freshNode heap n.start n.size).head = heap.head := rfl
  have boundsF := bounds.rewrites fresh
  have regionsF := regions.rewrites fresh
  rw [insertRegion_eq]
  generalize freshNode heap n.start n.size = heap0 at fresh segment size head boundsF regionsF
  rw [← head] at segment
  by_cases first : heap0.head = 0 ∨ n.start < heap0.head
  · rw [if_pos first]
    have small : heap0.head < 2 ^ 64 := by
      cases rs with
      | nil => rw [segment.start_eq_zero.mpr rfl]; decide
      | cons p rest => rw [(segment_cons.mp segment).1]; exact below p mem_cons_self
    refine ⟨_, [], rs, rfl, rfl, link_first boundsF segment size regionsF small, ?_, nofun, ?_⟩
    · have linked : Rewrites [n] heap0 (heap0.setNext n.start heap0.head) := setNext_rewrites large
      exact (fresh.mono cover).trans ⟨rfl, linked.memory⟩ cover
    intro r mem
    cases rs with
    | nil => cases mem
    | cons p rest =>
      obtain ⟨start, nonzero, -, -⟩ := segment_cons.mp segment
      rw [start] at first
      have less := first.resolve_left nonzero
      rcases mem_cons.mp mem with rfl | mem
      · exact less.le
      · exact (less.le).trans ((pairwise_cons.mp sorted).1 r mem)
  rw [if_neg first]
  obtain ⟨nonempty, above⟩ := not_or.mp first
  cases rs with
  | nil => exact absurd (segment.start_eq_zero.mpr rfl) nonempty
  | cons p rest =>
    have turns := enough_turns boundsF regionsF.tail (separated.ordered.imp fun less => less.le)
    have start := (segment_cons.mp segment).1
    rw [start] at segment above ⊢
    obtain ⟨xs, q, ys, split, found, lower, upper⟩ := before_spec n.start heap0.turns p rest
      segment (Nat.le_of_succ_le turns) (not_lt.mp above)
    rw [found]
    have listF : FreeList heap0 (xs ++ q :: ys) := by
      rw [← split]
      apply freeList_iff_segment.mpr
      rw [start]
      exact segment
    rw [split] at regionsF sorted cover ⊢
    refine ⟨_, xs ++ [q], ys, rfl, by simp, ?_, ?_, lower, ?_⟩
    · have linked := link_after boundsF listF size regionsF
      simpa using linked
    · have largeQ : nodeSize ≤ q.size := regionsF.large q (by simp)
      refine ((fresh.mono cover).trans (setNext_rewrites large) cover).trans
        (setNext_rewrites largeQ) fun x covered => ?_
      exact ⟨q, by simp, cover_singleton.mp covered⟩
    intro r mem
    cases ys with
    | nil => cases mem
    | cons y ys =>
      have least := upper y rfl
      obtain ⟨-, sortedYs, -⟩ := pairwise_append.mp sorted
      obtain ⟨-, sortedY⟩ := pairwise_cons.mp sortedYs
      rcases mem_cons.mp mem with rfl | mem
      · exact least
      · exact least.trans ((pairwise_cons.mp sortedY).1 r mem)

theorem insertRegion_spec {n : Range} (bounds : Bounds heap)
    (list : FreeList heap rs) (separated : Separated rs) (regions : Regions heap (n :: rs)) :
    ∃ heap' rs', heap.insertRegion n.start n.size = some heap' ∧ FreeList heap' rs' ∧
      Separated rs' ∧ (∀ r ∈ rs', nodeSize ≤ r.size) ∧ total rs' = total (n :: rs) ∧
      (∀ x, Cover rs' x ↔ Cover (n :: rs) x) ∧ Rewrites (n :: rs) heap heap' := by
  obtain ⟨_, xs, ys, insert, rfl, listed, rewrites, lower, upper⟩ :=
    insertRegion_linked bounds list separated regions
  have perm : (n :: (xs ++ ys)).Perm (xs ++ n :: ys) := perm_middle.symm
  have regions' := (regions.perm perm).rewrites rewrites
  have sorted : (xs ++ n :: ys).Pairwise fun a b => a.start ≤ b.start := by
    obtain ⟨sortedXs, sortedYs, across⟩ := pairwise_append.mp separated.starts
    refine pairwise_append.mpr ⟨sortedXs, pairwise_cons.mpr ⟨upper, sortedYs⟩, ?_⟩
    intro r mem
    exact forall_mem_cons.mpr ⟨lower r mem, across r mem⟩
  have ordered := regions'.scattered.sorted sorted
  obtain ⟨heap', done, list', change⟩ := coalesce_spec (bounds.rewrites rewrites) listed regions' ordered
  obtain ⟨separated', cover⟩ := joinAll_spec _ regions'.scattered.proper ordered
  have cover' := fun x => (cover x).trans (Cover.perm perm.symm x)
  refine ⟨heap', joinAll (xs ++ n :: ys), insert.trans done, list', separated', ?_,
    separated'.scattered.total_eq regions.scattered cover', cover', ?_⟩
  · exact joinAll_size_ge regions'.large
  · exact rewrites.trans change fun x => (Cover.perm perm.symm x).mp

end AerOS.Proof.Heap
