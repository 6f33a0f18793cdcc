import AerOS.Proof.Heap.Blocks

namespace AerOS.Proof.Heap
open AerOS.Heap Lib HeapState List
variable {heap : HeapState} {block : Range} {rs' : List Range}

structure Inv (good : Range → Prop) (base stop : Nat) (s : State) (rs : List Range) : Prop where
  correct : HeapCorrect s rs
  bounds : Bounds s.heap
  headed : ∀ live ∈ s.live, Headed s.heap live.pointer (s.heap.block live.pointer)
  good : ∀ live ∈ s.live, good (s.heap.block live.pointer)
  base : s.heap.base = base
  stop : s.heap.stop = stop

variable {base stop : Nat} {s : State} {rs : List Range}
variable {heap' : HeapState} {live : Live} {address user x : Nat} {good : Range → Prop}

theorem headed_block (headed : Headed heap user block)
    (proper : block.start ≤ block.stop) : heap.block user = block := by
  unfold HeapState.block
  dsimp only
  rw [headed.start, headed.size]
  unfold Range.size
  rw [Nat.add_sub_cancel' proper]

theorem Inv.listed (inv : Inv good base stop s rs) : Listed s.heap rs where
  list := inv.correct.list
  separated := inv.correct.separated
  large := inv.correct.large
  inside := fun _ mem => inv.correct.tiles.inside (mem_append_left _ mem)

theorem Inv.block_mem (mem : live ∈ s.live) :
    s.heap.block live.pointer ∈ rs ++ s.live.map fun live => s.heap.block live.pointer :=
  mem_append_right _ (mem_map.mpr ⟨live, mem, rfl⟩)

section
variable (inv : Inv good base stop s rs)
include inv

theorem Inv.block_apart (mem : live ∈ s.live) (has : (s.heap.block live.pointer).Has x) : ¬ Cover rs x := by
  rintro ⟨r, memR, hasR⟩
  have across := (scattered_append.mp inv.correct.tiles.scattered).2.2
  exact clear_not_both (across r memR _ (mem_map.mpr ⟨live, mem, rfl⟩)) hasR has

theorem Inv.blocks_clear {a b : Live} (memA : a ∈ s.live) (memB : b ∈ s.live) (ne : a ≠ b) :
    (s.heap.block a.pointer).Clear (s.heap.block b.pointer) := by
  have blocks := (scattered_append.mp inv.correct.tiles.scattered).2.1.clear
  rw [pairwise_map] at blocks
  have symmetric : Std.Symm fun a b : Live =>
      (s.heap.block a.pointer).Clear (s.heap.block b.pointer) := ⟨fun _ _ h => clear_symm h⟩
  exact blocks.forall memA memB ne

theorem Inv.header_in_block (mem : live ∈ s.live)
    (first : live.pointer - headerSize ≤ x) (last : x < live.pointer) :
    (s.heap.block live.pointer).Has x := by
  have placed := inv.correct.placed live mem
  exact ⟨by omega, by omega⟩

theorem Inv.headed_frame (mem : live ∈ s.live) (same : ∀ x, live.pointer - headerSize ≤ x → x < live.pointer →
      heap'.memory x = s.heap.memory x) : Headed heap' live.pointer (s.heap.block live.pointer) := by
  have placed := inv.correct.placed live mem
  have above : headerSize ≤ live.pointer := by omega
  have load : ∀ a, live.pointer - headerSize ≤ a → a + 8 ≤ live.pointer →
      heap'.memory.load a = s.heap.memory.load a := fun a _ _ =>
    Memory.load_congr fun x _ _ => same x (by omega) (by omega)
  have old := inv.headed live mem
  unfold headerSize at above load
  constructor
  · exact load _ le_rfl (by unfold headerSize; omega)
  · rw [← old.size]
    exact load _ (by unfold headerSize; omega) (by unfold headerSize; omega)
  · rw [← old.check]
    exact load _ (by unfold headerSize; omega) (by unfold headerSize; omega)

theorem Inv.few_live : s.live.length + 1 < 2 ^ 64 := by
  have large : ∀ r ∈ s.live.map (fun live => s.heap.block live.pointer), headerSize ≤ r.size := by
    intro r mem
    obtain ⟨live, memLive, rfl⟩ := mem_map.mp mem
    have := inv.correct.placed live memLive
    unfold Range.size
    omega
  have count := length_mul_le_total large
  have size := inv.correct.tiles.size
  have high := inv.bounds.high
  rw [total_append] at size
  rw [length_map] at count
  unfold headerSize at count
  omega

end

theorem inv_of_blocks {live : List Live} (blockOf : Live → Range)
    (inv : Inv good base stop s rs) (baseSame : heap'.base = s.heap.base)
    (stopSame : heap'.stop = s.heap.stop) (listed : Listed heap' rs')
    (headed : ∀ l ∈ live, Headed heap' l.pointer (blockOf l))
    (placed : ∀ l ∈ live, l.layout.align ∣ l.pointer ∧ (blockOf l).start + headerSize ≤ l.pointer ∧
      l.pointer + max l.layout.size 1 ≤ (blockOf l).stop)
    (goods : ∀ l ∈ live, good (blockOf l)) (tiles : Tiles (rs' ++ live.map blockOf) s.heap.base s.heap.stop)
    (free : heap'.free = total rs') (active : heap'.active = live.length) :
    Inv good base stop ⟨heap', live⟩ rs' := by
  have block : ∀ l ∈ live, heap'.block l.pointer = blockOf l := fun l mem =>
    headed_block (headed l mem) (by have := placed l mem; omega)
  refine ⟨⟨listed.list, listed.separated, listed.large, ?_, free, active, fun l mem => ?_⟩,
    ⟨?_, ?_, ?_⟩, fun l mem => ?_, fun l mem => block l mem ▸ goods l mem, baseSame.trans inv.base, stopSame.trans inv.stop⟩
  · rw [map_congr_left block, baseSame, stopSame]
    exact tiles
  · rw [block l mem]
    exact placed l mem
  · rw [baseSame]
    exact inv.bounds.positive
  · rw [stopSame]
    exact inv.bounds.high
  · rw [baseSame, stopSame]
    exact inv.bounds.proper
  · rw [block l mem]
    exact headed l mem

section
variable (inv : Inv good base stop s rs)
include inv

theorem allocate_inv {layout : Layout} (aligned : layout.align ∣ user)
    (taken : Taken s.heap heap' rs rs' user (max layout.size 1) block) (fresh : good block) :
    Inv good base stop ⟨heap', ⟨user, layout⟩ :: s.live⟩ rs' := by
  have startLe := taken.start
  have stopLe := taken.stop
  have proper : block.start < block.stop := by omega
  have headed : ∀ live ∈ s.live, Headed heap' live.pointer (s.heap.block live.pointer) :=
    fun live mem => inv.headed_frame mem fun x first last =>
      taken.memory x (inv.block_apart mem (inv.header_in_block mem first last))
  have others : ∀ live ∈ s.live, heap'.block live.pointer = s.heap.block live.pointer :=
    fun live mem => headed_block (headed live mem) (by have := inv.correct.placed live mem; omega)
  have own : heap'.block user = block := headed_block taken.headed proper.le
  have blocks : (s.live.map fun live => heap'.block live.pointer) =
      s.live.map fun live => s.heap.block live.pointer :=
    map_congr_left others
  have counters := taken.counters
  have baseSame : heap'.base = s.heap.base := by rw [counters]
  have stopSame : heap'.stop = s.heap.stop := by rw [counters]
  have freeSame : heap'.free = s.heap.free - block.size := by rw [counters]
  have activeSame : heap'.active = saturatingAdd s.heap.active 1 := by rw [counters]
  have scattered : Scattered (rs' ++ [block]) := by
    refine scattered_append.mpr ⟨taken.listed.separated.scattered,
      scattered_cons.mpr ⟨proper, nofun, nofun, List.Pairwise.nil⟩, fun r mem q memQ => ?_⟩
    rw [mem_singleton.mp memQ]
    refine clear_of_disjoint (taken.listed.separated.proper r mem) proper fun x both => ?_
    exact ((taken.cover x).mp ⟨r, mem, both.1⟩).2 both.2
  have tiles : Tiles (rs' ++ (⟨user, layout⟩ :: s.live).map fun live => heap'.block live.pointer)
      s.heap.base s.heap.stop := by
    rw [map_cons, blocks, own, ← singleton_append, ← append_assoc]
    refine inv.correct.tiles.replace scattered (fun x => ?_) ?_
    · rw [cover_append, taken.cover, cover_cons]
      have := taken.free x
      have := cover_nil x
      tauto
    · rw [total_append, total_cons, total_nil, Nat.add_zero]
      exact taken.size
  refine inv_of_blocks (fun live => heap'.block live.pointer) inv baseSame stopSame taken.listed
    (forall_mem_cons.mpr ⟨?_, fun live mem => ?_⟩)
    (forall_mem_cons.mpr ⟨?_, fun live mem => ?_⟩)
    (forall_mem_cons.mpr ⟨own ▸ fresh, fun live mem => others live mem ▸ inv.good live mem⟩) tiles ?_ ?_
  · rw [own]
    exact taken.headed
  · rw [others live mem]
    exact headed live mem
  · rw [own]
    exact ⟨aligned, startLe, stopLe⟩
  · rw [others live mem]
    exact inv.correct.placed live mem
  · have := taken.size
    have := inv.correct.free
    omega
  · rw [activeSame, inv.correct.active, saturatingAdd_of_lt inv.few_live]
    rfl

theorem deallocate_inv {before after : List Live} (split : s.live = before ++ live :: after)
    (returned : Returned s.heap heap' rs rs' (s.heap.block live.pointer)) :
    Inv good base stop ⟨heap', before ++ after⟩ rs' := by
  have keeps : ∀ other ∈ before ++ after, other ∈ s.live := by
    intro other memOther
    rw [split]
    rcases mem_append.mp memOther with memOther | memOther
    · exact mem_append_left _ memOther
    · exact mem_append_right _ (mem_cons_of_mem live memOther)
  have order : (rs ++ s.live.map fun live => s.heap.block live.pointer).Perm
      ((s.heap.block live.pointer :: rs) ++ (before ++ after).map fun live => s.heap.block live.pointer) := by
    rw [split, map_append, map_append, map_cons, ← append_assoc]
    refine perm_middle.trans ?_
    rw [append_assoc]
    exact List.Perm.refl _
  have tiles := inv.correct.tiles.perm order
  -- The headers of the others lie in blocks that are neither free nor given back.
  have others : ∀ other ∈ before ++ after,
      Headed heap' other.pointer (s.heap.block other.pointer) := fun other memOther =>
    inv.headed_frame (keeps other memOther) fun x first last => by
      apply returned.memory
      rintro ⟨r, memR, hasR⟩
      have across := (scattered_append.mp tiles.scattered).2.2 r memR
        (s.heap.block other.pointer) (mem_map.mpr ⟨other, memOther, rfl⟩)
      exact clear_not_both across hasR (inv.header_in_block (keeps other memOther) first last)
  have counters := returned.counters
  have baseSame : heap'.base = s.heap.base := by rw [counters]
  have stopSame : heap'.stop = s.heap.stop := by rw [counters]
  have freeSame : heap'.free = saturatingAdd s.heap.free (s.heap.block live.pointer).size := by
    rw [counters]
  have activeSame : heap'.active = s.heap.active - 1 := by rw [counters]
  have tiles' := tiles.replace returned.listed.separated.scattered
    (fun x => by rw [returned.cover, cover_cons])
    (by rw [returned.size, total_cons, Nat.add_comm])
  have high := inv.bounds.high
  refine inv_of_blocks (fun live => s.heap.block live.pointer) inv baseSame stopSame returned.listed
    others (fun other memOther => inv.correct.placed other (keeps other memOther))
    (fun other memOther => inv.good other (keeps other memOther)) tiles' ?_ ?_
  · have size := tiles'.size
    have := inv.correct.free
    have := returned.size
    rw [total_append] at size
    rw [freeSame, saturatingAdd_of_lt (by omega)]
    omega
  · rw [activeSame, inv.correct.active, split]
    simp

theorem writable_apart (writable : s.Writable address) : ¬ Cover rs address ∧ ∀ live ∈ s.live,
      ¬ (live.pointer - headerSize ≤ address ∧ address < live.pointer) := by
  rcases writable with ⟨own, mem, _, _⟩ | _
  · have placed := inv.correct.placed own mem
    have has : (s.heap.block own.pointer).Has address := ⟨by omega, by omega⟩
    refine ⟨inv.block_apart mem has, fun live memLive header => ?_⟩
    by_cases same : own = live
    · subst same
      omega
    exact clear_not_both (inv.blocks_clear mem memLive same) has
      (inv.header_in_block memLive header.1 header.2)
  have within := fun x => (inv.correct.tiles.cover x).mp
  constructor
  · intro covered
    have := within address ((cover_append _ _ _).mpr (.inl covered))
    omega
  intro live mem header
  have := within address ⟨_, Inv.block_mem mem, inv.header_in_block mem header.1 header.2⟩
  omega

theorem store_inv {byte : UInt8} (writable : s.Writable address) : Inv good base stop
      { s with heap := { s.heap with memory := s.heap.memory.poke address byte } } rs := by
  obtain ⟨apart, headers⟩ := writable_apart inv writable
  have change : Rewrites [⟨address, address + 1⟩] s.heap
      { s.heap with memory := s.heap.memory.poke address byte } := by
    refine ⟨rfl, fun x outside => Memory.poke_apply_of_ne ?_⟩
    have := not_covered_single outside
    dsimp only at this
    omega
  have listed := inv.listed.frame change rfl fun x covered inside => by
    have has := cover_singleton.mp inside
    obtain rfl : x = address := le_antisymm (Nat.le_of_lt_succ has.2) has.1
    exact apart covered
  exact inv_of_blocks (fun live => s.heap.block live.pointer) inv rfl rfl listed
    (fun live mem => inv.headed_frame mem fun x first last =>
      Memory.poke_apply_of_ne fun same => headers live mem ⟨same ▸ first, same ▸ last⟩)
    inv.correct.placed inv.good inv.correct.tiles inv.correct.free inv.correct.active

theorem deallocate_live (mem : live ∈ s.live) :
    ∃ heap' rs', s.heap.deallocate live.pointer = .done true heap' ∧
      Returned s.heap heap' rs rs' (s.heap.block live.pointer) := by
  have placed := inv.correct.placed live mem
  exact deallocate_spec inv.bounds inv.listed (inv.headed live mem) placed.2.1 (by omega)
    (inv.correct.tiles.inside (Inv.block_mem mem)) fun x has => inv.block_apart mem has

theorem step_inv (call : Call) (fresh : ∀ layout user heap' rs' block, call = .allocate layout → 8 ∣ user →
      Taken s.heap heap' rs rs' user (max layout.size 1) block → good block) :
    ∃ rs', Inv good base stop (s.step call) rs' := by
  cases call with
  | allocate layout =>
    unfold State.step
    dsimp only
    rcases allocate_spec inv.bounds inv.listed layout with nothing | ⟨panics, -⟩ |
      ⟨user, heap', rs', block, done, aligned, taken⟩
    · rw [nothing]
      exact ⟨rs, inv⟩
    · rw [panics]
      exact ⟨rs, inv⟩
    · rw [done]
      exact ⟨rs', allocate_inv inv aligned.1 taken (fresh _ _ _ _ _ rfl aligned.2 taken)⟩
  | deallocate pointer =>
    unfold State.step
    dsimp only
    split
    · next found =>
      obtain ⟨live, mem, same⟩ := any_eq_true.mp found
      obtain ⟨entry, _, _, -, atEntry, split, erased⟩ :=
        exists_of_eraseP (p := fun live : Live => live.pointer == pointer) mem same
      have memEntry : entry ∈ s.live := by
        rw [split]
        simp
      obtain rfl : entry.pointer = pointer := eq_of_beq atEntry
      obtain ⟨heap', rs', done, returned⟩ := deallocate_live inv memEntry
      rw [done, erased]
      exact ⟨rs', deallocate_inv inv split returned⟩
    · exact ⟨rs, inv⟩
  | store _ _ =>
    unfold State.step
    dsimp only
    split
    · next writable => exact ⟨rs, store_inv inv writable⟩
    · exact ⟨rs, inv⟩

end

theorem alignUp_positive (positive : 0 < x) : 0 < alignUp x 8 := by
  have low : 8 ≤ saturatingAdd x 7 := by
    unfold saturatingAdd
    omega
  have bound : saturatingAdd x 7 < 2 ^ 64 := by
    unfold saturatingAdd
    omega
  have near := (alignDown_spec (k := 3) bound (by decide)).2.2
  change 0 < alignDown (saturatingAdd x 7) (2 ^ 3)
  omega

theorem initial_inv {memory : Memory} {size : Nat} (nonnull : 0 < base)
    (started : initializeHeap memory base size = some heap) :
    (8 ∣ heap.base ∧ 8 ∣ heap.stop) ∧ ∃ rs, Inv good heap.base heap.stop ⟨heap, []⟩ rs := by
  unfold HeapState.initializeHeap at started
  cases raw : checkedAdd base size with
  | none =>
    rw [raw] at started
    cases started
  | some _ =>
    obtain ⟨high, rfl⟩ := checkedAdd_eq_some.mp raw
    rw [raw] at started
    dsimp only at started
    split at started
    · cases started
    next room =>
    have positive := alignUp_positive nonnull
    have below := (alignDown_spec (k := 3) high (by decide)).2.1
    have lowest : 8 ∣ alignUp base 8 :=
      (alignDown_spec (k := 3) ((Nat.min_le_right ..).trans_lt (by decide)) (by decide)).1
    have highest := (alignDown_spec (k := 3) high (by decide)).1
    generalize alignUp base 8 = start at started room positive lowest
    generalize alignDown (base + size) 8 = stop at started room below highest
    have proper : start < stop := by omega
    have bounds : Bounds ⟨memory, 0, start, stop, stop - start, stop - start, 0⟩ :=
      ⟨positive, below.trans_lt high, proper⟩
    have empty : Listed ⟨memory, 0, start, stop, stop - start, stop - start, 0⟩ [] :=
      ⟨⟨rfl, nofun⟩, ⟨nofun, List.Pairwise.nil⟩, nofun, nofun⟩
    obtain ⟨heap', rs, insert, listed, total_eq, cover, rewrites⟩ := insertRegion_listed
      (n := ⟨start, stop⟩) bounds empty proper (by unfold Range.size; dsimp only; omega)
      ⟨le_rfl, le_rfl⟩ (fun x _ => cover_nil x)
    obtain rfl : heap' = heap := Option.mem_unique insert started
    have fields : heap'.base = start ∧ heap'.stop = stop ∧ heap'.free = stop - start ∧
        heap'.active = 0 := by
      rw [rewrites.frame]
      exact ⟨rfl, rfl, rfl, rfl⟩
    obtain ⟨baseIs, stopIs, freeIs, activeIs⟩ := fields
    have whole := total_eq.trans (Nat.zero_add _)
    refine ⟨⟨baseIs ▸ lowest, stopIs ▸ highest⟩, rs, ⟨listed.list, listed.separated, listed.large, ?_,
      freeIs.trans whole.symm, activeIs, nofun⟩, bounds.rewrites rewrites, nofun, nofun, rfl, rfl⟩
    rw [baseIs, stopIs, map_nil, append_nil]
    refine ⟨listed.separated.scattered, fun x => ?_, whole⟩
    rw [cover]
    exact or_iff_left (cover_nil x)

/-- In every state that a run reaches, the free list is sorted and apart, and its regions tile the heap
together with the blocks of the live allocations. Every live pointer can be given back. -/
theorem heap_correct (memory : Memory) (base size : Nat) (heap : HeapState) (nonnull : 0 < base)
    (started : initializeHeap memory base size = some heap) (calls : List Call) (s : State)
    (reached : s = Run.final State.step ⟨heap, []⟩ calls) : (∃ regions, HeapCorrect s regions ∧
        (s.live = [] → regions = [⟨s.heap.base, s.heap.stop⟩])) ∧
      (s.heap.base = heap.base ∧ s.heap.stop = heap.stop) ∧
      (∀ live ∈ s.live, ∃ heap', s.heap.deallocate live.pointer = .done true heap') ∧
      ∀ layout, s.heap.allocate layout ≠ .loops ∧
        (s.heap.stop ≤ 2 ^ 63 → s.heap.allocate layout ≠ .panic) := by
  have steps : ∀ s call, (∃ rs, Inv (fun _ => True) heap.base heap.stop s rs) →
      ∃ rs, Inv (fun _ => True) heap.base heap.stop (State.step s call) rs := by
    rintro s call ⟨rs, inv⟩
    exact step_inv inv call fun _ _ _ _ _ _ _ _ => trivial
  obtain ⟨rs, inv⟩ := Run.final_invariant steps calls (initial_inv nonnull started).2
  rw [← reached] at inv
  refine ⟨⟨rs, inv.correct, fun none => ?_⟩, ⟨inv.base, inv.stop⟩, fun live mem => ?_, fun layout => ?_⟩
  · have tiles := inv.correct.tiles
    rw [none, map_nil, append_nil] at tiles
    exact inv.correct.separated.single tiles.cover inv.bounds.proper
  · obtain ⟨heap', -, done, -⟩ := deallocate_live inv mem
    exact ⟨heap', done⟩
  rcases allocate_spec inv.bounds inv.listed layout with nothing | ⟨panics, high⟩ |
    ⟨user, heap', rs', block, done, -, -⟩
  · rw [nothing]
    exact ⟨nofun, fun _ => nofun⟩
  · rw [panics]
    exact ⟨nofun, fun low => absurd high (not_lt.mpr low)⟩
  · rw [done]
    exact ⟨nofun, fun _ => nofun⟩

def smallHeap : HeapState := (initializeHeap (fun _ => 0xcc) 0x1001 0x200).get (by decide +kernel)

def smallCalls : List Call :=
  [.allocate ⟨5, 1, by decide, by decide⟩, .allocate ⟨16, 64, by decide, by decide⟩,
    .store 0x1040 0xaa, .allocate ⟨40, 8, by decide, by decide⟩, .deallocate 0x1040]

theorem small_heap_correct :
    (∃ regions, HeapCorrect (Run.final State.step ⟨smallHeap, []⟩ smallCalls) regions ∧
        ((Run.final State.step ⟨smallHeap, []⟩ smallCalls).live = [] →
          regions = [⟨(Run.final State.step ⟨smallHeap, []⟩ smallCalls).heap.base,
            (Run.final State.step ⟨smallHeap, []⟩ smallCalls).heap.stop⟩])) ∧
      (Run.final State.step ⟨smallHeap, []⟩ smallCalls).live.map Live.pointer = [0x1068, 0x1020] :=
  ⟨(heap_correct (fun _ => 0xcc) 0x1001 0x200 smallHeap (by decide)
      (Option.some_get _).symm smallCalls _ rfl).1, by decide +kernel⟩

theorem onList_mem {node : Nat} (list : FreeList heap rs) (on : heap.OnList node) : ∃ r ∈ rs, r.start = node := by
  have chain := list.chain
  rw [← mem_map]
  induction on with
  | head nonnull =>
    cases starts : rs.map Range.start with
    | nil =>
      rw [starts] at chain
      exact absurd chain nonnull
    | cons _ others =>
      rw [starts] at chain
      rw [chain.1]
      exact mem_cons_self
  | next on nonnull ih =>
    obtain ⟨_, others, split⟩ := append_of_mem ih
    rw [split, chain_append] at chain
    obtain ⟨_, -, -, -, rest⟩ := chain
    rw [split]
    cases others with
    | nil => exact absurd rest nonnull
    | cons => simp [rest.1]

def Aligned (r : Range) : Prop := 8 ∣ r.start ∧ 8 ∣ r.stop

/-- A free region begins and ends at an end of the heap or at a live block. -/
theorem Inv.region_aligned (inv : Inv Aligned base stop s rs) (lowest : 8 ∣ base) (highest : 8 ∣ stop) {r : Range}
    (mem : r ∈ rs) : Aligned r := by
  have tiles := inv.correct.tiles
  have proper := inv.correct.separated.proper r mem
  have inside := tiles.inside (mem_append_left _ mem)
  -- No region touches another, so that what lies beside a region is a block.
  have beside {x : Nat} (near : x + 1 = r.start ∨ x = r.stop) (within : s.heap.base ≤ x ∧ x < s.heap.stop) :
      ∃ q, Aligned q ∧ q.Has x ∧ r.Clear q := by
    obtain ⟨q, memQ, has⟩ := (tiles.cover x).mpr within
    rcases mem_append.mp memQ with region | block
    · have symmetric : Std.Symm fun a b : Range => a.stop < b.start ∨ b.stop < a.start := ⟨fun _ _ => Or.symm⟩
      have apart : rs.Pairwise fun a b => a.stop < b.start ∨ b.stop < a.start :=
        inv.correct.separated.ordered.imp Or.inl
      unfold Range.Has at has
      have ne : q ≠ r := by
        rintro rfl
        omega
      have := apart.forall region mem ne
      omega
    · refine ⟨q, ?_, has, (scattered_append.mp tiles.scattered).2.2 r mem q block⟩
      obtain ⟨live, memLive, rfl⟩ := mem_map.mp block
      exact inv.good live memLive
  rw [← inv.base] at lowest
  rw [← inv.stop] at highest
  unfold Range.Has Range.Clear at beside
  constructor
  · by_cases first : s.heap.base = r.start
    · rwa [← first]
    obtain ⟨q, aligned, has, clear⟩ := beside (x := r.start - 1) (by omega) (by omega)
    rw [show r.start = q.stop by omega]
    exact aligned.2
  by_cases last : s.heap.stop = r.stop
  · rwa [← last]
  obtain ⟨q, aligned, has, clear⟩ := beside (.inr rfl) (by omega)
  rw [show r.stop = q.start by omega]
  exact aligned.1

theorem serve_eq_step {call : Call} (regular : s.Regular call) : s.serve call = s.step call := by
  cases call with
  | allocate _ => rfl
  | store _ _ => rfl
  | deallocate pointer =>
    unfold State.serve State.step
    dsimp only
    split_ifs with found
    · rfl
    rw [regular.resolve_left found]

/-- Where only multiples of eight bytes are asked for, every node lies at a multiple of eight. -/
theorem nodes_aligned (memory : Memory) (base size : Nat) (heap : HeapState) (nonnull : 0 < base)
    (started : initializeHeap memory base size = some heap) (calls : List Call)
    (regular : Run.Along State.serve State.Regular ⟨heap, []⟩ calls) :
    Run.Along State.serve (fun s call => ∀ node, s.Touches call node → 8 ∣ node) ⟨heap, []⟩ calls := by
  obtain ⟨⟨lowest, highest⟩, initial⟩ :
      (8 ∣ heap.base ∧ 8 ∣ heap.stop) ∧ ∃ rs, Inv Aligned heap.base heap.stop ⟨heap, []⟩ rs :=
    initial_inv nonnull started
  have steps (s : State) (call : Call) : (∃ rs, Inv Aligned heap.base heap.stop s rs) → s.Regular call →
      ∃ rs, Inv Aligned heap.base heap.stop (State.serve s call) rs := by
    rintro ⟨rs, inv⟩ regular
    rw [serve_eq_step regular]
    refine step_inv inv call fun _ _ _ _ _ same aligned taken => ⟨?_, ?_⟩
    · rcases taken.front with eq | ⟨r, mem, eq⟩
      · rw [eq]
        exact Nat.dvd_sub aligned (by decide)
      · rw [eq]
        exact (inv.region_aligned lowest highest mem).1
    subst same
    rcases taken.back with eq | ⟨r, mem, eq⟩
    · rw [eq]
      exact Nat.dvd_add aligned regular
    rw [eq]
    exact (inv.region_aligned lowest highest mem).2
  have listed {s : State} (kept : ∃ rs, Inv Aligned heap.base heap.stop s rs) {node : Nat} (on : s.heap.OnList node) :
      8 ∣ node := by
    obtain ⟨rs, inv⟩ := kept
    obtain ⟨r, mem, rfl⟩ := onList_mem inv.correct.list on
    exact (inv.region_aligned lowest highest mem).1
  refine Run.along_of_along steps (fun s call kept regular node touches => ?_) initial regular
  rcases touches with on | on | ⟨pointer, heap', rfl, taken, rfl⟩
  · exact listed kept on
  · exact listed (steps s call kept regular) on
  obtain ⟨rs, inv⟩ := kept
  rcases regular with found | refused
  · obtain ⟨live, mem, same⟩ := any_eq_true.mp found
    obtain rfl : live.pointer = pointer := eq_of_beq same
    exact (inv.good live mem).1
  · rw [refused] at taken
    cases taken

/-- The owner writes into its bytes, and gives them back twice. -/
def evenCalls : List Call :=
  [.allocate ⟨16, 64, by decide, by decide⟩, .store 0x1048 0xaa, .deallocate 0x1040, .deallocate 0x1040]

theorem second_refused (heap : HeapState) (user : Nat)
    (cleared : heap.headerValid user (heap.memory.load (user - headerSize)) (heap.memory.load (user - headerSize + 8))
      (heap.memory.load (user - headerSize + 16)) = false) : heap.deallocate user = .done false heap := by
  unfold HeapState.deallocate
  dsimp only
  rw [cleared, if_neg Bool.false_ne_true, ite_self]

theorem evenCalls_aligned : Run.Along State.serve (fun s call => ∀ node, s.Touches call node → 8 ∣ node)
    ⟨smallHeap, []⟩ evenCalls :=
  nodes_aligned (fun _ => 0xcc) 0x1001 0x200 smallHeap (by decide) (Option.some_get _).symm evenCalls
    ⟨(by decide : 8 ∣ max 16 1), trivial, .inl (by decide +kernel), .inr (second_refused _ _ (by decide +kernel)), trivial⟩

/-- The rest of the region from which five bytes are taken begins right behind them. -/
theorem odd_size_misaligns :
    ¬Run.Along State.serve (fun s call => ∀ node, s.Touches call node → 8 ∣ node) ⟨smallHeap, []⟩ smallCalls := by
  intro ⟨aligned, _⟩
  have head : (State.serve ⟨smallHeap, []⟩ (.allocate ⟨5, 1, by decide, by decide⟩)).heap.head = 0x1025 := by
    decide +kernel
  have on := HeapState.OnList.head (by rw [head]; decide)
  rw [head] at on
  exact absurd (aligned 0x1025 (.inr (.inl on))) (by decide)

end AerOS.Proof.Heap
