import AerOS.Spec.Frames

namespace AerOS.Proof.Frames
open AerOS.Frames Lib Function List FrameAllocator

variable {count i index : Nat} {array : Nat → Range}
variable {r : Range} {a : FrameAllocator}

@[simp] theorem length_entries (array : Nat → Range) (count : Nat) :
    (entries array count).length = count := by
  simp [entries]

theorem getElem_entries (array : Nat → Range) (h : i < (entries array count).length) :
    (entries array count)[i] = array i := by
  simp [entries]

theorem mem_entries : r ∈ entries array count ↔ ∃ i < count, array i = r := by
  simp [entries]

theorem entries_congr {array' : Nat → Range}
    (h : ∀ i < count, array' i = array i) : entries array' count = entries array count :=
  map_congr_left fun i mem => h i (mem_range.mp mem)

theorem entries_succ (array : Nat → Range) (count : Nat) :
    entries array (count + 1) = entries array count ++ [array count] := by
  simp [entries, range_succ]

theorem entries_push (array : Nat → Range) (count : Nat) (r : Range) :
    entries (update array count r) (count + 1) = entries array count ++ [r] := by
  rw [entries_succ, update_self, entries_congr fun i hi => update_of_ne hi.ne _ _]

theorem entries_eq {rs : List Range} (length : rs.length = count)
    (h : ∀ i (hi : i < rs.length), array i = rs[i]) : entries array count = rs := by
  apply ext_getElem
  · rw [length_entries, length]
  intro i hi hi'
  rw [getElem_entries, h i hi']

theorem entries_update (r : Range) :
    entries (update array index r) count = (entries array count).set index r := by
  apply entries_eq
  · simp
  intro i hi
  rw [getElem_set]
  by_cases same : index = i
  · subst same
    simp
  · rw [update_of_ne (Ne.symm same), if_neg same, getElem_entries]

theorem shiftUp_apply (array : Nat → Range) (first count i : Nat) :
    shiftUp array first count i = if first < i ∧ i ≤ first + count then array (i - 1) else array i := by
  induction count generalizing array with
  | zero =>
    rw [shiftUp, if_neg (by omega)]
  | succ count ih =>
    rw [shiftUp, ih]
    by_cases top : i = first + count + 1
    · subst top
      rw [if_neg (by omega), update_self, if_pos (by omega)]
      rfl
    by_cases moved : first < i ∧ i ≤ first + count
    · rw [if_pos moved, if_pos (by omega), update_of_ne (by omega)]
    · rw [if_neg moved, if_neg (by omega), update_of_ne top]

theorem shiftDown_apply (array : Nat → Range) (first count i : Nat) :
    shiftDown array first count i = if first ≤ i ∧ i < first + count then array (i + 1) else array i := by
  induction count generalizing array first with
  | zero => rw [shiftDown, if_neg (by omega)]
  | succ count ih =>
    rw [shiftDown, ih]
    by_cases bottom : i = first
    · subst bottom
      rw [if_neg (by omega), update_self, if_pos (by omega)]
    by_cases moved : first + 1 ≤ i ∧ i < first + 1 + count
    · rw [if_pos moved, if_pos (by omega), update_of_ne (by omega)]
    · rw [if_neg moved, if_neg (by omega), update_of_ne bottom]

theorem insertFree_spec (r : Range) (room : a.freeCount < maxFreeRanges) (inside : index ≤ a.freeCount) :
    ∃ a', insertFree a index r = some a' ∧ a'.freeList = a.freeList.insertIdx index r ∧
      a'.freeCount = a.freeCount + 1 ∧ a' = { a with free := a'.free, freeCount := a'.freeCount } := by
  refine ⟨_, if_pos room, ?_, rfl, rfl⟩
  apply entries_eq
  · simp [freeList, length_insertIdx, inside]
  intro i hi
  dsimp only
  rw [getElem_insertIdx]
  rcases Nat.lt_trichotomy i index with lt | rfl | gt
  · rw [dif_pos lt, update_of_ne lt.ne, shiftUp_apply, if_neg (by omega)]
    exact (getElem_entries _ _).symm
  · rw [dif_neg (Nat.lt_irrefl i), dif_pos rfl, update_self]
  rw [dif_neg (by omega), dif_neg (by omega), update_of_ne (by omega), shiftUp_apply]
  have : i < a.freeCount + 1 := by
    simpa [freeList, length_insertIdx, inside] using hi
  rw [if_pos (by omega)]
  exact (getElem_entries _ _).symm

theorem removeFree_freeList (inside : index < a.freeCount) :
    (removeFree a index).freeList = a.freeList.eraseIdx index := by
  apply entries_eq
  · simp [freeList, length_eraseIdx, inside, removeFree]
  intro i hi
  have small : i < a.freeCount - 1 := by
    simpa [freeList, length_eraseIdx, inside] using hi
  unfold removeFree
  dsimp only
  rw [update_of_ne (by omega), shiftDown_apply, getElem_eraseIdx]
  by_cases below : i < index
  · rw [if_neg (by omega), dif_pos below]
    exact (getElem_entries _ _).symm
  rw [if_pos (by omega), dif_neg below]
  exact (getElem_entries _ _).symm

theorem sink_above (value : Range) (inner : Nat) (array : Nat → Range) (h : inner < i) :
    sink value inner array i = array i := by
  induction inner generalizing array with
  | zero => exact update_of_ne (by omega) _ _
  | succ inner ih =>
    unfold sink
    split
    · rw [ih _ (by omega), update_of_ne (by omega)]
    · exact update_of_ne (by omega) _ _

theorem sink_spec (value : Range) (inner : Nat) (array : Nat → Range)
    (sorted : (entries array inner).Pairwise fun a b => a.start ≤ b.start) :
    (entries (sink value inner array) (inner + 1)).Perm (entries array inner ++ [value]) ∧
      (entries (sink value inner array) (inner + 1)).Pairwise fun a b => a.start ≤ b.start := by
  induction inner generalizing array with
  | zero =>
    have single : entries (sink value 0 array) 1 = [value] := by simp [entries, sink]
    exact ⟨List.Perm.refl _, pairwise_singleton _ _⟩
  | succ inner ih =>
    have below : entries (update array (inner + 1) (array inner)) inner = entries array inner :=
      entries_congr fun i hi => update_of_ne (by omega) _ _
    rw [entries_succ] at sorted
    obtain ⟨_, -, last⟩ := pairwise_append.mp sorted
    unfold sink
    split
    · next larger =>
      obtain ⟨perm, ordered⟩ := ih (update array (inner + 1) (array inner)) (by rwa [below])
      have top : sink value inner (update array (inner + 1) (array inner)) (inner + 1) = array inner := by
        rw [sink_above _ _ _ (Nat.lt_succ_self inner), update_self]
      rw [entries_succ _ (inner + 1), top]
      rw [below] at perm
      constructor
      · rw [entries_succ array inner, append_assoc]
        refine (perm.append_right [array inner]).trans ?_
        rw [append_assoc]
        exact (List.Perm.swap (array inner) value []).append_left _
      refine pairwise_append.mpr ⟨ordered, pairwise_singleton _ _, ?_⟩
      intro a memA b memB
      rw [mem_singleton.mp memB]
      rcases mem_append.mp (perm.mem_iff.mp memA) with old | new
      · exact last a old _ mem_cons_self
      rw [mem_singleton.mp new]
      exact larger.le
    · next smaller =>
      have same : entries (update array (inner + 1) value) (inner + 1) = entries array (inner + 1) :=
        entries_congr fun i hi => update_of_ne (by omega) _ _
      rw [entries_succ _ (inner + 1), same, update_self]
      refine ⟨List.Perm.refl _, ?_⟩
      rw [entries_succ]
      refine pairwise_append.mpr ⟨sorted, pairwise_singleton _ _, ?_⟩
      intro a memA b memB
      rw [mem_singleton.mp memB]
      rcases mem_append.mp memA with old | new
      · exact (last a old _ mem_cons_self).trans (not_lt.mp smaller)
      rw [mem_singleton.mp new]
      exact not_lt.mp smaller

theorem sortEntries_above (array : Nat → Range) (count : Nat) (h : count < i) :
    sortEntries array count i = array i := by
  induction count with
  | zero => rfl
  | succ count ih =>
    unfold sortEntries
    rw [sink_above _ _ _ h, ih (by omega)]

theorem sortEntries_spec (array : Nat → Range) (count : Nat) :
    (entries (sortEntries array count) (count + 1)).Perm (entries array (count + 1)) ∧
      (entries (sortEntries array count) (count + 1)).Pairwise fun a b => a.start ≤ b.start := by
  induction count with
  | zero => exact ⟨List.Perm.refl _, by simp [entries]⟩
  | succ count ih =>
    obtain ⟨perm, sorted⟩ := ih
    unfold sortEntries
    obtain ⟨perm', sorted'⟩ := sink_spec (sortEntries array count (count + 1)) (count + 1)
      (sortEntries array count) sorted
    refine ⟨perm'.trans ?_, sorted'⟩
    rw [sortEntries_above array count (Nat.lt_succ_self count), entries_succ array (count + 1)]
    exact perm.append_right _

theorem sortFree_spec (a : FrameAllocator) : (sortFree a).freeList.Perm a.freeList ∧
      (sortFree a).freeList.Pairwise fun a b => a.start ≤ b.start := by
  unfold sortFree freeList
  cases count : a.freeCount with
  | zero => exact ⟨List.Perm.refl _, List.Pairwise.nil⟩
  | succ n => exact sortEntries_spec a.free n

theorem free_of_view {before after : List Range} (view : a.freeList = before ++ r :: after)
    (length : before.length = index) : a.free index = r := by
  subst length
  have inside : before.length < a.freeList.length := by
    rw [view]
    simp
  rw [← getElem_entries a.free inside]
  change a.freeList[before.length] = r
  simp [view]

theorem coalesceFrom_freeList (turns index : Nat) (a : FrameAllocator) {before after : List Range}
    (view : a.freeList = before ++ r :: after) (length : before.length = index)
    (enough : after.length ≤ turns) : (coalesceFrom turns index a).freeList = before ++ joined r after := by
  induction turns generalizing index a before r after with
  | zero =>
    obtain rfl := List.eq_nil_of_length_eq_zero (Nat.le_zero.mp enough)
    exact view
  | succ turns ih =>
    have count : a.freeCount = before.length + 1 + after.length := by
      have := congrArg List.length view
      simp [freeList] at this
      omega
    unfold coalesceFrom
    cases after with
    | nil =>
      rw [if_neg (by simp at count; omega)]
      exact view
    | cons q rest =>
      have onward : a.freeList = (before ++ [r]) ++ q :: rest := by simp [view]
      have length' : (before ++ [r]).length = index + 1 := by simp [length]
      simp only [List.length_cons] at enough count
      rw [if_pos (by omega)]
      dsimp only
      rw [free_of_view view length, free_of_view onward length']
      unfold joined
      split
      · apply ih
        · rw [removeFree_freeList (by dsimp only; omega)]
          unfold freeList at view ⊢
          rw [entries_update, view]
          subst length
          simp [List.eraseIdx_append_of_length_le]
        · exact length
        · omega
      · rw [ih (index + 1) a onward length' (by omega)]
        simp

theorem coalesceFree_freeList (a : FrameAllocator) : (coalesceFree a).freeList = joinAll a.freeList := by
  unfold coalesceFree
  cases view : a.freeList with
  | nil =>
    have none : a.freeCount = 0 := by
      have := congrArg length view
      simpa [freeList] using this
    rw [none]
    exact view
  | cons r after =>
    have count : after.length ≤ a.freeCount := by
      have := congrArg length view
      simp [freeList] at this
      omega
    have whole : a.freeList = [] ++ r :: after := view
    exact coalesceFrom_freeList a.freeCount 0 a whole rfl count

variable {a' : FrameAllocator} {start stop : Nat}
variable {before after : List Range}

def OnlyFree (a a' : FrameAllocator) : Prop := a' = { a with free := a'.free, freeCount := a'.freeCount }

theorem OnlyFree.intro (a : FrameAllocator) (free : Nat → Range) (freeCount : Nat) :
    OnlyFree a { a with free := free, freeCount := freeCount } := rfl

theorem OnlyFree.trans {a'' : FrameAllocator} (h : OnlyFree a a') (h' : OnlyFree a' a'') :
    OnlyFree a a'' := by
  unfold OnlyFree at *
  rw [h', h]

theorem OnlyFree.managedList (h : OnlyFree a a') : a'.managedList = a.managedList := by
  rw [h]
  rfl

theorem freeCount_eq_length (a : FrameAllocator) : a.freeCount = a.freeList.length :=
  (length_entries a.free a.freeCount).symm

theorem freeList_split (inside : index < a.freeCount) :
    ∃ before after, before.length = index ∧ a.freeList = before ++ a.free index :: after := by
  have bound : index < a.freeList.length := by rwa [← freeCount_eq_length]
  refine ⟨a.freeList.take index, a.freeList.drop (index + 1), ?_, ?_⟩
  · rw [length_take]
    omega
  have entry : a.freeList[index] = a.free index := getElem_entries _ _
  rw [← entry, getElem_cons_drop, take_append_drop]

theorem freeList_update
    (view : a.freeList = before ++ r :: after) (length : before.length = index) (q : Range) :
    ({ a with free := update a.free index q } : FrameAllocator).freeList = before ++ q :: after := by
  have set : ({ a with free := update a.free index q } : FrameAllocator).freeList =
      a.freeList.set index q := entries_update q
  rw [set, view, ← length]
  simp

theorem coalesceFrom_onlyFree (turns index : Nat) (a : FrameAllocator) :
    OnlyFree a (coalesceFrom turns index a) := by
  induction turns generalizing index a with
  | zero => rfl
  | succ turns ih =>
    unfold coalesceFrom
    split
    · dsimp only
      split
      · exact (OnlyFree.intro a _ _).trans (ih index _)
      · exact ih (index + 1) a
    · rfl

theorem settle_spec (a : FrameAllocator) (scattered : Scattered a.freeList) :
    Separated (coalesceFree (sortFree a)).freeList ∧
      (∀ x, Cover (coalesceFree (sortFree a)).freeList x ↔ Cover a.freeList x) := by
  obtain ⟨perm, sorted⟩ := sortFree_spec a
  have again := scattered.perm perm.symm
  obtain ⟨separated, cover⟩ := joinAll_spec (sortFree a).freeList again.proper (again.sorted sorted)
  rw [coalesceFree_freeList]
  exact ⟨separated, fun x => (cover x).trans (Cover.perm perm x)⟩

theorem settle_ends {P : Nat → Prop} (ends : Ends P a.freeList) :
    Ends P (coalesceFree (sortFree a)).freeList := by
  rw [coalesceFree_freeList]
  exact joinAll_ends (ends.perm (sortFree_spec a).1.symm)

theorem settle_count (a : FrameAllocator) : (coalesceFree (sortFree a)).freeCount ≤ a.freeCount := by
  rw [freeCount_eq_length, coalesceFree_freeList]
  refine (joinAll_length_le _).trans ?_
  rw [← freeCount_eq_length]
  exact le_rfl

theorem settle_onlyFree (a : FrameAllocator) : OnlyFree a (coalesceFree (sortFree a)) :=
  (OnlyFree.intro a _ _).trans (coalesceFrom_onlyFree _ 0 (sortFree a))

theorem insertIdx_append_length (before after : List Range) (r : Range) :
    (before ++ after).insertIdx before.length r = before ++ r :: after := by
  induction before with
  | nil => rfl
  | cons q before ih =>
    rw [cons_append, length_cons, insertIdx_succ_cons, ih]
    rfl

theorem consumeRange_spec (view : a.freeList = before ++ r :: after)
    (length : before.length = index) (room : a.freeCount ≤ maxFreeRanges)
    (entry : ¬ (start > r.start ∧ stop < r.stop ∧ a.freeCount = maxFreeRanges)) :
    ∃ a', consumeRange a index r start stop = some a' ∧
      a'.freeList = before ++ r.without start stop ++ after ∧ a'.freeCount ≤ maxFreeRanges ∧
      OnlyFree a a' := by
  have inside : index < a.freeCount := by
    rw [freeCount_eq_length, view, ← length]
    simp
  unfold consumeRange Range.without
  by_cases left : start > r.start
  · rw [decide_eq_true left, if_pos left]
    by_cases right : stop < r.stop
    · rw [decide_eq_true right, if_pos right]
      have notFull : a.freeCount < maxFreeRanges := by omega
      obtain ⟨a', insert, list, count, frame⟩ := insertFree_spec
        (a := { a with free := update a.free index ⟨r.start, start⟩ }) ⟨stop, r.stop⟩ notFull
        (Nat.succ_le_of_lt inside)
      refine ⟨a', insert, ?_, by dsimp only at count; omega, (OnlyFree.intro a _ _).trans frame⟩
      rw [list, freeList_update view length, ← length]
      have inserted := insertIdx_append_length (before ++ [⟨r.start, start⟩]) after ⟨stop, r.stop⟩
      simpa using inserted
    · rw [decide_eq_false right, if_neg right]
      refine ⟨_, rfl, ?_, room, rfl⟩
      rw [freeList_update view length]
      simp
  · rw [decide_eq_false left, if_neg left]
    by_cases right : stop < r.stop
    · rw [decide_eq_true right, if_pos right]
      refine ⟨_, rfl, ?_, room, rfl⟩
      rw [freeList_update view length]
      simp
    rw [decide_eq_false right, if_neg right]
    refine ⟨_, rfl, ?_, (Nat.sub_le _ 1).trans room, rfl⟩
    rw [removeFree_freeList inside, view, ← length]
    simp [eraseIdx_append_of_length_le]

theorem position_some {p : Range → Bool}
    (h : position a p = some index) : index < a.freeCount ∧ p (a.free index) = true := by
  have found := find?_some h
  exact ⟨mem_range.mp (mem_of_find?_eq_some h), found⟩

theorem update_perm (inside : index < a.freeCount) : ∃ rest, a.freeList.Perm (a.free index :: rest) ∧ ∀ q,
      ({ a with free := update a.free index q } : FrameAllocator).freeList.Perm (q :: rest) := by
  obtain ⟨before, after, length, view⟩ := freeList_split inside
  refine ⟨before ++ after, ?_, fun q => ?_⟩
  · rw [view]
    exact perm_middle
  rw [freeList_update view length]
  exact perm_middle

theorem removeFree_perm (inside : index < a.freeCount) :
    a.freeList.Perm (a.free index :: (removeFree a index).freeList) := by
  obtain ⟨_, _, length, view⟩ := freeList_split inside
  rw [removeFree_freeList inside, view, ← length]
  simp only [eraseIdx_append_of_length_le le_rfl, Nat.sub_self, eraseIdx_zero, tail_cons]
  exact perm_middle

theorem replace_two {left right : Nat} (insideLeft : left < a.freeCount)
    (insideRight : right < a.freeCount) (apart : a.free left ≠ a.free right) :
    ∃ rest, a.freeList.Perm (a.free left :: a.free right :: rest) ∧ ∀ q,
      (removeFree { a with free := update a.free left q } right).freeList.Perm (q :: rest) := by
  obtain ⟨others, split, join⟩ := update_perm insideLeft
  have memRight : a.free right ∈ others := by
    have member := split.mem_iff.mp (mem_entries.mpr ⟨right, insideRight, rfl⟩)
    rcases mem_cons.mp member with same | member
    · exact absurd same.symm apart
    · exact member
  have splitRest := perm_cons_erase memRight
  refine ⟨others.erase (a.free right), split.trans (splitRest.cons _), fun q => ?_⟩
  have remove := removeFree_perm (a := { a with free := update a.free left q }) insideRight
  have entry : update a.free left q right = a.free right := by
    apply update_of_ne
    rintro rfl
    exact apart rfl
  dsimp only at remove
  rw [entry] at remove
  have both := (remove.symm.trans (join q)).trans ((splitRest.cons q).trans (List.Perm.swap _ _ _))
  exact (perm_cons _).mp both

section
variable (h : giveBack a start stop = some a')
include h

theorem giveBack_cases (scattered : Scattered (⟨start, stop⟩ :: a.freeList)) :
    (∃ l r rest, l.stop = start ∧ r.start = stop ∧ a.freeList.Perm (l :: r :: rest) ∧
      a'.freeList.Perm (⟨l.start, r.stop⟩ :: rest)) ∨
    (∃ l rest, l.stop = start ∧ a.freeList.Perm (l :: rest) ∧ a'.freeList.Perm (⟨l.start, stop⟩ :: rest)) ∨
    (∃ r rest, r.start = stop ∧ a.freeList.Perm (r :: rest) ∧ a'.freeList.Perm (⟨start, r.stop⟩ :: rest)) ∨
    a'.freeList.Perm (⟨start, stop⟩ :: a.freeList) := by
  unfold giveBack at h
  split at h
  · next left right atLeft atRight =>
    obtain ⟨insideLeft, touchLeft⟩ := position_some atLeft
    obtain ⟨insideRight, touchRight⟩ := position_some atRight
    have stopLeft := eq_of_beq touchLeft
    have startRight := eq_of_beq touchRight
    have apart : a.free left ≠ a.free right := by
      intro same
      obtain ⟨properBlock, -, rest⟩ := scattered_cons.mp scattered
      have := rest.proper (a.free left) (mem_entries.mpr ⟨left, insideLeft, rfl⟩)
      rw [← same] at startRight
      dsimp only at properBlock
      omega
    obtain ⟨rest, split, join⟩ := replace_two insideLeft insideRight apart
    cases h
    exact .inl ⟨_, _, rest, stopLeft, startRight, split, join _⟩
  · next left atLeft _ =>
    obtain ⟨insideLeft, touchLeft⟩ := position_some atLeft
    obtain ⟨rest, split, join⟩ := update_perm insideLeft
    cases h
    exact .inr (.inl ⟨_, rest, eq_of_beq touchLeft, split, join _⟩)
  · next right _ atRight =>
    obtain ⟨insideRight, touchRight⟩ := position_some atRight
    obtain ⟨rest, split, join⟩ := update_perm insideRight
    cases h
    exact .inr (.inr (.inl ⟨_, rest, eq_of_beq touchRight, split, join _⟩))
  · split at h
    · cases h
    · cases h
      refine .inr (.inr (.inr ?_))
      unfold freeList
      dsimp only
      rw [entries_push]
      exact perm_append_singleton _ _

theorem giveBack_frame (room : a.freeCount ≤ maxFreeRanges) :
    OnlyFree a a' ∧ a'.freeCount ≤ maxFreeRanges := by
  unfold giveBack at h
  split at h
  · cases h
    exact ⟨rfl, (Nat.sub_le _ 1).trans room⟩
  · cases h
    exact ⟨rfl, room⟩
  · cases h
    exact ⟨rfl, room⟩
  split at h
  · cases h
  next notFull =>
  cases h
  exact ⟨rfl, room.lt_of_ne notFull⟩

omit h in
theorem giveBack_isSome (start stop : Nat) (room : a.freeCount < maxFreeRanges) :
    (giveBack a start stop).isSome := by
  unfold giveBack
  split
  · rfl
  · rfl
  · rfl
  · rw [if_neg (room.ne)]
    rfl

theorem giveBack_spec (scattered : Scattered (⟨start, stop⟩ :: a.freeList)) :
    Scattered a'.freeList ∧ (∀ x, Cover a'.freeList x ↔ Cover (⟨start, stop⟩ :: a.freeList) x) ∧
      ∀ P, Ends P (⟨start, stop⟩ :: a.freeList) → Ends P a'.freeList := by
  rcases giveBack_cases h scattered with ⟨l, r, rest, touchL, touchR, split, join⟩ |
    ⟨l, rest, touch, split, join⟩ | ⟨r, rest, touch, split, join⟩ | join
  · have view : (⟨start, stop⟩ :: a.freeList).Perm (l :: ⟨start, stop⟩ :: r :: rest) :=
      (split.cons _).trans (List.Perm.swap _ _ _)
    obtain ⟨first, cover⟩ := (scattered.perm view).join touchL
    obtain ⟨second, cover'⟩ := first.join touchR.symm
    refine ⟨second.perm join.symm, fun x => ?_, fun P ends => (ends.perm view).join.join.perm join.symm⟩
    rw [Cover.perm join, cover', cover, Cover.perm view]
  · have view : (⟨start, stop⟩ :: a.freeList).Perm (l :: ⟨start, stop⟩ :: rest) :=
      (split.cons _).trans (List.Perm.swap _ _ _)
    obtain ⟨first, cover⟩ := (scattered.perm view).join touch
    refine ⟨first.perm join.symm, fun x => ?_, fun P ends => (ends.perm view).join.perm join.symm⟩
    rw [Cover.perm join, cover, Cover.perm view]
  · have view : (⟨start, stop⟩ :: a.freeList).Perm (⟨start, stop⟩ :: r :: rest) := split.cons _
    obtain ⟨first, cover⟩ := (scattered.perm view).join touch.symm
    refine ⟨first.perm join.symm, fun x => ?_, fun P ends => (ends.perm view).join.perm join.symm⟩
    rw [Cover.perm join, cover, Cover.perm view]
  · exact ⟨scattered.perm join.symm, fun x => Cover.perm join x, fun P ends => ends.perm join.symm⟩

end

variable {seen : List MemoryRegion}

theorem pageSize_eq : pageSize = 2 ^ 12 := rfl

structure Fits (region : MemoryRegion) (r : Range) : Prop where
  proper : r.start < r.stop
  aligned : pageSize ∣ r.start ∧ pageSize ∣ r.stop
  low : lowMemoryLimit ≤ r.start
  inside : region.start ≤ r.start ∧ r.stop ≤ region.start + region.pages * pageSize

theorem addRegion_cases (a : FrameAllocator) (region : MemoryRegion)
    (high : region.kind = .usable → region.start + region.pages * pageSize ≤ 2 ^ 52) :
    addRegion a region = a ∨ ∃ r, region.kind = .usable ∧ Fits region r ∧ addRegion a region = { a with
            managed := update a.managed a.managedCount r
            managedCount := a.managedCount + 1
            free := update a.free a.freeCount r
            freeCount := a.freeCount + 1
            freePages := saturatingAdd a.freePages (r.size / pageSize) } := by
  unfold addRegion
  split
  · exact .inl rfl
  next usable =>
  have kind : region.kind = .usable := Decidable.not_not.mp usable
  have top := high kind
  have stop : region.stop = some (region.start + region.pages * pageSize) := by
    unfold MemoryRegion.stop checkedMul checkedAdd
    rw [if_pos (by omega)]
    exact if_pos (by omega)
  rw [stop]
  dsimp only [Option.map_some]
  split
  · exact .inl rfl
  next bounds =>
  refine .inr ⟨⟨_, _⟩, kind, ?_, rfl⟩
  have first : max region.start lowMemoryLimit + (2 ^ 12 - 1) < 2 ^ 64 := by
    have : lowMemoryLimit ≤ 2 ^ 52 := by decide
    omega
  obtain ⟨alignedUp, above, -⟩ := alignUp_spec first (by decide)
  obtain ⟨alignedDown, below, -⟩ := alignDown_spec
    (x := region.start + region.pages * pageSize) (k := 12) (by omega) (by decide)
  exact ⟨not_le.mp fun le => bounds (.inl le), ⟨alignedUp, alignedDown⟩, (Nat.le_max_right _ _).trans above,
    (Nat.le_max_left _ _).trans above, below⟩

structure Built (seen : List MemoryRegion) (a : FrameAllocator) : Prop where
  same : a.managedList = a.freeList
  few : a.freeCount ≤ seen.length
  scattered : Scattered a.freeList
  usable : ∀ r ∈ a.freeList, ∃ region ∈ seen, region.kind = .usable ∧ Fits region r
  size : total a.freeList = a.freePages * pageSize
  small : a.freePages ≤ seen.length * 2 ^ 40
  unallocated : a.allocatedPages = 0

theorem Built.empty : Built [] empty :=
  ⟨rfl, Nat.le_refl 0, ⟨nofun, List.Pairwise.nil⟩, nofun, rfl, Nat.le_refl 0, rfl⟩

theorem Built.keep (built : Built seen a) (region : MemoryRegion) : Built (seen ++ [region]) a where
  same := built.same
  few := by
    rw [length_append]
    exact Nat.le_add_right_of_le built.few
  scattered := built.scattered
  usable := fun r mem => by
    obtain ⟨old, memOld, kind, fits⟩ := built.usable r mem
    exact ⟨old, mem_append_left _ memOld, kind, fits⟩
  size := built.size
  small := by
    rw [length_append]
    exact built.small.trans (Nat.mul_le_mul_right _ (Nat.le_add_right _ _))
  unallocated := built.unallocated

theorem Fits.clear {old new : MemoryRegion} {q r : Range} (fitsOld : Fits old q)
    (fitsNew : Fits new r) (disjoint : ∀ x, ¬ (old.Has x ∧ new.Has x)) : r.Clear q := by
  by_contra overlap
  have properQ := fitsOld.proper
  have properR := fitsNew.proper
  have insideQ := fitsOld.inside
  have insideR := fitsNew.inside
  unfold Range.Clear at overlap
  refine disjoint (max q.start r.start) ⟨⟨?_, ?_⟩, ⟨?_, ?_⟩⟩ <;> omega

theorem addRegion_built (built : Built seen a) (region : MemoryRegion) (few : seen.length < maxMemoryRegions)
    (high : region.kind = .usable → region.start + region.pages * pageSize ≤ 2 ^ 52)
    (disjoint : ∀ old ∈ seen, old.kind = .usable → region.kind = .usable →
      ∀ x, ¬ (old.Has x ∧ region.Has x)) : Built (seen ++ [region]) (addRegion a region) := by
  rcases addRegion_cases a region high with unchanged | ⟨r, kind, fits, changed⟩
  · rw [unchanged]
    exact built.keep region
  have old := built.keep region
  have top := high kind
  obtain ⟨pages, exact⟩ : pageSize ∣ r.size := (Nat.dvd_sub fits.aligned.2 fits.aligned.1)
  have perPage : r.size / pageSize = pages := by
    rw [exact]
    exact Nat.mul_div_cancel_left pages (by decide)
  have most : pages ≤ 2 ^ 40 := by
    have := fits.inside
    unfold Range.size at exact
    rw [pageSize_eq] at exact
    omega
  have limit : a.freePages ≤ 256 * 2 ^ 40 := by
    refine built.small.trans (Nat.mul_le_mul_right _ few.le)
  have sum : saturatingAdd a.freePages (r.size / pageSize) = a.freePages + pages := by
    rw [perPage, saturatingAdd_of_lt (by omega)]
  rw [changed, sum]
  have free : entries (update a.free a.freeCount r) (a.freeCount + 1) = a.freeList ++ [r] :=
    entries_push a.free a.freeCount r
  have managed : entries (update a.managed a.managedCount r) (a.managedCount + 1) =
      a.managedList ++ [r] := entries_push a.managed a.managedCount r
  constructor
  · unfold managedList freeList
    rw [free, managed, built.same]
  · rw [length_append]
    exact Nat.succ_le_succ built.few
  · unfold freeList
    rw [free]
    refine Scattered.perm (perm_append_singleton r _).symm ?_
    refine scattered_cons.mpr ⟨fits.proper, fun q mem => ?_, built.scattered⟩
    obtain ⟨region', memRegion, kind', fits'⟩ := built.usable q mem
    exact fits'.clear fits (disjoint region' memRegion kind' kind)
  · unfold freeList
    rw [free]
    intro q mem
    rcases mem_append.mp mem with mem | mem
    · exact old.usable q mem
    rw [mem_singleton.mp mem]
    exact ⟨region, mem_append_right _ mem_cons_self, kind, fits⟩
  · unfold freeList
    rw [free, total_append, built.size, total_cons, total_nil, exact,
      Nat.add_zero, Nat.mul_comm pageSize, Nat.add_mul]
  · rw [length_append, length_singleton]
    have := built.small
    dsimp only
    omega
  · exact built.unallocated

theorem foldl_built {rest : List MemoryRegion} (built : Built seen a)
    (few : (seen ++ rest).length ≤ maxMemoryRegions) (high : ∀ region ∈ rest, region.kind = .usable →
      region.start + region.pages * pageSize ≤ 2 ^ 52)
    (disjoint : (seen ++ rest).Pairwise fun a b => a.kind = .usable → b.kind = .usable →
      ∀ x, ¬ (a.Has x ∧ b.Has x)) : Built (seen ++ rest) (rest.foldl addRegion a) := by
  induction rest generalizing seen a with
  | nil =>
    rw [append_nil]
    exact built
  | cons region rest ih =>
    have next : Built (seen ++ [region]) (addRegion a region) := by
      apply addRegion_built built
      · rw [length_append, length_cons] at few
        omega
      · exact high region mem_cons_self
      · intro old mem
        exact (pairwise_append.mp disjoint).2.2 old mem region mem_cons_self
    have shape : seen ++ region :: rest = seen ++ [region] ++ rest := by simp
    rw [shape] at few disjoint ⊢
    exact ih next few (fun q mem => high q (mem_cons_of_mem region mem)) disjoint

end AerOS.Proof.Frames
