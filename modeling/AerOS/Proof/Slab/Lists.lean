import AerOS.Spec.Slab

namespace AerOS.Proof.Slab
open AerOS.Slab Lib List Memory

theorem objectSize_spec (c : Slab.Class) : 16 ≤ objectSize c ∧ objectSize c ≤ 1024 ∧ 0 < capacityOf c ∧
      headerSize + capacityOf c * objectSize c ≤ pageSize ∧ capacityOf c < 2 ^ 64 := by
  revert c
  decide

theorem mem_objects {p o : Nat} {c : Slab.Class} :
    o ∈ objects p c ↔ ∃ i < capacityOf c, o = p + headerSize + i * objectSize c := by
  simp only [objects, mem_map, mem_range, eq_comm]

theorem object_bounds {p o : Nat} {c : Slab.Class} (mem : o ∈ objects p c) :
    p + 64 ≤ o ∧ o + objectSize c ≤ p + 4096 := by
  obtain ⟨i, small, rfl⟩ := mem_objects.mp mem
  have fits := (objectSize_spec c).2.2.2.1
  have last : (i + 1) * objectSize c ≤ capacityOf c * objectSize c := Nat.mul_le_mul_right _ small
  rw [Nat.succ_mul] at last
  unfold headerSize pageSize at fits
  unfold headerSize
  omega

theorem objects_apart {p o q : Nat} {c : Slab.Class} (memO : o ∈ objects p c) (memQ : q ∈ objects p c)
    (ne : o ≠ q) : o + objectSize c ≤ q ∨ q + objectSize c ≤ o := by
  obtain ⟨i, -, rfl⟩ := mem_objects.mp memO
  obtain ⟨j, -, rfl⟩ := mem_objects.mp memQ
  have indices : i ≠ j := by
    rintro rfl
    exact ne rfl
  rcases Nat.lt_or_gt_of_ne indices with less | less
  all_goals
    have := Nat.mul_le_mul_right (objectSize c) (Nat.succ_le_of_lt less)
    rw [Nat.succ_mul] at this
    omega

theorem objects_nodup (p : Nat) (c : Slab.Class) : (objects p c).Nodup := by
  refine nodup_range.map fun i j _ => ?_
  have positive : 0 < objectSize c := by
    have := (objectSize_spec c).1
    omega
  exact Nat.eq_of_mul_eq_mul_right positive (by omega)

theorem length_objects (p : Nat) (c : Slab.Class) : (objects p c).length = capacityOf c := by
  simp [objects]

theorem offset_values : classOffset = 8 ∧ freeOffset = 16 ∧ usedOffset = 24 ∧ capacityOffset = 32 ∧
    previousOffset = 40 ∧ nextOffset = 48 := by decide

structure Page (p : Nat) : Prop where
  aligned : pageSize ∣ p
  nonnull : 0 < p
  high : p + pageSize ≤ 2 ^ 64

theorem page_apart {p q : Nat} (pageP : Page p) (pageQ : Page q) (ne : p ≠ q) :
    p + 4096 ≤ q ∨ q + 4096 ≤ p := by
  obtain ⟨i, rfl⟩ := pageP.aligned
  obtain ⟨j, rfl⟩ := pageQ.aligned
  unfold pageSize at *
  omega

theorem pageOf_eq {p a : Nat} (page : Page p) (inside : p ≤ a ∧ a < p + 4096) : pageOf a = p := by
  obtain ⟨i, rfl⟩ := page.aligned
  unfold pageOf pageSize at *
  omega

structure PageOk (m : Memory) (p : Nat) (c : Slab.Class) (fs ls : List Nat) : Prop where
  magic : m.load p = magic
  kind : m.load (p + classOffset) = c.val
  free : Chain m.load (m.load (p + freeOffset)) fs 0
  used : m.load (p + usedOffset) = ls.length
  capacity : m.load (p + capacityOffset) = capacityOf c
  parts : (fs ++ ls).Perm (objects p c)

variable {m m' : Memory} {p o : Nat} {c : Slab.Class} {fs ls : List Nat}

section
variable (ok : PageOk m p c fs ls)
include ok

theorem PageOk.free_mem (mem : o ∈ fs) : o ∈ objects p c := ok.parts.mem_iff.mp (mem_append_left ls mem)

theorem PageOk.live_mem (mem : o ∈ ls) : o ∈ objects p c := ok.parts.mem_iff.mp (mem_append_right fs mem)

theorem PageOk.nodup : (fs ++ ls).Nodup := ok.parts.nodup_iff.mpr (objects_nodup p c)

theorem PageOk.length_lt : fs.length + ls.length < 2 ^ 64 := by
  have count := ok.parts.length_eq
  rw [length_objects, length_append] at count
  exact count ▸ (objectSize_spec c).2.2.2.2

theorem PageOk.frame (header : ∀ x, p ≤ x → x < p + 40 → m' x = m x)
    (free : ∀ o ∈ fs, ∀ x, o ≤ x → x < o + 8 → m' x = m x) : PageOk m' p c fs ls := by
  have word : ∀ offset, offset + 8 ≤ 40 → m'.load (p + offset) = m.load (p + offset) :=
    fun offset _ => load_congr fun x _ _ => header x (by omega) (by omega)
  refine ⟨?_, ?_, ?_, ?_, ?_, ok.parts⟩
  · rw [← ok.magic]
    exact word 0 (by decide)
  · rw [← ok.kind]
    exact word classOffset (by decide)
  · have same := word freeOffset (by decide)
    rw [same]
    exact ok.free.congr fun o mem => load_congr (free o mem)
  · rw [← ok.used]
    exact word usedOffset (by decide)
  · rw [← ok.capacity]
    exact word capacityOffset (by decide)

theorem PageOk.same_page (same : ∀ x, p ≤ x → x < p + 4096 → m' x = m x) : PageOk m' p c fs ls := by
  refine ok.frame (fun x first last => same x first (by omega)) fun o mem x first last => same x ?_ ?_
  all_goals
    have bounds := object_bounds (ok.free_mem mem)
    have room := (objectSize_spec c).1
    omega

end

theorem PageOk.take (ok : PageOk m p c (o :: fs) ls) :
    PageOk ((m.store (p + freeOffset) (m.load o)).store (p + usedOffset) (ls.length + 1)) p c fs
      (o :: ls) := by
  have few := ok.length_lt
  rw [length_cons] at few
  have offsets := offset_values
  have away : ∀ q ∈ fs, p + 64 ≤ q := fun q mem =>
    (object_bounds (ok.free_mem (mem_cons_of_mem o mem))).1
  refine ⟨?_, ?_, ?_, ?_, ?_, ?_⟩
  · rw [load_store_other (by omega), load_store_other (by omega), ok.magic]
  · rw [load_store_other (by omega), load_store_other (by omega), ok.kind]
  · rw [load_store_other (by omega), load_store_self _ _ (load_lt _ _)]
    refine ok.free.2.2.congr fun q mem => ?_
    have := away q mem
    rw [load_store_other (by omega), load_store_other (by omega)]
  · rw [load_store_self _ _ (by omega)]
    rfl
  · rw [load_store_other (by omega), load_store_other (by omega), ok.capacity]
  · exact perm_middle.trans ok.parts

theorem PageOk.give (page : Page p) (ok : PageOk m p c fs ls) (mem : o ∈ ls) : PageOk
      (((((m.fill o (objectSize c) 0).store (o + 8) poison).store o (m.load (p + freeOffset))).store
        (p + freeOffset) o).store (p + usedOffset) (ls.length - 1)) p c (o :: fs) (ls.erase o) := by
  have bounds := object_bounds (ok.live_mem mem)
  have size := (objectSize_spec c).1
  have offsets := offset_values
  have high := page.high
  unfold pageSize at high
  have few := ok.length_lt
  have header : ∀ a, a + 8 ≤ p + 64 →
      (((m.fill o (objectSize c) 0).store (o + 8) poison).store o (m.load (p + freeOffset))).load a =
        m.load a := by
    intro a _
    rw [load_store_other (by omega), load_store_other (by omega),
      load_fill_other (by omega)]
  have others : ∀ q ∈ fs, q + 8 ≤ o ∨ o + objectSize c ≤ q := by
    intro q memQ
    have ne : o ≠ q := by
      rintro rfl
      exact (nodup_append.mp ok.nodup).2.2 o memQ o mem rfl
    have := objects_apart (ok.live_mem mem) (ok.free_mem memQ) ne
    omega
  refine ⟨?_, ?_, ⟨?_, by omega, ?_⟩, ?_, ?_, ?_⟩
  · rw [load_store_other (by omega), load_store_other (by omega), header _ (by omega), ok.magic]
  · rw [load_store_other (by omega), load_store_other (by omega), header _ (by omega)]
    exact ok.kind
  · rw [load_store_other (by omega), load_store_self _ _ (by omega)]
  · rw [load_store_other (by omega), load_store_other (by omega),
      load_store_self _ _ (load_lt _ _)]
    refine ok.free.congr fun q memQ => ?_
    have := others q memQ
    have := (object_bounds (ok.free_mem memQ)).1
    rw [load_store_other (by omega), load_store_other (by omega),
      load_store_other (by omega), load_store_other (by omega),
      load_fill_other (by omega)]
  · rw [load_store_self _ _ (by omega), length_erase_of_mem mem]
  · rw [load_store_other (by omega), load_store_other (by omega), header _ (by omega)]
    exact ok.capacity
  · refine List.Perm.trans ?_ ok.parts
    refine perm_middle.symm.trans ?_
    exact (perm_cons_erase mem).symm.append_left fs

theorem thread_spec {size : Nat} (room : 16 ≤ size) (nonnull : 0 < p) (index head : Nat)
    (tail : List Nat) (small : head < 2 ^ 64) (high : p + headerSize + index * size ≤ 2 ^ 64)
    (chain : Chain m.load head tail 0) (above : ∀ q ∈ tail, p + headerSize + index * size ≤ q) :
    Chain (thread p size index head m).1.load (thread p size index head m).2
        ((range index).map (fun i => p + headerSize + i * size) ++ tail) 0 ∧
      (∀ x, x < p + headerSize ∨ p + headerSize + index * size ≤ x → (thread p size index head m).1 x = m x) ∧
      (thread p size index head m).2 < 2 ^ 64 := by
  induction index generalizing head tail m with
  | zero => exact ⟨chain, fun _ _ => rfl, small⟩
  | succ index ih =>
    rw [Nat.succ_mul] at high above
    unfold thread
    have next : Chain (m.store (p + headerSize + index * size) head).load
        (p + headerSize + index * size) ((p + headerSize + index * size) :: tail) 0 := by
      refine ⟨rfl, by omega, ?_⟩
      rw [load_store_self _ _ small]
      refine chain.congr fun q mem => ?_
      have := above q mem
      rw [load_store_other (by omega)]
    have above' : ∀ q ∈ (p + headerSize + index * size) :: tail, p + headerSize + index * size ≤ q := by
      refine forall_mem_cons.mpr ⟨le_rfl, fun q mem => ?_⟩
      have := above q mem
      omega
    obtain ⟨done, same, bound⟩ := ih (p + headerSize + index * size) _ (by omega) (by omega) next
      above'
    refine ⟨?_, fun x outside => ?_, bound⟩
    · rw [range_succ, map_append, append_assoc]
      exact done
    rw [Nat.succ_mul] at outside
    rw [same x (by omega), store_apply_of_notMem (by omega)]

def freshMemory (m : Memory) (p : Nat) (c : Slab.Class) : Memory :=
  let threaded := thread p (objectSize c) (capacityOf c) 0 m
  writeSlab threaded.1 p c threaded.2

theorem freshMemory_ok (page : Page p) (c : Slab.Class) : PageOk (freshMemory m p c) p c (objects p c) [] := by
  obtain ⟨room, -, -, _, bound⟩ := objectSize_spec c
  have high := page.high
  have offsets := offset_values
  have small : c.val < 2 ^ 64 := c.isLt.trans (by decide)
  obtain ⟨chain, -, head⟩ := thread_spec (m := m) room page.nonnull (capacityOf c) 0 [] (by decide)
    (by omega) rfl nofun
  rw [append_nil] at chain
  unfold freshMemory writeSlab
  refine ⟨?_, ?_, ?_, ?_, ?_, ?_⟩
  · simp (disch := omega) only [load_store_other]
    exact load_store_self _ _ (by decide)
  · simp (disch := omega) only [load_store_other]
    exact load_store_self _ _ small
  · have first : ∀ o ∈ objects p c, p + 64 ≤ o := fun o mem => (object_bounds mem).1
    have start : (writeSlab (thread p (objectSize c) (capacityOf c) 0 m).1 p c
        (thread p (objectSize c) (capacityOf c) 0 m).2).load (p + freeOffset) =
        (thread p (objectSize c) (capacityOf c) 0 m).2 := by
      unfold writeSlab
      simp (disch := omega) only [load_store_other]
      exact load_store_self _ _ head
    unfold writeSlab at start
    rw [start]
    refine chain.congr fun o mem => ?_
    have := first o mem
    simp (disch := omega) only [load_store_other]
  · simp (disch := omega) only [load_store_other]
    exact load_store_self _ _ (by decide)
  · simp (disch := omega) only [load_store_other]
    exact load_store_self _ _ bound
  · rw [append_nil]

theorem freshMemory_outside (page : Page p) (c : Slab.Class) {x : Nat} (outside : x < p ∨ p + 4096 ≤ x) :
    freshMemory m p c x = m x := by
  obtain ⟨room, -, -, _, -⟩ := objectSize_spec c
  have high := page.high
  have offsets := offset_values
  have sizes : headerSize = 64 ∧ pageSize = 4096 := by decide
  obtain ⟨-, same, -⟩ := thread_spec (m := m) room page.nonnull (capacityOf c) 0 [] (by decide)
    (by omega) rfl nofun
  unfold freshMemory writeSlab
  simp (disch := omega) only [store_apply_of_notMem]
  exact same x (by omega)

open Function
variable {s : Slabs} {a q v x : Nat}
variable {offset : Nat} {s' : Slabs}

theorem nextOf_lt (s : Slabs) (p : Nat) : s.nextOf p < 2 ^ 64 := load_lt _ _

def Shows (s : Slabs) (next previous : Nat → Nat) : Prop :=
  ∀ q, Page q → s.nextOf q = next q ∧ s.previousOf q = previous q

theorem shows_self (s : Slabs) : Shows s s.nextOf s.previousOf := fun _ _ => ⟨rfl, rfl⟩

section
variable {next previous : Nat → Nat}

section
variable (shows : Shows s next previous)
include shows

theorem Shows.put_next (page : Page a) (small : v < 2 ^ 64) :
    Shows (s.put a nextOffset v) (update next a v) previous := by
  intro q pageQ
  obtain ⟨atNext, atPrevious⟩ := shows q pageQ
  have offsets := offset_values
  by_cases same : q = a
  · subst same
    rw [update_self, ← atPrevious]
    exact ⟨load_store_self _ _ small, load_store_other (by omega)⟩
  rw [update_of_ne same, ← atNext, ← atPrevious]
  have := page_apart page pageQ (Ne.symm same)
  exact ⟨load_store_other (by omega), load_store_other (by omega)⟩

theorem Shows.put_previous (page : Page a) (small : v < 2 ^ 64) :
    Shows (s.put a previousOffset v) next (update previous a v) := by
  intro q pageQ
  obtain ⟨atNext, atPrevious⟩ := shows q pageQ
  have offsets := offset_values
  by_cases same : q = a
  · subst same
    rw [update_self, ← atNext]
    exact ⟨load_store_other (by omega), load_store_self _ _ small⟩
  rw [update_of_ne same, ← atNext, ← atPrevious]
  have := page_apart page pageQ (Ne.symm same)
  exact ⟨load_store_other (by omega), load_store_other (by omega)⟩

theorem Shows.setHead (c : Slab.Class) (slab : Nat) : Shows (s.setHead c slab) next previous := shows

end

end

def OffLinks (x : Nat) : Prop := x % 4096 < 40 ∨ 56 ≤ x % 4096

theorem put_link_memory (pageA : Page a) (off : OffLinks x)
    (link : offset = previousOffset ∨ offset = nextOffset) : (s.put a offset v).memory x = s.memory x := by
  obtain ⟨i, rfl⟩ := pageA.aligned
  have offsets := offset_values
  unfold OffLinks at off
  have size : pageSize = 4096 := rfl
  refine store_apply_of_notMem ?_
  rw [size]
  omega

structure Lists (s : Slabs) (partials : Slab.Class → List Nat) : Prop where
  chain : ∀ c, Doubly s.nextOf s.previousOf 0 (s.caches c).partialHead (partials c) 0
  nodup : ∀ c, (partials c).Nodup
  page : ∀ c, ∀ p ∈ partials c, Page p
  apart : ∀ c c' p, p ∈ partials c → p ∈ partials c' → c = c'

theorem page_lt (page : Page p) : p < 2 ^ 64 := by
  have high := page.high
  unfold pageSize at high
  omega

theorem Lists.frame {partials : Slab.Class → List Nat} (lists : Lists s partials)
    (heads : ∀ c, (s'.caches c).partialHead = (s.caches c).partialHead)
    (links : ∀ c, ∀ p ∈ partials c, ∀ x, p + 40 ≤ x → x < p + 56 → s'.memory x = s.memory x) :
    Lists s' partials := by
  have offsets := offset_values
  have word : ∀ c, ∀ p ∈ partials c, ∀ offset, 40 ≤ offset → offset + 8 ≤ 56 →
      s'.memory.load (p + offset) = s.memory.load (p + offset) :=
    fun c p mem offset _ _ => load_congr fun x _ _ => links c p mem x (by omega) (by omega)
  refine ⟨fun c => ?_, lists.nodup, lists.page, lists.apart⟩
  rw [heads c]
  exact (lists.chain c).congr (fun p mem => word c p mem _ (by omega) (by omega))
    fun p mem => word c p mem _ (by omega) (by omega)

theorem Lists.change {partials : Slab.Class → List Nat} {list : List Nat} (lists : Lists s partials)
    (chain : Doubly s'.nextOf s'.previousOf 0 (s'.caches c).partialHead list 0) (nodup : list.Nodup)
    (page : ∀ q ∈ list, Page q) (apart : ∀ q ∈ list, ∀ c', q ∈ partials c' → c' = c)
    (heads : ∀ c', c' ≠ c → (s'.caches c').partialHead = (s.caches c').partialHead)
    (others : ∀ c', c' ≠ c → ∀ q ∈ partials c', s'.nextOf q = s.nextOf q ∧ s'.previousOf q = s.previousOf q) :
    Lists s' (update partials c list) := by
  have here : update partials c list c = list := update_self _ _ _
  have there : ∀ c', c' ≠ c → update partials c list c' = partials c' :=
    fun c' other => update_of_ne other _ _
  refine ⟨?_, (forall_update_iff partials fun _ => Nodup).mpr ⟨nodup, fun c' _ => lists.nodup c'⟩,
    (forall_update_iff partials fun _ list => ∀ q ∈ list, Page q).mpr ⟨page, fun c' _ => lists.page c'⟩,
    fun c₁ c₂ q mem₁ mem₂ => ?_⟩
  · refine (forall_update_iff partials fun c' list => Doubly s'.nextOf s'.previousOf 0 (s'.caches c').partialHead list 0).mpr
      ⟨chain, fun c' other => ?_⟩
    rw [heads c' other]
    exact (lists.chain c').congr (fun q mem => (others c' other q mem).1) (fun q mem => (others c' other q mem).2)
  by_cases first : c₁ = c
  · by_cases second : c₂ = c
    · rw [first, second]
    · rw [first, here] at mem₁
      rw [there c₂ second] at mem₂
      exact absurd (apart q mem₁ c₂ mem₂) second
  rw [there c₁ first] at mem₁
  by_cases second : c₂ = c
  · rw [second, here] at mem₂
    exact absurd (apart q mem₂ c₁ mem₁) first
  rw [there c₂ second] at mem₂
  exact lists.apart c₁ c₂ q mem₁ mem₂

theorem Lists.head_mem {partials : Slab.Class → List Nat} (lists : Lists s partials)
    (some_slab : (s.caches c).partialHead ≠ 0) : (s.caches c).partialHead ∈ partials c := by
  have chain := lists.chain c
  cases list : partials c with
  | nil =>
    rw [list] at chain
    exact absurd chain some_slab
  | cons p _ =>
    rw [list] at chain
    rw [chain.1]
    exact mem_cons_self

theorem put_caches (s : Slabs) (address offset value : Nat) :
    (s.put address offset value).caches = s.caches := rfl

theorem setHead_caches (s : Slabs) (c : Slab.Class) (slab : Nat) (c' : Slab.Class) :
    ((s.setHead c slab).caches c').partialHead = if c' = c then slab else (s.caches c').partialHead := by
  unfold Slabs.setHead Slabs.setCache
  dsimp only
  by_cases same : c' = c
  · subst same
    rw [update_self, if_pos rfl]
  · rw [update_of_ne same, if_neg same]

structure Relinked (s s' : Slabs) : Prop where
  pages : s'.pages = s.pages
  memory : ∀ x, OffLinks x → s'.memory x = s.memory x
  caches : ∀ c, s'.caches c = { s.caches c with partialHead := (s'.caches c).partialHead }

theorem Relinked.slabs (h : Relinked s s') (c : Slab.Class) :
    (s'.caches c).slabs = (s.caches c).slabs := by rw [h.caches c]

theorem Relinked.inUse (h : Relinked s s') (c : Slab.Class) :
    (s'.caches c).inUse = (s.caches c).inUse := by rw [h.caches c]

theorem Relinked.refl (s : Slabs) : Relinked s s := ⟨rfl, fun _ _ => rfl, fun _ => rfl⟩

theorem Relinked.trans {s'' : Slabs} (h : Relinked s s') (h' : Relinked s' s'') : Relinked s s'' :=
  ⟨h'.pages.trans h.pages, fun x off => (h'.memory x off).trans (h.memory x off),
    fun c => by rw [h'.caches c, h.caches c]⟩

theorem relinked_put (s : Slabs) (v : Nat) (pageA : Page a)
    (link : offset = previousOffset ∨ offset = nextOffset) : Relinked s (s.put a offset v) :=
  ⟨rfl, fun _ off => put_link_memory pageA off link, fun _ => rfl⟩

theorem relinked_setHead (s : Slabs) (c : Slab.Class) (slab : Nat) : Relinked s (s.setHead c slab) := by
  refine ⟨rfl, fun _ _ => rfl, fun c' => ?_⟩
  unfold Slabs.setHead Slabs.setCache
  dsimp only
  by_cases same : c' = c
  · subst same
    rw [update_self]
  · rw [update_of_ne same]

theorem relinked_ite {condition : Prop} [Decidable condition] {s'' : Slabs}
    (yes : condition → Relinked s s') (no : ¬ condition → Relinked s s'') :
    Relinked s (if condition then s' else s'') := by
  split
  · next holds => exact yes holds
  · next fails => exact no fails

section Link
variable {partials : Slab.Class → List Nat}

section
variable (lists : Lists s partials)
include lists

theorem link_relinked (page : Page p) : Relinked s (link c p s) := by
  have first : Relinked s ((s.put p previousOffset 0).put p nextOffset (s.caches c).partialHead) :=
    (relinked_put s 0 page (.inl rfl)).trans (relinked_put _ _ page (.inr rfl))
  unfold link
  refine Relinked.trans (relinked_ite (fun some_slab => ?_) fun _ => first) (relinked_setHead _ c p)
  exact first.trans (relinked_put _ p (lists.page c _ (lists.head_mem some_slab)) (.inl rfl))

theorem link_shows (page : Page p) : Shows (link c p s) (update s.nextOf p (s.caches c).partialHead)
      (if (s.caches c).partialHead = 0 then update s.previousOf p 0
        else update (update s.previousOf p 0) (s.caches c).partialHead p) := by
  have small := page_lt page
  unfold link
  dsimp only
  by_cases none : (s.caches c).partialHead = 0
  · rw [if_neg (not_not.mpr none), if_pos none, none]
    exact (((shows_self s).put_previous page (by decide)).put_next page (by decide)).setHead c p
  have first := lists.page c _ (lists.head_mem none)
  rw [if_pos none, if_neg none]
  exact ((((shows_self s).put_previous page (by decide)).put_next page (page_lt first)).put_previous
    first small).setHead c p

theorem link_lists (page : Page p) (fresh : ∀ c', p ∉ partials c') :
    Lists (link c p s) (update partials c (p :: partials c)) := by
  have head : ∀ c', ((link c p s).caches c').partialHead =
      if c' = c then p else (s.caches c').partialHead := by
    intro c'
    unfold link
    rw [setHead_caches]
    split
    · rfl
    · split <;> rfl
  have nonzero : p ≠ 0 := Nat.pos_iff_ne_zero.mp page.nonnull
  have nodup := nodup_cons.mpr ⟨fresh c, lists.nodup c⟩
  have pages := forall_mem_cons.mpr ⟨page, lists.page c⟩
  refine lists.change ?_ nodup pages ?_ (fun c' other => ?_) fun c' other q mem => ?_
  · rw [head, if_pos rfl]
    refine ((lists.chain c).link nodup nonzero).congr (fun q mem => ?_) (fun q mem => ?_)
    · exact (link_shows lists page q (pages q mem)).1
    rw [(link_shows lists page q (pages q mem)).2]
    by_cases none : (s.caches c).partialHead = 0
    · rw [if_pos none, if_pos none]
    have other : p ≠ (s.caches c).partialHead := by
      intro equal
      exact fresh c (equal ▸ lists.head_mem none)
    rw [if_neg none, if_neg none, update_comm other]
  · refine forall_mem_cons.mpr ⟨fun c' mem => absurd mem (fresh c'), fun q mem c' mem' => ?_⟩
    exact lists.apart c' c q mem' mem
  · rw [head, if_neg other]
  have notP : q ≠ p := by
    rintro rfl
    exact fresh c' mem
  obtain ⟨next, previous⟩ := link_shows (c := c) lists page q (lists.page c' q mem)
  rw [next, previous, update_of_ne notP]
  refine ⟨rfl, ?_⟩
  split
  · rw [update_of_ne notP]
  next some_slab =>
  have notHead : q ≠ (s.caches c).partialHead := by
    rintro rfl
    exact other (lists.apart c' c _ mem (lists.head_mem some_slab))
  rw [update_of_ne notHead, update_of_ne notP]

section
variable (mem : p ∈ partials c)
include mem

theorem neighbours :
    (s.previousOf p ≠ 0 → s.previousOf p ∈ partials c) ∧ (s.nextOf p ≠ 0 → s.nextOf p ∈ partials c) := by
  obtain ⟨xs, ys, split⟩ := append_of_mem mem
  have chain := lists.chain c
  rw [split] at chain ⊢
  obtain ⟨b, -, rfl, -, back, rest⟩ := doubly_append.mp chain
  constructor
  · intro some_slab
    rw [back] at some_slab ⊢
    rcases eq_nil_or_concat xs with rfl | ⟨_, q, rfl⟩
    · exact absurd rfl some_slab
    · simp
  intro some_slab
  cases ys with
  | nil => exact absurd rest some_slab
  | cons y ys =>
    rw [rest.1]
    simp

theorem unlink_relinked : Relinked s (unlink c p s) := by
  have page := lists.page c p mem
  obtain ⟨before, after⟩ := neighbours lists mem
  refine Relinked.trans (Relinked.trans ?_ (relinked_put _ 0 page (.inl rfl)))
    (relinked_put _ 0 page (.inr rfl))
  have first : Relinked s (if s.previousOf p = 0 then s.setHead c (s.nextOf p)
      else s.put (s.previousOf p) nextOffset (s.nextOf p)) :=
    relinked_ite (fun _ => relinked_setHead s c _)
      fun some_slab => relinked_put s _ (lists.page c _ (before some_slab)) (.inr rfl)
  exact relinked_ite (fun some_slab => first.trans
    (relinked_put _ _ (lists.page c _ (after some_slab)) (.inl rfl))) fun _ => first

theorem unlink_shows : Shows (unlink c p s) (update (if s.previousOf p = 0 then s.nextOf
        else update s.nextOf (s.previousOf p) (s.nextOf p)) p 0)
      (update (if s.nextOf p = 0 then s.previousOf
        else update s.previousOf (s.nextOf p) (s.previousOf p)) p 0) := by
  have page := lists.page c p mem
  obtain ⟨before, after⟩ := neighbours lists mem
  have first : Shows (if s.previousOf p = 0 then s.setHead c (s.nextOf p)
      else s.put (s.previousOf p) nextOffset (s.nextOf p))
      (if s.previousOf p = 0 then s.nextOf else update s.nextOf (s.previousOf p) (s.nextOf p))
      s.previousOf := by
    split
    · exact (shows_self s).setHead c _
    next some_slab =>
    exact (shows_self s).put_next (lists.page c _ (before some_slab)) (nextOf_lt s p)
  unfold unlink
  refine Shows.put_next (Shows.put_previous ?_ page (by decide)) page (by decide)
  by_cases none : s.nextOf p = 0
  · rw [if_neg (not_not.mpr none), if_pos none]
    exact first
  rw [if_pos none, if_neg none]
  exact first.put_previous (lists.page c _ (after none)) (load_lt _ _)

end

end

theorem unlink_head (s : Slabs) (c : Slab.Class) (p : Nat) (c' : Slab.Class) :
    ((unlink c p s).caches c').partialHead =
      if c' = c ∧ s.previousOf p = 0 then s.nextOf p else (s.caches c').partialHead := by
  have first : ((if s.previousOf p = 0 then s.setHead c (s.nextOf p)
      else s.put (s.previousOf p) nextOffset (s.nextOf p)).caches c').partialHead =
      if c' = c ∧ s.previousOf p = 0 then s.nextOf p else (s.caches c').partialHead := by
    by_cases none : s.previousOf p = 0
    · rw [if_pos none, setHead_caches]
      simp only [none, and_true]
    · rw [if_neg none, if_neg fun both => none both.2, put_caches]
  rw [← first]
  unfold unlink
  rw [put_caches, put_caches]
  by_cases none : s.nextOf p = 0
  · rw [if_neg (not_not.mpr none)]
  · rw [if_pos none, put_caches]

theorem unlink_lists (lists : Lists s partials) (mem : p ∈ partials c) :
    Lists (unlink c p s) (update partials c ((partials c).erase p)) := by
  have shows := unlink_shows lists mem
  have nodup := lists.nodup c
  have apart := lists.apart
  obtain ⟨before, after⟩ := neighbours lists mem
  have stays : ∀ q ∈ (partials c).erase p, q ∈ partials c ∧ q ≠ p := fun q memQ =>
    ⟨mem_of_mem_erase memQ, fun same => nodup.not_mem_erase (same ▸ memQ)⟩
  refine lists.change ?_ (nodup.erase p) (fun q memQ => lists.page c q (stays q memQ).1)
    (fun q memQ c' memQ' => apart c' c q memQ' (stays q memQ).1) (fun c' other => ?_)
    fun c' other q memQ => ?_
  · obtain ⟨xs, ys, split⟩ := append_of_mem mem
    have fresh : p ∉ xs := by
      rw [split] at nodup
      intro memXs
      exact (nodup_append.mp nodup).2.2 p memXs p mem_cons_self rfl
    have erased : (partials c).erase p = xs ++ ys := by
      rw [split, erase_append_right _ fresh, erase_cons_head]
    have chain := lists.chain c
    rw [split] at chain nodup
    have done := chain.unlink nodup
    rw [unlink_head, erased]
    simp only [true_and]
    refine done.congr (fun q memQ => ?_) (fun q memQ => ?_)
    · obtain ⟨old, other⟩ := stays q (erased ▸ memQ)
      rw [(shows q (lists.page c q old)).1, update_of_ne other]
    obtain ⟨old, other⟩ := stays q (erased ▸ memQ)
    rw [(shows q (lists.page c q old)).2, update_of_ne other]
  · rw [unlink_head, if_neg fun both => other both.1]
  · have away : ∀ r ∈ partials c, q ≠ r := by
      rintro r memR rfl
      exact other (apart c' c q memQ memR)
    obtain ⟨next, previous⟩ := shows q (lists.page c' q memQ)
    rw [next, previous, update_of_ne (away p mem), update_of_ne (away p mem)]
    constructor
    · split
      · rfl
      · next some_slab => rw [update_of_ne (away _ (before some_slab))]
    split
    · rfl
    · next some_slab => rw [update_of_ne (away _ (after some_slab))]

end Link

end AerOS.Proof.Slab
