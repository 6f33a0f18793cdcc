import AerOS.Proof.Slab.Calls
import Mathlib

namespace AerOS.Proof.Slab
open AerOS.Slab Lib Lib.Action Function List State

variable {s s' : Slabs} {v : View} {lives : Nat → List Nat} {p o : Nat} {c : Slab.Class}

structure Took (s : Slabs) (v : View) (lives : Nat → List Nat) (c : Slab.Class) (p o : Nat) (s' : Slabs) :
    Prop where
  core : ∃ v', Core s' v' (update lives p (o :: lives p)) ∧ v'.classOf = v.classOf
  pages : s'.pages = s.pages
  mem : p ∈ s.pages
  kind : v.classOf p = c
  free : o ∈ v.freeOf p
  inUse : ∀ c', (s'.caches c').inUse = (s.caches c').inUse + if c' = c then 1 else 0

theorem tookObject_relinked (o used : Nat) (core : Core s v lives) (listed : p ∈ v.partials c) :
    (tookObject s c p o used).pages = s.pages ∧
      ∀ c', ((tookObject s c p o used).caches c').inUse = (s.caches c').inUse := by
  have page := core.page p ((core.members c p).mp listed).1
  have relinked : Relinked (taken s p o used) (if (taken s p o used).memory.load (p + freeOffset) = 0
      then unlink c p (taken s p o used) else taken s p o used) :=
    relinked_ite (fun _ => unlink_relinked (taken_lists core.lists page) listed) fun _ => Relinked.refl _
  exact ⟨relinked.pages, relinked.inUse⟩

theorem wp_takeObject (core : Core s v lives) (listed : p ∈ v.partials c) :
    wp (takeObject c p) (fun result s' => ∃ o, result = some o ∧ Took s v lives c p o s')
      (fun e _ => e = .panic) s := by
  obtain ⟨mem, kind, nonempty⟩ := (core.members c p).mp listed
  obtain ⟨o, fs, free⟩ := exists_cons_of_ne_nil nonempty
  have ok := core.ok p mem
  rw [free] at ok
  obtain ⟨first, nonzero, -⟩ := ok.free
  have offsets := offset_values
  have used : (s.put p freeOffset (s.memory.load o)).memory.load (p + usedOffset) = (lives p).length := by
    rw [← ok.used]
    exact Memory.load_store_other (by omega)
  unfold takeObject word setWord increment
  simp only [wp_bind, wp_get, wp_pure, wp_modify, first, Nat.add_zero, used]
  by_cases room : (lives p).length + 1 < 2 ^ 64
  · have core' := tookObject_core core listed free
    obtain ⟨pages, inUse⟩ := tookObject_relinked o ((lives p).length + 1) core listed
    have whole : (if (taken s p o ((lives p).length + 1)).memory.load (p + freeOffset) = 0
        then unlink c p (taken s p o ((lives p).length + 1))
        else taken s p o ((lives p).length + 1)).wipe o (objectSize c) =
        tookObject s c p o ((lives p).length + 1) := rfl
    unfold taken at whole
    rw [if_pos room, wp_pure, whole]
    generalize tookObject s c p o ((lives p).length + 1) = t at core' pages inUse ⊢
    by_cases few : (t.caches c).inUse + 1 < 2 ^ 64
    · rw [if_pos few, wp_pure]
      by_cases still : (t.caches c).allocations + 1 < 2 ^ 64
      · rw [if_pos still, wp_pure, if_neg nonzero]
        refine ⟨o, rfl, ⟨_, core'.agrees (agrees_setCache rfl rfl), rfl⟩, pages, mem, kind, ?_, fun c' => ?_⟩
        · rw [free]
          exact mem_cons_self
        rw [setCache_apply, ← inUse c']
        split
        · next same => rw [same]
        · rfl
      · rw [if_neg still, wp_throw]
    · rw [if_neg few, wp_throw]
  · rw [if_neg room, wp_throw]

inductive Allocated (s : Slabs) (v : View) (lives : Nat → List Nat) (c : Slab.Class) :
    Option Nat → Slabs → Prop where
  | refused : Allocated s v lives c none s
  | partly {p o : Nat} {s' : Slabs} (took : Took s v lives c p o s') :
      Allocated s v lives c (some o) s'
  | fresh {p o : Nat} {t s' : Slabs} (core : Core t (View.add v p c) lives) (notMem : p ∉ s.pages)
      (pages : t.pages = p :: s.pages) (inUse : ∀ c', (t.caches c').inUse = (s.caches c').inUse)
      (took : Took t (View.add v p c) lives c p o s') : Allocated s v lives c (some o) s'

theorem wp_newSlab (core : Core s v lives) (page : Page p) (notMem : p ∉ s.pages) (none : lives p = [])
    (c : Slab.Class) : wp (newSlab c (some p)) (fun result t => result = some p ∧
        Core (link c p t) (View.add v p c) lives ∧ (link c p t).pages = p :: s.pages ∧
        ∀ c', ((link c p t).caches c').inUse = (s.caches c').inUse) (fun e _ => e = .panic) s := by
  unfold newSlab increment
  simp only [wp_bind, wp_get, wp_pure, wp_modify]
  by_cases few : (s.caches c).slabs + 1 < 2 ^ 64
  · rw [if_pos few, wp_pure]
    by_cases still : (s.caches c).pagesTaken + 1 < 2 ^ 64
    · rw [if_pos still, wp_pure]
      refine ⟨trivial, ?_⟩
      generalize made : Slabs.setCache _ c _ = t
      have pages : t.pages = p :: s.pages := by rw [← made]; rfl
      have memory : t.memory = freshMemory s.memory p c := by rw [← made]; rfl
      have heads : ∀ c', (t.caches c').partialHead = (s.caches c').partialHead := by
        rw [← made]
        exact setCache_field Cache.partialHead rfl
      have slabs : ∀ c', (t.caches c').slabs = (s.caches c').slabs + if c' = c then 1 else 0 := by
        intro c'
        rw [← made, setCache_apply]
        split
        · next same => rw [same]
        · rfl
      have inUse : ∀ c', (t.caches c').inUse = (s.caches c').inUse := by
        rw [← made]
        exact setCache_field Cache.inUse rfl
      obtain ⟨core', relinked⟩ := add_slab core page notMem none pages memory heads slabs
      exact ⟨core', relinked.pages.trans pages, fun c' => (relinked.inUse c').trans (inUse c')⟩
    · rw [if_neg still, wp_throw]
  · rw [if_neg few, wp_throw]

theorem wp_allocate {page : Option Nat} (core : Core s v lives)
    (answer : ∀ p ∈ page, Page p ∧ p ∉ s.pages ∧ lives p = []) (c : Slab.Class) :
    wp (allocate c page) (Allocated s v lives c) (fun e _ => e = .panic) s := by
  unfold allocate
  simp only [wp_bind, wp_get]
  by_cases empty : (s.caches c).partialHead = 0
  · rw [if_pos empty, wp_bind]
    cases page with
    | none => exact .refused
    | some p =>
      obtain ⟨aligned, notMem, none⟩ := answer p rfl
      refine wp_mono (wp_newSlab core aligned notMem none c) ?_ fun _ _ h => h
      rintro _ t ⟨rfl, core', pages, inUse⟩
      have listed : p ∈ (View.add v p c).partials c := by
        unfold View.add
        dsimp only
        rw [update_self]
        exact mem_cons_self
      refine wp_mono (wp_takeObject core' listed) ?_ fun _ _ h => h
      rintro _ s' ⟨o, rfl, took⟩
      exact .fresh core' notMem pages inUse took
  · rw [if_neg empty]
    refine wp_mono (wp_takeObject core (core.lists.head_mem empty)) ?_ fun _ _ h => h
    rintro _ s' ⟨o, rfl, took⟩
    exact .partly took

theorem offset_in_page (page : Page p) (inside : pageOf o = p) :
    o &&& (pageSize - 1) = o - p ∧ alignDown o pageSize = p ∧ p ≤ o := by
  have high := page.high
  unfold pageOf at inside
  unfold pageSize at *
  have mask : 4096 - 1 = 2 ^ 12 - 1 := by decide
  have down : alignDown o 4096 = o / 4096 * 4096 := alignDown_eq (k := 12) (by omega) (by decide)
  rw [mask, Nat.and_two_pow_sub_one_eq_mod]
  omega

theorem mem_objects_iff (low : p ≤ o) : o ∈ objects p c ↔ headerSize ≤ o - p ∧
    (o - p - headerSize) % objectSize c = 0 ∧ (o - p - headerSize) / objectSize c < capacityOf c := by
  have positive : 0 < objectSize c := lt_of_lt_of_le (by decide) (objectSize_spec c).1
  rw [mem_objects]
  constructor
  · rintro ⟨i, small, rfl⟩
    have rest : p + headerSize + i * objectSize c - p - headerSize = i * objectSize c := by omega
    rw [rest, Nat.mul_mod_left, Nat.mul_div_cancel i positive]
    exact ⟨by omega, rfl, small⟩
  rintro ⟨_, whole, small⟩
  refine ⟨_, small, ?_⟩
  rw [Nat.div_mul_cancel (Nat.dvd_of_mod_eq_zero whole)]
  omega

theorem refuses_iff (core : Core s v lives) (mem : p ∈ s.pages) (inside : pageOf o = p) :
    refuses s o c = true ↔ (v.classOf p = c → o ∈ objects p c → s.memory.load (o + 8) = poison) := by
  have ok := core.ok p mem
  obtain ⟨offset, page, low⟩ := offset_in_page (core.page p mem) inside
  have room := (objectSize_spec c).1
  unfold refuses
  simp only [offset, page, ok.magic, ok.kind, ok.capacity, Bool.or_eq_true, Bool.and_eq_true,
    decide_eq_true_eq]
  by_cases kind : v.classOf p = c
  · rw [kind, mem_objects_iff low]
    grind
  have : (v.classOf p).val ≠ c.val := fun same => kind (Fin.ext same)
  simp [kind, this]

structure Gave (s : Slabs) (v : View) (lives : Nat → List Nat) (c : Slab.Class) (p o : Nat) (s' : Slabs) :
    Prop where
  core : Core s' (View.give v p c o) (update lives p ((lives p).erase o))
  pages : s'.pages = s.pages
  inUse : ∀ c', (s'.caches c').inUse = (s.caches c').inUse - if c' = c then 1 else 0
  returned : (s'.caches c).pagesReturned = (s.caches c).pagesReturned

theorem wp_giveBack (core : Core s v lives) (mem : p ∈ s.pages) (live : o ∈ lives p)
    (kind : v.classOf p = c) :
    wp (giveBack c p o) (fun _ s' => Gave s v lives c p o s') (fun _ _ => (s.caches c).inUse = 0) s := by
  have ok := core.ok p mem
  have bounds := object_bounds (ok.live_mem live)
  have offsets := offset_values
  have free : ((s.wipe o (objectSize c)).put o 8 poison).memory.load (p + freeOffset) =
      s.memory.load (p + freeOffset) := by
    unfold Slabs.put Slabs.wipe
    rw [Memory.load_store_other (by omega), Memory.load_fill_other (by omega)]
  have used : ((((s.wipe o (objectSize c)).put o 8 poison).put o 0
      (s.memory.load (p + freeOffset))).put p freeOffset o).memory.load (p + usedOffset) =
      (lives p).length := by
    rw [← ok.used]
    unfold Slabs.put Slabs.wipe
    rw [Memory.load_store_other (by omega), Memory.load_store_other (by omega),
      Memory.load_store_other (by omega), Memory.load_fill_other (by omega)]
  have some_live : 1 ≤ (lives p).length := length_pos_of_mem live
  unfold giveBack word setWord decrement
  simp only [wp_bind, wp_get, wp_pure, wp_modify, free, used]
  rw [if_pos some_live, wp_pure]
  have same : ∀ c', ((given s c p o ((lives p).length - 1)).caches c') = s.caches c' := fun _ => rfl
  have pages : (given s c p o ((lives p).length - 1)).pages = s.pages := rfl
  have gave := fun t (agrees : Agrees (given s c p o ((lives p).length - 1)) t) =>
    gaveObject_core core mem kind live agrees
  unfold given at gave same pages
  generalize (((((s.wipe o (objectSize c)).put o 8 poison).put o 0
    (s.memory.load (p + freeOffset))).put p freeOffset o).put p usedOffset ((lives p).length - 1)) = t
    at gave same pages ⊢
  by_cases few : 1 ≤ (t.caches c).inUse
  · rw [if_pos few, wp_pure]
    obtain ⟨core', relinked⟩ := gave (t.setCache c { t.caches c with inUse := (t.caches c).inUse - 1 })
      (agrees_setCache rfl rfl)
    refine ⟨core', relinked.pages.trans pages, fun c' => ?_, ?_⟩
    · rw [relinked.inUse, setCache_apply, same]
      split
      · next equal => rw [equal]
      · rw [same, Nat.sub_zero]
    · rw [relinked.caches c, setCache_apply, if_pos rfl, same]
  · rw [if_neg few, wp_throw, ← same]
    exact Nat.eq_zero_of_not_pos few

structure Released (s : Slabs) (v : View) (lives : Nat → List Nat) (c : Slab.Class) (p o : Nat)
    (s' : Slabs) : Prop where
  core : ∃ v', Core s' v' (update lives p ((lives p).erase o)) ∧ v'.classOf = v.classOf
  inUse : ∀ c', (s'.caches c').inUse = (s.caches c').inUse - if c' = c then 1 else 0
  kept : ∀ q ∈ s.pages, update lives p ((lives p).erase o) q ≠ [] → q ∈ s'.pages

theorem wp_release (core : Core s v lives) (mem : p ∈ s.pages) (live : o ∈ lives p) (inside : pageOf o = p)
    (kind : v.classOf p = c) (unmarked : s.memory.load (o + 8) ≠ poison) :
    wp (release o c) (fun answer s' => answer = true ∧ Released s v lives c p o s')
      (fun _ _ => (s.caches c).inUse = 0 ∨ 2 ^ 64 ≤ (s.caches c).pagesReturned + 1) s := by
  have object : o ∈ objects p c := kind ▸ (core.ok p mem).live_mem live
  have accepted : ¬ refuses s o c = true :=
    fun refused => unmarked ((refuses_iff core mem inside).mp refused kind object)
  have page := (offset_in_page (core.page p mem) inside).2.1
  unfold release
  simp only [wp_bind, wp_get, if_neg accepted, page, wp_pure]
  refine wp_mono (wp_giveBack core mem live kind) (fun _ t gave => ?_) fun _ _ => Or.inl
  have listed : p ∈ (View.give v p c o).partials c := by
    refine (gave.core.members c p).mpr ⟨by rwa [gave.pages], kind, ?_⟩
    unfold View.give
    dsimp only
    rw [update_self]
    exact cons_ne_nil _ _
  refine wp_mono (wp_dropSpare gave.core listed) ?_ fun _ _ h => .inr (gave.returned ▸ h)
  rintro _ s' ⟨v', core', shrunk⟩
  refine ⟨trivial, ⟨v', core', shrunk.classes⟩, fun c' => (shrunk.inUse c').trans (gave.inUse c'), ?_⟩
  rw [← gave.pages]
  exact shrunk.kept

theorem release_refused (refused : refuses s o c = true) : release o c s = (.ok false, s) := by
  have done : wp (release o c) (fun result s' => result = false ∧ s' = s) (fun _ _ => False) s := by
    unfold release
    simp only [wp_bind, wp_get, refused, if_pos, wp_pure, and_self]
  obtain ⟨_, _, run, rfl, rfl⟩ := returns_of_wp done
  exact run

theorem release_accepted (accepted : ¬ refuses s o c = true) : (release o c s).1 ≠ .ok false := by
  have done : wp (release o c) (fun result _ => result = true) (fun _ _ => True) s := by
    unfold release
    simp only [wp_bind, wp_get, if_neg accepted, wp_pure, wp_true]
  obtain ⟨_, _, run, rfl⟩ | ⟨_, _, run, -⟩ := run_of_wp done
  · simp [run]
  · simp [run]

variable {first rest : List Live} {call : Call}

structure Inv (s : State) (v : View) : Prop where
  core : Core s.slabs v s.livesIn
  inUse : ∀ c, (s.slabs.caches c).inUse = s.live.countP fun live => classOf live.layout == some c
  held : ∀ live ∈ s.live, pageOf live.pointer ∈ s.slabs.pages ∧
    classOf live.layout = some (v.classOf (pageOf live.pointer))
  distinct : (s.live.map Live.pointer).Nodup

variable {s : State} {slabs : Slabs} {v : View} {p o : Nat} {c : Slab.Class} {layout : Heap.Layout}
variable {found : Live}

theorem mem_livesIn : o ∈ s.livesIn p ↔ (∃ live ∈ s.live, live.pointer = o) ∧ pageOf o = p := by
  unfold livesIn
  simp only [mem_map, mem_filter, beq_iff_eq]
  constructor
  · rintro ⟨live, ⟨mem, page⟩, rfl⟩
    exact ⟨⟨live, mem, rfl⟩, page⟩
  rintro ⟨⟨live, mem, rfl⟩, page⟩
  exact ⟨live, ⟨mem, page⟩, rfl⟩

theorem livesIn_cons (slabs : Slabs) (live : List Live) (layout : Heap.Layout) (page : pageOf o = p) :
    livesIn ⟨slabs, ⟨o, layout⟩ :: live⟩ =
      update (livesIn ⟨slabs, live⟩) p (o :: livesIn ⟨slabs, live⟩ p) := by
  funext q
  by_cases same : q = p
  · subst same
    simp [livesIn, page]
  rw [update_of_ne same]
  have other : pageOf o ≠ q := by
    rw [page]
    exact Ne.symm same
  simp [livesIn, other]

theorem livesIn_remove {live : Live} (slabs : Slabs) (page : pageOf o = p)
    (pointer : live.pointer = o) (before : ∀ other ∈ first, other.pointer ≠ o) :
    livesIn ⟨slabs, first ++ rest⟩ = update (livesIn ⟨slabs, first ++ live :: rest⟩) p
        ((livesIn ⟨slabs, first ++ live :: rest⟩ p).erase o) := by
  have here : pageOf live.pointer = p := by rw [pointer, page]
  funext q
  by_cases same : q = p
  · subst same
    have absent : o ∉ (first.filter fun other => pageOf other.pointer == q).map Live.pointer := by
      simp only [mem_map, mem_filter, not_exists, not_and]
      exact fun other mem => before other mem.1
    rw [update_self]
    unfold livesIn
    simp only [filter_append, map_append]
    rw [erase_append_right _ absent, filter_cons_of_pos (by simpa using here), map_cons,
      pointer, erase_cons_head]
  · rw [update_of_ne same]
    have other : pageOf live.pointer ≠ q := by
      rw [here]
      exact Ne.symm same
    simp [livesIn, other]

theorem find_live {live : List Live} (find : live.find? (fun other => other.pointer == o) = some found) :
    ∃ first rest, live = first ++ found :: rest ∧ found.pointer = o ∧ (∀ other ∈ first, other.pointer ≠ o) ∧
      live.eraseP (fun other => other.pointer == o) = first ++ rest := by
  obtain ⟨pointer, first, rest, split, before⟩ := find?_eq_some_iff_append.mp find
  have away : ∀ other ∈ first, ¬ (other.pointer == o) = true := by
    intro other mem
    simpa using before other mem
  refine ⟨first, rest, split, by simpa using pointer, fun other mem => by simpa using away other mem, ?_⟩
  rw [split, eraseP_append_right _ away,
    eraseP_cons_of_pos (p := fun other : Live => other.pointer == o) pointer]

theorem objectSize_eq (c : Slab.Class) : objectSize c = 2 ^ (c.val + 4) := by
  revert c
  decide

theorem classOf_spec (kind : classOf layout = some c) :
    layout.size ≤ objectSize c ∧ layout.align ∣ objectSize c ∧ layout.align ∣ 64 := by
  unfold classOf at kind
  split at kind
  · exact nomatch kind
  next small =>
  have fits := find?_some kind
  simp only [ge_iff_le, decide_eq_true_eq, Nat.max_le] at fits
  obtain ⟨k, power⟩ := isPowerOfTwo_iff.mp layout.power
  have narrow : layout.align ≤ 2 ^ 6 := by
    unfold maxAlign at small
    omega
  rw [power] at fits narrow ⊢
  refine ⟨fits.1.1, ?_, ?_⟩
  · rw [objectSize_eq c] at fits ⊢
    exact Nat.pow_dvd_pow 2 ((Nat.pow_le_pow_iff_right (by decide)).mp fits.1.2)
  · exact Nat.pow_dvd_pow 2 ((Nat.pow_le_pow_iff_right (by decide)).mp narrow)

theorem align_dvd (page : Page p) (object : o ∈ objects p c) (kind : classOf layout = some c) :
    layout.align ∣ o := by
  obtain ⟨-, divides, narrow⟩ := classOf_spec kind
  obtain ⟨i, -, rfl⟩ := mem_objects.mp object
  have whole : layout.align ∣ p := (narrow.trans (by decide : 64 ∣ pageSize)).trans page.aligned
  exact Nat.dvd_add (Nat.dvd_add whole narrow) (divides.mul_left i)

theorem Inv.correct (inv : Inv s v) : SlabsCorrect s v where
  kind page mem := (inv.core.ok page mem).kind
  free page mem := (inv.core.ok page mem).free
  objects page mem := (inv.core.ok page mem).parts
  used page mem := (inv.core.ok page mem).used
  list c := (inv.core.lists.chain c).chain
  members c := ⟨inv.core.lists.nodup c, inv.core.members c⟩
  slabs := inv.core.slabs
  inUse := inv.inUse
  held := inv.held
  placed live mem := by
    obtain ⟨page, kind⟩ := inv.held live mem
    have there : live.pointer ∈ s.livesIn (pageOf live.pointer) := mem_livesIn.mpr ⟨⟨live, mem, rfl⟩, rfl⟩
    exact ⟨align_dvd (inv.core.page _ page) ((inv.core.ok _ page).live_mem there) kind, (classOf_spec kind).1⟩
  distinct := inv.distinct

theorem inv_initial (memory : Memory) : Inv (initial memory) ⟨fun _ => 0, fun _ => [], fun _ => []⟩ := by
  refine ⟨⟨nofun, nodup_nil, nofun, ⟨fun _ => rfl, fun _ => nodup_nil, nofun, nofun⟩, ?_,
    fun _ => rfl⟩, fun _ => rfl, nofun, nodup_nil⟩
  simp [initial]

section
variable (inv : Inv s v)
include inv

theorem livesIn_fresh (fresh : p ∉ s.slabs.pages) : s.livesIn p = [] := by
  refine eq_nil_iff_forall_not_mem.mpr fun o mem => fresh ?_
  obtain ⟨⟨live, memLive, rfl⟩, page⟩ := mem_livesIn.mp mem
  rw [← page]
  exact (inv.held live memLive).1

theorem inv_took (took : Took s.slabs v s.livesIn c p o slabs)
    (kind : classOf layout = some c) : ∃ v', Inv ⟨slabs, ⟨o, layout⟩ :: s.live⟩ v' := by
  obtain ⟨v', core, classes⟩ := took.core
  have page := inv.core.page p took.mem
  have ok := inv.core.ok p took.mem
  have bounds := object_bounds (ok.free_mem took.free)
  have inside : pageOf o = p := pageOf_eq page (by
    have := (objectSize_spec (v.classOf p)).1
    omega)
  refine ⟨v', ?_, fun c' => ?_, ?_, ?_⟩
  · rw [livesIn_cons slabs s.live layout inside]
    exact core
  · rw [took.inUse c', inv.inUse c', countP_cons, kind]
    by_cases same : c' = c
    · simp [same]
    · simp [same, Ne.symm same]
  · rw [took.pages, classes]
    refine forall_mem_cons.mpr ⟨?_, inv.held⟩
    rw [inside, took.kind]
    exact ⟨took.mem, kind⟩
  · refine nodup_cons.mpr ⟨fun mem => ?_, inv.distinct⟩
    have live : o ∈ s.livesIn p := mem_livesIn.mpr ⟨by simpa using mem, inside⟩
    exact (nodup_append.mp ok.nodup).2.2 o took.free o live rfl

theorem inv_added {t : Slabs} (core : Core t (View.add v p c) s.livesIn)
    (notMem : p ∉ s.slabs.pages) (pages : t.pages = p :: s.slabs.pages)
    (inUse : ∀ c', (t.caches c').inUse = (s.slabs.caches c').inUse) : Inv ⟨t, s.live⟩ (View.add v p c) := by
  refine ⟨core, fun c' => (inUse c').trans (inv.inUse c'), fun live mem => ?_, inv.distinct⟩
  obtain ⟨page, kind⟩ := inv.held live mem
  have other : pageOf live.pointer ≠ p := fun same => notMem (same ▸ page)
  unfold View.add
  dsimp only
  rw [pages, update_of_ne other]
  exact ⟨mem_cons_of_mem p page, kind⟩

theorem inv_allocated {result : Option Nat}
    (allocated : Allocated s.slabs v s.livesIn c result slabs) (kind : classOf layout = some c) :
    ∃ v', Inv ⟨slabs, (result.map fun o => ⟨o, layout⟩).toList ++ s.live⟩ v' := by
  cases allocated with
  | refused => exact ⟨v, inv⟩
  | partly took => exact inv_took inv took kind
  | fresh core notMem pages inUse took =>
    have added := inv_added inv core notMem pages inUse
    have done := inv_took added took kind
    exact done

theorem inv_released (split : s.live = first ++ found :: rest) (pointer : found.pointer = o)
    (before : ∀ other ∈ first, other.pointer ≠ o) (kind : classOf found.layout = some c)
    (released : Released s.slabs v s.livesIn c (pageOf o) o slabs) : ∃ v', Inv ⟨slabs, first ++ rest⟩ v' := by
  obtain ⟨v', core, classes⟩ := released.core
  have lives : livesIn ⟨slabs, first ++ rest⟩ =
      update s.livesIn (pageOf o) ((s.livesIn (pageOf o)).erase o) := by
    rw [livesIn_remove slabs rfl pointer before, ← split]
    rfl
  have stays : ∀ live ∈ first ++ rest, live ∈ s.live := by
    intro live mem
    rw [split]
    simp only [mem_append, mem_cons] at mem ⊢
    exact mem.imp_right Or.inr
  refine ⟨v', ?_, fun c' => ?_, fun live mem => ?_, ?_⟩
  · rw [lives]
    exact core
  · rw [released.inUse c', inv.inUse c', split]
    simp only [countP_append, countP_cons, kind]
    by_cases same : c' = c
    · simp [same]
    · simp [same, Ne.symm same]
  · obtain ⟨page, kind⟩ := inv.held live (stays live mem)
    have nonempty := ne_nil_of_mem (mem_livesIn.mpr ⟨⟨live, mem, rfl⟩, rfl⟩)
    rw [lives] at nonempty
    rw [classes]
    exact ⟨released.kept _ page nonempty, kind⟩
  have distinct := inv.distinct
  rw [split, map_append, map_cons] at distinct
  rw [map_append]
  exact (nodup_middle.mp distinct).of_cons

theorem inv_reclaimed (after : After s.slabs v s.livesIn slabs) : ∃ v', Inv ⟨slabs, s.live⟩ v' := by
  obtain ⟨v', core, shrunk⟩ := after
  refine ⟨v', core, fun c => (shrunk.inUse c).trans (inv.inUse c), fun live mem => ?_, inv.distinct⟩
  obtain ⟨page, kind⟩ := inv.held live mem
  have nonempty := ne_nil_of_mem (mem_livesIn.mpr ⟨⟨live, mem, rfl⟩, rfl⟩)
  rw [shrunk.classes]
  exact ⟨shrunk.kept _ page nonempty, kind⟩

theorem inv_poked {address : Nat} (writable : s.Writable address) (byte : UInt8) :
    Inv { s with slabs := { s.slabs with memory := s.slabs.memory.poke address byte } } v := by
  refine ⟨?_, inv.inUse, inv.held, inv.distinct⟩
  have apart : ∀ x, x ≠ address → s.slabs.memory.poke address byte x = s.slabs.memory x :=
    fun x ne => Memory.poke_apply_of_ne ne
  rcases writable with ⟨live, mem, first, last⟩ | outside
  · obtain ⟨page, kind⟩ := inv.held live mem
    have fits := (classOf_spec kind).1
    have there : live.pointer ∈ s.livesIn (pageOf live.pointer) := mem_livesIn.mpr ⟨⟨live, mem, rfl⟩, rfl⟩
    exact inv.core.live_change page there rfl (fun _ => ⟨rfl, rfl⟩) fun x _ => apart x (by omega)
  refine inv.core.frame rfl (fun _ => ⟨rfl, rfl⟩) (fun q mem x first last => apart x ?_)
    fun q mem r memR x first last => apart x ?_
  · have := outside q mem
    unfold pageSize at this
    omega
  have := outside q mem
  have bounds := object_bounds ((inv.core.ok q mem).free_mem memR)
  have room := (objectSize_spec (v.classOf q)).1
  unfold pageSize at this
  omega

theorem live_object (mem : found ∈ s.live) :
    ∃ c, classOf found.layout = some c ∧ pageOf found.pointer ∈ s.slabs.pages ∧
      found.pointer ∈ s.livesIn (pageOf found.pointer) ∧ v.classOf (pageOf found.pointer) = c := by
  obtain ⟨page, kind⟩ := inv.held found mem
  exact ⟨_, kind, page, mem_livesIn.mpr ⟨⟨found, mem, rfl⟩, rfl⟩, rfl⟩

theorem inv_step (unmarked : s.Unmarked call) : ∃ v', Inv (s.step call) v' := by
  have stays : ∃ v', Inv s v' := ⟨v, inv⟩
  cases call with
  | allocate layout page =>
    unfold step
    dsimp only
    cases kind : classOf layout with
    | none => exact stays
    | some c =>
      dsimp only
      by_cases fresh : ∀ p ∈ page, FreshPage s p
      · rw [if_pos fresh]
        have done := wp_allocate inv.core (fun p mem =>
          ⟨⟨(fresh p mem).aligned, (fresh p mem).nonnull, (fresh p mem).high⟩, (fresh p mem).fresh,
            livesIn_fresh inv (fresh p mem).fresh⟩) c
        obtain ⟨answer, _, run, done⟩ | ⟨_, _, run, -⟩ := run_of_wp done
        · rw [run]
          have next := inv_allocated inv done kind
          cases answer with
          | none => exact next
          | some o => exact next
        · rw [run]
          exact stays
      · rw [if_neg fresh]
        exact stays
  | deallocate pointer =>
    unfold step
    dsimp only
    cases find : s.live.find? fun live => live.pointer == pointer with
    | none => exact stays
    | some found =>
      obtain ⟨_, _, split, rfl, before, erased⟩ := find_live find
      have mem : found ∈ s.live := by simp [split]
      obtain ⟨c, kind, page, live, classes⟩ := live_object inv mem
      dsimp only
      rw [kind]
      have done := wp_release inv.core page live rfl classes (unmarked ⟨found, mem, rfl⟩)
      dsimp only
      obtain ⟨_, _, run, -, released⟩ | ⟨_, _, run, -⟩ := run_of_wp done
      · rw [run, erased]
        exact inv_released inv split rfl before kind released
      rw [run]
      exact stays
  | reclaim =>
    unfold step
    unfold reclaim
    obtain ⟨_, _, run, done⟩ | ⟨_, _, run, -⟩ := run_of_wp (wp_reclaimClasses (finRange 7) 0 inv.core)
    · rw [run]
      exact inv_reclaimed inv done
    rw [run]
    exact stays
  | store address byte =>
    unfold step
    dsimp only
    by_cases writable : s.Writable address
    · rw [if_pos writable]
      exact ⟨v, inv_poked inv writable byte⟩
    rw [if_neg writable]
    exact stays

theorem not_correct_of_marked (marked : ¬ s.Unmarked call) : ¬ ∃ v', SlabsCorrect (s.step call) v' := by
  cases call with
  | allocate _ page => exact absurd trivial marked
  | reclaim => exact absurd trivial marked
  | store _ _ => exact absurd trivial marked
  | deallocate pointer =>
    unfold State.Unmarked at marked
    simp only [Classical.not_imp, not_not] at marked
    obtain ⟨⟨live, memLive, same⟩, word⟩ := marked
    cases find : s.live.find? fun live => live.pointer == pointer with
    | none => exact absurd (by simpa using same) (find?_eq_none.mp find live memLive)
    | some found =>
      obtain ⟨first, rest, split, rfl, before, erased⟩ := find_live find
      have mem : found ∈ s.live := by simp [split]
      obtain ⟨c, kind, page, there, _⟩ := live_object inv mem
      have next : s.step (.deallocate found.pointer) = ⟨s.slabs, first ++ rest⟩ := by
        unfold step
        dsimp only
        rw [find]
        dsimp only
        rw [kind]
        dsimp only
        rw [release_refused ((refuses_iff inv.core page rfl).mpr fun _ _ => word), erased]
      rintro ⟨v', correct⟩
      rw [next] at correct
      have now := correct.used _ page
      have then_ := (inv.core.ok _ page).used
      have lives : livesIn ⟨s.slabs, first ++ rest⟩ (pageOf found.pointer) =
          (s.livesIn (pageOf found.pointer)).erase found.pointer := by
        rw [livesIn_remove s.slabs rfl rfl before, ← split, update_self]
      rw [lives, length_erase_of_mem there] at now
      have := length_pos_of_mem there
      dsimp only at now
      omega

end

theorem slabs_correct_iff_unmarked (memory : Memory) (calls : List Call) :
    Run.Throughout State.step (fun s => ∃ v, SlabsCorrect s v) (State.initial memory) calls ↔
      Run.Along State.step State.Unmarked (State.initial memory) calls := by
  have sound : ∀ s, (∃ v, Inv s v) → ∃ v, SlabsCorrect s v := fun s ⟨v, inv⟩ => ⟨v, inv.correct⟩
  have kept : ∀ (s : State) call, (∃ v, Inv s v) → s.Unmarked call → ∃ v, Inv (s.step call) v :=
    fun s call ⟨v, inv⟩ unmarked => inv_step inv unmarked
  have lost : ∀ (s : State) call, (∃ v, Inv s v) → ¬ s.Unmarked call → ¬ ∃ v, SlabsCorrect (s.step call) v :=
    fun s call ⟨v, inv⟩ marked => not_correct_of_marked inv marked
  exact Run.throughout_iff_along_of_inv sound kept lost calls ⟨_, inv_initial memory⟩

theorem objectAt_of_liveAt (inv : Inv s v) (live : s.LiveAt o c) :
    v.classOf (pageOf o) = c ∧ o ∈ objects (pageOf o) c ∧ o ∈ s.livesIn (pageOf o) ∧
      1 ≤ (s.slabs.caches c).inUse := by
  obtain ⟨found, mem, rfl, kind⟩ := live
  obtain ⟨c', kind', page, there, rfl⟩ := live_object inv mem
  obtain rfl := Option.mem_unique kind kind'
  refine ⟨rfl, (inv.core.ok _ page).live_mem there, there, ?_⟩
  rw [inv.inUse]
  exact countP_pos_iff.mpr ⟨found, mem, by simp [kind]⟩

theorem refuses_iff_object (inv : Inv s v) (inside : pageOf o ∈ s.slabs.pages) :
    (s.ObjectAt o c ↔ v.classOf (pageOf o) = c ∧ o ∈ objects (pageOf o) c) ∧
      (refuses s.slabs o c = true ↔ (s.ObjectAt o c → s.slabs.memory.load (o + 8) = poison)) := by
  have object : s.ObjectAt o c ↔ v.classOf (pageOf o) = c ∧ o ∈ objects (pageOf o) c := by
    unfold State.ObjectAt
    rw [(inv.core.ok _ inside).kind, Fin.val_inj]
  refine ⟨object, ?_⟩
  rw [object, and_imp]
  exact refuses_iff inv.core inside rfl

/-- A request that the mark tells about is refused or is a call of an owner. -/
theorem serve_cases (inv : Inv s v) {request : Request} (regular : s.Regular request) :
    s.serve request = s ∨ ∃ call, s.Unmarked call ∧ s.serve request = s.step call := by
  cases request with
  | own call => exact .inr ⟨call, regular, rfl⟩
  | deallocate pointer layout =>
    unfold State.serve
    dsimp only
    cases kind : classOf layout with
    | none => exact .inl rfl
    | some c =>
      dsimp only
      by_cases refuse : refuses s.slabs pointer c = true
      · rw [release_refused refuse]
        exact .inl rfl
      have told := regular c kind
      split_ifs at told with inside
      · have unmarked := refuse
        rw [(refuses_iff_object inv inside).2, Classical.not_imp] at unmarked
        obtain ⟨found, mem, rfl, same⟩ := not_not.mp fun dead => unmarked.2 ((told unmarked.1).mpr dead)
        refine .inr ⟨.deallocate found.pointer, fun _ => unmarked.2, ?_⟩
        obtain ⟨_, find⟩ := Option.isSome_iff_exists.mp
          (find?_isSome (p := fun live : Live => live.pointer == found.pointer).mpr ⟨found, mem, beq_self_eq_true _⟩)
        obtain ⟨_, _, split, pointer, _, _⟩ := find_live find
        obtain ⟨_, kind', _, _, rfl⟩ := live_object inv (mem_of_find?_eq_some find)
        obtain ⟨_, kind'', _, _, rfl⟩ := live_object inv mem
        unfold State.step
        dsimp only
        rw [find]
        dsimp only
        rw [kind', pointer, ← kind'', same]
        dsimp only
        have accepted := release_accepted refuse
        revert accepted
        rcases release found.pointer c s.slabs with ⟨answer | answer, slabs⟩ <;> intro accepted
        · rfl
        · cases answer with
          | true => rfl
          | false => exact absurd rfl accepted
      · exact absurd told refuse

/-- `deallocate` answers right, whatever was done before, exactly when an object of a page carries the
mark of a free object just in case it is free. -/
theorem deallocate_exact_iff (memory : Memory) (requests : List Request)
    (regular : Run.Along State.serve State.Regular (State.initial memory) requests)
    (s : State) (run : Run.final State.serve (State.initial memory) requests = s)
    (pointer : Nat) (inside : pageOf pointer ∈ s.slabs.pages) (c : Slab.Class)
    (room : (s.slabs.caches c).pagesReturned + 1 < 2 ^ 64) :
    ((release pointer c s.slabs).1 = .ok (decide (s.LiveAt pointer c)) ↔ s.Told pointer c) ∧
    ((release pointer c s.slabs).1 = .ok false → (release pointer c s.slabs).2 = s.slabs) := by
  have kept : ∀ (s : State) request, (∃ v, Inv s v) → s.Regular request → ∃ v, Inv (s.serve request) v := by
    rintro s request ⟨v, inv⟩ regular
    rcases serve_cases inv regular with same | ⟨call, unmarked, same⟩
    · rw [same]
      exact ⟨v, inv⟩
    · rw [same]
      exact inv_step inv unmarked
  obtain ⟨v, inv⟩ := run ▸ Run.final_of_along kept ⟨_, inv_initial memory⟩ regular
  obtain ⟨object, refused⟩ := refuses_iff_object (c := c) inv inside
  unfold State.Told
  by_cases refuse : refuses s.slabs pointer c = true
  · rw [release_refused refuse]
    refine ⟨?_, fun _ => rfl⟩
    have marked := refused.mp refuse
    have placed : s.LiveAt pointer c → s.ObjectAt pointer c := fun live =>
      object.mpr ⟨(objectAt_of_liveAt inv live).1, (objectAt_of_liveAt inv live).2.1⟩
    by_cases live : s.LiveAt pointer c
    · simp [live, placed live, marked (placed live)]
    · simpa [live] using marked
  have refuses := release_accepted refuse
  refine ⟨?_, fun answer => absurd answer refuses⟩
  rw [refused, Classical.not_imp] at refuse
  obtain ⟨placed, unmarked⟩ := refuse
  by_cases live : s.LiveAt pointer c
  · obtain ⟨class_, -, there, _⟩ := objectAt_of_liveAt inv live
    have done := wp_release inv.core inside there rfl class_ unmarked
    obtain ⟨_, _, run, rfl, -⟩ := returns_of_wp (wp_mono done (fun _ _ h => h) fun _ _ h => by omega)
    simp [run, live, unmarked]
  · simp [live, placed, unmarked, refuses]

theorem word_power : isPowerOfTwo 8 = true := by decide

/-- An owner stores the mark of a free object in its object and gives the object back. -/
def markedCalls : List Call :=
  .allocate ⟨1024, 8, word_power, by decide⟩ (some 0x10000) ::
    ((leBytes 8 poison).zipIdx.map fun (byte, i) => .store (0x10048 + i) byte) ++
    [.deallocate 0x10040]

/-- The object is given back twice and taken again. -/
def twiceFreed : List Request :=
  [.own (.allocate ⟨1024, 8, word_power, by decide⟩ (some 0x10000)), .deallocate 0x10040 ⟨1024, 8, word_power, by decide⟩,
    .deallocate 0x10040 ⟨1024, 8, word_power, by decide⟩, .own (.allocate ⟨1024, 8, word_power, by decide⟩ none)]

theorem twiceFreed_accepted : ∃ s, Run.final State.serve (State.initial fun _ => 0) twiceFreed = s ∧
    s.LiveAt 0x10040 6 ∧ (release 0x10040 6 s.slabs).1 = .ok (decide (s.LiveAt 0x10040 6)) := by
  refine ⟨_, rfl, by decide +kernel, ?_⟩
  refine (deallocate_exact_iff (fun _ => 0) twiceFreed ⟨trivial, ?_, ?_, trivial, trivial⟩ _ rfl 0x10040 ?_ 6 ?_).1.mpr ?_
  · unfold State.Regular
    decide +kernel
  · unfold State.Regular
    decide +kernel
  all_goals decide +kernel

theorem marked_object_refused : ∃ s,
    Run.final State.serve (State.initial fun _ => 0) (markedCalls.dropLast.map Request.own) = s ∧
    s.LiveAt 0x10040 6 ∧ (release 0x10040 6 s.slabs).1.toOption = some false := by
  refine ⟨_, rfl, ?_⟩
  decide +kernel

theorem marked_object_lost :
    ¬ ∃ v, SlabsCorrect (Run.final State.step (State.initial fun _ => 0) markedCalls) v := by
  rintro ⟨v, correct⟩
  have held : 0x10000 ∈ (Run.final step (initial fun _ => 0) markedCalls).slabs.pages := by
    decide +kernel
  have used := correct.used 0x10000 held
  revert used
  decide +kernel

end AerOS.Proof.Slab
