import AerOS.Proof.Slab.Lists

namespace AerOS.Proof.Slab
open AerOS.Slab Lib Lib.Action Function List Memory
variable {ls : List Nat} {s1 : Slabs} {used x : Nat} {partials : Slab.Class → List Nat}

structure Core (s : Slabs) (v : View) (lives : Nat → List Nat) : Prop where
  page : ∀ p ∈ s.pages, Page p
  nodup : s.pages.Nodup
  ok : ∀ p ∈ s.pages, PageOk s.memory p (v.classOf p) (v.freeOf p) (lives p)
  lists : Lists s v.partials
  members : ∀ c p, p ∈ v.partials c ↔ p ∈ s.pages ∧ v.classOf p = c ∧ v.freeOf p ≠ []
  slabs : ∀ c, (s.caches c).slabs = s.pages.countP fun p => v.classOf p == c

variable {s s' : Slabs} {v : View} {lives : Nat → List Nat} {p o : Nat} {c : Slab.Class} {fs : List Nat}

theorem PageOk.relinked (page : Page p) (ok : PageOk s.memory p c fs ls)
    (relinked : Relinked s s') : PageOk s'.memory p c fs ls := by
  obtain ⟨i, rfl⟩ := page.aligned
  have size : pageSize = 4096 := rfl
  refine ok.frame (fun x first last => ?_) (fun o mem x first last => ?_)
  · refine relinked.memory x ?_
    unfold OffLinks
    rw [size] at first last
    omega
  refine relinked.memory x ?_
  have bounds := object_bounds (ok.free_mem mem)
  unfold OffLinks
  rw [size] at bounds
  omega

theorem Core.frame (core : Core s v lives) (pages : s'.pages = s.pages)
    (caches : ∀ c, (s'.caches c).partialHead = (s.caches c).partialHead ∧
      (s'.caches c).slabs = (s.caches c).slabs)
    (header : ∀ p ∈ s.pages, ∀ x, p ≤ x → x < p + 64 → s'.memory x = s.memory x)
    (free : ∀ p ∈ s.pages, ∀ o ∈ v.freeOf p, ∀ x, o ≤ x → x < o + 8 → s'.memory x = s.memory x) :
    Core s' v lives := by
  refine ⟨by rw [pages]; exact core.page, by rw [pages]; exact core.nodup, ?_, ?_, ?_, fun c => ?_⟩
  · rw [pages]
    intro p mem
    exact (core.ok p mem).frame (fun x first last => header p mem x first (by omega)) (free p mem)
  · exact core.lists.frame (fun c => (caches c).1) fun c p mem x _ _ =>
      header p ((core.members c p).mp mem).1 x (by omega) (by omega)
  · rw [pages]
    exact core.members
  · rw [(caches c).2, core.slabs c, pages]

structure Agrees (s s' : Slabs) : Prop where
  pages : s'.pages = s.pages
  memory : s'.memory = s.memory
  heads : ∀ c, (s'.caches c).partialHead = (s.caches c).partialHead
  slabs : ∀ c, (s'.caches c).slabs = (s.caches c).slabs

theorem setCache_apply (s : Slabs) (c : Slab.Class) (cache : Cache) (c' : Slab.Class) :
    (s.setCache c cache).caches c' = if c' = c then cache else s.caches c' :=
  update_apply _ _ _ _

theorem setCache_field (f : Cache → Nat) {cache : Cache} (same : f cache = f (s.caches c)) (c' : Slab.Class) :
    f ((s.setCache c cache).caches c') = f (s.caches c') := by
  rw [setCache_apply]
  split
  · next here => rw [here, same]
  · rfl

theorem agrees_setCache {cache : Cache} (head : cache.partialHead = (s.caches c).partialHead)
    (slabs : cache.slabs = (s.caches c).slabs) : Agrees s (s.setCache c cache) :=
  ⟨rfl, rfl, setCache_field Cache.partialHead head, setCache_field Cache.slabs slabs⟩

section
variable (core : Core s v lives)
include core

theorem Core.agrees (same : Agrees s s') : Core s' v lives :=
  core.frame same.pages (fun c => ⟨same.heads c, same.slabs c⟩)
    (fun _ _ _ _ _ => by rw [same.memory]) fun _ _ _ _ _ _ _ => by rw [same.memory]

theorem Core.relist {s2 : Slabs} {v' : View} {lives' : Nat → List Nat}
    (pages : s1.pages = s.pages) (slabs : ∀ c, (s1.caches c).slabs = (s.caches c).slabs)
    (relinked : Relinked s1 s2) (classes : v'.classOf = v.classOf)
    (ok : ∀ q ∈ s.pages, PageOk s1.memory q (v.classOf q) (v'.freeOf q) (lives' q))
    (lists : Lists s2 v'.partials)
    (members : ∀ c q, q ∈ v'.partials c ↔ q ∈ s.pages ∧ v.classOf q = c ∧ v'.freeOf q ≠ []) :
    Core s2 v' lives' := by
  have samePages : s2.pages = s.pages := relinked.pages.trans pages
  refine ⟨?_, ?_, ?_, lists, ?_, fun c => ?_⟩
  · rw [samePages]
    exact core.page
  · rw [samePages]
    exact core.nodup
  · rw [samePages, classes]
    exact fun q mem => (ok q mem).relinked (core.page q mem) relinked
  · rw [samePages, classes]
    exact members
  · rw [relinked.caches c, samePages, classes]
    exact (slabs c).trans (core.slabs c)

theorem Core.live_change (mem : p ∈ s.pages) (live : o ∈ lives p)
    (pages : s'.pages = s.pages) (caches : ∀ c, (s'.caches c).partialHead = (s.caches c).partialHead ∧
      (s'.caches c).slabs = (s.caches c).slabs)
    (outside : ∀ x, x < o ∨ o + objectSize (v.classOf p) ≤ x → s'.memory x = s.memory x) :
    Core s' v lives := by
  have page := core.page p mem
  have object := (core.ok p mem).live_mem live
  have bounds := object_bounds object
  refine core.frame pages caches (fun q memQ x first last => outside x ?_)
    fun q memQ r memR x first last => outside x ?_
  · by_cases same : p = q
    · omega
    · have := page_apart page (core.page q memQ) same
      omega
  have free := (core.ok q memQ).free_mem memR
  have room := (objectSize_spec (v.classOf q)).1
  by_cases same : p = q
  · subst same
    have distinct : o ≠ r := by
      rintro rfl
      exact (nodup_append.mp (core.ok p mem).nodup).2.2 o memR o live rfl
    have := objects_apart object free distinct
    omega
  · have := page_apart page (core.page q memQ) same
    have := object_bounds free
    omega

theorem Core.change_page {m' : Memory} (mem : p ∈ s.pages)
    (ok : PageOk m' p (v.classOf p) fs ls) (outside : ∀ x, x < p ∨ p + 4096 ≤ x → m' x = s.memory x) :
    ∀ q ∈ s.pages, PageOk m' q (v.classOf q) (update v.freeOf p fs q) (update lives p ls q) := by
  intro q memQ
  by_cases same : q = p
  · subst same
    rw [update_self, update_self]
    exact ok
  rw [update_of_ne same, update_of_ne same]
  have apart := page_apart (core.page p mem) (core.page q memQ) (Ne.symm same)
  exact (core.ok q memQ).same_page fun x first last => outside x (by omega)

end

def taken (s : Slabs) (p o used : Nat) : Slabs := (s.put p freeOffset (s.memory.load o)).put p usedOffset used

theorem taken_memory (outside : x < p + 16 ∨ p + 32 ≤ x) : (taken s p o used).memory x = s.memory x := by
  have offsets := offset_values
  unfold taken Slabs.put
  dsimp only
  rw [store_apply_of_notMem (by omega), store_apply_of_notMem (by omega)]

theorem taken_lists (lists : Lists s partials) (page : Page p) : Lists (taken s p o used) partials := by
  refine lists.frame (fun _ => rfl) fun c q mem x _ _ => taken_memory ?_
  by_cases equal : p = q
  · omega
  have := page_apart page (lists.page c q mem) equal
  omega

def View.take (v : View) (p : Nat) (c : Slab.Class) (fs : List Nat) : View :=
  { v with
    freeOf := update v.freeOf p fs
    partials := if fs = [] then update v.partials c ((v.partials c).erase p) else v.partials }

def tookObject (s : Slabs) (c : Slab.Class) (p o used : Nat) : Slabs :=
  let s := taken s p o used
  let s := if s.memory.load (p + freeOffset) = 0 then unlink c p s else s
  s.wipe o (objectSize c)

theorem Lists.mem_erase {partials : Slab.Class → List Nat} (lists : Lists s partials) (mem : p ∈ partials c)
    (c' : Slab.Class) (q : Nat) : q ∈ update partials c ((partials c).erase p) c' ↔ q ≠ p ∧ q ∈ partials c' := by
  by_cases same : c' = c
  · subst same
    rw [update_self, (lists.nodup c').mem_erase_iff]
  rw [update_of_ne same]
  refine ⟨fun there => ⟨?_, there⟩, And.right⟩
  rintro rfl
  exact same (lists.apart c' c q there mem)

theorem mem_put {partials : Slab.Class → List Nat} (c' : Slab.Class) (q : Nat) :
    q ∈ update partials c (p :: partials c) c' ↔ c' = c ∧ q = p ∨ q ∈ partials c' := by
  by_cases same : c' = c
  · subst same
    simp
  · simp [same]

theorem take_members (core : Core s v lives) (mem : p ∈ v.partials c) (c' : Slab.Class) (q : Nat) :
    q ∈ (View.take v p c fs).partials c' ↔ q ∈ s.pages ∧ v.classOf q = c' ∧ update v.freeOf p fs q ≠ [] := by
  obtain ⟨_, _, nonempty⟩ := (core.members c p).mp mem
  unfold View.take
  dsimp only
  by_cases empty : fs = []
  · rw [if_pos empty, core.lists.mem_erase mem, core.members]
    by_cases other : q = p <;> simp [other, empty]
  rw [if_neg empty, core.members]
  by_cases other : q = p
  · subst other
    simp [empty, nonempty]
  · rw [update_of_ne other]

theorem tookObject_core (core : Core s v lives) (mem : p ∈ v.partials c) (free : v.freeOf p = o :: fs) :
    Core (tookObject s c p o ((lives p).length + 1)) (View.take v p c fs)
      (update lives p (o :: lives p)) := by
  obtain ⟨memPage, kind, -⟩ := (core.members c p).mp mem
  have page := core.page p memPage
  have ok := core.ok p memPage
  rw [free] at ok
  have after : PageOk (taken s p o ((lives p).length + 1)).memory p (v.classOf p) fs (o :: lives p) := ok.take
  have pages := core.change_page memPage after fun x outside => taken_memory (by omega)
  have lists : Lists (taken s p o ((lives p).length + 1)) v.partials := taken_lists core.lists page
  have last : (taken s p o ((lives p).length + 1)).memory.load (p + freeOffset) = 0 ↔ fs = [] :=
    after.free.start_eq_zero
  have still : (taken s p o ((lives p).length + 1)).pages = s.pages := rfl
  have slabs : ∀ c, ((taken s p o ((lives p).length + 1)).caches c).slabs = (s.caches c).slabs := fun _ => rfl
  unfold tookObject
  dsimp only
  generalize taken s p o ((lives p).length + 1) = s1 at after pages lists last still slabs
  have unlinked : Relinked s1 (if s1.memory.load (p + freeOffset) = 0 then unlink c p s1 else s1) :=
    relinked_ite (fun _ => unlink_relinked lists mem) fun _ => Relinked.refl s1
  have lists' : Lists (if s1.memory.load (p + freeOffset) = 0 then unlink c p s1 else s1)
      (View.take v p c fs).partials := by
    unfold View.take
    by_cases empty : fs = []
    · rw [if_pos (last.mpr empty), if_pos empty]
      exact unlink_lists lists mem
    rw [if_neg fun zero => empty (last.mp zero), if_neg empty]
    exact lists
  generalize (if s1.memory.load (p + freeOffset) = 0 then unlink c p s1 else s1) = s2 at unlinked lists'
  have core2 : Core s2 (View.take v p c fs) (update lives p (o :: lives p)) :=
    core.relist still slabs unlinked rfl pages lists' (take_members core mem)
  -- The object is not free any more, so it can be wiped.
  have samePages : s2.pages = s.pages := unlinked.pages.trans still
  refine core2.live_change (by rwa [samePages]) (by rw [update_self]; exact mem_cons_self) rfl
    (fun _ => ⟨rfl, rfl⟩) fun x outside => fill_apply_of_notMem ?_
  change x < o ∨ o + objectSize (v.classOf p) ≤ x at outside
  rwa [kind] at outside

def given (s : Slabs) (c : Slab.Class) (p o used : Nat) : Slabs :=
  (((((s.wipe o (objectSize c)).put o 8 poison).put o 0 (s.memory.load (p + freeOffset))).put p
    freeOffset o).put p usedOffset used)

theorem given_lists (lists : Lists s partials)
    (page : Page p) (object : o ∈ objects p c) : Lists (given s c p o used) partials := by
  have offsets := offset_values
  have bounds := object_bounds object
  refine lists.frame (fun _ => rfl) fun c' q mem x _ _ => ?_
  unfold given Slabs.put Slabs.wipe
  by_cases equal : p = q
  · simp (disch := omega) only [store_apply_of_notMem, fill_apply_of_notMem]
  have := page_apart page (lists.page c' q mem) equal
  simp (disch := omega) only [store_apply_of_notMem, fill_apply_of_notMem]

def View.give (v : View) (p : Nat) (c : Slab.Class) (o : Nat) : View :=
  { v with
    freeOf := update v.freeOf p (o :: v.freeOf p)
    partials := if v.freeOf p = [] then update v.partials c (p :: v.partials c) else v.partials }

theorem give_members (core : Core s v lives) (mem : p ∈ s.pages) (kind : v.classOf p = c)
    (c' : Slab.Class) (q : Nat) : q ∈ (View.give v p c o).partials c' ↔
      q ∈ s.pages ∧ v.classOf q = c' ∧ update v.freeOf p (o :: v.freeOf p) q ≠ [] := by
  unfold View.give
  dsimp only
  by_cases empty : v.freeOf p = []
  · rw [if_pos empty, mem_put, core.members]
    by_cases other : q = p
    · subst other
      simp [mem, kind, empty, eq_comm]
    · simp [other]
  rw [if_neg empty, core.members]
  by_cases other : q = p
  · subst other
    simp [empty]
  · rw [update_of_ne other]

theorem gaveObject_core (core : Core s v lives) (mem : p ∈ s.pages)
    (kind : v.classOf p = c) (live : o ∈ lives p)
    (agrees : Agrees (given s c p o ((lives p).length - 1)) s1) :
    Core (if s.memory.load (p + freeOffset) = 0 then link c p s1 else s1) (View.give v p c o)
        (update lives p ((lives p).erase o)) ∧
      Relinked s1 (if s.memory.load (p + freeOffset) = 0 then link c p s1 else s1) := by
  have page := core.page p mem
  have ok := core.ok p mem
  have object : o ∈ objects p c := kind ▸ ok.live_mem live
  have after : PageOk s1.memory p (v.classOf p) (o :: v.freeOf p) ((lives p).erase o) := by
    have given := ok.give page live
    rw [agrees.memory]
    rw [kind] at given ⊢
    exact given
  have pages := core.change_page mem after fun x _ => by
    rw [agrees.memory]
    have offsets := offset_values
    have bounds := object_bounds object
    have room := (objectSize_spec c).1
    unfold given Slabs.put Slabs.wipe
    simp (disch := omega) only [store_apply_of_notMem, fill_apply_of_notMem]
  have lists : Lists s1 v.partials := (given_lists core.lists page object).frame agrees.heads fun _ _ _ _ _ _ => by
    rw [agrees.memory]
  have full : s.memory.load (p + freeOffset) = 0 ↔ v.freeOf p = [] := ok.free.start_eq_zero
  have linked : Relinked s1 (if s.memory.load (p + freeOffset) = 0 then link c p s1 else s1) :=
    relinked_ite (fun _ => link_relinked lists page) fun _ => Relinked.refl s1
  refine ⟨core.relist agrees.pages agrees.slabs linked rfl pages ?_ (give_members core mem kind), linked⟩
  unfold View.give
  by_cases empty : v.freeOf p = []
  · rw [if_pos (full.mpr empty), if_pos empty]
    exact link_lists lists page fun c' there => ((core.members c' p).mp there).2.2 empty
  rw [if_neg fun zero => empty (full.mp zero), if_neg empty]
  exact lists

variable {v' v'' : View}

def View.add (v : View) (p : Nat) (c : Slab.Class) : View where
  classOf := update v.classOf p c
  freeOf := update v.freeOf p (objects p c)
  partials := update v.partials c (p :: v.partials c)

theorem objects_ne_nil (p : Nat) (c : Slab.Class) : objects p c ≠ [] := by
  intro none
  have count := length_objects p c
  rw [none, length_nil] at count
  have := (objectSize_spec c).2.2.1
  omega

theorem add_members (core : Core s v lives) (fresh : p ∉ s.pages) (c' : Slab.Class) (q : Nat) :
    q ∈ (View.add v p c).partials c' ↔
      q ∈ p :: s.pages ∧ update v.classOf p c q = c' ∧ update v.freeOf p (objects p c) q ≠ [] := by
  unfold View.add
  dsimp only
  rw [mem_put, core.members]
  by_cases other : q = p
  · subst other
    simp [objects_ne_nil, fresh, @eq_comm _ c]
  · simp [other]

theorem add_slab (core : Core s v lives) (page : Page p) (fresh : p ∉ s.pages) (none : lives p = [])
    (pages : s1.pages = p :: s.pages) (memory : s1.memory = freshMemory s.memory p c)
    (heads : ∀ c', (s1.caches c').partialHead = (s.caches c').partialHead)
    (slabs : ∀ c', (s1.caches c').slabs = (s.caches c').slabs + if c' = c then 1 else 0) :
    Core (link c p s1) (View.add v p c) lives ∧ Relinked s1 (link c p s1) := by
  have other : ∀ q ∈ s.pages, q ≠ p := fun q mem same => fresh (same ▸ mem)
  have outside : ∀ q ∈ s.pages, ∀ x, q ≤ x → x < q + 4096 → s1.memory x = s.memory x := by
    intro q mem x first last
    have := page_apart page (core.page q mem) (Ne.symm (other q mem))
    rw [memory]
    exact freshMemory_outside page c (by omega)
  have ok : ∀ q ∈ p :: s.pages, PageOk s1.memory q ((View.add v p c).classOf q)
      ((View.add v p c).freeOf q) (lives q) := by
    unfold View.add
    dsimp only
    refine forall_mem_cons.mpr ⟨?_, fun q mem => ?_⟩
    · rw [update_self, update_self, memory, none]
      exact freshMemory_ok page c
    rw [update_of_ne (other q mem), update_of_ne (other q mem)]
    exact (core.ok q mem).same_page (outside q mem)
  have lists : Lists s1 v.partials := core.lists.frame heads fun c' q mem x _ _ =>
    outside q ((core.members c' q).mp mem).1 x (by omega) (by omega)
  have linked : Relinked s1 (link c p s1) := link_relinked lists page
  have allPages : ∀ q ∈ p :: s.pages, Page q := forall_mem_cons.mpr ⟨page, core.page⟩
  have samePages : (link c p s1).pages = p :: s.pages := linked.pages.trans pages
  refine ⟨⟨?_, ?_, ?_, ?_, ?_, fun c' => ?_⟩, linked⟩
  · rw [samePages]
    exact allPages
  · rw [samePages]
    exact nodup_cons.mpr ⟨fresh, core.nodup⟩
  · rw [samePages]
    exact fun q mem => (ok q mem).relinked (allPages q mem) linked
  · exact link_lists lists page fun c' there => fresh ((core.members c' p).mp there).1
  · rw [samePages]
    exact add_members core fresh
  rw [linked.caches c', samePages]
  have rest : (s.pages.countP fun q => update v.classOf p c q == c') =
      s.pages.countP fun q => v.classOf q == c' :=
    countP_congr fun q mem => by rw [update_of_ne (other q mem)]
  have here : (update v.classOf p c p == c') = decide (c' = c) := by
    rw [update_self]
    exact decide_eq_decide.mpr eq_comm
  refine (slabs c').trans ?_
  unfold View.add
  rw [countP_cons, rest, ← core.slabs c', here]
  simp

def View.drop (v : View) (p : Nat) (c : Slab.Class) : View :=
  { v with partials := update v.partials c ((v.partials c).erase p) }

theorem drop_members (core : Core s v lives) (listed : p ∈ v.partials c) (c' : Slab.Class) (q : Nat) :
    q ∈ (View.drop v p c).partials c' ↔ q ∈ s.pages.erase p ∧ v.classOf q = c' ∧ v.freeOf q ≠ [] := by
  rw [core.nodup.mem_erase_iff, and_assoc, ← core.members]
  exact core.lists.mem_erase listed c' q

structure Dropped (s u s' : Slabs) (c : Slab.Class) (p : Nat) : Prop where
  pages : s'.pages = s.pages.erase p
  memory : s'.memory = (u.put p 0 0).memory
  heads : ∀ c', (s'.caches c').partialHead = (u.caches c').partialHead
  slabs : ∀ c', (s'.caches c').slabs = (s.caches c').slabs - if c' = c then 1 else 0
  inUse : ∀ c', (s'.caches c').inUse = (s.caches c').inUse

section
variable (core : Core s v lives)
include core

theorem Core.drop (listed : p ∈ v.partials c)
    (dropped : Dropped s (unlink c p s) s' c p) : Core s' (View.drop v p c) lives := by
  obtain ⟨mem, kind, -⟩ := (core.members c p).mp listed
  have page := core.page p mem
  have unlinked := unlink_relinked core.lists listed
  have still : ∀ q ∈ s.pages.erase p, q ∈ s.pages := fun q memQ => mem_of_mem_erase memQ
  have other : ∀ q ∈ s.pages.erase p, q ≠ p := fun q memQ same => core.nodup.not_mem_erase (same ▸ memQ)
  have outside : ∀ x, x < p ∨ p + 8 ≤ x → s'.memory x = (unlink c p s).memory x := by
    intro x apart
    rw [dropped.memory]
    exact store_apply_of_notMem (by omega)
  refine ⟨?_, ?_, ?_, ?_, ?_, fun c' => ?_⟩
  · rw [dropped.pages]
    exact fun q memQ => core.page q (still q memQ)
  · rw [dropped.pages]
    exact core.nodup.erase p
  · rw [dropped.pages]
    intro q memQ
    have ok := (core.ok q (still q memQ)).relinked (core.page q (still q memQ)) unlinked
    have apart := page_apart page (core.page q (still q memQ)) (Ne.symm (other q memQ))
    exact ok.same_page fun x first last => outside x (by omega)
  · have lists := unlink_lists core.lists listed
    refine lists.frame dropped.heads fun c' q memQ x first last => outside x ?_
    by_cases equal : p = q
    · omega
    have := page_apart page (lists.page c' q memQ) equal
    omega
  · rw [dropped.pages]
    exact drop_members core listed
  · rw [dropped.slabs, dropped.pages, core.slabs c', (perm_cons_erase mem).countP_eq, countP_cons]
    have here : (v.classOf p == c') = decide (c' = c) := by
      rw [kind]
      exact decide_eq_decide.mpr eq_comm
    change _ = (s.pages.erase p).countP fun q => v.classOf q == c'
    simp [here]

theorem wp_dropSlab (listed : p ∈ v.partials c) :
    wp (dropSlab c p) (fun _ s' => Dropped s (unlink c p s) s' c p)
      (fun e _ => e = .panic ∧ (1 ≤ (s.caches c).slabs → 2 ^ 64 ≤ (s.caches c).pagesReturned + 1)) s := by
  have relinked := unlink_relinked core.lists listed
  have nonnull := (core.page p ((core.members c p).mp listed).1).nonnull
  unfold dropSlab decrement increment setWord
  simp only [wp_bind, wp_modify, if_pos nonnull.ne', wp_get]
  generalize unlink c p s = u at relinked ⊢
  split
  · next _ =>
    split
    · next _ =>
      refine ⟨?_, rfl, setCache_field Cache.partialHead rfl, fun c' => ?_, fun c' => ?_⟩
      · exact congrArg (fun pages => pages.erase p) relinked.pages
      · rw [setCache_apply]
        split
        · next same =>
          rw [same, ← relinked.slabs]
          rfl
        · exact relinked.slabs c'
      · rw [← relinked.inUse]
        refine setCache_field Cache.inUse ?_ c'
        rfl
    · next full =>
      refine ⟨rfl, fun _ => ?_⟩
      have same : (u.caches c).pagesReturned = (s.caches c).pagesReturned := by rw [relinked.caches c]
      exact same ▸ Nat.le_of_not_lt full
  · next none => exact ⟨rfl, fun some_slab => absurd (relinked.slabs c ▸ some_slab) none⟩

theorem partials_length_le (c : Slab.Class) : (v.partials c).length ≤ s.pages.length :=
  (subperm_of_subset (core.lists.nodup c) fun p mem => ((core.members c p).mp mem).1).length_le

end

theorem spareFrom_eq {xs : List Nat} {turns slab count : Nat} (chain : Chain s.nextOf slab xs 0)
    (enough : xs.length ≤ turns) : spareFrom s turns slab count =
      some (count + xs.countP fun q => s.memory.load (q + usedOffset) == 0) := by
  induction xs generalizing turns slab count with
  | nil =>
    obtain rfl := chain_nil.mp chain
    cases turns <;> simp [spareFrom]
  | cons x xs ih =>
    obtain ⟨rfl, nonzero, rest⟩ := chain
    obtain ⟨turns, rfl⟩ := Nat.exists_eq_add_one_of_ne_zero (Nat.ne_of_gt (lt_of_lt_of_le
      (Nat.zero_lt_succ _) enough))
    unfold spareFrom
    rw [if_neg nonzero, ih rest (Nat.le_of_succ_le_succ enough), countP_cons]
    by_cases empty : s.memory.load (slab + usedOffset) = 0
    · simp [empty]
      omega
    · simp [empty]

theorem wp_spareCount (core : Core s v lives) (c : Slab.Class) {ok : Nat → Slabs → Prop}
    {err : Fault → Slabs → Prop} (h : ∀ count, ok count s) : wp (spareCount c) ok err s := by
  unfold spareCount
  simp only [wp_bind, wp_get, spareFrom_eq (core.lists.chain c).chain (partials_length_le core c), wp_pure]
  exact h _

structure Shrunk (s s' : Slabs) (v v' : View) (lives : Nat → List Nat) : Prop where
  inUse : ∀ c, (s'.caches c).inUse = (s.caches c).inUse
  classes : v'.classOf = v.classOf
  kept : ∀ p ∈ s.pages, lives p ≠ [] → p ∈ s'.pages

theorem Shrunk.refl (s : Slabs) (v : View) (lives : Nat → List Nat) : Shrunk s s v v lives :=
  ⟨fun _ => rfl, rfl, fun _ mem _ => mem⟩

theorem Shrunk.trans (h : Shrunk s s1 v v' lives) (h' : Shrunk s1 s' v' v'' lives) :
    Shrunk s s' v v'' lives :=
  ⟨fun c => (h'.inUse c).trans (h.inUse c), h'.classes.trans h.classes,
    fun p mem some_live => h'.kept p (h.kept p mem some_live) some_live⟩

theorem shrunk_drop (dropped : Dropped s s1 s' c p) (none : lives p = []) :
    Shrunk s s' v (View.drop v p c) lives := by
  refine ⟨dropped.inUse, rfl, fun q mem some_live => ?_⟩
  rw [dropped.pages]
  refine (mem_erase_of_ne ?_).mpr mem
  rintro rfl
  exact some_live none

def After (s : Slabs) (v : View) (lives : Nat → List Nat) (s' : Slabs) : Prop :=
  ∃ v', Core s' v' lives ∧ Shrunk s s' v v' lives

theorem wp_dropSpare (core : Core s v lives) (listed : p ∈ v.partials c) :
    wp (dropSpare c p) (fun _ s' => After s v lives s')
      (fun _ _ => 2 ^ 64 ≤ (s.caches c).pagesReturned + 1) s := by
  have stays : After s v lives s := ⟨v, core, Shrunk.refl s v lives⟩
  unfold dropSpare word
  simp only [wp_bind, wp_get, wp_pure]
  by_cases used : s.memory.load (p + usedOffset) = 0
  · have none : lives p = [] := by
      rw [(core.ok p ((core.members c p).mp listed).1).used] at used
      exact eq_nil_of_length_eq_zero used
    rw [if_pos used, wp_bind, wp_get]
    by_cases several : (s.caches c).slabs > 1
    · rw [if_pos several, wp_bind]
      refine wp_spareCount core c fun _ => ?_
      split
      · exact wp_mono (wp_dropSlab core listed)
          (fun _ s' dropped => ⟨_, core.drop listed dropped, shrunk_drop dropped none⟩)
          fun _ _ h => h.2 several.le
      · exact stays
    · rw [if_neg several, wp_pure]
      exact stays
  · rw [if_neg used, wp_pure]
    exact stays

theorem wp_reclaimFrom {xs ys : List Nat} {turns released : Nat} (core : Core s v lives)
    (split : v.partials c = ys ++ xs) (enough : xs.length ≤ turns) :
    wp (reclaimFrom c turns (xs.headD 0) released) (fun _ s' => After s v lives s')
      (fun e _ => e = .panic) s := by
  induction xs generalizing turns released s v ys with
  | nil =>
    have stays : After s v lives s := ⟨v, core, Shrunk.refl s v lives⟩
    cases turns with
    | zero => exact stays
    | succ turns => exact stays
  | cons x xs ih =>
    obtain ⟨turns, rfl⟩ := Nat.exists_eq_add_one_of_ne_zero (Nat.ne_of_gt (lt_of_lt_of_le
      (Nat.zero_lt_succ _) enough))
    have listed : x ∈ v.partials c := by simp [split]
    have mem := ((core.members c x).mp listed).1
    have nonzero : ¬ x = 0 := Nat.ne_of_gt (core.page x mem).nonnull
    have next : s.memory.load (x + nextOffset) = xs.headD 0 := by
      have chain := (core.lists.chain c).chain
      rw [split] at chain
      obtain ⟨b, -, -, -, rest⟩ := chain_append.mp chain
      exact rest.start_eq
    have few : xs.length ≤ turns := Nat.le_of_succ_le_succ enough
    rw [headD_cons]
    unfold reclaimFrom word
    simp only [if_neg nonzero, wp_bind, wp_get, wp_pure, next]
    by_cases used : s.memory.load (x + usedOffset) = 0
    · have none : lives x = [] := by
        rw [(core.ok x mem).used] at used
        exact eq_nil_of_length_eq_zero used
      rw [if_pos used, wp_bind]
      refine wp_mono (wp_dropSlab core listed) (fun _ _ dropped => ?_) fun _ _ h => h.1
      have shrunk := shrunk_drop (v := v) dropped none
      have split' : (View.drop v x c).partials c = ys ++ xs := by
        have nodup := core.lists.nodup c
        unfold View.drop
        dsimp only
        rw [update_self]
        rw [split] at nodup ⊢
        rw [erase_append_right _ fun there =>
          (nodup_append.mp nodup).2.2 x there x mem_cons_self rfl, erase_cons_head]
      refine wp_mono (ih (core.drop listed dropped) split' few) ?_ fun _ _ h => h
      rintro _ s' ⟨v', core', shrunk'⟩
      exact ⟨v', core', shrunk.trans shrunk'⟩
    · have split' : v.partials c = (ys ++ [x]) ++ xs := by simp [split]
      rw [if_neg used]
      exact ih core split' few

theorem wp_reclaimClasses (classes : List Slab.Class) (released : Nat) (core : Core s v lives) :
    wp (reclaimClasses classes released) (fun _ s' => After s v lives s') (fun e _ => e = .panic) s := by
  induction classes generalizing s v released with
  | nil => exact ⟨v, core, Shrunk.refl s v lives⟩
  | cons c classes ih =>
    have start := (core.lists.chain c).chain.start_eq
    unfold reclaimClasses
    simp only [wp_bind, wp_get]
    rw [start]
    refine wp_mono (wp_reclaimFrom core (nil_append _).symm (partials_length_le core c)) ?_ fun _ _ h => h
    rintro _ s1 ⟨v1, core1, shrunk1⟩
    refine wp_mono (ih _ core1) ?_ fun _ _ h => h
    rintro _ s2 ⟨v2, core2, shrunk2⟩
    exact ⟨v2, core2, shrunk1.trans shrunk2⟩

end AerOS.Proof.Slab
