import AerOS.Spec.Block

namespace AerOS.Proof.Block
open AerOS.Block Function
open AerOS.Raid (Run)

structure Sound (cache : Cache) : Prop where
  placed : ∀ set way, (cache.pages set way).data.isSome →
    set = setOf (cache.pages set way).disk (cache.pages set way).number
  alone : ∀ set way way', (cache.pages set way).data.isSome → (cache.pages set way').data.isSome →
    (cache.pages set way).disk = (cache.pages set way').disk →
    (cache.pages set way).number = (cache.pages set way').number → way = way'
  resident : cache.resident = cache.cached.ncard
  limit : cache.limit = cachePages

def Held (cache : Cache) (disk : Disk) (number : Nat) (run : Run) : Prop :=
  ∃ set way, (cache.pages set way).data = some run ∧ (cache.pages set way).disk = disk ∧
    (cache.pages set way).number = number

variable {cache : Cache} {disk disk' : Disk} {number number' : Nat} {run : Run}
  {set set' : Fin sets} {way way' : Fin ways} {page : Page}

theorem mem_cached : (set, way) ∈ cache.cached ↔ (cache.pages set way).data.isSome := Iff.rfl

theorem sound_accounted (sound : Sound cache) : Accounted cache := by
  refine ⟨?_, sound.resident, ?_⟩
  · rintro ⟨set, way⟩ mem ⟨set', way'⟩ mem' sameDisk sameNumber
    have sameSet : set = set' := by
      rw [sound.placed set way mem, sound.placed set' way' mem', sameDisk, sameNumber]
    subst sameSet
    rw [sound.alone set way way' mem mem' sameDisk sameNumber]
  · rw [sound.limit, sound.resident]
    calc cache.cached.ncard ≤ Nat.card (Fin sets × Fin ways) := Set.ncard_le_card _
      _ = cachePages := by simp [cachePages]

theorem sound_empty : Sound Cache.empty := by
  have none : ∀ set way, (Cache.empty.pages set way).data = Option.none := fun _ _ => rfl
  refine ⟨?_, ?_, ?_, rfl⟩
  · intro set way some
    simp [none] at some
  · intro set way _ some
    simp [none] at some
  have empty : Cache.empty.cached = ∅ := by
    ext ⟨set, way⟩
    simp [mem_cached, none]
  rw [empty, Set.ncard_empty]
  rfl

theorem pages_put (cache : Cache) (set : Fin sets) (way : Fin ways) (page : Page) (set' : Fin sets)
    (way' : Fin ways) : (cache.put set way page).pages set' way' =
      if set' = set ∧ way' = way then page else cache.pages set' way' := by
  unfold Cache.put
  by_cases sameSet : set' = set
  · subst sameSet
    by_cases sameWay : way' = way <;> simp [sameWay]
  · simp [sameSet]

@[simp] theorem pages_put_self (cache : Cache) (set : Fin sets) (way : Fin ways) (page : Page) :
    (cache.put set way page).pages set way = page := by
  simp [pages_put]

theorem find_some (found : cache.find disk number = some (set, way)) :
    ∃ run, (cache.pages set way).data = some run ∧ (cache.pages set way).disk = disk ∧
      (cache.pages set way).number = number ∧ set = setOf disk number := by
  obtain ⟨_, first, pair⟩ := Option.map_eq_some_iff.mp found
  have holds := List.find?_some first
  cases pair
  simp only [Page.holds, Bool.and_eq_true, decide_eq_true_eq] at holds
  obtain ⟨run, data⟩ := Option.isSome_iff_exists.mp holds.1.1
  exact ⟨run, data, holds.1.2, holds.2, rfl⟩

theorem find_held (found : cache.find disk number = some (set, way)) :
    ∃ run, (cache.pages set way).data = some run ∧ Held cache disk number run := by
  obtain ⟨run, data, sameDisk, sameNumber, -⟩ := find_some found
  exact ⟨run, data, set, way, data, sameDisk, sameNumber⟩

theorem find_none (sound : Sound cache) (missing : cache.find disk number = none) :
    ¬ Held cache disk number run := by
  rintro ⟨set, way, data, rfl, rfl⟩
  have placed := sound.placed set way (by simp [data])
  have none := List.find?_eq_none.mp (Option.map_eq_none_iff.mp missing) way (List.mem_finRange way)
  rw [← placed] at none
  simp [Page.holds, data] at none

theorem held_of_put (held : Held (cache.put set way page) disk number run) :
    (page.data = some run ∧ page.disk = disk ∧ page.number = number) ∨ Held cache disk number run := by
  obtain ⟨set', way', data, sameDisk, sameNumber⟩ := held
  rw [pages_put] at data sameDisk sameNumber
  by_cases here : set' = set ∧ way' = way
  · rw [if_pos here] at data sameDisk sameNumber
    exact .inl ⟨data, sameDisk, sameNumber⟩
  rw [if_neg here] at data sameDisk sameNumber
  exact .inr ⟨set', way', data, sameDisk, sameNumber⟩

theorem held_put_full (sound : Sound cache) (full : (cache.pages set way).data.isSome)
    (held : Held (cache.put set way page) disk number run) :
    (page.data = some run ∧ page.disk = disk ∧ page.number = number) ∨ (Held cache disk number run ∧
        ¬ (disk = (cache.pages set way).disk ∧ number = (cache.pages set way).number)) := by
  obtain ⟨set', way', data, sameDisk, sameNumber⟩ := held
  rw [pages_put] at data sameDisk sameNumber
  by_cases here : set' = set ∧ way' = way
  · rw [if_pos here] at data sameDisk sameNumber
    exact .inl ⟨data, sameDisk, sameNumber⟩
  rw [if_neg here] at data sameDisk sameNumber
  refine .inr ⟨⟨set', way', data, sameDisk, sameNumber⟩, ?_⟩
  rintro ⟨rfl, rfl⟩
  have sameSet : set' = set := by
    rw [sound.placed set' way' (by simp [data]), sound.placed set way full, sameDisk, sameNumber]
  subst sameSet
  exact here ⟨rfl, sound.alone _ way' way (by simp [data]) full sameDisk sameNumber⟩

theorem cached_put_some (full : page.data.isSome) :
    (cache.put set way page).cached = insert (set, way) cache.cached := by
  ext ⟨set', way'⟩
  by_cases here : set' = set ∧ way' = way
  · simp [mem_cached, here, full]
  · simp [mem_cached, pages_put, here]

theorem cached_put_none (empty : page.data = none) :
    (cache.put set way page).cached = cache.cached \ {(set, way)} := by
  ext ⟨set', way'⟩
  by_cases here : set' = set ∧ way' = way
  · simp [mem_cached, here, empty]
  · simp [mem_cached, pages_put, here]

section
variable (sound : Sound cache)
include sound

theorem sound_put {resident : Nat} (placed : page.data.isSome → set = setOf page.disk page.number)
    (alone : page.data.isSome → ∀ way' ≠ way, (cache.pages set way').data.isSome →
      (cache.pages set way').disk = page.disk → (cache.pages set way').number ≠ page.number)
    (counted : resident = (cache.put set way page).cached.ncard) :
    Sound { cache.put set way page with resident := resident } := by
  refine ⟨?_, ?_, counted, sound.limit⟩
  · intro set' way' full
    change set' = setOf ((cache.put set way page).pages set' way').disk
      ((cache.put set way page).pages set' way').number
    rw [pages_put] at full ⊢
    by_cases here : set' = set ∧ way' = way
    · rw [if_pos here] at full ⊢
      exact here.1.trans (placed full)
    rw [if_neg here] at full ⊢
    exact sound.placed set' way' full
  intro set' way₁ way₂ full₁ full₂ sameDisk sameNumber
  change ((cache.put set way page).pages set' way₁).disk =
    ((cache.put set way page).pages set' way₂).disk at sameDisk
  change ((cache.put set way page).pages set' way₁).number =
    ((cache.put set way page).pages set' way₂).number at sameNumber
  by_cases same : way₁ = way₂
  · exact same
  rw [pages_put] at full₁ full₂ sameDisk sameNumber
  rw [pages_put] at sameDisk sameNumber
  by_cases here₁ : set' = set ∧ way₁ = way
  · have away : ¬ (set' = set ∧ way₂ = way) := fun here₂ => same (here₁.2.trans here₂.2.symm)
    rw [if_pos here₁] at full₁ sameDisk sameNumber
    rw [if_neg away] at full₂ sameDisk sameNumber
    obtain ⟨rfl, rfl⟩ := here₁
    exact absurd sameNumber.symm (alone full₁ way₂ (Ne.symm same) full₂ sameDisk.symm)
  by_cases here₂ : set' = set ∧ way₂ = way
  · rw [if_neg here₁] at full₁ sameDisk sameNumber
    rw [if_pos here₂] at full₂ sameDisk sameNumber
    obtain ⟨rfl, rfl⟩ := here₂
    exact absurd sameNumber (alone full₂ way₁ same full₁ sameDisk)
  · rw [if_neg here₁] at full₁ sameDisk sameNumber
    rw [if_neg here₂] at full₂ sameDisk sameNumber
    exact sound.alone set' way₁ way₂ full₁ full₂ sameDisk sameNumber

theorem sound_put_same (full : (cache.pages set way).data.isSome)
    (data : page.data.isSome) (sameDisk : page.disk = (cache.pages set way).disk)
    (sameNumber : page.number = (cache.pages set way).number) : Sound (cache.put set way page) := by
  have placed := sound.placed set way full
  apply @sound_put cache set way page sound cache.resident
  · intro _
    rw [sameDisk, sameNumber]
    exact placed
  · intro _ way' away full' diskEq numberEq
    exact away (sound.alone set way' way full' full (diskEq.trans sameDisk) (numberEq.trans sameNumber))
  · have mem : (set, way) ∈ cache.cached := full
    rw [cached_put_some data, Set.insert_eq_of_mem mem]
    exact sound.resident

theorem sound_tick : Sound cache.tick := ⟨sound.placed, sound.alone, sound.resident, sound.limit⟩

end

theorem sound_dropPage (sound : Sound cache) : Sound (cache.dropPage set way) := by
  unfold Cache.dropPage
  by_cases full : (cache.pages set way).data.isSome
  · rw [if_pos full]
    apply sound_put sound
    · intro some
      cases some
    · intro some
      cases some
    · have mem : (set, way) ∈ cache.cached := full
      rw [cached_put_none rfl, Set.ncard_sdiff_singleton_of_mem mem, sound.resident]
  · rw [if_neg full]
    exact sound

theorem held_dropPage (held : Held (cache.dropPage set way) disk number run) :
    Held cache disk number run := by
  unfold Cache.dropPage at held
  by_cases full : (cache.pages set way).data.isSome
  · rw [if_pos full] at held
    have split := @held_of_put cache disk number run set way { cache.pages set way with data := none } held
    rcases split with ⟨data, -, -⟩ | before
    · cases data
    · exact before
  · rwa [if_neg full] at held

theorem insert_put (cache : Cache) (disk : Disk) (number : Nat) (data : Run) :
    cache.insert disk number data = cache ∨ ∃ way resident, cache.insert disk number data =
          { cache.tick.put (setOf disk number) way ⟨disk, number, some data, cache.clock + 1⟩ with
            resident := resident } ∧
        resident = cache.resident + if (cache.pages (setOf disk number) way).data.isSome then 0 else 1 := by
  unfold Cache.insert
  dsimp only
  cases free : (List.finRange ways).find? fun way => (cache.pages (setOf disk number) way).data.isNone with
  | none =>
    right
    have full : (cache.pages (setOf disk number) (cache.victim (setOf disk number))).data.isSome := by
      have none := List.find?_eq_none.mp free (cache.victim (setOf disk number)) (List.mem_finRange _)
      simpa [Option.isSome_iff_ne_none] using none
    exact ⟨cache.victim (setOf disk number), cache.resident, rfl, by simp [full]⟩
  | some way =>
    by_cases room : cache.limit ≤ cache.resident
    · left
      exact if_pos room
    right
    have empty : (cache.pages (setOf disk number) way).data = none := by
      simpa using List.find?_some free
    exact ⟨way, cache.resident + 1, if_neg room, by simp [empty]⟩

theorem sound_insert (sound : Sound cache) {data : Run} (missing : ∀ run, ¬ Held cache disk number run) :
    Sound (cache.insert disk number data) := by
  rcases insert_put cache disk number data with same | ⟨way, resident, eq, counted⟩
  · rwa [same]
  rw [eq]
  apply sound_put (sound_tick sound)
  · intro _
    rfl
  · intro _ way' _ full sameDisk sameNumber
    obtain ⟨run, data⟩ := Option.isSome_iff_exists.mp full
    exact missing run ⟨setOf disk number, way', data, sameDisk, sameNumber⟩
  rw [cached_put_some rfl, counted]
  by_cases full : (cache.pages (setOf disk number) way).data.isSome
  · have mem : (setOf disk number, way) ∈ cache.tick.cached := full
    rw [if_pos full, Set.insert_eq_of_mem mem]
    exact sound.resident
  have notMem : (setOf disk number, way) ∉ cache.tick.cached := full
  rw [if_neg full, Set.ncard_insert_of_notMem notMem]
  exact congrArg (· + 1) sound.resident

theorem held_insert {data : Run} (held : Held (cache.insert disk number data) disk' number' run) :
    Held cache disk' number' run ∨ (disk' = disk ∧ number' = number ∧ run = data) := by
  rcases insert_put cache disk number data with same | ⟨way, _, eq, -⟩
  · rw [same] at held
    exact .inl held
  rw [eq] at held
  have split := @held_of_put cache.tick disk' number' run (setOf disk number) way
    ⟨disk, number, some data, cache.clock + 1⟩ held
  rcases split with ⟨dataEq, diskEq, numberEq⟩ | before
  · exact .inr ⟨diskEq.symm, numberEq.symm, (Option.some.inj dataEq).symm⟩
  · exact .inl before

structure Shrunk (cache cache' : Cache) : Prop where
  sound : Sound cache'
  held : ∀ disk number run, Held cache' disk number run → Held cache disk number run

theorem shrunk_refl (sound : Sound cache) : Shrunk cache cache := ⟨sound, fun _ _ _ held => held⟩

theorem shrunk_trans {cache' cache'' : Cache} (first : Shrunk cache cache') (second : Shrunk cache' cache'') :
    Shrunk cache cache'' :=
  ⟨second.sound, fun _ _ _ held => first.held _ _ _ (second.held _ _ _ held)⟩

theorem shrunk_touch (sound : Sound cache) (found : cache.find disk number = some (set, way)) :
    Shrunk cache (cache.touch set way) := by
  obtain ⟨_, data, -⟩ := find_held found
  have full : (cache.pages set way).data.isSome := by simp [data]
  refine ⟨sound_put_same (sound_tick sound) full full rfl rfl, fun _ _ _ held => ?_⟩
  rcases held_of_put held with ⟨data, sameDisk, sameNumber⟩ | before
  · exact ⟨set, way, data, sameDisk, sameNumber⟩
  · exact before

theorem shrunk_dropPage (sound : Sound cache) : Shrunk cache (cache.dropPage set way) :=
  ⟨sound_dropPage sound, fun _ _ _ held => held_dropPage held⟩

theorem shrunk_foldl {α : Type} {f : Cache → α → Cache}
    (step : ∀ cache x, Sound cache → Shrunk cache (f cache x)) (xs : List α) (sound : Sound cache) :
    Shrunk cache (xs.foldl f cache) := by
  induction xs generalizing cache with
  | nil => exact shrunk_refl sound
  | cons x xs ih => exact shrunk_trans (step cache x sound) (ih (step cache x sound).sound)

section
variable (sound : Sound cache)
include sound

theorem shrunk_invalidatePage (disk : Disk) (number : Nat) :
    Shrunk cache (cache.invalidatePage disk number) := by
  unfold Cache.invalidatePage
  cases cache.find disk number with
  | none => exact shrunk_refl sound
  | some _ => exact shrunk_dropPage sound

theorem not_held_invalidatePage : ¬ Held (cache.invalidatePage disk number) disk number run := by
  unfold Cache.invalidatePage
  cases found : cache.find disk number with
  | none => exact find_none sound found
  | some slot =>
    obtain ⟨_, way⟩ := slot
    obtain ⟨_, data, sameDisk, sameNumber, rfl⟩ := find_some found
    have full : (cache.pages (setOf disk number) way).data.isSome := by simp [data]
    intro held
    simp only [Cache.dropPage, full, if_true] at held
    have split := @held_put_full cache disk number run (setOf disk number) way
      { cache.pages (setOf disk number) way with data := none } sound full held
    rcases split with ⟨none, -, -⟩ | ⟨-, other⟩
    · cases none
    · exact other ⟨sameDisk.symm, sameNumber.symm⟩

theorem not_held_foldl_invalidatePage {numbers : List Nat} (mem : number ∈ numbers) :
    ¬ Held (numbers.foldl (Cache.invalidatePage disk) cache) disk number run := by
  induction numbers generalizing cache with
  | nil => cases mem
  | cons x xs ih =>
    have step := shrunk_invalidatePage sound disk x
    rcases List.mem_cons.mp mem with rfl | later
    · intro held
      have rest := shrunk_foldl (fun cache x sound => shrunk_invalidatePage sound disk x) xs step.sound
      exact not_held_invalidatePage sound (rest.held _ _ _ held)
    · exact ih step.sound later

theorem shrunk_invalidateDisk (disk : Disk) : Shrunk cache (cache.invalidateDisk disk) := by
  apply shrunk_foldl _ _ sound
  intro cache _ sound
  split
  · exact shrunk_dropPage sound
  · exact shrunk_refl sound

end

theorem shrunk_reclaimFrom (target turns released : Nat) (sound : Sound cache) :
    Shrunk cache (Cache.reclaimFrom target turns released cache).2 := by
  induction turns generalizing released cache with
  | zero => exact shrunk_refl sound
  | succ turns ih =>
    unfold Cache.reclaimFrom
    split
    · cases cache.oldest with
      | none => exact shrunk_refl sound
      | some slot =>
        have step := @shrunk_dropPage cache slot.1 slot.2 sound
        exact shrunk_trans step (ih (released + 1) step.sound)
    · exact shrunk_refl sound

def overlaid (number lba count : Nat) (data run : Run) : Run := fun k =>
  if lba ≤ number * maxRun + k ∧ number * maxRun + k < lba + count then data (number * maxRun + k - lba)
  else run k

structure Stored (cache cache' : Cache) (disk : Disk) (lba count : Nat) (data : Run) : Prop where
  sound : Sound cache'
  other : ∀ disk' number run, disk' ≠ disk → Held cache' disk' number run → Held cache disk' number run
  copies : ∀ number run', Held cache' disk number run' →
    ∃ run, Held cache disk number run ∧ ∀ k < maxRun, run' k = overlaid number lba count data run k

theorem stored_storeSector (sound : Sound cache) (disk : Disk) (lba index : Nat) (data : Run) :
    Stored cache (cache.storeSector disk lba data index) disk (lba + index) 1 (fun _ => data index) := by
  have untouched {number k : Nat} {run : Run} (away : number ≠ (lba + index) / maxRun) (bound : k < maxRun) :
      run k = overlaid number (lba + index) 1 (fun _ => data index) run k := by
    rw [overlaid, if_neg]
    simp only [maxRun] at bound away ⊢
    omega
  unfold Cache.storeSector
  dsimp only
  cases found : cache.find disk ((lba + index) / maxRun) with
  | none =>
    refine ⟨sound, fun _ _ _ _ held => held, fun number run' held => ⟨run', held, fun k => untouched ?_⟩⟩
    rintro rfl
    exact find_none sound found held
  | some slot =>
    obtain ⟨_, way⟩ := slot
    obtain ⟨run, full, sameDisk, sameNumber, rfl⟩ := find_some found
    have touched := shrunk_touch sound found
    have page : ((cache.touch (setOf disk ((lba + index) / maxRun)) way).pages
        (setOf disk ((lba + index) / maxRun)) way) =
        { cache.pages (setOf disk ((lba + index) / maxRun)) way with stamp := cache.clock + 1 } :=
      pages_put_self _ _ _ _
    dsimp only
    rw [page]
    refine ⟨?_, ?_, ?_⟩
    · apply sound_put_same touched.sound <;> simp [page, full]
    · intro _ number run' away held
      rcases held_of_put held with ⟨-, diskEq, -⟩ | before
      · exact absurd (diskEq.symm.trans sameDisk) away
      · exact touched.held _ _ _ before
    intro number run' held
    rcases held_put_full touched.sound (by simp [page, full]) held with
      ⟨data', -, numberEq⟩ | ⟨before, other⟩
    · refine ⟨run, ⟨_, way, full, sameDisk, numberEq⟩, fun k bound => ?_⟩
      have numberIs : number = (lba + index) / maxRun := numberEq.symm.trans sameNumber
      simp only [full, Option.map_some, Option.some.injEq] at data'
      rw [← data', overlaid, numberIs]
      by_cases here : k = (lba + index) % maxRun
      · have inside : lba + index ≤ (lba + index) / maxRun * maxRun + k ∧
            (lba + index) / maxRun * maxRun + k < lba + index + 1 := by
          simp only [maxRun] at here ⊢
          omega
        rw [if_pos inside, here, update_self]
      have outside : ¬ (lba + index ≤ (lba + index) / maxRun * maxRun + k ∧
          (lba + index) / maxRun * maxRun + k < lba + index + 1) := by
        simp only [maxRun] at bound here ⊢
        omega
      rw [if_neg outside, update_of_ne here]
    · refine ⟨run', touched.held _ _ _ before, fun k => untouched fun same => ?_⟩
      rw [page] at other
      exact other ⟨sameDisk.symm, same.trans sameNumber.symm⟩

theorem stored_store (sound : Sound cache) (disk : Disk) (lba count : Nat) (data : Run) :
    Stored cache (cache.store disk lba count data) disk lba count data := by
  unfold Cache.store
  induction count with
  | zero =>
    refine ⟨sound, fun _ _ _ _ held => held, fun number run held => ⟨run, held, fun k _ => ?_⟩⟩
    rw [overlaid, if_neg (by omega)]
  | succ count ih =>
    rw [List.range_succ, List.foldl_append, List.foldl_cons, List.foldl_nil]
    have step := stored_storeSector ih.sound disk lba count data
    refine ⟨step.sound, ?_, ?_⟩
    · intro disk' number run away held
      exact ih.other disk' number run away (step.other disk' number run away held)
    intro number run' held
    obtain ⟨middle, heldMiddle, last⟩ := step.copies number run' held
    obtain ⟨run, heldRun, before⟩ := ih.copies number middle heldMiddle
    refine ⟨run, heldRun, fun k bound => ?_⟩
    rw [last k bound, overlaid, before k bound, overlaid, overlaid]
    -- The last sector stored is the one that `count` alone leaves out.
    by_cases here : number * maxRun + k = lba + count
    · rw [if_pos (by omega), if_pos (by omega), here, Nat.add_sub_cancel_left]
    rw [if_neg (by omega)]
    by_cases inside : lba ≤ number * maxRun + k ∧ number * maxRun + k < lba + count
    · rw [if_pos inside, if_pos (by omega)]
    · rw [if_neg inside, if_neg (by omega)]

open Lib.Action

def Ensures {α : Type} (x : M α) (σ : State) (post : α → State → Prop) : Prop := wp x post (fun _ _ => True) σ

section
variable {α β : Type} {σ : State}

@[simp] theorem ensures_pure (a : α) {post : α → State → Prop} :
    Ensures (pure a : M α) σ post ↔ post a σ := Iff.rfl

@[simp] theorem ensures_bind (x : M α) (f : α → M β) {post : β → State → Prop} :
    Ensures (x >>= f) σ post ↔ Ensures x σ fun a σ' => Ensures (f a) σ' post := wp_bind x f

@[simp] theorem ensures_get {post : State → State → Prop} :
    Ensures (get : M State) σ post ↔ post σ σ := Iff.rfl

@[simp] theorem ensures_setCache (f : Cache → Cache) {post : Unit → State → Prop} :
    Ensures (setCache f) σ post ↔ post () { σ with cache := f σ.cache } := Iff.rfl

@[simp] theorem ensures_account (disk : Disk) (lba count : Nat) {post : Unit → State → Prop} :
    Ensures (account disk lba count) σ post ↔
      post () { σ with heads := update σ.heads disk.index (lba + count) } := Iff.rfl

@[simp] theorem ensures_pressureAllowsCaching (env : Env) {post : Bool → State → Prop} :
    Ensures (pressureAllowsCaching env) σ post ↔ post (env.calm σ.turn) { σ with turn := σ.turn + 1 } :=
  Iff.rfl

@[simp] theorem ensures_newPage (env : Env) {post : Bool → State → Prop} :
    Ensures (newPage env) σ post ↔ post (env.memory σ.turn) { σ with turn := σ.turn + 1 } := Iff.rfl

theorem ensures_mono {x : M α} {post post' : α → State → Prop} (h : Ensures x σ post)
    (weaker : ∀ a σ', post a σ' → post' a σ') : Ensures x σ post' :=
  wp_mono h weaker fun _ _ _ => trivial

theorem ensures_then {x : M α} {f : α → M β} {mid : α → State → Prop} {post : β → State → Prop} (h : Ensures x σ mid)
    (rest : ∀ a σ', mid a σ' → Ensures (f a) σ' post) : Ensures (x >>= f) σ post :=
  (ensures_bind x f).mpr (ensures_mono h rest)

theorem ensures_ite {p : Prop} [Decidable p] {x y : M α} {post : α → State → Prop}
    (yes : p → Ensures x σ post) (no : ¬ p → Ensures y σ post) : Ensures (if p then x else y) σ post := by
  by_cases h : p
  · rw [if_pos h]
    exact yes h
  rw [if_neg h]
  exact no h

end

def TrueCopy (σ : State) (disk : Disk) (number : Nat) (run : Run) : Prop :=
  ∀ k < maxRun, run k = σ.sector disk (number * maxRun + k)

structure Stable (disk : Disk) (I : State → Prop) : Prop where
  sound : ∀ {σ}, I σ → Sound σ.cache
  truthful : ∀ {σ number run}, I σ → Held σ.cache disk number run → TrueCopy σ disk number run
  recached : ∀ {σ cache}, I σ → Sound cache → (∀ disk' number run, Held cache disk' number run →
      Held σ.cache disk' number run ∨ disk' = disk ∧ TrueCopy σ disk number run) →
    I { σ with cache := cache }
  noted : ∀ {σ heads turn}, I σ → I { σ with heads := heads, turn := turn }

variable {env : Env} {device : Device} {disk : Disk} {I : State → Prop} {σ : State}

structure Read (I : State → Prop) (disk : Disk) (lba count : Nat) (σ : State) (result : Option Run)
    (σ' : State) : Prop where
  inv : I σ'
  same : σ'.sector disk = σ.sector disk
  data : ∀ run, result = some run → ∀ index < count, run index = σ'.sector disk (lba + index)

def ReadsTrue (device : Device) (disk : Disk) (I : State → Prop) : Prop :=
  ∀ σ lba count, I σ → Ensures (device.read disk lba count) σ fun result σ' =>
    Read I disk lba count σ result σ' ∧
      ∀ number run, Held σ'.cache disk number run → Held σ.cache disk number run

section
variable (stable : Stable disk I)
include stable

theorem stable_shrunk {cache : Cache} (inv : I σ) (shrunk : Shrunk σ.cache cache) :
    I { σ with cache := cache } :=
  stable.recached inv shrunk.sound fun _ _ _ held => .inl (shrunk.held _ _ _ held)

theorem stable_insert (inv : I σ) {number : Nat} {page : Run} {lastMiss : Nat → Nat}
    (missing : ∀ run, ¬ Held σ.cache disk number run) (copy : TrueCopy σ disk number page) :
    I { σ with cache := { σ.cache with lastMiss := lastMiss }.insert disk number page } := by
  have sound := stable.sound inv
  have sound' : Sound { σ.cache with lastMiss := lastMiss } :=
    ⟨sound.placed, sound.alone, sound.resident, sound.limit⟩
  apply stable.recached inv (sound_insert sound' missing)
  intro _ _ run held
  rcases held_insert held with before | ⟨diskEq, numberEq, runEq⟩
  · exact .inl before
  rw [numberEq, runEq]
  exact .inr ⟨diskEq, copy⟩

theorem readRun_true (reads : ReadsTrue device disk I) (lba count : Nat)
    (inv : I σ) : Ensures (readRun device disk lba count) σ fun result σ' =>
      Read I disk lba count σ result σ' ∧
        ∀ number run, Held σ'.cache disk number run → Held σ.cache disk number run := by
  unfold readRun
  apply ensures_mono (reads _ lba count (stable.noted inv))
  rintro result σ' ⟨read, kept⟩
  exact ⟨⟨read.inv, read.same, read.data⟩, kept⟩

end

theorem copy_of_read {number : Nat} {page : Run} {σ' : State}
    (read : Read I disk (number * maxRun) maxRun σ (some page) σ') : TrueCopy σ' disk number page :=
  read.data page rfl

section
variable (stable : Stable disk I)
include stable

theorem readAhead_true (reads : ReadsTrue device disk I) (number : Nat) (inv : I σ) :
    Ensures (readAhead env device disk number) σ fun _ σ' => I σ' ∧ σ'.sector disk = σ.sector disk := by
  have idle : I σ ∧ σ.sector disk = σ.sector disk := ⟨inv, rfl⟩
  have asked : ∀ turn, I { σ with turn := turn } ∧
      ({ σ with turn := turn } : State).sector disk = σ.sector disk := fun _ => ⟨stable.noted inv, rfl⟩
  unfold readAhead
  apply ensures_ite
  · intro _
    apply ensures_ite
    · intro _
      apply ensures_ite
      · intro missing
        apply ensures_ite
        · intro _
          apply ensures_then (readRun_true stable reads (number * maxRun) maxRun (stable.noted inv))
          rintro (_ | page) σ' ⟨read, kept⟩
          · exact ⟨read.inv, read.same⟩
          refine ⟨?_, read.same⟩
          have free : ∀ run, ¬ Held σ'.cache disk number run := fun run held =>
            find_none (stable.sound inv) (Option.isNone_iff_eq_none.mp missing) (kept number run held)
          exact stable_insert stable read.inv free (copy_of_read read)
        · intro _
          exact asked _
      · intro _
        exact asked _
    · intro _
      exact asked _
  · intro _
    exact idle

theorem wanted_true (number : Nat) (inv : I σ) :
    Ensures (wanted env disk number) σ fun _ σ' => I σ' ∧ σ'.sector disk = σ.sector disk ∧
      σ'.cache = σ.cache := by
  unfold wanted
  apply ensures_ite
  · intro _
    have asked := fun turn => @Stable.noted disk I stable σ σ.heads turn inv
    apply ensures_ite
    · intro _
      exact ⟨asked _, rfl, rfl⟩
    intro _
    exact ⟨asked _, rfl, rfl⟩
  · intro _
    exact ⟨inv, rfl, rfl⟩

section
variable (reads : ReadsTrue device disk I)
include reads

theorem loadPage_true (number : Nat) (inv : I σ) (missing : σ.cache.find disk number = none) :
    Ensures (loadPage env device disk number) σ fun result σ' => I σ' ∧
      σ'.sector disk = σ.sector disk ∧ ∀ page, result = some page → TrueCopy σ' disk number page := by
  apply ensures_then (readRun_true stable reads (number * maxRun) maxRun inv)
  rintro (_ | page) σ₁ ⟨read, kept⟩
  · exact ⟨read.inv, read.same, fun page none => by cases none⟩
  have free : ∀ run, ¬ Held σ₁.cache disk number run := fun run held =>
    find_none (stable.sound inv) missing (kept number run held)
  have copy := copy_of_read read
  have inv₂ := fun lastMiss => @stable_insert disk I σ₁ stable read.inv number page lastMiss free copy
  apply ensures_ite
  · intro _
    apply ensures_then (readAhead_true stable reads (number + 1) (inv₂ _))
    rintro - σ₃ ⟨inv₃, same₃⟩
    refine ⟨inv₃, same₃.trans read.same, fun page' some => ?_⟩
    cases some
    rw [TrueCopy, same₃]
    exact copy
  · intro _
    refine ⟨inv₂ _, read.same, fun page' some => ?_⟩
    cases some
    exact copy

theorem readPagePart_true (number within take : Nat) (fits : within + take ≤ maxRun) (inv : I σ) :
    Ensures (readPagePart env device disk number within take) σ
      (Read I disk (number * maxRun + within) take σ) := by
  unfold readPagePart
  simp only [ensures_bind, ensures_get]
  cases found : σ.cache.find disk number with
  | some _ =>
    obtain ⟨_, data, held⟩ := find_held found
    simp only [ensures_bind, ensures_setCache, ensures_pure, data, Option.getD_some]
    refine ⟨stable_shrunk stable inv (shrunk_touch (stable.sound inv) found), rfl, ?_⟩
    intro part some index bound
    cases some
    rw [Nat.add_assoc]
    exact stable.truthful inv held (within + index) (by omega)
  | none =>
    apply ensures_then (wanted_true stable number inv)
    rintro _ σ₁ ⟨inv₁, same₁, cache₁⟩
    apply ensures_ite
    · intro _
      apply ensures_then (loadPage_true stable reads number inv₁ (by rw [cache₁]; exact found))
      rintro (_ | page) σ₂ ⟨inv₂, same₂, copy⟩
      · exact ⟨inv₂, same₂.trans same₁, fun _ none => by cases none⟩
      refine ⟨inv₂, same₂.trans same₁, fun part some index bound => ?_⟩
      cases some
      rw [Nat.add_assoc]
      exact copy page rfl (within + index) (by omega)
    · intro _
      apply ensures_mono (readRun_true stable reads (number * maxRun + within) take inv₁)
      rintro _ σ₂ ⟨read, -⟩
      exact ⟨read.inv, read.same.trans same₁, read.data⟩

theorem readFrom_true (turns sector left : Nat) (enough : left ≤ turns) (inv : I σ) :
    Ensures (readFrom env device disk turns sector left) σ (Read I disk sector left σ) := by
  induction turns generalizing sector left σ with
  | zero =>
    refine ⟨inv, rfl, fun _ _ index bound => ?_⟩
    omega
  | succ turns ih =>
    apply ensures_ite
    · intro _
      refine ⟨inv, rfl, fun _ _ index bound => ?_⟩
      omega
    intro _
    simp only [ensures_bind]
    have part := Nat.div_add_mod' sector maxRun
    have small : sector % maxRun < maxRun := Nat.mod_lt _ (by decide)
    have first := @readPagePart_true env device disk I σ stable reads (sector / maxRun) (sector % maxRun)
      (min left (maxRun - sector % maxRun)) (by omega) inv
    rw [part] at first
    apply ensures_mono first
    rintro (_ | head) σ₁ read
    · exact ⟨read.inv, read.same, fun _ none => by cases none⟩
    simp only [ensures_bind]
    have next := ih (sector + min left (maxRun - sector % maxRun))
      (left - min left (maxRun - sector % maxRun)) (by omega) read.inv
    apply ensures_mono next
    rintro (_ | rest) σ₂ readRest
    · exact ⟨readRest.inv, readRest.same.trans read.same, fun _ none => by cases none⟩
    refine ⟨readRest.inv, readRest.same.trans read.same, fun _ some index bound => ?_⟩
    cases some
    dsimp only
    by_cases early : index < min left (maxRun - sector % maxRun)
    · rw [if_pos early, read.data head rfl index early, readRest.same]
    rw [if_neg early, readRest.data rest rfl _ (by omega)]
    congr 1
    omega

theorem read_true (lba count : Nat) (inv : I σ) :
    Ensures (AerOS.Block.read env device disk lba count) σ (Read I disk lba count σ) :=
  readFrom_true stable reads count lba count le_rfl inv

end

end

structure Written (I : State → Prop) (disk : Disk) (lba count : Nat) (σ : State) : Prop where
  sound : Sound σ.cache
  outside : ∀ number run, Held σ.cache disk number run → ∀ k < maxRun,
    ¬ (lba ≤ number * maxRun + k ∧ number * maxRun + k < lba + count) →
    run k = σ.sector disk (number * maxRun + k)
  mended : ∀ cache, Sound cache → (∀ disk' number run, Held cache disk' number run →
      disk' ≠ disk ∧ Held σ.cache disk' number run ∨ disk' = disk ∧ TrueCopy σ disk number run) →
    I { σ with cache := cache }

structure Landed (disk : Disk) (lba count : Nat) (data : Run) (σ : State) (ok : Bool) (σ' : State) :
    Prop where
  elsewhere : ∀ sector, ¬ (lba ≤ sector ∧ sector < lba + count) → σ'.sector disk sector = σ.sector disk sector
  data : ok = true → ∀ index < count, σ'.sector disk (lba + index) = data index

def WritesTrue (device : Device) (disk : Disk) (I : State → Prop) (safe : Nat → Prop) : Prop :=
  ∀ σ lba count data, I σ → (∀ sector, lba ≤ sector → sector < lba + count → safe sector) →
    Ensures (device.write disk lba count data) σ fun ok σ' =>
      Written I disk lba count σ' ∧ Landed disk lba count data σ ok σ'

variable {safe : Nat → Prop}

theorem inv_of_store {lba count : Nat} {data : Run} (written : Written I disk lba count σ)
    (there : ∀ index < count, σ.sector disk (lba + index) = data index) :
    I { σ with cache := σ.cache.store disk lba count data } := by
  have stored := stored_store written.sound disk lba count data
  apply written.mended _ stored.sound
  intro disk' number run' held
  by_cases same : disk' = disk
  · subst same
    obtain ⟨run, before, overlay⟩ := stored.copies number run' held
    refine .inr ⟨rfl, fun k bound => ?_⟩
    rw [overlay k bound, overlaid]
    by_cases inside : lba ≤ number * maxRun + k ∧ number * maxRun + k < lba + count
    · rw [if_pos inside, ← there _ (by omega), Nat.add_sub_cancel' inside.1]
    rw [if_neg inside]
    exact written.outside number run before k bound inside
  · exact .inl ⟨same, stored.other disk' number run' same held⟩

theorem inv_of_invalidate {lba count : Nat} (written : Written I disk lba count σ) :
    I { σ with cache := σ.cache.invalidate disk lba count } := by
  have shrunk : Shrunk _ (σ.cache.invalidate disk lba count) :=
    shrunk_foldl (fun _ x sound => shrunk_invalidatePage sound disk x) _ written.sound
  apply written.mended _ shrunk.sound
  intro disk' number run held
  have before := shrunk.held disk' number run held
  by_cases same : disk' = disk
  · subst same
    refine .inr ⟨rfl, fun k bound => ?_⟩
    by_cases inside : lba ≤ number * maxRun + k ∧ number * maxRun + k < lba + count
    · refine absurd held (not_held_foldl_invalidatePage written.sound ?_)
      rw [List.mem_range'_1]
      simp only [maxRun] at bound inside ⊢
      omega
    · exact written.outside number run before k bound inside
  · exact .inl ⟨same, before⟩

section
variable (stable : Stable disk I) (writes : WritesTrue device disk I safe)
include stable writes

theorem writeRun_true (lba count : Nat)
    (data : Run) (allowed : ∀ sector, lba ≤ sector → sector < lba + count → safe sector) (inv : I σ) :
    Ensures (writeRun device disk lba count data) σ fun ok σ' =>
      I σ' ∧ Landed disk lba count data σ ok σ' := by
  unfold writeRun
  simp only [ensures_bind, ensures_account, ensures_setCache, ensures_pure]
  apply ensures_mono (writes _ lba count data (stable.noted inv) allowed)
  rintro ok σ' ⟨written, landed⟩
  refine ⟨?_, landed.elsewhere, landed.data⟩
  cases ok with
  | true => exact inv_of_store written (landed.data rfl)
  | false => exact inv_of_invalidate written

theorem writeFrom_true (turns lba left : Nat) (data : Run) (enough : left ≤ turns)
    (allowed : ∀ sector, lba ≤ sector → sector < lba + left → safe sector) (inv : I σ) :
    Ensures (writeFrom device disk turns lba left data) σ fun ok σ' =>
      I σ' ∧ Landed disk lba left data σ ok σ' := by
  induction turns generalizing lba left data σ with
  | zero =>
    refine ⟨inv, fun _ _ => rfl, fun _ index bound => ?_⟩
    omega
  | succ turns ih =>
    apply ensures_ite
    · intro _
      refine ⟨inv, fun _ _ => rfl, fun _ index bound => ?_⟩
      omega
    intro _
    simp only [ensures_bind]
    have piece : min left maxRun ≤ left ∧ 0 < min left maxRun := by
      simp only [maxRun]
      omega
    apply ensures_mono (writeRun_true stable writes lba (min left maxRun) data
      (fun sector low high => allowed sector low (by omega)) inv)
    rintro ok σ₁ ⟨inv₁, first⟩
    apply ensures_ite
    · intro fine
      apply ensures_mono (ih (lba + min left maxRun) (left - min left maxRun)
        (fun index => data (min left maxRun + index)) (by omega)
        (fun sector low high => allowed sector (by omega) (by omega)) inv₁)
      rintro _ σ₂ ⟨inv₂, rest⟩
      refine ⟨inv₂, fun sector away => ?_, fun fine' index bound => ?_⟩
      · rw [rest.elsewhere sector (by omega), first.elsewhere sector (by omega)]
      by_cases early : index < min left maxRun
      · rw [rest.elsewhere _ (by omega), first.data fine index early]
      have last := rest.data fine' (index - min left maxRun) (by omega)
      rw [show lba + min left maxRun + (index - min left maxRun) = lba + index by omega] at last
      rw [last, Nat.add_sub_cancel' (by omega)]
    · intro _
      refine ⟨inv₁, fun sector away => first.elsewhere sector (by omega), fun fine => ?_⟩
      cases fine

theorem write_true (lba count : Nat)
    (data : Run) (allowed : ∀ sector, lba ≤ sector → sector < lba + count → safe sector) (inv : I σ) :
    Ensures (AerOS.Block.write device disk lba count data) σ fun ok σ' =>
      I σ' ∧ Landed disk lba count data σ ok σ' :=
  writeFrom_true stable writes count lba count data le_rfl allowed inv

end

end AerOS.Proof.Block
