import AerOS.Proof.Block.Through
import AerOS.Proof.Raid.Changes

namespace AerOS.Proof.Block
open AerOS.Block Lib Lib.Action Function
open AerOS.Raid (Volume Machine Run)
open Proof.Raid (Lies Spread lies_congr lies_functional lies_injective locate_lies locate_positive memberLength
  serves_of_failing usable_congr volume_congr working_update)

variable {E : Nat → Nat → Prop} {W : Controller → Nat → Prop} {σ σ' σ'' : State} {machine machine' : Machine Controller}
variable {index lba lba' offset slot want : Nat} {volume : Volume Controller} {member : Controller}

theorem Shaped.spread (shaped : Shaped machine volume) : Spread machine volume :=
  ⟨shaped.linear, shaped.stripe⟩

theorem home_spread (shaped : Shaped machine volume) (spread : volume.level ≠ .mirror) :
    home machine volume lba = some (member, offset) ↔
      lba < volume.sectors ∧ ∃ slot, Lies machine volume lba slot offset ∧ volume.members slot = some member := by
  unfold home
  split
  · constructor
    · intro none
      cases none
    · rintro ⟨_, -⟩
      omega
  have positive := @locate_positive _ machine volume lba 1 (Shaped.spread shaped) spread (by omega) (by omega)
  have lies := @locate_lies _ machine volume lba 1 (Shaped.spread shaped) spread 0 (by omega) positive
  dsimp only
  constructor
  · intro eq
    obtain ⟨_, there, pair⟩ := Option.map_eq_some_iff.mp eq
    cases pair
    exact ⟨by omega, _, lies, there⟩
  rintro ⟨-, slot, lies', there⟩
  obtain ⟨rfl, rfl⟩ := lies_functional (Shaped.spread shaped) spread lies lies'
  rw [there]
  rfl

theorem home_mirror (level : volume.level = .mirror) : home machine volume lba = some (member, offset) ↔
      lba < volume.sectors ∧ servingMember volume = some member ∧ offset = lba := by
  unfold home
  split
  · constructor
    · intro none
      cases none
    · rintro ⟨_, -⟩
      omega
  constructor
  · intro eq
    obtain ⟨_, there, pair⟩ := Option.map_eq_some_iff.mp eq
    cases pair
    exact ⟨by omega, there, rfl⟩
  · rintro ⟨-, there, rfl⟩
    rw [there]
    rfl

theorem serves_of_servingMember (serving : servingMember volume = some member) :
    ∃ slot, volume.Serves slot member := by
  obtain ⟨slot, first, there⟩ := Option.bind_eq_some_iff.mp serving
  have working := List.find?_some first
  have bound := List.mem_range.mp (List.mem_of_find?_eq_some first)
  exact ⟨slot, bound, by simpa using working, there⟩

def Carries (machine : Machine Controller) (index lba : Nat) (member : Controller) (offset : Nat) : Prop :=
  ∃ volume, machine.volume index = some volume ∧ lba < volume.sectors ∧
    ∃ slot < volume.count, volume.members slot = some member ∧ (volume.level = .mirror → offset = lba) ∧
      (volume.level ≠ .mirror → Lies machine volume lba slot offset)

structure Tabled (machine : Machine Controller) : Prop where
  exclusive : Raid.Exclusive machine
  shaped : ∀ index volume, machine.volume index = some volume → Shaped machine volume

section
variable (tabled : Tabled machine) (carries : Carries machine index lba member offset)
include tabled carries

theorem carries_unique {index' : Nat} (carries' : Carries machine index' lba' member offset) :
    index = index' ∧ lba = lba' := by
  obtain ⟨volume, found, -, slot, _, there, mirror, spread⟩ := carries
  obtain ⟨volume', found', -, slot', _, there', mirror', spread'⟩ := carries'
  have few := (tabled.shaped index volume found).few
  have few' := (tabled.shaped index' volume' found').few
  obtain ⟨rfl, rfl⟩ := tabled.exclusive member index slot index' slot' ⟨volume, found, by omega, there⟩
    ⟨volume', found', by omega, there'⟩
  obtain rfl : volume = volume' := Option.mem_unique found found'
  refine ⟨rfl, ?_⟩
  by_cases level : volume.level = .mirror
  · rw [← mirror level, ← mirror' level]
  · exact lies_injective level (spread level) (spread' level)

theorem carries_usable : offset < machine.usable member := by
  obtain ⟨volume, found, bound, slot, slotBound, there, mirror, spread⟩ := carries
  have shaped := tabled.shaped index volume found
  have length : memberLength machine volume slot = machine.usable member := by
    rw [memberLength, there]
    rfl
  cases level : volume.level with
  | mirror =>
    rw [mirror level]
    exact lt_of_lt_of_le bound ((shaped.mirror level slot slotBound).2 member there)
  | linear =>
    rw [← length]
    exact ((spread (by simp [level])).linear level).2
  | stripe =>
    rw [← length]
    exact ((spread (by simp [level])).stripe level).2

end

theorem carries_of_home (tabled : Tabled machine)
    (found : machine.volume index = some volume) (there : home machine volume lba = some (member, offset)) :
    Carries machine index lba member offset := by
  by_cases level : volume.level = .mirror
  · obtain ⟨bound, serving, offsetEq⟩ := (home_mirror level).mp there
    obtain ⟨slot, serves⟩ := serves_of_servingMember serving
    exact ⟨volume, found, bound, slot, serves.bound, serves.member, fun _ => offsetEq,
      fun spread => absurd level spread⟩
  · obtain ⟨bound, slot, lies, member⟩ := (home_spread (tabled.shaped index volume found) level).mp there
    exact ⟨volume, found, bound, slot, lies.bound, member, fun mirror => absurd mirror level, fun _ => lies⟩

structure Inv (E : Nat → Nat → Prop) (σ : State) : Prop where
  sound : Sound σ.cache
  disks : ∀ disk number run, Held σ.cache (.controller disk) number run → TrueCopy σ (.controller disk) number run
  volumes : ∀ index number run, Held σ.cache (.volume index) number run → ∀ k < maxRun,
    ¬ E index (number * maxRun + k) → run k = σ.sector (.volume index) (number * maxRun + k)
  tabled : Tabled σ.machine
  equal : ∀ index volume, σ.machine.volume index = some volume → volume.level = .mirror →
    ∀ slot member slot' member', volume.Serves slot member → volume.Serves slot' member' →
    ∀ lba < volume.sectors, ¬ E index lba →
      (σ.machine.disks member).data lba = (σ.machine.disks member').data lba

structure Kept (W : Controller → Nat → Prop) (σ σ' : State) : Prop where
  table : σ'.machine.volumes = σ.machine.volumes
  sizes : ∀ disk, (σ'.machine.disks disk).sectors = (σ.machine.disks disk).sectors
  data : ∀ disk sector, ¬ W disk sector →
    (σ'.machine.disks disk).data sector = (σ.machine.disks disk).data sector
  forgets : ∀ index number run, Held σ'.cache (.volume index) number run →
    Held σ.cache (.volume index) number run

theorem kept_refl (σ : State) : Kept W σ σ := ⟨rfl, fun _ => rfl, fun _ _ _ => rfl, fun _ _ _ held => held⟩

theorem kept_trans {W' : Controller → Nat → Prop} (first : Kept W σ σ') (second : Kept W' σ' σ'')
    (within : ∀ disk sector, W' disk sector → W disk sector) : Kept W σ σ'' where
  table := second.table.trans first.table
  sizes disk := (second.sizes disk).trans (first.sizes disk)
  data disk sector away :=
    (second.data disk sector fun inside => away (within disk sector inside)).trans (first.data disk sector away)
  forgets index number run held := first.forgets index number run (second.forgets index number run held)

section
variable (usable : machine'.usable = machine.usable) (shaped : Shaped machine volume)
include usable shaped

theorem shaped_congr : Shaped machine' volume := by
  refine ⟨shaped.few, ?_, ?_, ?_⟩
  · simpa only [usable] using shaped.linear
  · simpa only [usable] using shaped.stripe
  · simpa only [usable] using shaped.mirror

theorem home_congr (lba : Nat) : home machine' volume lba = home machine volume lba := by
  by_cases level : volume.level = .mirror
  · unfold home
    rw [if_pos level, if_pos level]
  apply Option.ext
  rintro ⟨_, _⟩
  rw [home_spread (shaped_congr usable shaped) level, home_spread shaped level]
  simp only [lies_congr usable]

end

theorem tabled_congr (table : machine'.volumes = machine.volumes) (usable : machine'.usable = machine.usable)
    (tabled : Tabled machine) : Tabled machine' := by
  have same := volume_congr table
  constructor
  · intro member index slot index' slot'
    simp only [Machine.Fills, same]
    exact tabled.exclusive member index slot index' slot'
  intro index volume found
  rw [same] at found
  exact shaped_congr usable (tabled.shaped index volume found)

theorem sector_none (nowhere : (σ.machine.volume index).bind (fun volume =>
    home σ.machine volume lba) = none) : σ.sector (.volume index) lba = Buffer.zero := by
  simp only [State.sector, nowhere]

theorem sector_home {member : Controller}
    (found : σ.machine.volume index = some volume) (there : home σ.machine volume lba = some (member, offset)) :
    σ.sector (.volume index) lba = (σ.machine.disks member).data offset := by
  simp only [State.sector, found, Option.bind_some, there]

theorem sector_kept (tabled : Tabled σ.machine) (kept : Kept W σ σ')
    (away : ∀ member offset, Carries σ.machine index lba member offset → ¬ W member offset) :
    σ'.sector (.volume index) lba = σ.sector (.volume index) lba := by
  have same := volume_congr kept.table index
  have usable := usable_congr kept.sizes
  cases found : σ.machine.volume index with
  | none =>
    rw [sector_none (by rw [same, found]; rfl), sector_none (by rw [found]; rfl)]
  | some volume =>
    have homes := home_congr usable (tabled.shaped index volume found) lba
    cases there : home σ.machine volume lba with
    | none =>
      rw [sector_none (by rw [same, found]; exact homes.trans there),
        sector_none (by rw [found]; exact there)]
    | some place =>
      obtain ⟨member, offset⟩ := place
      rw [sector_home found there, sector_home (same.trans found) (homes.trans there)]
      exact kept.data member offset (away member offset (carries_of_home tabled found there))

theorem carries_of_serves {member : Controller}
    (found : machine.volume index = some volume) (level : volume.level = .mirror) (bound : lba < volume.sectors)
    (serves : volume.Serves slot member) : Carries machine index lba member lba :=
  ⟨volume, found, bound, slot, serves.bound, serves.member, fun _ => rfl, fun spread => absurd level spread⟩

theorem inv_kept (inv : Inv E σ) (kept : Kept W σ σ') (sound : Sound σ'.cache)
    (disks : ∀ disk number run, Held σ'.cache (.controller disk) number run →
      TrueCopy σ' (.controller disk) number run)
    (covered : ∀ member offset, W member offset → ∀ index lba, Carries σ.machine index lba member offset →
      E index lba) : Inv E σ' := by
  have same := volume_congr kept.table
  refine ⟨sound, disks, ?_, tabled_congr kept.table (usable_congr kept.sizes) inv.tabled, ?_⟩
  · intro index number run held k bound quiet
    rw [inv.volumes index number run (kept.forgets index number run held) k bound quiet,
      sector_kept inv.tabled kept]
    intro member offset carries inside
    exact quiet (covered member offset inside index _ carries)
  intro index volume found level slot member slot' member' serves serves' lba bound quiet
  rw [same] at found
  have away : ∀ {slot member}, volume.Serves slot member → ¬ W member lba := fun serves inside =>
    quiet (covered _ _ inside index lba (carries_of_serves found level bound serves))
  rw [kept.data member lba (away serves), kept.data member' lba (away serves')]
  exact inv.equal index volume found level slot member slot' member' serves serves' lba bound quiet

theorem ensures_lift {α : Type} (x : Raid.Step Controller α) {post : α → State → Prop} :
    Ensures (lift x) σ post ↔ wp x (fun a machine => post a { σ with machine := machine }) (fun _ _ => True)
      σ.machine := by
  unfold Ensures wp lift
  rcases x σ.machine with ⟨a | e, machine⟩ <;> rfl

def Through (E : Nat → Nat → Prop) (W : Controller → Nat → Prop) (σ₀ σ : State) : Prop := Inv E σ ∧ Kept W σ₀ σ

variable {env : Env} {σ₀ : State} {member : Controller}

theorem through_stable : Stable (.controller member) (Through E W σ₀) where
  sound inv := inv.1.sound
  truthful inv held := inv.1.disks _ _ _ held
  recached := by
    rintro σ cache ⟨inv, kept⟩ sound copies
    have quiet : Kept (fun _ _ => False) σ { σ with cache := cache } := by
      refine ⟨rfl, fun _ => rfl, fun _ _ _ => rfl, fun _ number run held => ?_⟩
      rcases copies _ _ _ held with before | ⟨other, -⟩
      · exact before
      · cases other
    refine ⟨inv_kept inv quiet sound ?_ (fun _ _ never => never.elim),
      kept_trans kept quiet fun _ _ never => never.elim⟩
    intro disk number run held
    rcases copies _ _ _ held with before | ⟨same, copy⟩
    · exact inv.disks disk number run before
    cases same
    exact copy
  noted := by
    rintro σ _ _ ⟨inv, kept⟩
    exact ⟨⟨inv.sound, inv.disks, inv.volumes, inv.tabled, inv.equal⟩,
      ⟨kept.table, kept.sizes, kept.data, kept.forgets⟩⟩

theorem through_tick (through : Through E W σ₀ σ) : Through E W σ₀ { σ with machine := σ.machine.tick } := by
  obtain ⟨inv, kept⟩ := through
  have quiet : Kept (fun _ _ => False) σ { σ with machine := σ.machine.tick } :=
    ⟨rfl, fun _ => rfl, fun _ _ _ => rfl, fun _ _ _ held => held⟩
  exact ⟨inv_kept inv quiet inv.sound inv.disks (fun _ _ never => never.elim),
    kept_trans kept quiet fun _ _ never => never.elim⟩

theorem drivers_read : ReadsTrue (drivers env) (.controller member) (Through E W σ₀) := by
  intro σ lba count through
  change Ensures (lift (Raid.memberRead env.io member lba count)) σ _
  rw [ensures_lift]
  unfold Raid.memberRead
  simp only [wp_bind, wp_get, wp_modify]
  split
  · refine ⟨⟨through_tick through, rfl, fun run some _ _ => ?_⟩, fun _ _ held => held⟩
    cases some
    rfl
  · exact ⟨⟨through_tick through, rfl, fun run none => by cases none⟩, fun _ _ held => held⟩

theorem stored_data (machine : Machine Controller) (member : Controller) (lba count : Nat) (run : Run)
    (disk : Controller) (sector : Nat) : ((machine.store member lba count run).disks disk).data sector =
      if disk = member ∧ lba ≤ sector ∧ sector < lba + count then run (sector - lba)
      else (machine.disks disk).data sector := by
  by_cases same : disk = member
  · subst same
    simp [Raid.store_data]
  · simp [Raid.store_other same, same]

def Named (member : Controller) (lba count : Nat) (disk : Controller) (sector : Nat) : Prop :=
  disk = member ∧ lba ≤ sector ∧ sector < lba + count

theorem written_store (through : Through E W σ₀ σ)
    (covered : ∀ offset, W member offset → ∀ index lba, Carries σ₀.machine index lba member offset → E index lba)
    {count : Nat} (allowed : ∀ sector, lba ≤ sector → sector < lba + count → W member sector) (run : Run) :
    Written (Through E W σ₀) (.controller member) lba count
      { σ with machine := σ.machine.tick.store member lba count run } := by
  obtain ⟨inv, kept⟩ := through
  have data := stored_data σ.machine.tick member lba count run
  have sizes := fun disk => Raid.store_sectors σ.machine.tick member disk lba count run
  have changed : ∀ cache, (∀ index number page, Held cache (.volume index) number page →
      Held σ.cache (.volume index) number page) →
      Kept (Named member lba count) σ
        { σ with machine := σ.machine.tick.store member lba count run, cache := cache } := by
    intro cache forgets
    refine ⟨rfl, sizes, fun disk sector away => ?_, forgets⟩
    exact (data disk sector).trans (if_neg away)
  refine ⟨inv.sound, ?_, ?_⟩
  · intro number page held k bound outside
    rw [inv.disks member number page held k bound]
    symm
    exact (data member _).trans (if_neg fun inside => outside inside.2)
  intro cache sound copies
  have step := changed cache fun index number page held => by
    rcases copies _ _ _ held with ⟨-, before⟩ | ⟨other, -⟩
    · exact before
    · cases other
  refine ⟨inv_kept inv step sound ?_ ?_, kept_trans kept step ?_⟩
  · intro disk number page held
    rcases copies _ _ _ held with ⟨other, before⟩ | ⟨same, copy⟩
    · intro k bound
      rw [inv.disks disk number page before k bound]
      symm
      exact (data disk _).trans (if_neg fun inside => other (congrArg Disk.controller inside.1))
    · cases same
      exact copy
  · rintro disk offset ⟨rfl, low, high⟩ index lba' carries
    apply covered offset (allowed offset low high) index lba'
    obtain ⟨volume, found, rest⟩ := carries
    rw [volume_congr kept.table] at found
    simp only [lies_congr (usable_congr kept.sizes)] at rest
    exact ⟨volume, found, rest⟩
  · rintro disk sector ⟨rfl, low, high⟩
    exact allowed sector low high

theorem drivers_write
    (covered : ∀ offset, W member offset → ∀ index lba, Carries σ₀.machine index lba member offset → E index lba) :
    WritesTrue (drivers env) (.controller member) (Through E W σ₀) (W member) := by
  intro σ lba count data through allowed
  change Ensures (lift (Raid.memberWrite env.io member lba count data)) σ _
  rw [ensures_lift]
  unfold Raid.memberWrite
  simp only [wp_bind, wp_get, wp_modify]
  have elsewhere : ∀ run sector, ¬ (lba ≤ sector ∧ sector < lba + count) →
      ((σ.machine.tick.store member lba count run).disks member).data sector =
        (σ.machine.disks member).data sector := fun run sector away =>
    (stored_data σ.machine.tick member lba count run member sector).trans (if_neg fun inside => away inside.2)
  split
  · have tick := through_tick through
    refine ⟨⟨tick.1.sound, ?_, ?_⟩, fun _ _ => rfl, fun fine => by cases fine⟩
    · intro number page held k bound _
      exact tick.1.disks member number page held k bound
    intro _ sound copies
    apply through_stable.recached tick sound
    intro disk number page held
    rcases copies disk number page held with ⟨-, before⟩ | same
    · exact .inl before
    · exact .inr same
  · cases env.io.write σ.machine.transfers member lba with
    | done =>
      refine ⟨written_store through covered allowed data, elsewhere data, fun _ index bound => ?_⟩
      refine (stored_data σ.machine.tick member lba count data member _).trans ?_
      rw [if_pos ⟨rfl, by omega, by omega⟩, Nat.add_sub_cancel_left]
    | failed left =>
      exact ⟨written_store through covered allowed left, elsewhere left, fun fine => by cases fine⟩

theorem memberWrite_true (inv : Inv E σ) (lba count : Nat) (data : Run)
    (covered : ∀ offset, lba ≤ offset → offset < lba + count → ∀ index lba',
      Carries σ.machine index lba' member offset → E index lba') :
    Ensures (memberWrite env member lba count data) σ fun ok σ' => Inv E σ' ∧
      Kept (Named member lba count) σ σ' ∧
      (ok = true → ∀ index < count, (σ'.machine.disks member).data (lba + index) = data index) := by
  have start : Through E (Named member lba count) σ σ := ⟨inv, kept_refl σ⟩
  have writes := @drivers_write E (Named member lba count) env σ member
    fun offset inside => covered offset inside.2.1 inside.2.2
  apply ensures_mono (write_true through_stable writes lba count data
    (fun _ low high => ⟨rfl, low, high⟩) start)
  rintro ok σ' ⟨⟨inv', kept'⟩, landed⟩
  exact ⟨inv', kept', landed.data⟩

variable {volume' : Volume Controller}

def Header (machine : Machine Controller) (disk : Controller) (sector : Nat) : Prop :=
  (machine.disks disk).sectors = sector + 1

theorem header_bare (tabled : Tabled machine) {disk : Controller} {sector : Nat}
    (header : Header machine disk sector) : ¬ Carries machine index lba disk sector := by
  intro carries
  have below := carries_usable tabled carries
  unfold Machine.usable at below
  rw [header] at below
  omega

theorem ensures_forEach {α : Type} {xs : List α} {body : α → M Unit} {P : State → Prop}
    (step : ∀ x σ, P σ → Ensures (body x) σ fun _ σ' => P σ') (holds : P σ) :
    Ensures (forEach xs body) σ fun _ σ' => P σ' := by
  induction xs generalizing σ with
  | nil => exact holds
  | cons x xs ih =>
    apply ensures_then (step x σ holds)
    intro _ σ' holds'
    exact ih holds'

theorem persistSlot_true (volume : Volume Controller) (slot : Nat) (inv : Inv E σ) :
    Ensures (persistSlot env volume slot) σ fun _ σ' => Inv E σ' ∧ Kept (Header σ.machine) σ σ' := by
  apply ensures_ite
  · intro _
    exact ⟨inv, kept_refl σ⟩
  intro _
  cases volume.members slot with
  | none => exact ⟨inv, kept_refl σ⟩
  | some member =>
    apply ensures_ite
    · intro _
      exact ⟨inv, kept_refl σ⟩
    intro some
    have header : ∀ disk sector, Named member ((σ.machine.disks member).sectors - 1) 1 disk sector →
        Header σ.machine disk sector := by
      rintro disk sector ⟨rfl, low, high⟩
      unfold Header
      omega
    simp only [ensures_bind, ensures_pure]
    apply ensures_mono (memberWrite_true inv _ 1 _ ?_)
    · rintro ok σ' ⟨inv', kept', -⟩
      exact ⟨inv', kept_trans (kept_refl σ) kept' header⟩
    intro offset low high _ _ carries
    exact absurd carries (header_bare inv.tabled (header member offset ⟨rfl, low, high⟩))

theorem header_kept (kept : Kept W σ σ') : Header σ'.machine = Header σ.machine := by
  funext disk sector
  unfold Header
  rw [kept.sizes disk]

theorem persist_true (index : Nat) (inv : Inv E σ) :
    Ensures (persist env index) σ fun _ σ' => Inv E σ' ∧ Kept (Header σ.machine) σ σ' := by
  unfold persist
  simp only [ensures_bind, ensures_get]
  cases σ.machine.volume index with
  | none => exact ⟨inv, kept_refl σ⟩
  | some volume =>
    refine ensures_forEach ?_ ⟨inv, kept_refl σ⟩
    rintro slot σ₁ ⟨inv₁, kept₁⟩
    apply ensures_mono (persistSlot_true volume slot inv₁)
    rintro _ σ₂ ⟨inv₂, kept₂⟩
    rw [header_kept kept₁] at kept₂
    exact ⟨inv₂, kept_trans kept₁ kept₂ fun _ _ h => h⟩

def failing (volume : Volume Controller) (slot : Nat) : Volume Controller :=
  { volume with
    failed := update volume.failed slot true
    events := volume.events + 1 }

theorem shaped_failing (shaped : Shaped machine volume) : Shaped machine (failing volume slot) := by
  refine ⟨shaped.few, shaped.linear, shaped.stripe, ?_⟩
  intro level slot' bound
  obtain ⟨present, fits⟩ := shaped.mirror level slot' bound
  exact ⟨fun working => present (working_update.mp working).2, fits⟩

theorem servingMember_some (shaped : Shaped machine volume) (level : volume.level = .mirror) {slot : Nat}
    (bound : slot < volume.count) (working : volume.failed slot = false) :
    ∃ member, servingMember volume = some member := by
  have some : ((List.range volume.count).find? fun slot => !volume.failed slot).isSome := by
    rw [List.find?_isSome]
    exact ⟨slot, List.mem_range.mpr bound, by simp [working]⟩
  obtain ⟨first, found⟩ := Option.isSome_iff_exists.mp some
  have fits := List.mem_range.mp (List.mem_of_find?_eq_some found)
  have works := List.find?_some found
  obtain ⟨member, there⟩ := Option.ne_none_iff_exists'.mp ((shaped.mirror level first fits).1 (by simpa using works))
  exact ⟨member, by rw [servingMember, found]; exact there⟩

theorem sector_serves (inv : Inv E σ) (found : σ.machine.volume index = some volume)
    (level : volume.level = .mirror) (serves : volume.Serves slot member)
    (bound : lba < volume.sectors) (quiet : ¬ E index lba) :
    σ.sector (.volume index) lba = (σ.machine.disks member).data lba := by
  obtain ⟨first, serving⟩ := servingMember_some (inv.tabled.shaped index volume found) level serves.bound
    serves.working
  obtain ⟨slot', serves'⟩ := serves_of_servingMember serving
  rw [sector_home found ((home_mirror level).mpr ⟨bound, serving, rfl⟩)]
  exact inv.equal index volume found level slot' first slot member serves' serves lba bound quiet

theorem sector_beyond (found : σ.machine.volume index = some volume) (beyond : volume.sectors ≤ lba) :
    σ.sector (.volume index) lba = Buffer.zero := by
  apply sector_none
  rw [found]
  exact if_pos beyond

section
variable (found : σ.machine.volume index = some volume) (σ' : State)
  (eq : σ' = { σ with machine := σ.machine.put index (some (failing volume slot)) })
include found eq

theorem failing_volume (j : Nat) :
    σ'.machine.volume j = if j = index then some (failing volume slot) else σ.machine.volume j := by
  rw [eq]
  exact Raid.volume_put σ.machine (Raid.volume_bound found) _ j

theorem failing_fills (j slot' : Nat) (member' : Controller) :
    σ'.machine.Fills j slot' member' ↔ σ.machine.Fills j slot' member' := by
  have volumes := failing_volume found σ' eq j
  by_cases same : j = index
  · subst same
    rw [if_pos rfl] at volumes
    constructor
    · rintro ⟨volume', found', bound, there⟩
      cases volumes.symm.trans found'
      exact ⟨volume, found, bound, there⟩
    rintro ⟨volume', found', bound, there⟩
    cases found.symm.trans found'
    exact ⟨_, volumes, bound, there⟩
  · rw [if_neg same] at volumes
    simp only [Machine.Fills, volumes]

theorem failing_tabled (tabled : Tabled σ.machine) : Tabled σ'.machine := by
  have volumes := failing_volume found σ' eq
  have fills := failing_fills found σ' eq
  constructor
  · intro member' j slot' j' slot'' first second
    exact tabled.exclusive member' j slot' j' slot'' ((fills _ _ _).mp first) ((fills _ _ _).mp second)
  intro j volume' found'
  rw [volumes j] at found'
  have usable : σ'.machine.usable = σ.machine.usable := by rw [eq]; rfl
  by_cases same : j = index
  · rw [if_pos same] at found'
    cases found'
    exact shaped_congr usable (shaped_failing (tabled.shaped index volume found))
  · rw [if_neg same] at found'
    exact shaped_congr usable (tabled.shaped j volume' found')

section
variable (inv : Inv E σ) (level : volume.level = .mirror) (many : 1 < Raid.healthy volume)
include inv level many

theorem failing_sector
    (j lba : Nat) (quiet : ¬ E j lba) : σ'.sector (.volume j) lba = σ.sector (.volume j) lba := by
  have volumes := failing_volume found σ' eq
  have usable : σ'.machine.usable = σ.machine.usable := by rw [eq]; rfl
  have data : σ'.machine.disks = σ.machine.disks := by rw [eq]; rfl
  have shaped := inv.tabled.shaped index volume found
  by_cases same : j = index
  · subst same
    have found' : σ'.machine.volume j = some (failing volume slot) := by rw [volumes j, if_pos rfl]
    by_cases inside : lba < volume.sectors
    · obtain ⟨other, bound, apart, working⟩ := Raid.other_of_healthy many slot
      have works : (failing volume slot).failed other = false := (update_of_ne apart _ _).trans working
      obtain ⟨_, serving⟩ := servingMember_some (shaped_failing shaped) level bound works
      obtain ⟨_, serves'⟩ := serves_of_servingMember serving
      have mirrored : (failing volume slot).level = .mirror := level
      rw [sector_home found' ((home_mirror mirrored).mpr ⟨inside, serving, rfl⟩), data,
        sector_serves inv found level (serves_of_failing serves').2 inside quiet]
    · rw [sector_beyond found (by omega)]
      exact sector_beyond found' (by change volume.sectors ≤ lba; omega)
  · have found' : σ'.machine.volume j = σ.machine.volume j := by rw [volumes j, if_neg same]
    cases there : σ.machine.volume j with
    | none => rw [sector_none (by rw [found', there]; rfl), sector_none (by rw [there]; rfl)]
    | some other =>
      have homes := home_congr usable (inv.tabled.shaped j other there) lba
      simp only [State.sector, found', there, Option.bind_some, homes, data]

theorem failing_inv : Inv E σ' := by
  have volumes := failing_volume found σ' eq
  have data : σ'.machine.disks = σ.machine.disks := by rw [eq]; rfl
  have cache : σ'.cache = σ.cache := by rw [eq]
  refine ⟨cache ▸ inv.sound, ?_, ?_, failing_tabled found σ' eq inv.tabled, ?_⟩
  · intro disk number run held k bound
    rw [cache] at held
    rw [State.sector, data]
    exact inv.disks disk number run held k bound
  · intro j number run held k bound quiet
    rw [cache] at held
    rw [failing_sector found σ' eq inv level many j _ quiet]
    exact inv.volumes j number run held k bound quiet
  intro j volume' found' level' slot' member' slot'' member'' serves serves' lba bound quiet
  rw [volumes j] at found'
  rw [data]
  by_cases same : j = index
  · rw [if_pos same] at found'
    cases found'
    exact inv.equal j volume (same ▸ found) level slot' member' slot'' member'' (serves_of_failing serves).2
      (serves_of_failing serves').2 lba bound quiet
  · rw [if_neg same] at found'
    exact inv.equal j volume' found' level' slot' member' slot'' member'' serves serves' lba bound quiet

end

end

structure Marked (E : Nat → Nat → Prop) (index slot : Nat) (volume : Volume Controller) (σ σ' : State) : Prop where
  inv : Inv E σ'
  table : σ'.machine.volume index = some (if 1 < Raid.healthy volume then failing volume slot else volume)
  sizes : ∀ disk, (σ'.machine.disks disk).sectors = (σ.machine.disks disk).sectors
  data : ∀ disk sector, ¬ Header σ.machine disk sector →
    (σ'.machine.disks disk).data sector = (σ.machine.disks disk).data sector
  sectors : ∀ lba, ¬ E index lba → σ'.sector (.volume index) lba = σ.sector (.volume index) lba
  forgets : ∀ j number run, Held σ'.cache (.volume j) number run → Held σ.cache (.volume j) number run
  fills : ∀ j slot' member, σ'.machine.Fills j slot' member ↔ σ.machine.Fills j slot' member

theorem fills_kept (kept : Kept W σ σ') (j slot' : Nat) (member : Controller) :
    σ'.machine.Fills j slot' member ↔ σ.machine.Fills j slot' member := by
  simp only [Machine.Fills, volume_congr kept.table]

theorem markFailed_true (slot : Nat) (inv : Inv E σ) (found : σ.machine.volume index = some volume)
    (level : volume.level = .mirror) :
    Ensures (markFailed env index slot) σ fun _ σ' => Marked E index slot volume σ σ' := by
  unfold markFailed
  simp only [ensures_bind, ensures_get, found]
  apply ensures_ite
  · intro many
    apply ensures_ite
    · intro _
      rw [ensures_bind]
      change Ensures (persist env index)
        { σ with machine := σ.machine.put index (some (failing volume slot)) } _
      have inv₁ := failing_inv found { σ with machine := σ.machine.put index (some (failing volume slot)) } rfl inv
        level many
      have sectors := failing_sector found
        { σ with machine := σ.machine.put index (some (failing volume slot)) } rfl inv level many index
      apply ensures_mono (persist_true index inv₁)
      rintro _ σ₂ ⟨inv₂, kept₂⟩
      refine ⟨inv₂, ?_, kept₂.sizes, kept₂.data, fun lba quiet => ?_, kept₂.forgets, fun j _ _ => ?_⟩
      · rw [if_pos many, volume_congr kept₂.table, failing_volume found _ rfl, if_pos rfl]
      · rw [sector_kept inv₁.tabled kept₂ fun _ _ carries header => header_bare inv₁.tabled header carries]
        exact sectors lba quiet
      · rw [fills_kept kept₂, failing_fills found _ rfl]
    · intro _
      trivial
  · intro few
    exact ⟨inv, by rw [if_neg few]; exact found, fun _ => rfl, fun _ _ _ => rfl, fun _ _ => rfl,
      fun _ _ _ held => held, fun _ _ _ => Iff.rfl⟩

def Quiet : Nat → Nat → Prop := fun _ _ => False

def Moving (index lba count : Nat) : Nat → Nat → Prop := fun j sector =>
  j = index ∧ lba ≤ sector ∧ sector < lba + count

structure Same (volume volume' : Volume Controller) : Prop where
  level : volume'.level = volume.level
  members : volume'.members = volume.members
  count : volume'.count = volume.count
  sectors : volume'.sectors = volume.sectors

theorem ensures_memberFailed (found : σ.machine.volume index = some volume) {post : Bool → State → Prop} :
    Ensures (memberFailed index slot) σ post ↔ post (volume.failed slot) σ := by
  unfold memberFailed Raid.memberFailed
  rw [ensures_lift]
  simp only [wp_bind, wp_get, found]
  rfl

theorem same_marked (same : Same volume volume') (slot : Nat) :
    Same volume (if 1 < Raid.healthy volume' then failing volume' slot else volume') := by
  split
  · exact ⟨same.level, same.members, same.count, same.sectors⟩
  · exact same

structure Steady (E : Nat → Nat → Prop) (index : Nat) (moved : Nat → Prop) (σ σ' : State) : Prop where
  inv : Inv E σ'
  elsewhere : ∀ sector, ¬ moved sector → σ'.sector (.volume index) sector = σ.sector (.volume index) sector
  forgets : ∀ j number run, Held σ'.cache (.volume j) number run → Held σ.cache (.volume j) number run
  fills : ∀ j slot member, σ'.machine.Fills j slot member ↔ σ.machine.Fills j slot member

variable {moved : Nat → Prop}

theorem steady_refl (inv : Inv E σ) : Steady E index moved σ σ :=
  ⟨inv, fun _ _ => rfl, fun _ _ _ held => held, fun _ _ _ => Iff.rfl⟩

theorem steady_trans (first : Steady E index moved σ σ') (second : Steady E index moved σ' σ'') :
    Steady E index moved σ σ'' where
  inv := second.inv
  elsewhere sector away := (second.elsewhere sector away).trans (first.elsewhere sector away)
  forgets j number run held := first.forgets j number run (second.forgets j number run held)
  fills j slot member := (second.fills j slot member).trans (first.fills j slot member)

theorem steady_kept (before : Inv E σ) (inv : Inv E σ') (kept : Kept W σ σ')
    (away : ∀ sector member offset, ¬ moved sector → Carries σ.machine index sector member offset →
      ¬ W member offset) : Steady E index moved σ σ' where
  inv := inv
  elsewhere sector still := sector_kept before.tabled kept fun member offset => away sector member offset still
  forgets := kept.forgets
  fills := fills_kept kept

theorem steady_marked (marked : Marked E index slot volume σ σ') (within : ∀ sector, E index sector → moved sector) :
    Steady E index moved σ σ' where
  inv := marked.inv
  elsewhere sector away := marked.sectors sector fun inside => away (within sector inside)
  forgets := marked.forgets
  fills := marked.fills

theorem memberRead_true (inv : Inv E σ) (lba count : Nat) :
    Ensures (memberRead env member lba count) σ fun result σ' => Steady E index (fun _ => False) σ σ' ∧
      σ'.machine.volume index = σ.machine.volume index ∧
      ∀ run, result = some run → ∀ k < count, run k = (σ.machine.disks member).data (lba + k) := by
  have start : Through E (fun _ _ => False) σ σ := ⟨inv, kept_refl σ⟩
  apply ensures_mono (read_true through_stable drivers_read lba count start)
  rintro result σ' ⟨⟨inv', kept'⟩, same, data⟩
  refine ⟨steady_kept inv inv' kept' fun _ _ _ _ _ never => never, volume_congr kept'.table index,
    fun run some k bound => ?_⟩
  rw [data run some k bound, same]
  rfl

theorem mirrorRead_true (lba count : Nat) (slots : List Nat)
    (inv : Inv Quiet σ) (found : σ.machine.volume index = some volume') (same : Same volume volume')
    (level : volume.level = .mirror) (bounds : ∀ slot ∈ slots, slot < volume.count)
    (fits : lba + count ≤ volume.sectors) :
    Ensures (mirrorRead env index volume lba count slots) σ fun result σ' =>
      Steady Quiet index (fun _ => False) σ σ' ∧ ∀ run, result = some run → ∀ k < count,
        run k = σ'.sector (.volume index) (lba + k) := by
  induction slots generalizing σ volume' with
  | nil => exact ⟨steady_refl inv, fun run none => by cases none⟩
  | cons slot rest ih =>
    unfold mirrorRead
    rw [ensures_bind, ensures_memberFailed found]
    have later : ∀ slot ∈ rest, slot < volume.count := fun slot mem => bounds slot (List.mem_cons_of_mem _ mem)
    apply ensures_ite
    · intro _
      exact ih inv found same later
    intro working
    cases there : volume.members slot with
    | none => exact ih inv found same later
    | some member =>
      have serves : volume'.Serves slot member :=
        ⟨same.count ▸ bounds slot List.mem_cons_self, by simpa using working, same.members ▸ there⟩
      have level' := same.level.trans level
      apply ensures_then (memberRead_true inv lba count)
      rintro (_ | run) σ₁ ⟨steady₁, table₁, data⟩
      · apply ensures_then (markFailed_true slot steady₁.inv (table₁.trans found) level')
        intro _ σ₂ marked
        have steady₂ := steady_trans steady₁ (steady_marked marked fun _ never => never)
        apply ensures_mono (ih marked.inv marked.table (same_marked same slot) later)
        rintro result σ₃ ⟨steady₃, data₃⟩
        exact ⟨steady_trans steady₂ steady₃, data₃⟩
      · refine ⟨steady₁, fun _ some k bound => ?_⟩
        cases some
        rw [steady₁.elsewhere _ fun never => never, data run rfl k bound]
        exact (sector_serves inv found level' serves (by rw [same.sectors]; omega) fun never => never).symm

end AerOS.Proof.Block
