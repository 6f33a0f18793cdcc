import AerOS.Proof.Block.Volumes

namespace AerOS.Proof.Block
open AerOS.Block Function
open AerOS.Raid (Volume Machine Run)
open Proof.Raid (serves_of_failing usable_congr volume_congr working_update)

variable {E : Nat → Nat → Prop} {σ σ' σ'' : State} {env : Env} {member : Controller}
  {volume volume' : Volume Controller} {index slot lba count : Nat} {data : Run}
variable {member' : Controller} {sector slot' : Nat}

def Has (σ : State) (lba count : Nat) (data : Run) (member : Controller) : Prop :=
  ∀ k < count, (σ.machine.disks member).data (lba + k) = data k

def Alone (volume : Volume Controller) (slot : Nat) : Prop :=
  ∀ slot' < volume.count, volume.failed slot' = false → slot' = slot

structure Copied (σ : State) (volume : Volume Controller) (lba count : Nat) (data : Run) (rest : List Nat)
    (wrote : Bool) : Prop where
  done : ∀ slot member, volume.Serves slot member → slot ∉ rest → Has σ lba count data member ∨ Alone volume slot
  wrote : wrote = true → ∃ slot member, volume.Serves slot member ∧ slot ∉ rest ∧ Has σ lba count data member

theorem copied_skip {rest : List Nat} {wrote : Bool} (copied : Copied σ volume lba count data (slot :: rest) wrote)
    (idle : ∀ member, ¬ volume.Serves slot member) : Copied σ volume lba count data rest wrote := by
  constructor
  · intro slot' member serves notMem
    apply copied.done slot' member serves
    rw [List.mem_cons, not_or]
    refine ⟨?_, notMem⟩
    rintro rfl
    exact idle member serves
  · intro some
    obtain ⟨slot', member, serves, notMem, has⟩ := copied.wrote some
    exact ⟨slot', member, serves, fun mem => notMem (List.mem_cons_of_mem _ mem), has⟩

theorem has_kept {W : Controller → Nat → Prop} (kept : Kept W σ σ') (has : Has σ lba count data member)
    (away : ∀ k < count, ¬ W member (lba + k)) : Has σ' lba count data member := by
  intro k bound
  rw [kept.data member (lba + k) (away k bound)]
  exact has k bound

theorem serves_apart (inv : Inv E σ) (found : σ.machine.volume index = some volume)
    (serves : volume.Serves slot member) (serves' : volume.Serves slot' member')
    (apart : slot' ≠ slot) : member' ≠ member := by
  rintro rfl
  have few := (inv.tabled.shaped index volume found).few
  have bound := serves.bound
  have bound' := serves'.bound
  exact apart (inv.tabled.exclusive member' index slot' index slot ⟨volume, found, by omega, serves'.member⟩
    ⟨volume, found, by omega, serves.member⟩).2

theorem not_header {machine : Machine Controller} (below : sector < machine.usable member) :
    ¬ Header machine member sector := by
  intro header
  unfold Machine.usable at below
  rw [header] at below
  omega

section
variable {rest : List Nat} {wrote : Bool}
  (inv : Inv E σ) (found : σ.machine.volume index = some volume) (serves : volume.Serves slot member)
  (copied : Copied σ volume lba count data (slot :: rest) wrote) (kept : Kept (Named member lba count) σ σ')
include inv found serves copied kept

theorem copied_elsewhere (serves' : volume.Serves slot' member')
    (apart : slot' ≠ slot) (notMem : slot' ∉ rest) : Has σ' lba count data member' ∨ Alone volume slot' := by
  have other := serves_apart inv found serves serves' apart
  rcases copied.done slot' member' serves' (by simp [apart, notMem]) with has | alone
  · exact .inl (has_kept kept has fun k _ named => other named.1)
  · exact .inr alone

theorem copied_wrote (some : wrote = true) : ∃ slot' member', volume.Serves slot' member' ∧ slot' ≠ slot ∧
    slot' ∉ rest ∧ Has σ' lba count data member' := by
  obtain ⟨slot', member', serves', notMem, has⟩ := copied.wrote some
  rw [List.mem_cons, not_or] at notMem
  have other := serves_apart inv found serves serves' notMem.1
  exact ⟨slot', member', serves', notMem.1, notMem.2, has_kept kept has fun k _ named => other named.1⟩

theorem copied_ok (has : Has σ' lba count data member) (notMem : slot ∉ rest) :
    Copied σ' volume lba count data rest true := by
  constructor
  · intro slot' _ serves' notMem'
    by_cases apart : slot' = slot
    · subst apart
      cases serves.member.symm.trans serves'.member
      exact .inl has
    · exact copied_elsewhere inv found serves copied kept serves' apart notMem'
  · intro _
    exact ⟨slot, member, serves, notMem, has⟩

theorem copied_failed (level : volume.level = .mirror) (fits : lba + count ≤ volume.sectors)
    (marked : Marked E index slot volume σ' σ'') :
    Copied σ'' (if 1 < Raid.healthy volume then failing volume slot else volume) lba count data rest wrote := by
  by_cases many : 1 < Raid.healthy volume
  · rw [if_pos many]
    have still : ∀ {slot' member'}, volume.Serves slot' member' → Has σ' lba count data member' →
        Has σ'' lba count data member' := by
      intro slot' member' serves' has k bound
      have below := ((inv.tabled.shaped index volume found).mirror level slot' serves'.bound).2 member' serves'.member
      rw [marked.data member' (lba + k)]
      · exact has k bound
      rw [header_kept kept]
      exact not_header (by omega)
    constructor
    · intro slot' member' serves' notMem
      obtain ⟨apart, before⟩ := serves_of_failing serves'
      rcases copied_elsewhere inv found serves copied kept before apart notMem with has | alone
      · exact .inl (still before has)
      exact .inr fun slot'' bound working => alone slot'' bound (working_update.mp working).2
    · intro some
      obtain ⟨slot', member', serves', apart, notMem, has⟩ := copied_wrote inv found serves copied kept some
      exact ⟨slot', member', ⟨serves'.bound, (update_of_ne apart _ _).trans serves'.working, serves'.member⟩, notMem,
        still serves' has⟩
  · -- The last copy stays in service, so it is the only one, and nothing has been written before it.
    rw [if_neg many]
    have only : ∀ {slot' member'}, volume.Serves slot' member' → slot' = slot := fun serves' =>
      Raid.alone_of_healthy (not_lt.mp many) serves'.bound serves.bound serves'.working serves.working
    constructor
    · intro slot' member' serves' _
      refine .inr fun slot'' bound working => ?_
      exact Raid.alone_of_healthy (not_lt.mp many) bound serves'.bound working serves'.working
    intro some
    obtain ⟨slot', member', serves', apart, -, -⟩ := copied_wrote inv found serves copied kept some
    exact absurd (only serves') apart

end

theorem mirrorWrite_true (slots : List Nat) (wrote : Bool) (inv : Inv (Moving index lba count) σ)
    (found : σ.machine.volume index = some volume') (same : Same volume volume') (level : volume.level = .mirror)
    (bounds : ∀ slot ∈ slots, slot < volume.count) (nodup : slots.Nodup) (fits : lba + count ≤ volume.sectors)
    (copied : Copied σ volume' lba count data slots wrote) :
    Ensures (mirrorWrite env index volume lba count data slots wrote) σ fun ok σ' =>
      Steady (Moving index lba count) index (Moving index lba count index) σ σ' ∧
        ∃ volume'', σ'.machine.volume index = some volume'' ∧ Same volume volume'' ∧
          Copied σ' volume'' lba count data [] ok := by
  induction slots generalizing σ volume' wrote with
  | nil => exact ⟨steady_refl inv, volume', found, same, copied⟩
  | cons slot rest ih =>
    unfold mirrorWrite
    rw [ensures_bind, ensures_memberFailed found]
    have later : ∀ slot ∈ rest, slot < volume.count := fun slot mem => bounds slot (List.mem_cons_of_mem _ mem)
    obtain ⟨notMem, nodup'⟩ := List.nodup_cons.mp nodup
    apply ensures_ite
    · intro failed
      apply ih wrote inv found same later nodup'
      apply copied_skip copied
      intro member serves
      rw [serves.working] at failed
      cases failed
    intro working
    cases there : volume.members slot with
    | none =>
      apply ih wrote inv found same later nodup'
      apply copied_skip copied
      intro member serves
      rw [← same.members, serves.member] at there
      cases there
    | some member =>
      have serves : volume'.Serves slot member :=
        ⟨same.count ▸ bounds slot List.mem_cons_self, by simpa using working, same.members ▸ there⟩
      have level' : volume'.level = .mirror := same.level.trans level
      have fits' : lba + count ≤ volume'.sectors := same.sectors ▸ fits
      have here : ∀ offset, lba ≤ offset → offset < lba + count →
          Carries σ.machine index offset member offset := fun offset low high =>
        carries_of_serves found level' (by omega) serves
      have covered : ∀ offset, lba ≤ offset → offset < lba + count → ∀ j sector,
          Carries σ.machine j sector member offset → Moving index lba count j sector := by
        intro offset low high j sector carries
        obtain ⟨rfl, rfl⟩ := carries_unique inv.tabled carries (here offset low high)
        exact ⟨rfl, low, high⟩
      apply ensures_then (memberWrite_true inv lba count data covered)
      rintro ok σ₁ ⟨inv₁, kept₁, has⟩
      have found₁ := (volume_congr kept₁.table index).trans found
      have steady₁ : Steady (Moving index lba count) index (Moving index lba count index) σ σ₁ := by
        refine steady_kept inv inv₁ kept₁ ?_
        rintro sector _ offset still carries ⟨rfl, low, high⟩
        obtain ⟨-, rfl⟩ := carries_unique inv.tabled carries (here offset low high)
        exact still ⟨rfl, low, high⟩
      apply ensures_ite
      · intro fine
        have copied₁ := copied_ok inv found serves copied kept₁ (has fine) notMem
        apply ensures_mono (ih true inv₁ found₁ same later nodup' copied₁)
        rintro ok' σ₂ ⟨steady₂, rest₂⟩
        exact ⟨steady_trans steady₁ steady₂, rest₂⟩
      intro _
      apply ensures_then (markFailed_true slot inv₁ found₁ level')
      intro _ σ₂ marked
      have steady₂ := steady_trans steady₁ (steady_marked marked fun _ moving => moving)
      have copied₂ := copied_failed inv found serves copied kept₁ level' fits' marked
      apply ensures_mono (ih wrote marked.inv marked.table (same_marked same slot) later nodup' copied₂)
      rintro ok' σ₃ ⟨steady₃, rest₃⟩
      exact ⟨steady_trans steady₂ steady₃, rest₃⟩

theorem copied_equal {ok : Bool} (copied : Copied σ volume lba count data [] ok)
    (serves : volume.Serves slot member) (serves' : volume.Serves slot' member')
    (low : lba ≤ sector) (high : sector < lba + count) :
    (σ.machine.disks member).data sector = (σ.machine.disks member').data sector := by
  obtain ⟨k, rfl⟩ := Nat.exists_eq_add_of_le low
  have bound : k < count := by omega
  by_cases apart : slot = slot'
  · subst apart
    cases serves.member.symm.trans serves'.member
    rfl
  rcases copied.done slot member serves List.not_mem_nil with has | alone
  · rcases copied.done slot' member' serves' List.not_mem_nil with has' | alone'
    · rw [has k bound, has' k bound]
    · exact absurd (alone' slot serves.bound serves.working) apart
  · exact absurd (alone slot' serves'.bound serves'.working).symm apart

theorem copied_has {ok : Bool} (copied : Copied σ volume lba count data [] ok) (fine : ok = true)
    (serves : volume.Serves slot member) : Has σ lba count data member := by
  rcases copied.done slot member serves List.not_mem_nil with has | alone
  · exact has
  obtain ⟨slot', _, serves', -, has⟩ := copied.wrote fine
  obtain rfl := alone slot' serves'.bound serves'.working
  cases serves.member.symm.trans serves'.member
  exact has

section
variable (inv : Inv E σ) (found : σ.machine.volume index = some volume) (level : volume.level ≠ .mirror)
include inv found level

theorem locate_home {want k : Nat} (there : volume.members (Raid.locate σ.machine volume lba want).1 = some member)
    (bound : lba + k < volume.sectors) (inside : k < (Raid.locate σ.machine volume lba want).2.2) :
    home σ.machine volume (lba + k) = some (member, (Raid.locate σ.machine volume lba want).2.1 + k) := by
  have shaped := inv.tabled.shaped index volume found
  exact (home_spread shaped level).mpr ⟨bound, _, Proof.Raid.locate_lies (Shaped.spread shaped) level bound inside, there⟩

theorem locate_carries {want offset j sector : Nat}
    (there : volume.members (Raid.locate σ.machine volume lba want).1 = some member)
    (bound : lba + want ≤ volume.sectors) (low : (Raid.locate σ.machine volume lba want).2.1 ≤ offset)
    (high : offset < (Raid.locate σ.machine volume lba want).2.1 + (Raid.locate σ.machine volume lba want).2.2)
    (carries : Carries σ.machine j sector member offset) :
    j = index ∧ lba ≤ sector ∧ sector < lba + (Raid.locate σ.machine volume lba want).2.2 := by
  have short := Proof.Raid.locate_le_want σ.machine volume lba want
  obtain ⟨k, rfl⟩ := Nat.exists_eq_add_of_le low
  have place := @locate_home E σ member volume index lba inv found level want k there (by omega) (by omega)
  obtain ⟨rfl, rfl⟩ := carries_unique inv.tabled carries (carries_of_home inv.tabled found place)
  exact ⟨rfl, by omega, by omega⟩

end

theorem spreadRead_true (turns done : Nat) (buffer : Run) (inv : Inv Quiet σ)
    (found : σ.machine.volume index = some volume) (level : volume.level ≠ .mirror)
    (fits : lba + count ≤ volume.sectors) :
    Ensures (spread env volume lba count .read turns done buffer) σ fun result σ' =>
      Steady Quiet index (fun _ => False) σ σ' ∧ ∀ run, result = some run → (∀ k < done, run k = buffer k) ∧
        ∀ k, done ≤ k → k < count → run k = σ'.sector (.volume index) (lba + k) := by
  have finished : count ≤ done → Steady Quiet index (fun _ => False) σ σ ∧ ∀ run, some buffer = some run →
      (∀ k < done, run k = buffer k) ∧
      ∀ k, done ≤ k → k < count → run k = σ.sector (.volume index) (lba + k) := by
    intro past
    refine ⟨steady_refl inv, fun run eq => ?_⟩
    cases eq
    exact ⟨fun _ _ => rfl, fun k _ _ => by omega⟩
  induction turns generalizing σ done buffer with
  | zero =>
    apply ensures_ite
    · intro _
      trivial
    intro past
    exact finished (by omega)
  | succ turns ih =>
    apply ensures_ite
    · intro past
      exact finished past
    intro _
    simp only [ensures_bind, ensures_get]
    cases there : volume.members (Raid.locate σ.machine volume (lba + done) (count - done)).1 with
    | none => exact ⟨steady_refl inv, fun run none => by cases none⟩
    | some member =>
      simp only [transferRun, ensures_bind]
      apply ensures_mono (memberRead_true inv _ _)
      rintro (_ | piece) σ₁ ⟨steady₁, table₁, data⟩
      · exact ⟨steady₁, fun run none => by cases none⟩
      apply ensures_mono (ih _ _ steady₁.inv (table₁.trans found) ?_)
      · rintro result σ₂ ⟨steady₂, data₂⟩
        refine ⟨steady_trans steady₁ steady₂, fun run some => ?_⟩
        obtain ⟨before, after⟩ := data₂ run some
        refine ⟨fun k _ => ?_, fun k late bound => ?_⟩
        · rw [before k (by omega), Raid.splice, if_neg (by omega)]
        by_cases here : k < done + (Raid.locate σ.machine volume (lba + done) (count - done)).2.2
        · have place := @locate_home Quiet σ member volume index (lba + done) inv found level (count - done)
            (k - done) there (by omega) (by omega)
          rw [before k here, Raid.splice, if_pos ⟨late, here⟩, data piece rfl _ (by omega),
            steady₂.elsewhere _ fun never => never, steady₁.elsewhere _ fun never => never,
            show lba + k = lba + done + (k - done) by omega]
          exact (sector_home found place).symm
        · exact after k (by omega) bound
      · intro past
        refine ⟨steady_refl steady₁.inv, fun run eq => ?_⟩
        cases eq
        exact ⟨fun _ _ => rfl, fun k _ _ => by omega⟩

theorem spreadWrite_true (turns done : Nat) (buffer : Run) (inv : Inv (Moving index lba count) σ)
    (found : σ.machine.volume index = some volume) (level : volume.level ≠ .mirror)
    (fits : lba + count ≤ volume.sectors) :
    Ensures (spread env volume lba count (.write data) turns done buffer) σ fun result σ' =>
      Steady (Moving index lba count) index (Moving index (lba + done) (count - done) index) σ σ' ∧
        σ'.machine.volume index = some volume ∧
        (result.isSome = true → ∀ k, done ≤ k → k < count → σ'.sector (.volume index) (lba + k) = data k) := by
  induction turns generalizing σ done buffer with
  | zero =>
    apply ensures_ite
    · intro _
      trivial
    intro past
    exact ⟨steady_refl inv, found, fun _ k _ _ => by omega⟩
  | succ turns ih =>
    apply ensures_ite
    · intro past
      exact ⟨steady_refl inv, found, fun _ k _ _ => by omega⟩
    intro _
    simp only [ensures_bind, ensures_get]
    cases there : volume.members (Raid.locate σ.machine volume (lba + done) (count - done)).1 with
    | none => exact ⟨steady_refl inv, found, fun some => by cases some⟩
    | some member =>
      have short := Proof.Raid.locate_le_want σ.machine volume (lba + done) (count - done)
      have carried := fun offset j sector => @locate_carries _ σ member volume index (lba + done) inv found level
        (count - done) offset j sector there (by omega)
      simp only [transferRun, ensures_bind]
      apply ensures_mono (memberWrite_true inv _ _ _ ?_)
      · rintro ok σ₁ ⟨inv₁, kept₁, has⟩
        have found₁ := (volume_congr kept₁.table index).trans found
        have steady₁ : Steady (Moving index lba count) index
            (Moving index (lba + done) (count - done) index) σ σ₁ := by
          refine steady_kept inv inv₁ kept₁ ?_
          rintro sector _ offset still carries ⟨rfl, low, high⟩
          obtain ⟨-, above, below⟩ := carried offset index sector low high carries
          exact still ⟨rfl, above, by omega⟩
        apply ensures_ite
        · intro fine
          apply ensures_mono (ih _ _ inv₁ found₁)
          rintro result σ₂ ⟨steady₂, found₂, data₂⟩
          refine ⟨⟨steady₂.inv, fun sector still => ?_, ?_, ?_⟩, found₂, fun some k _ bound => ?_⟩
          · rw [steady₂.elsewhere sector, steady₁.elsewhere sector still]
            rintro ⟨-, low, high⟩
            exact still ⟨rfl, by omega, by omega⟩
          · intro j number run held
            exact steady₁.forgets j number run (steady₂.forgets j number run held)
          · intro j slot member'
            exact (steady₂.fills j slot member').trans (steady₁.fills j slot member')
          by_cases here : k < done + (Raid.locate σ.machine volume (lba + done) (count - done)).2.2
          · have place := @locate_home _ σ member volume index (lba + done) inv found level (count - done)
              (k - done) there (by omega) (by omega)
            have homes := home_congr (usable_congr kept₁.sizes) (inv.tabled.shaped index volume found)
              (lba + done + (k - done))
            rw [steady₂.elsewhere (lba + k) (fun moving => by have := moving.2.1; omega),
              show lba + k = lba + done + (k - done) by omega,
              sector_home found₁ (homes.trans place), has fine (k - done) (by omega)]
            congr 1
            omega
          · exact data₂ some k (by omega) bound
        · intro _
          exact ⟨steady₁, found₁, fun some => by cases some⟩
      · intro offset low high j sector carries
        obtain ⟨rfl, above, below⟩ := carried offset j sector low high carries
        exact ⟨rfl, by omega, by omega⟩

end AerOS.Proof.Block
